import Flay.Soundness.Explanation
import Flay.Specialization.DroppedApplications

/-! What the interpreter records when it applies a table, for the execution in which the tables do what
a valuation of the control-plane variables says. -/

namespace Flay

open Container

/-- Wherever an action is chosen, the table is active. -/
def Activates (ρ : Valuation) : Prop :=
  ∀ tableName, ρ (getTableActionChoice tableName) = noAction ∨
    ρ (getTableActive tableName) = true

namespace P4Table

/-- The nodes of the listed actions. -/
def actionSites (table : P4Table) : List Site :=
  table.actionList.map fun action => .node action.node

/-- The sites that an application visits besides, in its keys and in the bodies of its actions. -/
def innerSites (table : P4Table) : List Site :=
  (table.key.flatMap fun keyField => keyField.expression.visited Empty.elim) ++
    (visitedAll Empty.elim table.defaultAction.action.body ++
      table.actionList.flatMap fun action => visitedAll Empty.elim action.action.body)

/-- The interpreter gets through the table where the variables are known: its keys and its actions read
no others, and visit no site of the program. -/
structure Analyzable (own : Site → Prop) (vars : List StateVariable) (table : P4Table) : Prop where
  distinct : (table.actionList.map fun action => action.action.controlPlaneName).Nodup
  closed : ∀ keyField ∈ table.key, keyField.expression.reads ⊆ vars
  default : table.defaultAction.action.Supported vars
  supported : ∀ action ∈ table.actionList, action.action.Supported vars
  apart : ∀ site ∈ table.innerSites, ¬own site

/-- The verdicts on the listed actions are right. -/
def Foretold (ρ : Valuation) (v : Verdicts) (table : P4Table) : Prop :=
  ∀ action ∈ table.actionList,
    v.Decides action.node ((TableExecutor.actionHitCondition table action).eval ρ)

theorem active {ρ : Valuation} (activates : Activates ρ) (table : P4Table) :
    ∀ action ∈ table.actionList, action.defaultOnly = false →
      ρ (getTableActionChoice table.controlPlaneName) = action.action.controlPlaneName →
        ρ (getTableActive table.controlPlaneName) = true := by
  intro action _ _ chosen
  refine (activates table.controlPlaneName).resolve_left fun none => ?_
  exact action.action.named (chosen.symm.trans none)

end P4Table

/-- The interpreter gets through the body of the called action, which visits no site of the program. -/
structure ActionCall.Analyzable (own : Site → Prop) (vars : List StateVariable) (call : ActionCall) :
    Prop where
  supported : call.action.Supported vars
  apart : ∀ site ∈ visitedAll Empty.elim call.action.body, ¬own site

namespace TableExecutor

/-- The action that a table applies under the valuation. -/
def applied (ρ : Valuation) (table : P4Table) : Option ActionListElement :=
  appliedAction table (ρ (getTableActionChoice table.controlPlaneName))
    (ρ (getDefaultActionVariable table.controlPlaneName))

/-- What the tables do where the control plane gives its variables the values of the valuation. -/
def behavior (ρ : Valuation) : TableBehavior where
  result table _ :=
    ⟨listed table (ρ (getTableActionChoice table.controlPlaneName)),
      ((applied ρ table).map ActionListElement.path).getD table.defaultAction.path⟩
  after table env := (runApplied ρ table (applied ρ table) ⟨env, []⟩).env

variable {ρ : Valuation} {own : Site → Prop} {vars : List StateVariable}

theorem callAction_keeps {kept : Site → Prop} {action : P4Action} {arguments : Arguments}
    (apart : ∀ site ∈ visitedAll Empty.elim action.body, ¬kept site) {i i' : Interpretation}
    (ran : callAction i action arguments = some i') : i.Keeps kept i' := by
  have set : i.Keeps kept (i.resume (setArguments i.state arguments)) :=
    .of_same rfl (nodeAnnotationMap_setArguments i.state arguments)
  exact set.trans (statements_keeps action.body apart ran)

theorem callAction_explains {action : P4Action} (supported : action.Supported vars)
    (apart : ∀ site ∈ visitedAll Empty.elim action.body, ¬own site) (arguments : Arguments)
    (complete : arguments.map Sigma.fst = action.parameters) {i : Interpretation}
    (defined : vars ⊆ i.state.env.keys) :
    ∃ i', callAction i action arguments = some i' ∧
      Explains ρ own vars [] i i' (fun w => action.run (evalArguments ρ arguments) w)
        fun _ _ => True := by
  obtain ⟨i', ran, keys, condition, values⟩ :=
    callAction_simulates supported arguments complete defined
  refine ⟨i', ran, keys, condition, values ρ, fun owner owned _ => ?_⟩
  obtain ⟨owner', keeps⟩ := callAction_keeps apart ran owner owned
  exact ⟨owner', keeps.mono fun _ kept => kept.1, fun _ _ _ _ _ _ _ => trivial⟩

section Options

variable {table : P4Table} {referenceState : ExecutionState}

/-- The loop over the actions records the condition of each. The state ahead of the table has no
mappings that the one that goes on does not have. -/
theorem processActionOptions_records (l : List ActionListElement)
    (apart : ∀ action ∈ l, ∀ site ∈ visitedAll Empty.elim action.action.body, ¬own site)
    {i i' : Interpretation} {actionRun actionRun' : Expr .string}
    (ran : processActionOptions table referenceState l i actionRun = some (i', actionRun'))
    {owner : Nat → Node} (owned : i.Owned owner)
    (ownedReference : (i.resume referenceState).Owned owner)
    (unrecorded : i.Unrecorded own (l.map fun action => .node action.node))
    (earlier : ∀ site, own site → referenceState.mapping site = none ∨
      referenceState.mapping site = i.state.mapping site) :
    ∃ owner', Keeping (fun site => own site ∧ site ∉ l.map fun action => Site.node action.node)
        owner i owner' i' ∧
      ∀ f v, i'.Carries (l.map fun action => .node action.node) f → f.Confirms ρ v →
        i.state.Holds ρ →
          ∀ action ∈ l, v.Decides action.node ((actionHitCondition table action).eval ρ) := by
  induction l generalizing i actionRun owner with
  | nil =>
    cases ran
    exact ⟨owner, .refl owned, fun _ _ _ _ _ _ mem => by cases mem⟩
  | cons action l ih =>
    simp only [processActionOptions, Option.bind_eq_bind, Option.bind_eq_some_iff] at ran
    obtain ⟨a, called, rest⟩ := ran
    have unrecorded' : i.Unrecorded own
        ([.node action.node] ++ l.map fun action => .node action.node) := unrecorded
    have visit : Explains ρ own [] [.node action.node] i
        (i.addReachabilityMapping action.node (actionHitCondition table action)) id
        fun v _ => v.Decides action.node ((actionHitCondition table action).eval ρ) :=
      .addReachabilityMapping action.node fun _ _ _ => rfl
    obtain ⟨owner₁, keeps₁, told⟩ := visit.records owner owned unrecorded'.left
    generalize i.addReachabilityMapping action.node (actionHitCondition table action) = j at *
    have ownedJ : (j.resume referenceState).Owned owner₁ := keeps₁.owned_resume ownedReference
    obtain ⟨owner₂, keepsA⟩ :=
      callAction_keeps (apart action List.mem_cons_self) called owner₁ ownedJ
    have before : ∀ site, own site → referenceState.mapping site = none ∨
        referenceState.mapping site = j.state.mapping site := by
      intro site mine
      by_cases same : site ∈ [Site.node action.node]
      · have new := unrecorded'.left.new site same
        exact .inl ((earlier site mine).elim id fun mapped => mapped.trans new)
      · rw [keeps₁.mapping site ⟨mine, same⟩]
        exact earlier site mine
    -- The state of the action comes from the one ahead of the table.
    have merged : Keeping own owner₁ j owner₂ (a.resume (j.state.merge a.state)) :=
      (keepsA.fork keeps₁.owned).merge keepsA.owned fun site mine => by
        rw [keepsA.mapping site mine]
        exact before site mine
    obtain ⟨owner₃, keeps₃, told'⟩ := ih
      (fun other mem => apart other (List.mem_cons_of_mem _ mem)) rest merged.owned
      (keepsA.owned_resume ownedJ)
      (unrecorded'.right fun site kept =>
        (merged.mapping site kept.1).trans (keeps₁.mapping site kept))
      fun site mine => (merged.mapping site mine).symm ▸ before site mine
    have later : Keeping (fun site => own site ∧ site ∉ l.map fun action => Site.node action.node)
        owner₁ j owner₃ i' := (merged.mono fun site kept => kept.1).trans keeps₃
    refine ⟨owner₃, (keeps₁.mono fun site kept => ?_).trans (later.mono fun site kept => ?_), ?_⟩
    · exact ⟨kept.1, fun mem => kept.2 (List.mem_cons.mpr (.inl (List.mem_singleton.mp mem)))⟩
    · exact ⟨kept.1, fun mem => kept.2 (List.mem_cons_of_mem _ mem)⟩
    · intro f v carries confirms holds other mem
      obtain rfl | mem := List.mem_cons.mp mem
      · have first : j.Carries [.node other.node] f := later.carries keeps₁.owned (fun site mem =>
          ⟨unrecorded'.left.own site mem, fun again => unrecorded'.disjoint mem again⟩) carries
        exact told f v ⟨fun _ => default, []⟩ first confirms holds fun _ mem => by cases mem
      · have condition : j.state.Holds ρ := visit.holds.mpr holds
        exact told' f v (fun site mem => carries site (List.mem_cons_of_mem _ mem)) confirms
          condition other mem

end Options

theorem resolveKeyFields_keeps {kept : Site → Prop} (symbolicValue? : SymbolicValue)
    (key : List KeyElement)
    (apart : ∀ keyField ∈ key, ∀ site ∈ keyField.expression.visited Empty.elim, ¬kept site)
    {i i' : Interpretation} {resolved : List (Sigma fun key : KeyElement => Expr key.type)}
    (ran : resolveKeyFields symbolicValue? key i = some (resolved, i')) : i.Keeps kept i' := by
  induction key generalizing i resolved with
  | nil =>
    cases ran
    exact .refl _
  | cons keyField key ih =>
    have others := fun other mem => apart other (List.mem_cons_of_mem keyField mem)
    rw [resolveKeyFields] at ran
    split at ran
    · exact ih others ran
    · simp only [Option.bind_eq_bind, Option.bind_eq_some_iff] at ran
      obtain ⟨⟨expr, j⟩, computed, ⟨fields, k⟩, later, same⟩ := ran
      cases same
      exact (computeResult_keeps keyField.expression (apart keyField List.mem_cons_self)
        computed).trans (ih others later)

theorem resolveKey_keeps {kept : Site → Prop} (symbolicValue? : SymbolicValue)
    (key : List KeyElement)
    (apart : ∀ keyField ∈ key, ∀ site ∈ keyField.expression.visited Empty.elim, ¬kept site)
    {i i' : Interpretation} {resolved : List (Sigma fun key : KeyElement => Expr key.type)}
    (ran : resolveKey symbolicValue? key i = some (resolved, i')) : i.Keeps kept i' := by
  simp only [resolveKey, Option.bind_eq_bind, Option.bind_eq_some_iff] at ran
  obtain ⟨⟨fields, j⟩, computed, same⟩ := ran
  have keeps := resolveKeyFields_keeps symbolicValue? key apart computed
  split at same
  · cases same
    exact keeps
  · cases same
    exact keeps

/-- The application of a table: its results and the values that it leaves are those of the execution, and
the verdicts on its actions are right. -/
theorem processTable_explains (symbolicValue? : SymbolicValue) {table : P4Table}
    (analyzable : table.Analyzable own vars) (activates : Activates ρ) (i : Interpretation)
    (defined : vars ⊆ i.state.env.keys) :
    ∃ result i', processTable symbolicValue? table i = some (result, i') ∧
      Explains ρ own vars table.actionSites i i'
        (fun w => ((behavior ρ).handlers.applyTable table w).2)
        (fun v _ => table.Foretold ρ v) ∧
      result.hit.eval ρ = listed table (ρ (getTableActionChoice table.controlPlaneName)) ∧
      ∀ w, i.state.Holds ρ → Simulates ρ vars i.state w →
        result.actionRun.eval ρ = ((behavior ρ).handlers.applyTable table w).1.actionRun := by
  have apart := analyzable.apart
  simp only [P4Table.innerSites, List.mem_append, List.mem_flatMap] at apart
  obtain ⟨key, j, resolved, unchanged⟩ :=
    resolveKey_unchanged symbolicValue? table.key analyzable.closed i defined
  have keepsKey : i.Keeps own j := resolveKey_keeps symbolicValue? table.key
    (fun keyField mem site visited => apart site (.inl ⟨keyField, mem, visited⟩)) resolved
  have definedJ : vars ⊆ j.state.env.keys := fun x mem => unchanged.mem_keys.mpr (defined mem)
  have apartDefault := fun site visited => apart site (.inr (.inl visited))
  obtain ⟨d, called, explainsD⟩ := callAction_explains (ρ := ρ) analyzable.default apartDefault
    (literalArguments table.defaultAction)
    (by simpa [literalArguments, Function.comp_def] using table.defaultAction.complete) definedJ
  obtain ⟨i', actionRun, ran, keys, condition, values⟩ :=
    @processActionOptions_simulates table vars j.state definedJ table.actionList
      analyzable.supported d (List.Subset.trans definedJ explainsD.keys)
      (.lit table.defaultAction.path)
  have selected := selectedFrom_eq_applied analyzable.distinct (table.active activates)
  have simulated : ∀ w, i.state.Holds ρ → Simulates ρ vars i.state w →
      Simulates ρ vars i'.state (runApplied ρ table (applied ρ table) w) ∧
        actionRun.eval ρ =
          ((applied ρ table).map ActionListElement.path).getD table.defaultAction.path := by
    intro w holds simulates
    have holdsJ := unchanged.holds.mpr holds
    have simulatesJ := unchanged.of_simulates simulates
    have ranDefault := explainsD.values w holdsJ simulatesJ
    rw [evalArguments_literalArguments] at ranDefault
    obtain ⟨simulated, path⟩ := values ρ w
      (runApplied ρ table (selectedFrom table ρ table.actionList) w) holdsJ simulatesJ
      (fun none => by rw [none]; exact ranDefault) (fun action some => by rw [some]; rfl)
    rw [selected] at simulated path
    exact ⟨simulated, path⟩
  refine ⟨⟨totalHitCondition table, actionRun⟩,
    { i' with tableKeyMatches := i'.tableKeyMatches ++
        [(table.controlPlaneName, computeHitCondition table.controlPlaneName key)] }, ?_, ?_,
    eval_hit (table.active activates), fun w holds simulates => (simulated w holds simulates).2⟩
  · rw [processTable, resolved]
    dsimp only [Option.bind_eq_bind, Option.bind_some]
    rw [processDefaultAction, called]
    dsimp only [Option.bind_some]
    rw [ran]
    rfl
  · refine ⟨?_, ?_, ?_, ?_⟩
    · show i.state.env.keys ⊆ i'.state.env.keys
      rw [keys]
      exact fun x mem => explainsD.keys (unchanged.mem_keys.mpr mem)
    · exact condition.trans (explainsD.condition.trans unchanged.condition)
    · intro w holds simulates
      exact (simulated ⟨w.env, []⟩ holds (simulates.of_env rfl)).1.of_env rfl
    · intro owner owned unrecorded
      obtain ⟨owner₁, keepsJ⟩ := keepsKey owner owned
      obtain ⟨owner₂, keepsD⟩ := callAction_keeps apartDefault called owner₁ keepsJ.owned
      have both := keepsJ.trans keepsD
      obtain ⟨owner₃, keeps, told⟩ := processActionOptions_records (ρ := ρ) table.actionList
        (fun action mem site visited => apart site (.inr (.inr ⟨action, mem, visited⟩))) ran
        both.owned (keepsD.owned_resume keepsJ.owned)
        ⟨unrecorded.nodup, unrecorded.own, fun site mem =>
          (both.mapping site (unrecorded.own site mem)).trans (unrecorded.new site mem)⟩
        (fun site mine => .inr (keepsD.mapping site mine).symm)
      refine ⟨owner₃, (both.mono fun site kept => kept.1).trans (keeps.trans
        (.of_same keeps.owned rfl rfl)), fun f v w carries confirms holds _ => ?_⟩
      exact told f v carries confirms (explainsD.holds.mpr (unchanged.holds.mpr holds))

end TableExecutor

end Flay
