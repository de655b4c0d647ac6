import Flay.Soundness.Interpretation

/-! What the passes make of expressions, of the cases of a switch, and of applications, for verdicts and
constants that are true of the execution of a packet. -/

namespace Flay

open Container TableExecutor

/-- The worlds have the same values of the variables. -/
def World.Alike (vars : List StateVariable) (w' w : World) : Prop :=
  ∀ x ∈ vars, w'.env x = w.env x

namespace World.Alike

variable {vars : List StateVariable} {w w' w₁ w₁' : World}

theorem refl (w : World) : w.Alike vars w := fun _ _ => rfl

theorem of_env (h : w'.Alike vars w) (same' : w₁'.env = w'.env) (same : w₁.env = w.env) :
    w₁'.Alike vars w₁ := fun x mem => by rw [same', same, h x mem]

theorem set (h : w'.Alike vars w) {x : StateVariable} {u u' : x.type.Val} (value : u' = u) :
    (w'.set x u').Alike vars (w.set x u) := by
  subst value
  intro y mem
  by_cases same : y = x
  · subst same
    rw [World.env_set_self, World.env_set_self]
  · rw [World.env_set_ne _ _ same, World.env_set_ne _ _ same]
    exact h y mem

end World.Alike

/-- A state whose values are those of a world describes the worlds that are like it. -/
theorem exists_simulates (vars : List StateVariable) (w : World) :
    ∃ i : Interpretation, vars ⊆ i.state.env.keys ∧ ∀ ρ, i.state.Holds ρ ∧
      ∀ w', w'.Alike vars w → Simulates ρ vars i.state w' := by
  have described : ∃ env : SymbolicEnv, ∀ x ∈ vars, env.find x = some (.lit (w.env x)) := by
    induction vars with
    | nil => exact ⟨OrderedMap.empty, fun _ mem => by cases mem⟩
    | cons x vars ih =>
      obtain ⟨env, known⟩ := ih
      refine ⟨env.set x (.lit (w.env x)), fun y mem => ?_⟩
      by_cases same : y = x
      · subst same
        exact OrderedMap.find_set_self env y _
      · rw [OrderedMap.find_set_ne env _ same]
        exact known y ((List.mem_cons.mp mem).resolve_left same)
  obtain ⟨env, known⟩ := described
  refine ⟨⟨⟨env, none, .empty⟩, [], []⟩, fun x mem => ?_, fun ρ => ⟨rfl, ?_⟩⟩
  · exact OrderedMap.mem_keys_of_find (known x mem)
  · intro w' alike x mem
    rw [ExecutionState.value, known x mem, Option.map_some, Expr.eval_lit, alike x mem]

section Runs

variable {ρ : Valuation} {own : Site → Prop} {vars : List StateVariable}

/-- Runs that an interpretation simulates lead from worlds that are alike to worlds that are alike. -/
theorem alike_of_explains (ρ : Valuation) (own : Site → Prop) (run : World → World)
    (explains : ∀ i : Interpretation, vars ⊆ i.state.env.keys → ∃ i' sites truth,
      Explains ρ own vars sites i i' run truth) {w w' : World} (alike : w'.Alike vars w) :
    (run w').Alike vars (run w) := by
  obtain ⟨i, defined, described⟩ := exists_simulates vars w
  obtain ⟨holds, simulates⟩ := described ρ
  obtain ⟨i', sites, truth, explains⟩ := explains i defined
  intro x mem
  have first := explains.values w' holds (simulates w' alike) x mem
  have second := explains.values w holds (simulates w (.refl w)) x mem
  exact Option.some.inj (first.symm.trans second)

theorem alike_applyTable (activates : Activates ρ) {table : P4Table}
    (analyzable : table.Analyzable own vars) {w w' : World} (alike : w'.Alike vars w) :
    ((behavior ρ).handlers.applyTable table w').2.Alike vars
      ((behavior ρ).handlers.applyTable table w).2 := by
  refine alike_of_explains ρ own
    (fun w => ((behavior ρ).handlers.applyTable table w).2) (fun i defined => ?_) alike
  obtain ⟨_, i', _, explains, _⟩ :=
    processTable_explains (fun _ => none) analyzable activates i defined
  exact ⟨i', _, _, explains⟩

theorem alike_run {call : ActionCall} (analyzable : call.Analyzable own vars) {w w' : World}
    (alike : w'.Alike vars w) : (call.run w').Alike vars (call.run w) := by
  refine alike_of_explains (fun _ => default) own call.run (fun i defined => ?_) alike
  obtain ⟨i', _, explains⟩ := callAction_explains analyzable.supported analyzable.apart
    (literalArguments call)
    (by simpa [literalArguments, Function.comp_def] using call.complete) defined
  rw [evalArguments_literalArguments] at explains
  exact ⟨i', _, _, explains⟩

end Runs

section Expressions

open ElimDeadCode

variable {ρ : Valuation} {own : Site → Prop} {vars : List StateVariable} {v : Verdicts} {t : Ty}

/-- What both passes make of an expression. -/
def specialized (v : Verdicts) (e : ProgramExpr P4Table t) : ProgramExpr P4Table t :=
  SubstituteExpressions.expression v.constants (expression v.reachability e)

/-- An expression has in one world the value of another expression in the other world, and leaves a world
that is alike. -/
structure EvalAlike (ρ : Valuation) (vars : List StateVariable) (e' e : ProgramExpr P4Table t)
    (w' w : World) : Prop where
  value : (e'.eval (behavior ρ).handlers w').1 = (e.eval (behavior ρ).handlers w).1
  alike : (e'.eval (behavior ρ).handlers w').2.Alike vars (e.eval (behavior ρ).handlers w).2

theorem EvalAlike.mux {e0 e0' : ProgramExpr P4Table .boolean} {e1 e1' e2 e2' : ProgramExpr P4Table t}
    {w w' : World} (h0 : EvalAlike ρ vars e0' e0 w' w)
    (h1 : (e0.eval (behavior ρ).handlers w).1 = true → EvalAlike ρ vars e1' e1
      (e0'.eval (behavior ρ).handlers w').2 (e0.eval (behavior ρ).handlers w).2)
    (h2 : (e0.eval (behavior ρ).handlers w).1 = false → EvalAlike ρ vars e2' e2
      (e0'.eval (behavior ρ).handlers w').2 (e0.eval (behavior ρ).handlers w).2) :
    EvalAlike ρ vars (.mux e0' e1' e2') (.mux e0 e1 e2) w' w := by
  cases value : (e0.eval (behavior ρ).handlers w).1 with
  | true =>
    have value' := h0.value.trans value
    have taken := h1 value
    constructor
    · simpa [ProgramExpr.eval, value, value'] using taken.value
    · simpa [ProgramExpr.eval, value, value'] using taken.alike
  | false =>
    have value' := h0.value.trans value
    have taken := h2 value
    constructor
    · simpa [ProgramExpr.eval, value, value'] using taken.value
    · simpa [ProgramExpr.eval, value, value'] using taken.alike

theorem evalAlike_lit (value : t.Val) {w w' : World} (alike : w'.Alike vars w) :
    EvalAlike ρ vars (.lit value) (.lit value) w' w := ⟨rfl, alike⟩

/-- A constant is the value that is read. -/
theorem evalAlike_pathExpression (node : Node) (name : String) (mem : (⟨name, t⟩ : StateVariable) ∈ vars)
    {w w' : World} (alike : w'.Alike vars w) (reads : v.Reads node (w.env ⟨name, t⟩)) :
    EvalAlike ρ vars (SubstituteExpressions.pathExpression v.constants node name t)
      (.path node name t) w' w := by
  have path : EvalAlike ρ vars (.path node name t) (.path node name t) w' w := ⟨alike _ mem, alike⟩
  cases t with
  | boolean | string => exact path
  | bits isSigned width =>
    rw [SubstituteExpressions.pathExpression]
    split
    · rename_i constant known
      exact ⟨(reads constant known).symm, alike⟩
    · exact path

/-- A member that a verdict replaces applies a table without an effect, and has the value that the verdict
says. -/
theorem evalAlike_boolLiteral {member : ProgramExpr P4Table .boolean} {node : Node} {table : P4Table}
    {value verdict : Bool} {w w' : World} (alike : w'.Alike vars w)
    (known : v.reachability node = some verdict) (decides : v.Decides node value)
    (harmless : Harmless v.reachability (behavior ρ) (.member node table value))
    (evaluates : (member.eval (behavior ρ).handlers w).1 = value)
    (after : (member.eval (behavior ρ).handlers w).2.env = (behavior ρ).after table w.env) :
    EvalAlike ρ vars (boolLiteral verdict) member w' w := by
  obtain ⟨rfl, none⟩ := noEffect_of_verdict known (fun _ other => (decides _ other).symm) harmless
  exact ⟨evaluates.symm, alike.of_env rfl (after.trans (none w.env))⟩

/-- Both passes keep the value of an expression and what its applications do, where those that are left out
have no effect. -/
theorem evalAlike_specialized (activates : Activates ρ) (e : ProgramExpr P4Table t)
    (analyzable : e.Analyzable own vars) {w w' : World} (alike : w'.Alike vars w)
    (truthful : e.Truthful ρ v w)
    (harmless : ∀ a ∈ e.applications (behavior ρ) w, Harmless v.reachability (behavior ρ) a) :
    EvalAlike ρ vars (specialized v e) e w' w := by
  induction e generalizing w w' with
  | lit value => exact evalAlike_lit value alike
  | path node name t => exact evalAlike_pathExpression node name analyzable alike truthful
  | hit node table | miss node table =>
    have harmless := harmless _ List.mem_cons_self
    cases verdict : v.reachability node with
    | none =>
      simp only [specialized, expression, verdict, Option.map_none, Option.getD_none]
      exact ⟨rfl, alike_applyTable activates analyzable alike⟩
    | some value =>
      simp only [specialized, expression, verdict, Option.map_some, Option.getD_some]
      exact evalAlike_boolLiteral alike verdict truthful harmless rfl rfl
  | actionRun table => exact ⟨rfl, alike_applyTable activates analyzable alike⟩
  | lNot e ih =>
    obtain ⟨value, alike⟩ := ih analyzable alike truthful harmless
    exact ⟨congrArg Bool.not value, alike⟩
  | unary op e ih =>
    obtain ⟨value, alike⟩ := ih analyzable alike truthful harmless
    exact ⟨congrArg op.eval value, alike⟩
  | lAnd left right ihl ihr =>
    obtain ⟨analyzableLeft, analyzableRight, -⟩ := analyzable
    simp only [ProgramExpr.applications, List.mem_append] at harmless
    have hl := ihl analyzableLeft alike truthful.1 fun a mem => harmless a (.inl mem)
    -- The operators that stop early are choices of a literal.
    have choice := hl.mux
      (fun value => ihr analyzableRight hl.alike (truthful.2 value) fun a mem =>
        harmless a (.inr (by simpa [value] using mem)))
      (fun _ => evalAlike_lit (t := .boolean) false hl.alike)
    exact ⟨choice.value, choice.alike⟩
  | lOr left right ihl ihr =>
    obtain ⟨analyzableLeft, analyzableRight, -⟩ := analyzable
    simp only [ProgramExpr.applications, List.mem_append] at harmless
    have hl := ihl analyzableLeft alike truthful.1 fun a mem => harmless a (.inl mem)
    have choice := hl.mux (fun _ => evalAlike_lit (t := .boolean) true hl.alike)
      (fun value => ihr analyzableRight hl.alike (truthful.2 value) fun a mem =>
        harmless a (.inr (by simpa [value] using mem)))
    exact ⟨choice.value, choice.alike⟩
  | equ left right ihl ihr | neq left right ihl ihr | binary op left right ihl ihr =>
    have hl := ihl analyzable.1 alike truthful.1 fun a mem => harmless a (List.mem_append_left _ mem)
    have hr := ihr analyzable.2 hl.alike truthful.2
      fun a mem => harmless a (List.mem_append_right _ mem)
    refine ⟨?_, hr.alike⟩
    simp only [specialized] at hl hr
    simp only [specialized, expression, SubstituteExpressions.expression, ProgramExpr.eval, hl.value,
      hr.value]
  | mux e0 e1 e2 ih0 ih1 ih2 =>
    obtain ⟨analyzable0, ⟨analyzable1, -⟩, analyzable2, -⟩ := analyzable
    obtain ⟨truthful0, truthful1, truthful2⟩ := truthful
    simp only [ProgramExpr.applications, List.mem_append] at harmless
    have h0 := ih0 analyzable0 alike truthful0 fun a mem => harmless a (.inl mem)
    exact h0.mux
      (fun value => ih1 analyzable1 h0.alike (truthful1 value) fun a mem =>
        harmless a (.inr (by simpa [value] using mem)))
      (fun value => ih2 analyzable2 h0.alike (truthful2 value) fun a mem =>
        harmless a (.inr (by simpa [value] using mem)))

end Expressions

/-- The case with another statement in place of the one that it has. -/
def SwitchCase.mapStatement {τ α : Type} (f : List (Statement τ α) → List (Statement τ α))
    (c : SwitchCase τ α) : SwitchCase τ α :=
  .mk c.node c.label (c.statement.map f)

section Cases

variable {τ α : Type} {t : Ty} (f : List (Statement τ α) → List (Statement τ α))

@[simp] theorem SwitchCase.node_mapStatement (c : SwitchCase τ α) :
    (c.mapStatement f).node = c.node := rfl

@[simp] theorem SwitchCase.label_mapStatement (c : SwitchCase τ α) :
    (c.mapStatement f).label = c.label := rfl

@[simp] theorem SwitchCase.statement_mapStatement (c : SwitchCase τ α) :
    (c.mapStatement f).statement = c.statement.map f := rfl

theorem landingBlock_map (cases : List (SwitchCase τ α)) :
    landingBlock (cases.map (SwitchCase.mapStatement f)) = (landingBlock cases).map f := by
  induction cases with
  | nil => rfl
  | cons c cases ih => cases body : c.statement <;> simp [ih, body]

theorem selectBlock_map (v : t.Val) (cases : List (SwitchCase τ α)) :
    selectBlock v (cases.map (SwitchCase.mapStatement f)) = (selectBlock v cases).map f := by
  induction cases with
  | nil => rfl
  | cons c cases ih =>
    have below := landingBlock_map f (c :: cases)
    rw [List.map_cons] at below ⊢
    rw [selectBlock_cons, selectBlock_cons, below, ih, SwitchCase.label_mapStatement]
    split <;> rfl

/-- The block that a switch selects is the statement of one of its cases. -/
theorem exists_of_selectBlock {v : t.Val} {cases : List (SwitchCase τ α)}
    {body : List (Statement τ α)} (selected : selectBlock v cases = some body) :
    ∃ c ∈ cases, c.statement = some body := by
  have landing : ∀ cases : List (SwitchCase τ α), landingBlock cases = some body →
      ∃ c ∈ cases, c.statement = some body := by
    intro cases found
    induction cases with
    | nil => cases found
    | cons c cases ih =>
      rw [landingBlock_cons, Option.or_eq_some_iff] at found
      obtain found | ⟨-, found⟩ := found
      · exact ⟨c, List.mem_cons_self, found⟩
      · obtain ⟨d, mem, found⟩ := ih found
        exact ⟨d, List.mem_cons_of_mem _ mem, found⟩
  induction cases with
  | nil => cases selected
  | cons c cases ih =>
    rw [selectBlock_cons] at selected
    split at selected
    · exact landing _ selected
    · obtain ⟨d, mem, found⟩ := ih selected
      exact ⟨d, List.mem_cons_of_mem _ mem, found⟩

namespace ElimDeadCode

variable {reachability : Node → Option Bool}

theorem dropped_mapStatement (c : SwitchCase τ α) :
    Dropped reachability (c.mapStatement f) ↔ Dropped reachability c := .rfl

theorem clobbering_map (fallen : Bool) (cases : List (SwitchCase τ α)) :
    clobbering reachability fallen (cases.map (SwitchCase.mapStatement f)) =
      (clobbering reachability fallen cases).map f := by
  induction cases generalizing fallen with
  | nil => rfl
  | cons c cases ih =>
    simp only [List.map_cons, clobbering, dropped_mapStatement, ih,
      SwitchCase.statement_mapStatement, Option.isNone_map]
    split
    · cases fallen <;> simp [Option.map_or]
    · rfl

theorem overridden_map (c : SwitchCase τ α) (o : Option (List (Statement τ α))) :
    overridden (c.mapStatement f) (o.map f) = (overridden c o).mapStatement f := by
  cases o <;> rfl

theorem kept_map (cases : List (SwitchCase τ α)) :
    kept reachability (cases.map (SwitchCase.mapStatement f)) =
      (kept reachability cases).map (SwitchCase.mapStatement f) := by
  induction cases with
  | nil => rfl
  | cons c cases ih =>
    simp only [List.map_cons, kept, dropped_mapStatement, ih, SwitchCase.statement_mapStatement,
      SwitchCase.label_mapStatement, SwitchCase.node_mapStatement, Option.isNone_map,
      Option.isSome_map, clobbering_map, overridden_map]
    split
    · rfl
    · split <;> rfl

theorem switchCases_eq_mapStatement (methodCall : τ → Statement τ α)
    (cases : List (SwitchCase τ α)) : switchCases reachability methodCall cases =
      cases.map (SwitchCase.mapStatement (statements reachability methodCall)) := by
  rw [switchCases_eq_map]
  refine List.map_congr_left fun c _ => ?_
  obtain ⟨node, label, body⟩ := c
  cases body <;> rfl

/-- Where the block that the value selects is not disturbed, the filtered switch runs it. -/
theorem selectBlock_kept_of_undisturbed {v : t.Val} {cases : List (SwitchCase τ α)}
    (last : DefaultLast cases) (consistent : Consistent reachability v cases)
    (undisturbed : Undisturbed reachability v cases) :
    selectBlock v (kept reachability cases) = selectBlock v cases := by
  rw [selectBlock_kept last consistent, selectBlock]
  cases selected : selectCase v cases with
  | none => rfl
  | some found =>
    obtain ⟨c, rest⟩ := found
    rw [Option.bind_some, Option.bind_some, remaining]
    split
    · rfl
    · rename_i other
      obtain ⟨named, unsure⟩ := not_or.mp other
      cases taken : clobbering reachability false rest with
      | none => exact Option.none_or
      | some body => exact (undisturbed c rest selected named unsure body taken).symm

end ElimDeadCode

theorem SubstituteExpressions.switchCases_eq_map (constants : Constants) (call : α → α)
    (cases : List (SwitchCase τ α)) : switchCases constants call cases =
      cases.map (SwitchCase.mapStatement (statements constants call)) := by
  induction cases with
  | nil => rfl
  | cons c cases ih =>
    obtain ⟨node, label, body⟩ := c
    rw [switchCases, ih]
    cases body <;> rfl

/-- The labels of a switch have the default one last. -/
theorem SwitchLabels.defaultLast {cases : List (SwitchCase τ α)} (labels : SwitchLabels t cases) :
    ElimDeadCode.DefaultLast cases := by
  induction labels with
  | nil => trivial
  | default => exact ⟨fun _ => rfl, trivial⟩
  | cons constant _ _ ih => exact ⟨fun last => absurd last (ne_default_of_literal constant), ih⟩

end Cases

/-- An action that the loop over the reachability of the actions does not look at does what the declared
default action does, whose parameters are no variables of the program. -/
structure P4Table.Foreseen (ρ : Valuation) (vars : List StateVariable) (table : P4Table) : Prop where
  overlooked : ∀ action, applied ρ table = some action →
    action.defaultOnly = true ∨ action.path = table.defaultAction.path →
      ∀ w, (runListed ρ table action w).Alike vars (table.defaultAction.run w)
  local_parameters : ∀ p ∈ table.defaultAction.action.parameters, p.reference ∉ vars

section Tables

variable {ρ : Valuation} {v : Verdicts} {own : Site → Prop} {vars : List StateVariable}
  {table : P4Table}

/-- The action that a table applies has a true condition. -/
theorem condition_of_applied (distinct :
      (table.actionList.map fun action => action.action.controlPlaneName).Nodup)
    (activates : Activates ρ) {action : ActionListElement} (found : applied ρ table = some action) :
    action ∈ table.actionList ∧ (actionHitCondition table action).eval ρ = true := by
  have selected : selectedFrom table ρ table.actionList = some action :=
    (selectedFrom_eq_applied distinct (table.active activates)).trans found
  have mem := List.mem_filter.mp (List.mem_of_getLast? selected)
  exact ⟨mem.1, (eval_actionHitCondition action).trans mem.2⟩

/-- An action without a body only sets its parameters. -/
theorem alike_run_of_isEmpty {call : ActionCall} (empty : call.action.body.isEmpty = true)
    (apart : ∀ p ∈ call.action.parameters, p.reference ∉ vars) (w : World) :
    (call.run w).Alike vars w := by
  have set : ∀ (arguments : List (Sigma fun p : Parameter => p.type.Val)) (w : World),
      (∀ a ∈ arguments, a.1.reference ∉ vars) → (w.setArguments arguments).Alike vars w := by
    intro arguments w apart
    induction arguments generalizing w with
    | nil => exact .refl w
    | cons a arguments ih =>
      intro x mem
      have other : x ≠ a.1.reference := fun same => apart a List.mem_cons_self (same ▸ mem)
      have rest := ih (w.set a.1.reference a.2) (fun b mem => apart b (List.mem_cons_of_mem _ mem)) x mem
      exact rest.trans (World.env_set_ne w a.2 other)
  have body : call.action.body = [] := List.isEmpty_iff.mp empty
  have ran : call.run w = w.setArguments call.arguments := by
    rw [ActionCall.run, P4Action.run, body]
    rfl
  rw [ran]
  refine set call.arguments w fun a mem => apart a.1 ?_
  rw [← call.complete]
  exact List.mem_map_of_mem mem

/-- In place of an application that goes away, the declared default action runs, or nothing if it has no
body. -/
theorem preorderMethodCall_cases (reachability : Node → Option Bool) (table : P4Table) :
    ElimDeadCode.preorderMethodCall reachability table = .apply table ∨
      ElimDeadCode.preorderMethodCall reachability table = .call table.defaultAction ∨
        ElimDeadCode.preorderMethodCall reachability table = .empty ∧
          table.defaultAction.action.body.isEmpty = true := by
  unfold ElimDeadCode.preorderMethodCall
  split
  · exact .inl rfl
  · split
    · split
      · rename_i empty
        exact .inr (.inr ⟨rfl, empty⟩)
      · exact .inr (.inl rfl)
    · exact .inl rfl

/-- What `ElimDeadCode` makes of an application leaves what the table leaves. -/
theorem alike_preorderMethodCall (activates : Activates ρ) (analyzable : table.Analyzable own vars)
    (foretold : table.Foretold ρ v)
    (foreseen : ElimDeadCode.preorderMethodCall v.reachability table ≠ .apply table →
      table.Foreseen ρ vars) {w w' : World} (alike : w'.Alike vars w) :
    ((ElimDeadCode.preorderMethodCall v.reachability table).exec (behavior ρ).handlers w').Alike vars
      ((behavior ρ).handlers.applyTable table w).2 := by
  have applied := alike_applyTable activates analyzable alike
  by_cases stays : ElimDeadCode.preorderMethodCall v.reachability table = .apply table
  · rw [stays]
    exact applied
  have foreseen := foreseen stays
  have declared : (table.defaultAction.run w').Alike vars
      ((behavior ρ).handlers.applyTable table w').2 := by
    have default : table.defaultAction.Analyzable own vars :=
      ⟨analyzable.default, fun site mem => analyzable.apart site
        (List.mem_append_right _ (List.mem_append_left _ mem))⟩
    have restarted : (table.defaultAction.run w').Alike vars (table.defaultAction.run ⟨w'.env, []⟩) :=
      alike_run default fun _ _ => rfl
    refine fun x mem => (restarted x mem).trans ?_
    show _ = (runApplied ρ table (TableExecutor.applied ρ table) ⟨w'.env, []⟩).env x
    cases found : TableExecutor.applied ρ table with
    | none => rfl
    | some action =>
      obtain ⟨listed, hit⟩ := condition_of_applied analyzable.distinct activates found
      have overlooked : action.defaultOnly = true ∨ action.path = table.defaultAction.path := by
        by_contra seen
        obtain ⟨shown, other⟩ := not_or.mp seen
        have unreachable := unreachable_of_rewritten stays listed (by simpa using shown) other
        have never := foretold action listed false unreachable
        cases hit.symm.trans never
      exact (foreseen.overlooked action found overlooked _ x mem).symm
  obtain kept | called | ⟨gone, empty⟩ := preorderMethodCall_cases v.reachability table
  · exact absurd kept stays
  · rw [called]
    intro x mem
    exact (declared x mem).trans (applied x mem)
  · rw [gone]
    have unchanged := alike_run_of_isEmpty empty foreseen.local_parameters w'
    intro x mem
    exact (unchanged x mem).symm.trans ((declared x mem).trans (applied x mem))

end Tables

end Flay
