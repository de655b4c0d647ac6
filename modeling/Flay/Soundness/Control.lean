import Flay.Soundness.Switch

/-! The interpreter gets through every control that can be analyzed, and what it records is true of the
execution of a packet. -/

namespace Flay

open Container TableExecutor

section Statements

variable {ρ : Valuation} {own : Site → Prop} {vars : List StateVariable}

/-- The interpretation after the branches of an if statement. -/
theorem Explains.ifStatement {condition : ProgramExpr P4Table .boolean} {node : Node}
    {ifTrue ifFalse : World → World} {trueTruth falseTruth : Verdicts → World → Prop}
    {sites sites' : List Site} {cond : Expr .boolean} {i j t e : Interpretation}
    (defined : vars ⊆ j.state.env.keys)
    (computed : Explains ρ own vars (condition.visited P4Table.actionSites) i j
      (fun w => (condition.eval (behavior ρ).handlers w).2) fun v w => condition.Truthful ρ v w)
    (value : ∀ w, i.state.Holds ρ → Simulates ρ vars i.state w →
      cond.eval ρ = (condition.eval (behavior ρ).handlers w).1)
    (taken : Explains ρ own vars sites ((j.addReachabilityMapping node cond).resume
      ((j.addReachabilityMapping node cond).state.pushExecutionCondition cond)) t ifTrue trueTruth)
    (skipped : Explains ρ own vars sites' (t.resume (j.addReachabilityMapping node cond).state) e
      ifFalse falseTruth) :
    Explains ρ own vars
      (condition.visited P4Table.actionSites ++ (.node node :: (sites ++ sites'))) i
      (e.resume (e.state.merge t.state))
      (fun w =>
        let result := condition.eval (behavior ρ).handlers w
        if result.1 then ifTrue (result.2.emit (.taken node)) else ifFalse result.2)
      fun v w =>
        let result := condition.eval (behavior ρ).handlers w
        (condition.Truthful ρ v w ∧ v.Decides node result.1) ∧
          if result.1 then trueTruth v (result.2.emit (.taken node)) else falseTruth v result.2 := by
  let mark : World → World := fun w => if cond.eval ρ then w.emit (.taken node) else w
  have mapped : Explains ρ own vars [.node node] j (j.addReachabilityMapping node cond) mark
      fun v _ => v.Decides node (cond.eval ρ) :=
    (Explains.addReachabilityMapping node fun _ _ _ => rfl).imp (fun w _ _ => env_ite_emit _ w _)
      fun _ _ _ _ truth => truth
  have branches : Explains ρ own vars (sites ++ sites') (j.addReachabilityMapping node cond)
      (e.resume (e.state.merge t.state))
      (fun w => if cond.eval ρ then ifTrue w else ifFalse w)
      fun v w => if cond.eval ρ then trueTruth v w else falseTruth v w :=
    .branch defined (fun _ _ _ => rfl) taken skipped
  have run := computed.trans (mapped.trans branches)
  refine run.imp (fun w holds simulates => ?_) fun v w holds simulates truth => ?_
  · dsimp only [mark]
    rw [value w holds simulates]
    split <;> rfl
  · obtain ⟨truth, decides, branch⟩ := truth
    dsimp only [mark] at branch ⊢
    rw [value w holds simulates] at decides branch
    refine ⟨⟨truth, decides⟩, ?_⟩
    split <;> simp_all

/-- Every table is active. -/
def allActive : Valuation := fun x =>
  match x.type with
  | .boolean => true
  | _ => default

theorem activates_allActive : Activates allActive := fun _ => .inr rfl

variable (symbolicValue? : SymbolicValue)

open FlayStepper ExpressionResolver

mutual

theorem statement_explains (activates : Activates ρ) : (s : Statement P4Table ActionCall) →
    s.Analyzable own vars → (i : Interpretation) → vars ⊆ i.state.env.keys →
      ∃ i', statement (handlers symbolicValue?) s i = some i' ∧
        Explains ρ own vars (s.visited P4Table.actionSites) i i' (s.exec (behavior ρ).handlers)
          fun v w => s.Truthful ρ v w
  | .empty, _, i, _ => ⟨i, rfl, .refl i⟩
  | .assignment left right, analyzable, i, defined => by
    obtain ⟨r, j, computed, explains, value⟩ :=
      computeResult_explains symbolicValue? right analyzable activates i defined
    refine ⟨_, by rw [statement, computed]; rfl, ?_⟩
    have stored : Explains ρ own vars [] j (j.resume (j.state.set ⟨left, _⟩ r))
        (fun w => w.set ⟨left, _⟩ (r.eval ρ)) fun _ _ => True := .set fun _ _ _ => rfl
    have run := explains.trans stored
    rw [List.append_nil] at run
    refine run.imp (fun w holds simulates => ?_) fun _ _ _ _ truth => truth.1
    rw [value w holds simulates]
    rfl
  | .declaration _ _, analyzable, _, _ => analyzable.elim
  | .block components, analyzable, i, defined => statements_explains activates components analyzable i defined
  | .ifStatement node condition ifTrue ifFalse, analyzable, i, defined => by
    obtain ⟨analyzable, analyzableTrue, analyzableFalse⟩ := analyzable
    obtain ⟨cond, j, computed, explains, value⟩ :=
      computeResult_explains symbolicValue? condition analyzable activates i defined
    have definedJ : vars ⊆ j.state.env.keys := List.Subset.trans defined explains.keys
    obtain ⟨t, ranTrue, explainsTrue⟩ := statement_explains activates ifTrue analyzableTrue
      ((j.addReachabilityMapping node cond).resume
        ((j.addReachabilityMapping node cond).state.pushExecutionCondition cond)) definedJ
    obtain ⟨e, ranFalse, explainsFalse⟩ :=
      optionalStatement_explains activates ifFalse analyzableFalse
        (t.resume (j.addReachabilityMapping node cond).state) definedJ
    refine ⟨e.resume (e.state.merge t.state), ?_, ?_⟩
    · rw [statement, computed]
      simp [ranTrue, ranFalse]
    · exact Explains.ifStatement definedJ explains value explainsTrue explainsFalse
  | .switchStatement expression cases, analyzable, i, defined => by
    obtain ⟨analyzable, labels, analyzableCases⟩ := analyzable
    obtain ⟨switchExpr, j, computed, explains, value⟩ :=
      computeResult_explains symbolicValue? expression analyzable activates i defined
    have definedJ : vars ⊆ j.state.env.keys := List.Subset.trans defined explains.keys
    obtain ⟨k, states, ranCases, loop⟩ :=
      switchCases_explains activates cases analyzableCases labels switchExpr none j definedJ
    obtain ⟨d, ranDefault, default⟩ :=
      defaultCase_explains activates cases analyzableCases labels k (loop.env ▸ definedJ)
    refine ⟨d.resume (states.foldl ExecutionState.merge d.state), ?_, ?_⟩
    · rw [statement, computed]
      simp [ranCases, ranDefault]
    · have run := explains.trans (Explains.switch labels definedJ loop default)
      refine run.imp (fun w holds simulates => ?_) fun v w holds simulates truth => ?_
      · rw [value w holds simulates]
        rfl
      · rw [value w holds simulates] at truth
        exact ⟨⟨truth.1, truth.2.1⟩, truth.2.2⟩
  | .apply table, analyzable, i, defined => by
    obtain ⟨result, i', applied, explains, -⟩ :=
      processTable_explains symbolicValue? analyzable activates i defined
    exact ⟨i', by simp [statement, handlers, applied], explains⟩
  | .call call, analyzable, i, defined => by
    obtain ⟨i', called, explains⟩ := callAction_explains (ρ := ρ) analyzable.supported
      analyzable.apart (literalArguments call)
      (by simpa [literalArguments, Function.comp_def] using call.complete) defined
    rw [evalArguments_literalArguments] at explains
    exact ⟨i', called, explains⟩

theorem statements_explains (activates : Activates ρ) : (l : List (Statement P4Table ActionCall)) →
    AnalyzableAll own vars l → (i : Interpretation) → vars ⊆ i.state.env.keys →
      ∃ i', statements (handlers symbolicValue?) l i = some i' ∧
        Explains ρ own vars (visitedAll P4Table.actionSites l) i i'
          (fun w => execAll (behavior ρ).handlers l w) fun v w => TruthfulAll ρ v l w
  | [], _, i, _ => ⟨i, rfl, .refl i⟩
  | s :: l, analyzable, i, defined => by
    obtain ⟨j, ran, explains⟩ := statement_explains activates s analyzable.1 i defined
    obtain ⟨k, ran', explains'⟩ := statements_explains activates l analyzable.2 j
      (List.Subset.trans defined explains.keys)
    exact ⟨k, by rw [statements, ran]; exact ran', explains.trans explains'⟩

theorem optionalStatement_explains (activates : Activates ρ) :
    (s : Option (Statement P4Table ActionCall)) → AnalyzableOption own vars s →
      (i : Interpretation) → vars ⊆ i.state.env.keys →
        ∃ i', optionalStatement (handlers symbolicValue?) s i = some i' ∧
          Explains ρ own vars (visitedOption P4Table.actionSites s) i i'
            (fun w => execOption (behavior ρ).handlers s w) fun v w =>
            ThroughoutOption (behavior ρ).handlers (Statement.Foretold ρ v) s w
  | none, _, i, _ => ⟨i, rfl, .refl i⟩
  | some s, analyzable, i, defined => statement_explains activates s analyzable i defined

theorem switchCases_explains (activates : Activates ρ) {t : Ty} :
    (cases : List (SwitchCase P4Table ActionCall)) → AnalyzableCases own vars cases →
      SwitchLabels t cases → (switchExpr : Expr t) → (cond : Option (Expr .boolean)) →
        (i : Interpretation) → vars ⊆ i.state.env.keys →
          ∃ i' states,
            switchCases (handlers symbolicValue?) switchExpr cond cases i = some (i', states) ∧
            CasesExplain ρ own vars switchExpr cond cases i i' states
  | [], _, _, _, _, i, _ => ⟨i, [], rfl, .done (fun _ _ => rfl) (fun _ mem => by cases mem) i⟩
  | .mk node label body :: cases, analyzable, labels, switchExpr, cond, i, defined => by
    have explainsBody := body_explains activates body analyzable.1
    have explainsCases := switchCases_explains activates (t := t) cases analyzable.2
    cases constant : label.literal t with
    | none =>
      obtain ⟨rfl, -, rfl⟩ := labels.of_none constant
      refine ⟨i, [], by rw [switchCases, if_pos rfl], .done (fun _ _ => ?_) (fun c mem u => ?_) i⟩
      · rw [caseBlock, if_pos rfl]
      · obtain rfl := List.mem_singleton.mp mem
        exact fun known => ne_default_of_literal known rfl
    | some u =>
      have named := ne_default_of_literal constant
      obtain ⟨rest, distinct⟩ := labels.of_constant constant
      cases body with
      | none =>
        obtain ⟨i', states, ran, loop⟩ := explainsCases rest switchExpr
          (some (labelCondition switchExpr cond u))
          (i.addReachabilityMapping node (.equ switchExpr (.lit u))) defined
        refine ⟨i', states, ?_, loop.fallThrough constant distinct⟩
        simp only [switchCases, if_neg named, constant, caseBody]
        exact ran
      | some body =>
        obtain ⟨c, ranBody, explains⟩ := explainsBody
          ((i.addReachabilityMapping node (.equ switchExpr (.lit u))).resume
            ((i.addReachabilityMapping node
              (.equ switchExpr (.lit u))).state.pushExecutionCondition
                (SimplifyExpression.simplify (labelCondition switchExpr cond u)))) defined body rfl
        obtain ⟨i', states, ran, loop⟩ := explainsCases rest switchExpr none
          (c.resume (i.addReachabilityMapping node (.equ switchExpr (.lit u))).state) defined
        refine ⟨i', c.state :: states, ?_, loop.block constant labels defined explains⟩
        simp only [switchCases, if_neg named, constant, caseBody]
        rw [labelCondition] at ranBody
        simp [ranBody, ran]

theorem defaultCase_explains (activates : Activates ρ) {t : Ty} :
    (cases : List (SwitchCase P4Table ActionCall)) → AnalyzableCases own vars cases →
      SwitchLabels t cases → (i : Interpretation) → vars ⊆ i.state.env.keys →
        ∃ i', defaultCase (handlers symbolicValue?) cases i = some i' ∧
          Explains ρ own vars (defaultSites P4Table.actionSites cases) i i'
            (execBlock (behavior ρ).handlers (defaultBlock cases))
            fun v w => ∀ body, defaultBlock cases = some body → TruthfulAll ρ v body w
  | [], _, _, i, _ => by
    refine ⟨i, rfl, (Explains.refl i).imp (fun _ _ _ => rfl) fun _ _ _ _ _ body missing => ?_⟩
    cases missing
  | .mk node label body :: cases, analyzable, labels, i, defined => by
    have explainsBody := body_explains activates body analyzable.1
    have explainsCases := defaultCase_explains activates (t := t) cases analyzable.2
    cases constant : label.literal t with
    | none =>
      obtain ⟨rfl, given, rfl⟩ := labels.of_none constant
      obtain ⟨block, rfl⟩ := Option.isSome_iff_exists.mp given
      obtain ⟨i', ran, explains⟩ := explainsBody i defined block rfl
      exact ⟨i', by rw [defaultCase, if_pos rfl]; exact ran, explains.default node⟩
    | some u =>
      have named := ne_default_of_literal constant
      obtain ⟨i', ran, explains⟩ := explainsCases (labels.of_constant constant).1 i defined
      refine ⟨i', by rw [defaultCase, if_neg named]; exact ran, ?_⟩
      rw [defaultSites, if_neg named, defaultBlock, if_neg named]
      exact explains

theorem body_explains (activates : Activates ρ) :
    (body : Option (List (Statement P4Table ActionCall))) → AnalyzableBody own vars body →
      (i : Interpretation) → vars ⊆ i.state.env.keys → ∀ l, body = some l →
        ∃ i', statements (handlers symbolicValue?) l i = some i' ∧
          Explains ρ own vars (visitedAll P4Table.actionSites l) i i'
            (fun w => execAll (behavior ρ).handlers l w) fun v w => TruthfulAll ρ v l w
  | none, _, _, _, _, missing => by cases missing
  | some body, analyzable, i, defined, _, rfl =>
    statements_explains activates body analyzable i defined

end

/-- The whole run of the interpreter, from a state that has no mappings yet. -/
theorem statement_explains_of_start (activates : Activates ρ) {s : ControlStatement}
    {i : Interpretation} (start : ∀ site, i.state.mapping site = none)
    (distinct : (s.visited P4Table.actionSites).Nodup)
    (analyzable : s.Analyzable (fun site => site ∈ s.visited P4Table.actionSites) vars)
    (defined : vars ⊆ i.state.env.keys) :
    ∃ i', statement (handlers symbolicValue?) s i = some i' ∧
      ∀ w, i.state.Holds ρ → Simulates ρ vars i.state w →
        Simulates ρ vars i'.state (s.exec (behavior ρ).handlers w) ∧
          ∀ v, i'.Confirms ρ v → s.Truthful ρ v w := by
  obtain ⟨i', ran, explains⟩ := statement_explains symbolicValue? activates s analyzable i defined
  refine ⟨i', ran, fun w holds simulates => ⟨explains.values w holds simulates, fun v confirms => ?_⟩⟩
  have owned : i.Owned fun _ => 0 := fun node a mapped => by
    have new : i.state.address node = none := by simpa [ExecutionState.mapping] using start (.node node)
    cases mapped.symm.trans new
  obtain ⟨-, -, told⟩ := explains.records _ owned ⟨distinct, fun _ mem => mem, fun _ _ => start _⟩
  exact told i' v w (fun _ _ _ recorded => recorded) confirms holds simulates

/-- The interpreter gets through every control that can be analyzed, with the tables that it applies. For
every packet that the state describes under a valuation, it leaves the values that the execution leaves,
and verdicts and constants that its record confirms are true of all that the execution reaches. -/
theorem FlayStepper.explains (s : ControlStatement) (i : Interpretation)
    (start : ∀ site, i.state.mapping site = none)
    (distinct : (s.visited P4Table.actionSites).Nodup)
    (analyzable : s.Analyzable (fun site => site ∈ s.visited P4Table.actionSites) i.state.env.keys) :
    ∃ i', statement (handlers symbolicValue?) s i = some i' ∧
      ∀ ρ w, Activates ρ → i.state.Holds ρ →
        (∀ x ∈ i.state.env.keys, i.state.value ρ x = some (w.env x)) →
        (∀ x ∈ i.state.env.keys,
          i'.state.value ρ x = some ((s.exec (behavior ρ).handlers w).env x)) ∧
        ∀ v, i'.Confirms ρ v → s.Truthful ρ v w := by
  obtain ⟨i', ran, -⟩ := statement_explains_of_start symbolicValue? activates_allActive start distinct
    analyzable (List.Subset.refl _)
  refine ⟨i', ran, fun ρ w activates holds values => ?_⟩
  obtain ⟨i'', ran', explained⟩ := statement_explains_of_start symbolicValue? activates start distinct
    analyzable (List.Subset.refl _)
  obtain rfl : i' = i'' := Option.some.inj (ran.symm.trans ran')
  exact explained w holds values

end Statements

section Examples

/-- A control that stores a number where its table has an entry for the packet. -/
def storeControl : ControlStatement :=
  .ifStatement 20 (.hit 21 storeTable)
    (.assignment (t := .bit 8) "field" (.path 22 "field" (.bit 8))) none

theorem analyzable_storeTable :
    storeTable.Analyzable (fun site => site ∈ storeControl.visited P4Table.actionSites)
      fieldState.state.env.keys where
  distinct := by decide
  closed := by simp [storeTable, fieldState, ProgramExpr.reads]
  default := by
    simp [P4Action.Supported, storeTable, storeZero, storeAction, SupportedAll, Statement.Supported,
      ProgramExpr.reads, Parameter.reference]
  supported := by
    simp [P4Action.Supported, storeTable, storeAction, SupportedAll, Statement.Supported,
      ProgramExpr.reads, Parameter.reference]
  apart := by decide

theorem FlayStepper.explains_storeControl :
    ∃ i', statement (handlers literalValue) storeControl fieldState = some i' ∧
      ∀ ρ w, Activates ρ → fieldState.state.Holds ρ →
        (∀ x ∈ fieldState.state.env.keys, fieldState.state.value ρ x = some (w.env x)) →
        (∀ x ∈ fieldState.state.env.keys,
          i'.state.value ρ x = some ((storeControl.exec (behavior ρ).handlers w).env x)) ∧
        ∀ v, i'.Confirms ρ v → storeControl.Truthful ρ v w := by
  refine FlayStepper.explains literalValue storeControl fieldState (fun site => ?_) (by decide) ?_
  · cases site <;> rfl
  · have known : (⟨"field", .bit 8⟩ : StateVariable) ∈ fieldState.state.env.keys := by decide
    exact ⟨analyzable_storeTable, known, trivial⟩

end Examples

end Flay
