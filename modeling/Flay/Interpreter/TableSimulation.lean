import Flay.Interpreter.Control
import Flay.Interpreter.TableExecutor

/-! The symbolic application of a table simulates the run of one action: the chosen one, the one that
the control plane has made the default, or the declared default one. -/

namespace Flay

open Container

section Arguments

variable {vars : List StateVariable} {ρ : Valuation} {s : ExecutionState} {w : World}

theorem Simulates.cons_set (h : Simulates ρ vars s w) (x : StateVariable) (value : Expr x.type)
    {v : x.type.Val} (evaluated : value.eval ρ = v) :
    Simulates ρ (x :: vars) (s.set x value) (w.set x v) := by
  intro y mem
  by_cases same : y = x
  · subst same
    simp [ExecutionState.set, ExecutionState.value, OrderedMap.find_set_self, evaluated]
  · have known := (List.mem_cons.mp mem).resolve_left same
    exact (h.set evaluated) y known

namespace TableExecutor

/-- The arguments under the valuation. -/
def evalArguments (ρ : Valuation) (arguments : Arguments) : List (Sigma fun p : Parameter => p.type.Val) :=
  arguments.map fun a => ⟨a.1, a.2.eval ρ⟩

/-- Setting the parameters, whose variables then have the values of the arguments. -/
theorem simulates_setArguments (arguments : Arguments) (h : Simulates ρ vars s w) :
    Simulates ρ (vars ++ arguments.map fun a => a.1.reference) (setArguments s arguments)
      (w.setArguments (evalArguments ρ arguments)) := by
  induction arguments generalizing vars s w with
  | nil => simpa [setArguments, World.setArguments, evalArguments] using h
  | cons a arguments ih =>
    have step := ih (h.cons_set a.1.reference a.2 rfl)
    intro x mem
    refine step x ?_
    simp only [List.map_cons, List.mem_append, List.mem_cons] at mem ⊢
    tauto

theorem keys_setArguments (s : ExecutionState) (arguments : Arguments) :
    s.env.keys ⊆ (setArguments s arguments).env.keys ∧
      (arguments.map fun a => a.1.reference) ⊆ (setArguments s arguments).env.keys := by
  induction arguments generalizing s with
  | nil => exact ⟨List.Subset.refl _, List.nil_subset _⟩
  | cons a arguments ih =>
    obtain ⟨kept, set⟩ := ih (s.set a.1.reference a.2)
    refine ⟨fun x mem => kept (OrderedMap.mem_keys_set.mpr (.inl mem)), fun x mem => ?_⟩
    obtain rfl | mem := List.mem_cons.mp mem
    · exact kept (OrderedMap.mem_keys_set.mpr (.inr rfl))
    · exact set mem

theorem executionCondition_setArguments (s : ExecutionState) (arguments : Arguments) :
    (setArguments s arguments).executionCondition = s.executionCondition := by
  induction arguments generalizing s with
  | nil => rfl
  | cons a arguments ih => exact ih _

theorem nodeAnnotationMap_setArguments (s : ExecutionState) (arguments : Arguments) :
    (setArguments s arguments).nodeAnnotationMap = s.nodeAnnotationMap := by
  induction arguments generalizing s with
  | nil => rfl
  | cons a arguments ih => exact ih _

end TableExecutor

/-- The body of the action is supported where the variables and its parameters are known. -/
def P4Action.Supported (vars : List StateVariable) (action : P4Action) : Prop :=
  SupportedAll (vars ++ action.parameters.map Parameter.reference) action.body

open TableExecutor

/-- A call of an action simulates its run with the values of the arguments. -/
theorem TableExecutor.callAction_simulates {action : P4Action} (supported : action.Supported vars)
    (arguments : Arguments) (complete : arguments.map Sigma.fst = action.parameters)
    {i : Interpretation} (defined : vars ⊆ i.state.env.keys) :
    ∃ i', callAction i action arguments = some i' ∧
      i.state.env.keys ⊆ i'.state.env.keys ∧
      i'.state.executionCondition = i.state.executionCondition ∧
      ∀ ρ w, i.state.Holds ρ → Simulates ρ vars i.state w →
        Simulates ρ vars i'.state (action.run (evalArguments ρ arguments) w) := by
  have parameters : (arguments.map fun a => a.1.reference) =
      action.parameters.map Parameter.reference := by
    rw [← complete, List.map_map]
    rfl
  obtain ⟨kept, set⟩ := keys_setArguments i.state arguments
  have condition := executionCondition_setArguments i.state arguments
  have defined' : vars ++ action.parameters.map Parameter.reference ⊆
      (i.resume (setArguments i.state arguments)).state.env.keys :=
    List.append_subset.mpr ⟨List.Subset.trans defined kept, parameters ▸ set⟩
  obtain ⟨i', ran, steps⟩ := statements_steps action.body supported
    (i.resume (setArguments i.state arguments)) defined'
  refine ⟨i', ran, List.Subset.trans kept steps.simulation.keys,
    steps.simulation.condition.trans condition, fun ρ w holds simulates x mem => ?_⟩
  have holds' : (setArguments i.state arguments).Holds ρ :=
    (ExecutionState.holds_congr condition).mpr holds
  have started := simulates_setArguments arguments simulates
  rw [parameters] at started
  exact steps.simulation.values ρ _ holds' started x (List.mem_append_left _ mem)

end Arguments

namespace TableExecutor

/-- The value that the control plane gives to a parameter. -/
def controlPlaneValue (ρ : Valuation) (tableName actionName : String) : (p : Parameter) → p.type.Val
  | ⟨_, controlPlaneName, .boolean⟩ =>
    decide (ρ (getTableActionArgument tableName actionName controlPlaneName (.bit 1)) = (1 : BitVec 1))
  | ⟨_, controlPlaneName, .bits s w⟩ =>
    ρ (getTableActionArgument tableName actionName controlPlaneName (.bits s w))
  | ⟨_, controlPlaneName, .string⟩ =>
    ρ (getTableActionArgument tableName actionName controlPlaneName .string)

/-- The action with the arguments that the control plane gives it. -/
def runListed (ρ : Valuation) (table : P4Table) (action : ActionListElement) (w : World) : World :=
  action.action.run (action.action.parameters.map fun p =>
    ⟨p, controlPlaneValue ρ table.controlPlaneName action.action.controlPlaneName p⟩) w

/-- The action that the table applies: the chosen one, if it is listed and may be chosen, or else the
one that the control plane has made the default, if it is listed and may be one. -/
def appliedAction (table : P4Table) (choice defaultAction : String) : Option ActionListElement :=
  (table.actionList.find? fun action =>
      !action.defaultOnly && choice == action.action.controlPlaneName).or
    (table.actionList.find? fun action =>
      !action.tableOnly && defaultAction == action.action.controlPlaneName)

/-- The run of the applied action, or else of the declared default one. -/
def runApplied (ρ : Valuation) (table : P4Table) (applied : Option ActionListElement) (w : World) :
    World :=
  match applied with
  | some action => runListed ρ table action w
  | none => table.defaultAction.run w

variable {table : P4Table} {ρ : Valuation}

theorem eval_actionArgument (tableName actionName : String) (p : Parameter) :
    (actionArgument tableName actionName p).eval ρ = controlPlaneValue ρ tableName actionName p := by
  obtain ⟨name, controlPlaneName, type⟩ := p
  cases type <;> simp [actionArgument, controlPlaneValue, SymbolicVariable.expr]

theorem evalArguments_createActionCallArguments (tableName actionName : String)
    (parameters : List Parameter) :
    evalArguments ρ (createActionCallArguments tableName actionName parameters) =
      parameters.map fun p => ⟨p, controlPlaneValue ρ tableName actionName p⟩ := by
  simp [evalArguments, createActionCallArguments, eval_actionArgument]

theorem evalArguments_literalArguments (call : ActionCall) :
    evalArguments ρ (literalArguments call) = call.arguments := by
  simp [evalArguments, literalArguments, Function.comp_def]

/-- The action of a list that takes effect. -/
def selectedFrom (table : P4Table) (ρ : Valuation) (l : List ActionListElement) :
    Option ActionListElement :=
  (l.filter (selects table (ρ (getTableActive table.controlPlaneName))
    (ρ (getTableActionChoice table.controlPlaneName))
    (ρ (getDefaultActionVariable table.controlPlaneName)))).getLast?

theorem selectedFrom_cons (action : ActionListElement) (l : List ActionListElement) :
    selectedFrom table ρ (action :: l) =
      (selectedFrom table ρ l).or
        (if (actionHitCondition table action).eval ρ then some action else none) := by
  rw [eval_actionHitCondition, selectedFrom, selectedFrom, List.filter_cons]
  split
  · rw [List.getLast?_cons]
    cases (l.filter _).getLast? <;> rfl
  · exact (Option.or_none).symm

variable {vars : List StateVariable}

/-- The loop over the actions leaves the values of the last one that takes effect, or else those that
are there. -/
theorem processActionOptions_simulates {referenceState : ExecutionState}
    (definedReference : vars ⊆ referenceState.env.keys) (l : List ActionListElement)
    (supported : ∀ action ∈ l, action.action.Supported vars) (i : Interpretation)
    (defined : vars ⊆ i.state.env.keys) (actionRun : Expr .string) :
    ∃ i' actionRun', processActionOptions table referenceState l i actionRun = some (i', actionRun') ∧
      i'.state.env.keys = i.state.env.keys ∧
      i'.state.executionCondition = i.state.executionCondition ∧
      ∀ ρ w w', referenceState.Holds ρ → Simulates ρ vars referenceState w →
        (selectedFrom table ρ l = none → Simulates ρ vars i.state w') →
        (∀ action, selectedFrom table ρ l = some action → w' = runListed ρ table action w) →
        Simulates ρ vars i'.state w' ∧
          actionRun'.eval ρ =
            ((selectedFrom table ρ l).map ActionListElement.path).getD (actionRun.eval ρ) := by
  induction l generalizing i actionRun with
  | nil =>
    exact ⟨i, actionRun, rfl, rfl, rfl, fun _ _ _ _ _ stays _ => ⟨stays rfl, rfl⟩⟩
  | cons action l ih =>
    let condition := actionHitCondition table action
    obtain ⟨a, called, keysA, conditionA, valuesA⟩ :=
      callAction_simulates (supported action List.mem_cons_self)
        (createActionCallArguments table.controlPlaneName
          action.action.controlPlaneName action.action.parameters)
        (by simp [createActionCallArguments, Function.comp_def])
        (i := (i.addReachabilityMapping action.node condition).resume
          (referenceState.pushExecutionCondition condition)) definedReference
    have definedA : vars ⊆ a.state.env.keys := List.Subset.trans definedReference keysA
    have definedM : vars ⊆ (i.state.merge a.state).env.keys := by rwa [ExecutionState.keys_merge]
    obtain ⟨i', actionRun', ran, keys, kept, values⟩ :=
      ih (fun other mem => supported other (List.mem_cons_of_mem _ mem))
        (a.resume ((i.addReachabilityMapping action.node condition).state.merge a.state)) definedM
        (SimplifyExpression.produceSimplifiedMux condition (.lit action.path) actionRun)
    refine ⟨i', actionRun', ?_, keys.trans (ExecutionState.keys_merge _ _), kept, ?_⟩
    · rw [processActionOptions]
      simp only [Option.bind_eq_bind]
      rw [called]
      exact ran
    · intro ρ w w' holds simulates stays runs
      have selected : selectedFrom table ρ (action :: l) = _ := selectedFrom_cons action l
      have holdsA : a.state.Holds ρ ↔ condition.eval ρ = true := by
        rw [ExecutionState.holds_congr conditionA]
        exact ExecutionState.holds_push.trans (and_iff_right holds)
      have path : (SimplifyExpression.produceSimplifiedMux condition (.lit action.path)
          actionRun).eval ρ = if condition.eval ρ then action.path else actionRun.eval ρ := by
        simp
      cases taken : condition.eval ρ with
      | true =>
        rw [show (actionHitCondition table action).eval ρ = true from taken, if_pos rfl] at selected
        have ranA := valuesA ρ w (ExecutionState.holds_push.mpr ⟨holds, taken⟩) simulates
        rw [evalArguments_createActionCallArguments] at ranA
        obtain ⟨simulated, runPath⟩ := values ρ w w' holds simulates
          (fun later => by
            rw [later, Option.none_or] at selected
            rw [runs action selected]
            exact ranA.merge_of_true defined (holdsA.mpr taken))
          (fun other later => runs other (by rw [selected, later, Option.some_or]))
        refine ⟨simulated, ?_⟩
        rw [runPath, selected, path, taken, if_pos rfl]
        cases selectedFrom table ρ l <;> rfl
      | false =>
        rw [show (actionHitCondition table action).eval ρ = false from taken,
          if_neg Bool.false_ne_true, Option.or_none] at selected
        have fails : a.state.getExecutionCondition.eval ρ = false :=
          Bool.eq_false_iff.mpr fun h => by simp [holdsA.mp h] at taken
        obtain ⟨simulated, runPath⟩ := values ρ w w' holds simulates
          (fun later => (stays (selected.trans later)).merge_of_false definedA fails)
          (fun other later => runs other (selected.trans later))
        refine ⟨simulated, ?_⟩
        rw [runPath, selected, path, taken, if_neg Bool.false_ne_true]

/-- Fields of a key are resolved without a change of the values. -/
theorem resolveKeyFields_unchanged (symbolicValue? : SymbolicValue) (key : List KeyElement)
    (closed : ∀ keyField ∈ key, keyField.expression.reads ⊆ vars) (i : Interpretation)
    (defined : vars ⊆ i.state.env.keys) :
    ∃ resolved i', resolveKeyFields symbolicValue? key i = some (resolved, i') ∧ i.Unchanged i' := by
  induction key generalizing i with
  | nil => exact ⟨[], i, rfl, .refl i⟩
  | cons keyField key ih =>
    have rest := fun j => ih (fun other mem => closed other (List.mem_cons_of_mem _ mem)) j
    rw [resolveKeyFields]
    cases symbolicValue? keyField.expression with
    | some _ => exact rest i defined
    | none =>
      obtain ⟨expr, j, computed, unchanged, -⟩ :=
        computeResult_none keyField.expression (closed keyField List.mem_cons_self) i defined
      obtain ⟨resolved, i', ran, unchanged'⟩ :=
        rest j fun x mem => unchanged.mem_keys.mpr (defined mem)
      exact ⟨⟨keyField, expr⟩ :: resolved, i', by simp [computed, ran], unchanged.trans unchanged'⟩

theorem resolveKey_unchanged (symbolicValue? : SymbolicValue) (key : List KeyElement)
    (closed : ∀ keyField ∈ key, keyField.expression.reads ⊆ vars) (i : Interpretation)
    (defined : vars ⊆ i.state.env.keys) :
    ∃ resolved i', resolveKey symbolicValue? key i = some (resolved, i') ∧ i.Unchanged i' := by
  obtain ⟨resolved, i', ran, unchanged⟩ :=
    resolveKeyFields_unchanged symbolicValue? key closed i defined
  rw [resolveKey, ran]
  dsimp only [Option.bind_eq_bind, Option.bind_some]
  split
  · exact ⟨_, i', rfl, unchanged⟩
  · exact ⟨resolved, i', rfl, unchanged⟩

/-- At most one element has the property, so that the last one is the first one. -/
theorem getLast?_filter_of_distinct {α : Type} {p : α → Bool} {f : α → String} (name : String)
    {l : List α} (distinct : (l.map f).Nodup) (named : ∀ a, p a = true → f a = name) :
    (l.filter p).getLast? = l.find? p := by
  induction l with
  | nil => rfl
  | cons a l ih =>
    obtain ⟨fresh, distinct⟩ := List.nodup_cons.mp distinct
    cases holds : p a with
    | false =>
      rw [List.filter_cons_of_neg (by simp [holds]), List.find?_cons_of_neg (by simp [holds]),
        ih distinct]
    | true =>
      have rest : l.filter p = [] := by
        refine List.filter_eq_nil_iff.mpr fun b mem h => fresh ?_
        rw [named a holds, ← named b h]
        exact List.mem_map_of_mem mem
      rw [List.filter_cons_of_pos holds, List.find?_cons_of_pos holds, rest]
      rfl

/-- Where a chosen action makes the table active, and no two listed actions have one name, the action
that takes effect is the one that the table applies. -/
theorem selectedFrom_eq_applied
    (distinct : (table.actionList.map fun action => action.action.controlPlaneName).Nodup)
    (active : ∀ action ∈ table.actionList, action.defaultOnly = false →
      ρ (getTableActionChoice table.controlPlaneName) = action.action.controlPlaneName →
        ρ (getTableActive table.controlPlaneName) = true) :
    selectedFrom table ρ table.actionList =
      appliedAction table (ρ (getTableActionChoice table.controlPlaneName))
        (ρ (getDefaultActionVariable table.controlPlaneName)) := by
  let choice := ρ (getTableActionChoice table.controlPlaneName)
  let defaultAction := ρ (getDefaultActionVariable table.controlPlaneName)
  have last := fun p name => getLast?_filter_of_distinct
    (p := p) (f := fun action : ActionListElement => action.action.controlPlaneName) name distinct
  cases named : listed table choice with
  | true =>
    obtain ⟨action, mem, chosen⟩ := List.any_eq_true.mp named
    have on : ρ (getTableActive table.controlPlaneName) = true := by
      simp only [Bool.and_eq_true, Bool.not_eq_true', beq_iff_eq] at chosen
      exact active action mem chosen.1 chosen.2
    have selects : ∀ action ∈ table.actionList,
        selects table (ρ (getTableActive table.controlPlaneName)) choice defaultAction action =
          (!action.defaultOnly && choice == action.action.controlPlaneName) := by
      intro action _
      simp [TableExecutor.selects, named, on]
    have isFound : (table.actionList.find? fun action =>
        !action.defaultOnly && choice == action.action.controlPlaneName).isSome :=
      List.find?_isSome.mpr ⟨action, mem, chosen⟩
    obtain ⟨found, isFound⟩ := Option.isSome_iff_exists.mp isFound
    rw [selectedFrom, List.filter_congr selects,
      last _ choice fun action h => by simp at h; exact h.2.symm, appliedAction, isFound,
      Option.some_or]
  | false =>
    have unnamed := List.any_eq_false.mp named
    have selects : ∀ action ∈ table.actionList,
        selects table (ρ (getTableActive table.controlPlaneName)) choice defaultAction action =
          (!action.tableOnly && defaultAction == action.action.controlPlaneName) := by
      intro action mem
      have other := Bool.eq_false_iff.mpr (unnamed action mem)
      rw [TableExecutor.selects, other, named]
      simp
    have missing : table.actionList.find? (fun action =>
        !action.defaultOnly && choice == action.action.controlPlaneName) = none :=
      List.find?_eq_none.mpr unnamed
    rw [selectedFrom, List.filter_congr selects,
      last _ defaultAction fun action h => by simp at h; exact h.2.symm, appliedAction, missing,
      Option.none_or]

theorem eval_hit
    (active : ∀ action ∈ table.actionList, action.defaultOnly = false →
      ρ (getTableActionChoice table.controlPlaneName) = action.action.controlPlaneName →
        ρ (getTableActive table.controlPlaneName) = true) :
    (totalHitCondition table).eval ρ =
      listed table (ρ (getTableActionChoice table.controlPlaneName)) := by
  rw [eval_totalHitCondition]
  cases named : listed table (ρ (getTableActionChoice table.controlPlaneName)) with
  | false => rfl
  | true =>
    obtain ⟨action, mem, chosen⟩ := List.any_eq_true.mp named
    simp only [Bool.and_eq_true, Bool.not_eq_true', beq_iff_eq] at chosen
    exact active action mem chosen.1 chosen.2

/-- The application of a table leaves the values that the run of the applied action leaves, and its
results tell that action. -/
theorem processTable_simulates (symbolicValue? : SymbolicValue) (table : P4Table)
    (i : Interpretation)
    (distinct : (table.actionList.map fun action => action.action.controlPlaneName).Nodup)
    (closed : ∀ keyField ∈ table.key, keyField.expression.reads ⊆ i.state.env.keys)
    (supportedDefault : table.defaultAction.action.Supported i.state.env.keys)
    (supported : ∀ action ∈ table.actionList, action.action.Supported i.state.env.keys) :
    ∃ result i', processTable symbolicValue? table i = some (result, i') ∧
      ∀ ρ w, i.state.Holds ρ → (∀ x ∈ i.state.env.keys, i.state.value ρ x = some (w.env x)) →
        (∀ action ∈ table.actionList, action.defaultOnly = false →
          ρ (getTableActionChoice table.controlPlaneName) = action.action.controlPlaneName →
            ρ (getTableActive table.controlPlaneName) = true) →
        let choice := ρ (getTableActionChoice table.controlPlaneName)
        let applied :=
          appliedAction table choice (ρ (getDefaultActionVariable table.controlPlaneName))
        (∀ x ∈ i.state.env.keys,
          i'.state.value ρ x = some ((runApplied ρ table applied w).env x)) ∧
        result.hit.eval ρ = listed table choice ∧
        result.actionRun.eval ρ =
          (applied.map ActionListElement.path).getD table.defaultAction.path := by
  obtain ⟨key, j, resolved, unchanged⟩ :=
    resolveKey_unchanged symbolicValue? table.key closed i (List.Subset.refl _)
  have definedJ : i.state.env.keys ⊆ j.state.env.keys := fun x mem => unchanged.mem_keys.mpr mem
  obtain ⟨d, called, keysD, conditionD, valuesD⟩ :=
    callAction_simulates supportedDefault (literalArguments table.defaultAction)
      (by simpa [literalArguments, Function.comp_def] using table.defaultAction.complete) definedJ
  obtain ⟨i', actionRun, ran, -, -, values⟩ :=
    processActionOptions_simulates definedJ
      table.actionList supported d (List.Subset.trans definedJ keysD) (.lit table.defaultAction.path)
  refine ⟨⟨totalHitCondition table, actionRun⟩,
    { i' with tableKeyMatches := i'.tableKeyMatches ++
        [(table.controlPlaneName, computeHitCondition table.controlPlaneName key)] }, ?_, ?_⟩
  · rw [processTable, resolved]
    dsimp only [Option.bind_eq_bind, Option.bind_some]
    rw [processDefaultAction, called]
    dsimp only [Option.bind_some]
    rw [ran]
    rfl
  · intro ρ w holds simulates active
    have holdsJ := unchanged.holds.mpr holds
    have simulatesJ : Simulates ρ i.state.env.keys j.state w := unchanged.of_simulates simulates
    have selected := selectedFrom_eq_applied distinct active
    have ranDefault := valuesD ρ w holdsJ simulatesJ
    rw [evalArguments_literalArguments] at ranDefault
    obtain ⟨simulated, path⟩ := values ρ w
      (runApplied ρ table (selectedFrom table ρ table.actionList) w) holdsJ simulatesJ
      (fun none => by rw [none]; exact ranDefault) (fun action some => by rw [some]; rfl)
    refine ⟨?_, eval_hit active, ?_⟩
    · rw [← selected]
      exact simulated
    · rw [path, selected, Expr.eval_lit]

end TableExecutor

section Examples

open TableExecutor

/-- Literals need no resolution. -/
def literalValue : SymbolicValue
  | _, .lit value => some (.lit value)
  | _, _ => none

/-- An action with one parameter, which it stores. -/
def storeAction : P4Action where
  controlPlaneName := "store"
  parameters := [⟨"value", "value", .bit 8⟩]
  body := [.assignment (t := .bit 8) "field" (.path 10 "value" (.bit 8))]
  named := by decide
  distinct := by decide

def storeZero : ActionCall where
  path := "store"
  action := storeAction
  arguments := [⟨⟨"value", "value", .bit 8⟩, (0 : BitVec 8)⟩]
  complete := rfl

/-- A table that stores zero unless an entry or the control plane says otherwise. -/
def storeTable : P4Table where
  controlPlaneName := "t"
  key := [⟨"k", .exact, false, 8, .path 11 "field" (.bit 8)⟩]
  actionList := [⟨12, "store", storeAction, false, false⟩]
  defaultAction := storeZero
  entries := []
  isImmutable := false

theorem processTable_storeTable :
    ∃ result i', processTable literalValue storeTable fieldState = some (result, i') ∧
      ∀ ρ w, fieldState.state.Holds ρ →
        (∀ x ∈ fieldState.state.env.keys, fieldState.state.value ρ x = some (w.env x)) →
        (∀ action ∈ storeTable.actionList, action.defaultOnly = false →
          ρ (getTableActionChoice "t") = action.action.controlPlaneName →
            ρ (getTableActive "t") = true) →
        let choice := ρ (getTableActionChoice "t")
        let applied := appliedAction storeTable choice (ρ (getDefaultActionVariable "t"))
        (∀ x ∈ fieldState.state.env.keys,
          i'.state.value ρ x = some ((runApplied ρ storeTable applied w).env x)) ∧
        result.hit.eval ρ = listed storeTable choice ∧
        result.actionRun.eval ρ = (applied.map ActionListElement.path).getD "store" :=
  processTable_simulates literalValue storeTable fieldState (by decide)
    (by simp [storeTable, fieldState, ProgramExpr.reads])
    (by simp [P4Action.Supported, storeTable, storeZero, storeAction, SupportedAll,
      Statement.Supported, ProgramExpr.reads, Parameter.reference])
    (by simp [P4Action.Supported, storeTable, storeAction, SupportedAll, Statement.Supported,
      ProgramExpr.reads, Parameter.reference])

/-- An action with a local variable. -/
def declaringAction : P4Action where
  controlPlaneName := "declare"
  parameters := []
  body := [.declaration (t := .bit 8) "local" (.lit 1),
    .assignment (t := .bit 8) "field" (.path 13 "local" (.bit 8))]
  named := by decide
  distinct := by decide

def declaringTable : P4Table where
  controlPlaneName := "t"
  key := []
  actionList := [⟨14, "declare", declaringAction, false, false⟩]
  defaultAction := ⟨"declare", declaringAction, [], ActionCall.complete_nil⟩
  entries := []
  isImmutable := false

/-- The interpreter does not get through a table whose action declares a variable. -/
theorem processTable_declaringTable :
    fieldState.state.Holds (fun _ => default) ∧
      (∀ x ∈ fieldState.state.env.keys,
        fieldState.state.value (fun _ => default) x = some (zeroWorld.env x)) ∧
      (runApplied (fun _ => default) declaringTable
        (appliedAction declaringTable "" "") zeroWorld).env ⟨"field", .bit 8⟩ = (1 : BitVec 8) ∧
      ¬∃ result i', processTable literalValue declaringTable fieldState = some (result, i') := by
  refine ⟨rfl, ?_, rfl, ?_⟩
  · intro x mem
    have same : x = ⟨"field", .bit 8⟩ := by simpa [fieldState] using mem
    subst same
    rfl
  · rintro ⟨result, i', ran⟩
    cases ran

end Examples

end Flay
