import Flay.Interpreter.StateRun
import Flay.Specialization.DefaultReplacement

/-! Whether the constants that `Z3SolverSubstitutionMap` reports are right at every visit of the
expression. A map keeps one value for an expression, and a run of the operations on execution states
drops the others. -/

namespace Flay

open Container

/-- A visit of an expression: its value there, and the packets whose execution makes the visit. -/
structure ExpressionVisit where
  expression : ExpressionNode
  value : Expr expression.type
  packets : Valuation → Prop

/-- An operation on execution states, with the packets whose execution is there. -/
structure ExecutedOperation where
  operation : StateOperation
  packets : Valuation → Prop

/-- The states, and the visits that have gone into the map of each. -/
structure VisitedHeap where
  heap : StateHeap
  visits : Nat → List ExpressionVisit

def VisitedHeap.initial (env : SymbolicEnv) : VisitedHeap := ⟨.initial env, fun _ => []⟩

/-- The state that the operation changes. -/
def StateOperation.handle : StateOperation → Nat
  | .clone _ target => target
  | .set handle _ _ => handle
  | .pushExecutionCondition handle _ => handle
  | .addReachabilityMapping handle _ _ => handle
  | .addExpressionMapping handle _ _ => handle
  | .merge handle _ => handle

namespace ExecutedOperation

/-- The visit that the operation makes. Only expressions of type `Type_Bits` are mapped. -/
def visit : ExecutedOperation → List ExpressionVisit
  | ⟨@StateOperation.addExpressionMapping _ node (.bits isSigned width) value, packets⟩ =>
    [⟨⟨node, isSigned, width⟩, value, packets⟩]
  | _ => []

/-- The visits that the operation puts into the map of a state, beside those that are in it. -/
def incoming (s : VisitedHeap) (o : ExecutedOperation) : List ExpressionVisit :=
  match o.operation with
  | .merge _ other => s.visits other
  | _ => o.visit

def run (s : VisitedHeap) (o : ExecutedOperation) : VisitedHeap where
  heap := o.operation.run s.heap
  visits :=
    match o.operation with
    | .clone source target => Function.update s.visits target (s.visits source)
    | operation =>
      Function.update s.visits operation.handle (s.visits operation.handle ++ o.incoming s)

def runAll : VisitedHeap → List ExecutedOperation → VisitedHeap := List.foldl run

end ExecutedOperation

/-- The value that the map of the state has for an expression. -/
def ExecutionState.recorded (s : ExecutionState) (e : ExpressionNode) : Option (Expr e.type) :=
  (s.nodeAnnotationMap.substitutionMap.find e).map SubstitutionExpression.originalExpression

section Right

variable (K : Valuation → Prop)

/-- The value is that of the visit for every packet of `K` that makes the visit. -/
def ExpressionVisit.Sees (visit : ExpressionVisit) (value : Expr visit.expression.type) : Prop :=
  ∀ ρ, K ρ → visit.packets ρ → visit.value.eval ρ = value.eval ρ

/-- The map of each state has the value of every visit that has gone into it. -/
def VisitedHeap.Right (s : VisitedHeap) : Prop :=
  ∀ handle, ∀ visit ∈ s.visits handle, ∃ value,
    (s.heap.states handle).recorded visit.expression = some value ∧ visit.Sees K value

namespace ExecutedOperation

/-- A visit whose value is dropped, since the map has one already, sees the value that is kept. -/
def Harmless (s : VisitedHeap) (o : ExecutedOperation) : Prop :=
  match o.operation with
  | .clone _ _ => True
  | operation => ∀ visit ∈ o.incoming s, ∀ value,
      (s.heap.states operation.handle).recorded visit.expression = some value → visit.Sees K value

def HarmlessIn : VisitedHeap → List ExecutedOperation → Prop
  | _, [] => True
  | s, o :: l => o.Harmless K s ∧ HarmlessIn (o.run s) l

end ExecutedOperation

end Right

section Step

variable {K : Valuation → Prop} {s : VisitedHeap} {o : ExecutedOperation}

namespace ExecutionState

variable {e : ExpressionNode}

theorem recorded_merge (state mergeState : ExecutionState) :
    (state.merge mergeState).recorded e = (state.recorded e).or (mergeState.recorded e) := by
  have looked := OrderedMap.find_insertAll state.nodeAnnotationMap.substitutionMap
    mergeState.nodeAnnotationMap.substitutionMap.entries e
  unfold recorded
  rw [merge, NodeAnnotationMap.mergeAnnotationMapping, looked, Option.map_or]
  rfl

theorem recorded_addExpressionMapping_self (state : ExecutionState) (node : Node)
    {isSigned : Bool} {width : Nat} (value : Expr (.bits isSigned width)) :
    (state.addExpressionMapping node value).recorded ⟨node, isSigned, width⟩ =
      some ((state.recorded ⟨node, isSigned, width⟩).getD value) := by
  have looked := OrderedMap.find_emplace_self state.nodeAnnotationMap.substitutionMap
    ⟨node, isSigned, width⟩ ⟨state.getExecutionCondition, value⟩
  unfold recorded
  rw [addExpressionMapping, NodeAnnotationMap.initializeExpressionMapping, looked]
  cases state.nodeAnnotationMap.substitutionMap.find ⟨node, isSigned, width⟩ <;> rfl

theorem recorded_addExpressionMapping (state : ExecutionState) (node : Node) {t : Ty}
    (value : Expr t) {kept : Expr e.type} (known : state.recorded e = some kept) :
    (state.addExpressionMapping node value).recorded e = some kept := by
  cases t with
  | bits isSigned width =>
    by_cases same : e = ⟨node, isSigned, width⟩
    · subst same
      rw [recorded_addExpressionMapping_self, known, Option.getD_some]
    · have looked := OrderedMap.find_emplace_ne state.nodeAnnotationMap.substitutionMap
        (⟨state.getExecutionCondition, value⟩ : SubstitutionExpression (.bits isSigned width)) same
      unfold recorded
      rw [addExpressionMapping, NodeAnnotationMap.initializeExpressionMapping, looked]
      exact known
  | boolean => exact known
  | string => exact known

theorem recorded_addReachabilityMapping (i : Interpretation) (node : Node) (cond : Expr .boolean) :
    (i.addReachabilityMapping node cond).state.recorded e = i.state.recorded e := by
  unfold Interpretation.addReachabilityMapping NodeAnnotationMap.initializeReachabilityMapping
  dsimp only
  split <;> rfl

end ExecutionState

/-- A state is replaced, and visits come into its map beside those that were in it. If the map keeps
its values, and has one for each visit that comes, it is right exactly where those visits see the
values that were kept. -/
theorem right_update_iff {handle : Nat} {state : ExecutionState} {objects : ReachabilityExpressions}
    {incoming : List ExpressionVisit} (h : s.Right K)
    (kept : ∀ e value, (s.heap.states handle).recorded e = some value →
      state.recorded e = some value)
    (new : ∀ visit ∈ incoming, (s.heap.states handle).recorded visit.expression = none →
      ∃ value, state.recorded visit.expression = some value ∧ visit.Sees K value) :
    VisitedHeap.Right K
        ⟨{ s.heap.update handle state with objects := objects },
          Function.update s.visits handle (s.visits handle ++ incoming)⟩ ↔
      ∀ visit ∈ incoming, ∀ value,
        (s.heap.states handle).recorded visit.expression = some value → visit.Sees K value := by
  constructor
  · intro right visit mem value known
    obtain ⟨value', known', sees⟩ := right handle visit
      (by simpa only [Function.update_self] using List.mem_append_right _ mem)
    simp only [StateHeap.update, Function.update_self] at known'
    obtain rfl := Option.some.inj ((kept _ _ known).symm.trans known')
    exact sees
  · intro harmless other visit mem
    by_cases same : other = handle
    · subst same
      simp only [StateHeap.update, Function.update_self] at mem ⊢
      rcases List.mem_append.mp mem with mem | mem
      · obtain ⟨value, known, sees⟩ := h other visit mem
        exact ⟨value, kept _ _ known, sees⟩
      · cases known : (s.heap.states other).recorded visit.expression with
        | none => exact new visit mem known
        | some value => exact ⟨value, kept _ _ known, harmless visit mem value known⟩
    · simp only [StateHeap.update, Function.update_of_ne same] at mem ⊢
      exact h other visit mem

theorem right_clone (h : s.Right K) (source target : Nat) (packets : Valuation → Prop) :
    ((ExecutedOperation.mk (.clone source target) packets).run s).Right K := by
  intro handle visit mem
  by_cases same : handle = target
  · subst same
    simp only [ExecutedOperation.run, StateOperation.run, StateHeap.update,
      Function.update_self] at mem ⊢
    exact h source visit mem
  · simp only [ExecutedOperation.run, StateOperation.run, StateHeap.update,
      Function.update_of_ne same] at mem ⊢
    exact h handle visit mem

/-- An operation keeps the maps right exactly if it is harmless. -/
theorem right_run_iff (h : s.Right K) (o : ExecutedOperation) :
    (o.run s).Right K ↔ o.Harmless K s := by
  obtain ⟨operation, packets⟩ := o
  cases operation with
  | clone source target => exact iff_of_true (right_clone h source target packets) trivial
  | set handle x value | pushExecutionCondition handle cond =>
    exact right_update_iff h (fun _ _ known => known) fun _ mem => absurd mem List.not_mem_nil
  | addReachabilityMapping handle node cond =>
    refine right_update_iff h (fun e value known => ?_) fun _ mem => absurd mem List.not_mem_nil
    rw [ExecutionState.recorded_addReachabilityMapping]
    exact known
  | addExpressionMapping handle node value =>
    refine right_update_iff h
      (fun e kept known => ExecutionState.recorded_addExpressionMapping _ node value known)
      fun visit mem unknown => ?_
    rename_i t
    cases t with
    | bits isSigned width =>
      cases List.mem_singleton.mp mem
      refine ⟨value, ?_, fun _ _ _ => rfl⟩
      rw [ExecutionState.recorded_addExpressionMapping_self, unknown]
      rfl
    | boolean => cases mem
    | string => cases mem
  | merge handle other =>
    refine right_update_iff h (fun e value known => ?_) fun visit mem unknown => ?_
    · rw [ExecutionState.recorded_merge, known]
      rfl
    · obtain ⟨value, known, sees⟩ := h other visit mem
      refine ⟨value, ?_, sees⟩
      rw [ExecutionState.recorded_merge, unknown, known]
      rfl

namespace ExecutedOperation

/-- The maps are right in all states of a run exactly if each of its operations is harmless. -/
theorem right_runAll_iff {l : List ExecutedOperation} (h : s.Right K) :
    (∀ before after, l = before ++ after → (runAll s before).Right K) ↔ HarmlessIn K s l := by
  induction l generalizing s with
  | nil =>
    refine iff_of_true (fun before after same => ?_) trivial
    cases (List.append_eq_nil_iff.mp same.symm).1
    exact h
  | cons o l ih =>
    constructor
    · intro throughout
      have next : (o.run s).Right K := throughout [o] l rfl
      refine ⟨(right_run_iff h o).mp next, (ih next).mp fun before after same => ?_⟩
      exact throughout (o :: before) after (by rw [same, List.cons_append])
    · rintro ⟨harmless, rest⟩ before after same
      cases before with
      | nil => exact h
      | cons o' before =>
        obtain ⟨rfl, tails⟩ := List.cons.inj same
        exact (ih ((right_run_iff h o).mpr harmless)).mpr rest before after tails

theorem heap_runAll (l : List ExecutedOperation) :
    (runAll s l).heap = StateOperation.runAll s.heap (l.map operation) := by
  induction l generalizing s with
  | nil => rfl
  | cons o l ih => exact ih

/-- A visit in a map that reaches the one left in the end is in that one. -/
theorem mem_visits_runAll {l : List ExecutedOperation} {visit : ExpressionVisit} (handle : Nat)
    (mem : visit ∈ s.visits handle)
    (reaches : AnnotationOperation.Reaches
      (StateOperation.allAnnotations s.heap (l.map operation)) handle) :
    visit ∈ (runAll s l).visits 0 := by
  induction l generalizing s handle with
  | nil =>
    cases reaches
    exact mem
  | cons o l ih =>
    have stays : visit ∈ Function.update s.visits o.operation.handle
        (s.visits o.operation.handle ++ o.incoming s) handle := by
      by_cases same : handle = o.operation.handle
      · subst same
        simpa only [Function.update_self] using List.mem_append_left _ mem
      · simpa only [Function.update_of_ne same] using mem
    obtain ⟨operation, packets⟩ := o
    cases operation with
    | clone source target =>
      obtain ⟨other, reaches⟩ | ⟨rfl, reaches⟩ := reaches
      · refine ih handle ?_ reaches
        simpa only [run, Function.update_of_ne other] using mem
      · refine ih target ?_ reaches
        simpa only [run, Function.update_self] using mem
    | merge into other =>
      obtain reaches | ⟨rfl, reaches⟩ := reaches
      · exact ih _ stays reaches
      · refine ih into ?_ reaches
        simpa only [run, StateOperation.handle, incoming, Function.update_self] using
          List.mem_append_right _ mem
    | set _ _ _ => exact ih _ stays reaches
    | pushExecutionCondition _ _ => exact ih _ stays reaches
    | addReachabilityMapping _ _ _ => exact ih _ stays reaches
    | addExpressionMapping _ _ value =>
      refine ih _ stays ?_
      rename_i t
      cases t <;> exact reaches

/-- Where every clone is merged back, all visits of a run are in the map that is left. -/
theorem mem_visits_of_mergedBack {l : List ExecutedOperation} {visit : ExpressionVisit}
    (merged : AnnotationOperation.MergedBack
      (StateOperation.allAnnotations s.heap (l.map operation)))
    (mem : visit ∈ l.flatMap ExecutedOperation.visit) : visit ∈ (runAll s l).visits 0 := by
  induction l generalizing s with
  | nil => cases mem
  | cons o l ih =>
    rcases List.mem_append.mp mem with here | later
    · obtain ⟨operation, packets⟩ := o
      cases operation with
      | addExpressionMapping handle node value =>
        rename_i t
        cases t with
        | bits isSigned width =>
          refine mem_visits_runAll (s := run s _) handle ?_ merged.1
          simpa only [run, StateOperation.handle, incoming, Function.update_self] using
            List.mem_append_right _ here
        | boolean => cases here
        | string => cases here
      | _ => cases here
    · exact ih (StateOperation.mergedBack_append merged) later

end ExecutedOperation

end Step

section Report

variable [Z3]

/-- The packets of the configuration: the variables have the values that the assignments give. -/
def Z3ControlPlaneAssignmentSet.Configured [Z3.Lawful] (assignmentSet : Z3ControlPlaneAssignmentSet)
    (ρ : Valuation) : Prop :=
  ∃ ρ', ρ = Z3.assigned (ρ := ρ') (Z3.Lawful.eval ρ') assignmentSet.entries

/-- What `computeNodeSubstitution` reports for the expressions of the map: the literal, if there is
one, that the assignments make of the value recorded. -/
theorem verdict_createSubstitutionMap {state : ExecutionState}
    {assignmentSet : Z3ControlPlaneAssignmentSet} {m : Z3SolverMap ExpressionNode.type}
    {changed : Bool}
    (computed : (Z3SolverMap.createSubstitutionMap state.nodeAnnotationMap).recomputeAll
      assignmentSet = some (m, changed)) (e : ExpressionNode) :
    m.verdict e = (state.recorded e).bind fun value =>
      assignmentSet.verdict (Z3.simplify (Z3.set value)) := by
  let created := Z3SolverMap.createSubstitutionMap state.nodeAnnotationMap
  obtain ⟨nodes, changed', run, recomputed⟩ :=
    Recompute.exists_run (r := computeNode ExpressionNode.type assignmentSet)
      (fun k (mem : k ∈ created.nodes.keys) => mem)
  have same : some ({ created with nodes := nodes }, changed') = some (m, changed) := by
    rw [← computed, Z3SolverMap.recomputeAll, Z3SolverMap.recomputeNodes, run]
    rfl
  obtain ⟨rfl, -⟩ := Prod.mk.inj (Option.some.inj same)
  have rest : ∀ k ∉ created.nodes.keys,
      (computeNode ExpressionNode.type assignmentSet).UpToDate created.nodes k :=
    fun k absent => Z3SolverMap.upToDate_of_not_mem (m := created) absent
  rw [Z3SolverMap.verdict_of_recomputed (m := created) rest recomputed]
  simp only [created, Z3SolverMap.createSubstitutionMap, NodeAnnotationMap.originalExpressions,
    OrderedMap.find_mapValues, ExecutionState.recorded, Option.map_map, Option.bind_map]
  rfl

/-- A reported constant is the value that the map has for the expression, for every packet of the
configuration. -/
theorem eval_of_verdict [Z3.Lawful] {assignmentSet : Z3ControlPlaneAssignmentSet} {t : Ty}
    {value : Expr t} {c : t.Val}
    (reported : assignmentSet.verdict (Z3.simplify (Z3.set value)) = some c) {ρ : Valuation}
    (configured : assignmentSet.Configured ρ) : value.eval ρ = c := by
  obtain ⟨ρ', rfl⟩ := configured
  have literal := Z3.Lawful.eval_of_literal? ρ' _ _ reported
  simpa [Z3ControlPlaneAssignmentSet.substitute, Z3.Lawful.eval_substitute] using literal

/-- The maps of a run have the right value for every visit, in all states that it reaches, exactly if
no operation drops a value that the packets of the configuration see at the visit. The constants that
are reported for the map which is left are then right at every visit. -/
theorem reportedConstants_right [Z3.Lawful] (env : SymbolicEnv) (l : List ExecutedOperation)
    (merged : AnnotationOperation.MergedBack (StateOperation.allAnnotations (.initial env)
      (l.map ExecutedOperation.operation)))
    (assignmentSet : Z3ControlPlaneAssignmentSet) :
    ((∀ before after, l = before ++ after →
        (ExecutedOperation.runAll (.initial env) before).Right assignmentSet.Configured) ↔
      ExecutedOperation.HarmlessIn assignmentSet.Configured (.initial env) l) ∧
    (ExecutedOperation.HarmlessIn assignmentSet.Configured (.initial env) l →
      ∀ m changed, (Z3SolverMap.createSubstitutionMap
          ((StateOperation.runAll (.initial env) (l.map ExecutedOperation.operation)).states
            0).nodeAnnotationMap).recomputeAll assignmentSet = some (m, changed) →
        ∀ visit ∈ l.flatMap ExecutedOperation.visit, ∀ c, m.verdict visit.expression = some c →
          ∀ ρ, assignmentSet.Configured ρ → visit.packets ρ → visit.value.eval ρ = c) := by
  have start : (VisitedHeap.initial env).Right assignmentSet.Configured :=
    fun _ _ mem => absurd mem List.not_mem_nil
  have throughout := ExecutedOperation.right_runAll_iff start (l := l)
  refine ⟨throughout, fun harmless m changed computed visit mem c reported ρ configured packet => ?_⟩
  have right := throughout.mpr harmless l [] (List.append_nil l).symm
  obtain ⟨value, known, sees⟩ :=
    right 0 visit (ExecutedOperation.mem_visits_of_mergedBack merged mem)
  have left : ((StateOperation.runAll (.initial env) (l.map ExecutedOperation.operation)).states
      0).recorded visit.expression = some value := by
    rw [← known, ExecutedOperation.heap_runAll]
    rfl
  rw [verdict_createSubstitutionMap computed, left] at reported
  rw [sees ρ configured packet]
  exact eval_of_verdict reported configured

end Report

section Port

open TableExecutor

attribute [local instance] exprSolver exprSolver.lawful exprSolver.local IrOrder.literals

def portEnv : SymbolicEnv :=
  (OrderedMap.empty.emplace ⟨"h.k", .bit 8⟩ (.var (.dataPlane "h.k") (.bit 8))).emplace
    ⟨"egress_port", .bit 8⟩ (.var (.dataPlane "egress_port") (.bit 8))

def portCondition : Expr .boolean :=
  actionHitCondition portTable ⟨1, "set_port", setPort, false, false⟩

def portArgument : Expr (.bit 8) := actionArgument "t" "set_port" ⟨"port", "port", .bit 8⟩

/-- What the application of the table does: handle 1 is the state ahead of the default action, and
handle 2 that of the listed action. -/
def portRun : List ExecutedOperation :=
  let everywhere : Valuation → Prop := fun _ => True
  let listed : Valuation → Prop := fun ρ => portCondition.eval ρ = true
  [⟨.addExpressionMapping 0 0 (.var (.dataPlane "h.k") (.bit 8)), everywhere⟩,
    ⟨.clone 0 1, everywhere⟩,
    ⟨.set 0 ⟨"port", .bit 8⟩ (.lit (1 : BitVec 8)), everywhere⟩,
    ⟨.addExpressionMapping (t := .bit 8) 0 3 (.lit (1 : BitVec 8)), fun ρ => ¬listed ρ⟩,
    ⟨.set 0 ⟨"egress_port", .bit 8⟩ (.lit (1 : BitVec 8)), everywhere⟩,
    ⟨.addReachabilityMapping 0 1 portCondition, everywhere⟩,
    ⟨.clone 1 2, listed⟩,
    ⟨.pushExecutionCondition 2 portCondition, listed⟩,
    ⟨.set 2 ⟨"port", .bit 8⟩ portArgument, listed⟩,
    ⟨.addExpressionMapping 2 3 portArgument, listed⟩,
    ⟨.set 2 ⟨"egress_port", .bit 8⟩ portArgument, listed⟩,
    ⟨.merge 0 2, everywhere⟩]

theorem mergedBack_portRun :
    AnnotationOperation.MergedBack (StateOperation.allAnnotations (.initial portEnv)
      (portRun.map ExecutedOperation.operation)) := by
  simp [StateOperation.allAnnotations, portRun, StateOperation.annotations,
    AnnotationOperation.MergedBack, AnnotationOperation.Reaches]

/-- The constraints of the table with the entry, if any. -/
def portConstraints (t : TableConfiguration "t") : ControlPlaneConstraints :=
  OrderedMap.empty.emplace "t" (.tableConfiguration t)

/-- The table before it gets an entry. -/
def portUnconfigured : TableConfiguration "t" :=
  .unconfigured ⟨ControlPlaneStateInitializer.computeDefaultActionConstraints "t"
    portTable.defaultAction⟩

/-- Without entries no packet is at the listed action. -/
theorem unlisted_of_configured {ρ : Valuation}
    (configured : (portConstraints portUnconfigured).assignmentSet.Configured ρ) :
    portCondition.eval ρ = false := by
  obtain ⟨ρ', rfl⟩ := configured
  -- The assignments say that the table is not active and that no action is chosen or overrides.
  have unselected : selects portTable false noAction noAction
      ⟨1, "set_port", setPort, false, false⟩ = false := by decide
  exact (eval_actionHitCondition _).trans unselected

/-- Without entries the value that the merge drops, the argument of the listed action, is one that no
packet sees. -/
theorem harmlessIn_portRun :
    ExecutedOperation.HarmlessIn (portConstraints portUnconfigured).assignmentSet.Configured
      (.initial portEnv) portRun := by
  have unvisited : ∀ (s : VisitedHeap) (o : ExecutedOperation) {P : ExpressionVisit → Prop},
      o.incoming s = [] → ∀ visit ∈ o.incoming s, P visit := by
    intro s o P silent visit mem
    rw [silent] at mem
    cases mem
  refine ⟨?_, trivial, unvisited _ _ rfl, ?_, unvisited _ _ rfl, unvisited _ _ rfl, trivial,
    unvisited _ _ rfl, unvisited _ _ rfl, ?_, unvisited _ _ rfl, ?_, trivial⟩
  · intro visit mem value known
    cases List.mem_singleton.mp mem
    cases known
  · intro visit mem value known
    cases List.mem_singleton.mp mem
    cases known
  · intro visit mem value known
    cases List.mem_singleton.mp mem
    cases known
  · intro visit mem value known
    rcases List.mem_pair.mp mem with rfl | rfl
    · cases known
      exact fun _ _ _ => rfl
    · intro ρ configured listed
      have unlisted := unlisted_of_configured configured
      exact absurd (unlisted.symm.trans listed) (by decide)

/-- Without entries the constants reported for the table are right. -/
theorem reportedConstants_portRun :
    ∃ m changed, (Z3SolverMap.createSubstitutionMap
        ((StateOperation.runAll (.initial portEnv) (portRun.map ExecutedOperation.operation)).states
          0).nodeAnnotationMap).recomputeAll (portConstraints portUnconfigured).assignmentSet =
            some (m, changed) ∧
      ∀ visit ∈ portRun.flatMap ExecutedOperation.visit, ∀ c, m.verdict visit.expression = some c →
        ∀ ρ, (portConstraints portUnconfigured).assignmentSet.Configured ρ → visit.packets ρ →
          visit.value.eval ρ = c :=
  ⟨_, _, rfl, (reportedConstants_right portEnv portRun mergedBack_portRun _).2 harmlessIn_portRun _ _
    rfl⟩

/-- The interpreter leaves the value 1 for the port that the action reads, and it is reported as a
constant although the key 1 makes the table run the action with the port 2. -/
theorem reports_wrong_constant :
    (∃ result i' m changed, processTable literalValue portTable
        ((StateHeap.initial portEnv).interpretation 0) = some (result, i') ∧
      (Z3SolverMap.createSubstitutionMap i'.state.nodeAnnotationMap).recomputeAll
        (portConstraints portConfiguration).assignmentSet = some (m, changed) ∧
      m.verdict ⟨3, false, 8⟩ = some (1 : BitVec 8)) ∧
    Executes portTable portConfiguration portConfiguration.highestPriority keyIsOne
      (.listed ⟨1, "set_port", setPort, false, false⟩ [⟨⟨"port", "port", .bit 8⟩, (2 : BitVec 8)⟩]) ∧
    Event.read 3 ⟨.bit 8, (2 : BitVec 8)⟩ ∈
      (setPort.run [⟨⟨"port", "port", .bit 8⟩, (2 : BitVec 8)⟩] ⟨fun _ => default, []⟩).events := by
  exact ⟨⟨_, _, _, _, rfl, rfl, rfl⟩, executes_portEntry, List.mem_singleton.mpr rfl⟩

end Port

end Flay
