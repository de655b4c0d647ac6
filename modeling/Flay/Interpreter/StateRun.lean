import Flay.Interpreter.AnnotationRun
import Flay.Interpreter.TableSimulation

/-! Runs of the operations on execution states, over a state and all its clones: which visits of a
node the condition that a run leaves for it covers. -/

namespace Flay

open Container

/-- The execution states by handles, and the objects that their maps share. -/
structure StateHeap where
  states : Nat → ExecutionState
  objects : ReachabilityExpressions

namespace StateHeap

/-- All states before the interpreter starts, with an environment. -/
def initial (env : SymbolicEnv) : StateHeap := ⟨fun _ => ⟨env, none, NodeAnnotationMap.empty⟩, []⟩

/-- The interpreter at work on the state of a handle. -/
def interpretation (s : StateHeap) (handle : Nat) : Interpretation :=
  ⟨s.states handle, s.objects, []⟩

def update (s : StateHeap) (handle : Nat) (state : ExecutionState) : StateHeap :=
  { s with states := Function.update s.states handle state }

end StateHeap

inductive StateOperation
  | clone (source target : Nat)
  | set (handle : Nat) (x : StateVariable) (value : Expr x.type)
  | pushExecutionCondition (handle : Nat) (cond : Expr .boolean)
  | addReachabilityMapping (handle : Nat) (node : Node) (cond : Expr .boolean)
  | addExpressionMapping (handle : Nat) (node : Node) {t : Ty} (value : Expr t)
  | merge (handle other : Nat)

namespace StateOperation

def run (s : StateHeap) : StateOperation → StateHeap
  | .clone source target => s.update target (s.states source)
  | .set handle x value => s.update handle ((s.states handle).set x value)
  | .pushExecutionCondition handle cond =>
    s.update handle ((s.states handle).pushExecutionCondition cond)
  | .addReachabilityMapping handle node cond =>
    let i := (s.interpretation handle).addReachabilityMapping node cond
    { s.update handle i.state with objects := i.objects }
  | .addExpressionMapping handle node value =>
    s.update handle ((s.states handle).addExpressionMapping node value)
  | .merge handle other => s.update handle ((s.states handle).merge (s.states other))

def runAll : StateHeap → List StateOperation → StateHeap := List.foldl run

/-- What the operation does to the annotation maps of the states. -/
def annotations (s : StateHeap) : StateOperation → List AnnotationOperation
  | .clone source target => [.clone source target]
  | .set _ _ _ => []
  | .pushExecutionCondition _ _ => []
  | .addReachabilityMapping handle node cond =>
    [.initializeReachabilityMapping handle node
      (.lAnd (s.states handle).getExecutionCondition cond)]
  | @addExpressionMapping handle node (.bits isSigned width) value =>
    [.initializeExpressionMapping handle ⟨node, isSigned, width⟩ value
      (s.states handle).getExecutionCondition]
  | .addExpressionMapping _ _ _ => []
  | .merge handle other => [.mergeAnnotationMapping handle other]

def allAnnotations : StateHeap → List StateOperation → List AnnotationOperation
  | _, [] => []
  | s, operation :: l => operation.annotations s ++ allAnnotations (operation.run s) l

/-- The operation maps the node under a path condition and a condition of its own that are true. -/
def Visits (ρ : Valuation) (node : Node) (s : StateHeap) : StateOperation → Prop
  | .addReachabilityMapping handle visited cond =>
    visited = node ∧ (s.states handle).Holds ρ ∧ cond.eval ρ = true
  | _ => False

def VisitsIn (ρ : Valuation) (node : Node) : StateHeap → List StateOperation → Prop
  | _, [] => False
  | s, operation :: l => operation.Visits ρ node s ∨ VisitsIn ρ node (operation.run s) l

/-- A node that the map of its state lacks is in the map of no other state either. -/
def Joins (s : StateHeap) : StateOperation → Prop
  | .addReachabilityMapping handle node _ =>
    (s.states handle).address node = none → ∀ other, (s.states other).address node = none
  | _ => True

def JoinsIn : StateHeap → List StateOperation → Prop
  | _, [] => True
  | s, operation :: l => operation.Joins s ∧ JoinsIn (operation.run s) l

end StateOperation

namespace StateHeap

/-- The ledger has the objects that the maps of all states refer to. -/
def Kept (s : StateHeap) (ledger : Node → Option Nat) : Prop :=
  ∀ handle, Keeps ledger (s.interpretation handle)

/-- The condition of the node is true in a state whose map reaches the one left in the end. -/
def Carries (s : StateHeap) (rest : List AnnotationOperation) (ρ : Valuation) (node : Node) : Prop :=
  ∃ handle, (s.interpretation handle).Reaches ρ node ∧ AnnotationOperation.Reaches rest handle

variable {s : StateHeap} {ledger ledger' : Node → Option Nat} {rest : List AnnotationOperation}
  {ρ : Valuation} {node : Node}

theorem interpretation_update_self (s : StateHeap) (handle : Nat) (state : ExecutionState)
    (objects : ReachabilityExpressions) :
    interpretation { s.update handle state with objects := objects } handle =
      ⟨state, objects, []⟩ := by
  simp [interpretation, update]

theorem interpretation_update_of_ne (s : StateHeap) {handle other : Nat} (h : other ≠ handle)
    (state : ExecutionState) (objects : ReachabilityExpressions) :
    interpretation { s.update handle state with objects := objects } other =
      ⟨s.states other, objects, []⟩ := by
  simp [interpretation, update, h]

/-- One state is replaced: the ledger is that of the new state and of the others. -/
theorem Kept.update {handle : Nat} {state : ExecutionState} {objects : ReachabilityExpressions}
    (others : ∀ other, Agrees ledger' (s.states other))
    (new : Keeps ledger' ⟨state, objects, []⟩) :
    Kept { s.update handle state with objects := objects } ledger' := by
  intro other
  by_cases same : other = handle
  · subst same
    rw [interpretation_update_self]
    exact new
  · rw [interpretation_update_of_ne s same]
    exact ⟨others other, new.bounded⟩

/-- What a state carries it still carries when its map grows. -/
theorem Carries.update {handle : Nat} {state : ExecutionState} {objects : ReachabilityExpressions}
    (h : s.Carries rest ρ node)
    (kept : ∀ address, (s.states handle).address node = some address →
      state.address node = some address)
    (weakened : Weakened s.objects objects) :
    Carries { s.update handle state with objects := objects } rest ρ node := by
  obtain ⟨other, reaches, reached⟩ := h
  refine ⟨other, ?_, reached⟩
  by_cases same : other = handle
  · subst same
    rw [interpretation_update_self]
    exact reaches.mono kept weakened
  · rw [interpretation_update_of_ne s same]
    exact reaches.mono (fun _ mapped => mapped) weakened

theorem kept_initial (env : SymbolicEnv) : (initial env).Kept fun _ => none :=
  fun _ => ⟨fun _ _ mapped => (Option.some_ne_none _ mapped.symm).elim,
    fun _ _ mapped => (Option.some_ne_none _ mapped.symm).elim⟩

/-- What an operation leaves: a ledger for all states, and the visits that are carried along,
its own among them. -/
structure Carried (s : StateHeap) (operation : StateOperation) (ledger' : Node → Option Nat) :
    Prop where
  kept : (operation.run s).Kept ledger'
  carries : ∀ rest ρ node, s.Carries (operation.annotations s ++ rest) ρ node →
    (operation.run s).Carries rest ρ node
  visits : ∀ rest ρ node, operation.Visits ρ node s →
    AnnotationOperation.MergedBack (operation.annotations s ++ rest) →
      (operation.run s).Carries rest ρ node

theorem Carried.clone (h : s.Kept ledger) (source target : Nat) :
    s.Carried (.clone source target) ledger where
  kept := Kept.update (fun other => (h other).agrees) (h source)
  carries := by
    rintro rest ρ node ⟨handle, reaches, ⟨other, reached⟩ | ⟨rfl, reached⟩⟩
    · refine ⟨handle, ?_, reached⟩
      rw [StateOperation.run, interpretation_update_of_ne s other]
      exact reaches
    · refine ⟨target, ?_, reached⟩
      rw [StateOperation.run, interpretation_update_self]
      exact reaches
  visits := fun _ _ _ visits => visits.elim

/-- An operation that maps no node. -/
theorem Carried.of_address {handle : Nat} {state : ExecutionState} {operation : StateOperation}
    (h : s.Kept ledger) (ran : operation.run s = s.update handle state)
    (address : ∀ node, state.address node = (s.states handle).address node)
    (annotated : ∀ rest other, AnnotationOperation.Reaches (operation.annotations s ++ rest) other →
      AnnotationOperation.Reaches rest other)
    (unvisited : ∀ ρ node, ¬operation.Visits ρ node s) : s.Carried operation ledger where
  kept := by
    rw [ran]
    refine Kept.update (fun other => (h other).agrees) ⟨fun node a mapped => ?_, (h handle).bounded⟩
    exact (h handle).agrees node a ((address node).symm.trans mapped)
  carries := by
    rintro rest ρ node ⟨other, reaches, reached⟩
    have carried : s.Carries rest ρ node := ⟨other, reaches, annotated rest other reached⟩
    rw [ran]
    exact carried.update (fun a mapped => (address node).trans mapped) (.refl _)
  visits := fun _ ρ node visits => (unvisited ρ node visits).elim

theorem Carried.merge (h : s.Kept ledger) (handle other : Nat) :
    s.Carried (.merge handle other) ledger where
  kept := Kept.update (fun other => (h other).agrees)
    ⟨(h handle).agrees.merge (h other).agrees, (h handle).bounded⟩
  carries := by
    rintro rest ρ node ⟨from', reaches, reached | ⟨rfl, reached⟩⟩
    · exact Carries.update ⟨from', reaches, reached⟩
        (fun _ => ExecutionState.address_merge_left) (.refl _)
    · refine ⟨handle, ?_, reached⟩
      rw [StateOperation.run, interpretation_update_self]
      exact reaches.mono
        (fun _ => ExecutionState.address_merge_right (h handle).agrees (h from').agrees) (.refl _)
  visits := fun _ _ _ visits => visits.elim

/-- A node that is visited has its object in the state that visits it. -/
theorem Carried.of_grown {handle : Nat} {visited : Node} {cond : Expr .boolean}
    (others : ∀ other, Agrees ledger' (s.states other))
    (grown : Grown [visited] ledger (s.interpretation handle) ledger'
      ((s.interpretation handle).addReachabilityMapping visited cond))
    (reaches : ∀ ρ, (s.states handle).Holds ρ → cond.eval ρ = true →
      ((s.interpretation handle).addReachabilityMapping visited cond).Reaches ρ visited) :
    s.Carried (.addReachabilityMapping handle visited cond) ledger' where
  kept := Kept.update others grown.keeps
  carries := fun _ _ node carries => Carries.update carries (grown.kept node) grown.weakened
  visits := by
    rintro rest ρ node ⟨rfl, holds, condHolds⟩ merged
    refine ⟨handle, ?_, merged.1⟩
    rw [StateOperation.run, interpretation_update_self]
    exact reaches ρ holds condHolds

theorem Carried.addReachabilityMapping (h : s.Kept ledger) {handle : Nat} {visited : Node}
    {cond : Expr .boolean}
    (joins : StateOperation.Joins s (.addReachabilityMapping handle visited cond)) :
    ∃ ledger', s.Carried (.addReachabilityMapping handle visited cond) ledger' := by
  cases known : (s.states handle).address visited with
  | some a =>
    obtain ⟨grown, reaches⟩ := Grown.addReachabilityMapping_mapped (h handle) known cond
    exact ⟨ledger, .of_grown (fun other => (h other).agrees) grown reaches⟩
  | none =>
    -- No map has the node, so that the ledger need not have it.
    let before := Function.update ledger visited none
    have kept : ∀ other, Keeps before (s.interpretation other) := by
      refine fun other => ⟨fun node a mapped => ?_, fun node a mapped => ?_⟩
      · have different : node ≠ visited := by
          rintro rfl
          exact Option.some_ne_none _ (mapped.symm.trans (joins known other))
        exact (Function.update_of_ne different _ _).trans ((h other).agrees node a mapped)
      · by_cases same : node = visited
        · subst same
          exact (Option.some_ne_none a (mapped.symm.trans (Function.update_self ..))).elim
        · exact (h other).bounded node a ((Function.update_of_ne same _ _).symm.trans mapped)
    obtain ⟨grown, reaches⟩ := Grown.addReachabilityMapping_new (kept handle) known
      (Function.update_self ..) cond
    refine ⟨_, .of_grown (fun other node a mapped => ?_) grown reaches⟩
    exact grown.extended node a ((kept other).agrees node a mapped)

theorem Carried.addExpressionMapping (h : s.Kept ledger) (handle : Nat) (node : Node) {t : Ty}
    (value : Expr t) : s.Carried (.addExpressionMapping handle node value) ledger := by
  refine .of_address h rfl (fun _ => ?_) ?_ fun _ _ visits => visits
  · cases t <;> rfl
  · intro rest other reached
    cases t <;> exact reached

/-- Where no two objects are made for one node, an operation carries all visits along. -/
theorem exists_carried (h : s.Kept ledger) (operation : StateOperation)
    (joins : operation.Joins s) : ∃ ledger', s.Carried operation ledger' := by
  cases operation with
  | clone source target => exact ⟨ledger, .clone h source target⟩
  | set handle x value | pushExecutionCondition handle cond =>
    exact ⟨ledger, .of_address h rfl (fun _ => rfl) (fun _ _ reached => reached) fun _ _ => id⟩
  | addReachabilityMapping handle node cond => exact Carried.addReachabilityMapping h joins
  | addExpressionMapping handle node value =>
    exact ⟨ledger, .addExpressionMapping h handle node value⟩
  | merge handle other => exact ⟨ledger, .merge h handle other⟩

end StateHeap

namespace StateOperation

variable {s : StateHeap} {ledger : Node → Option Nat} {ρ : Valuation} {node : Node}

/-- After a run the state that is left carries what any state carried before it. -/
theorem carries_runAll {l : List StateOperation} (h : s.Kept ledger) (joins : JoinsIn s l)
    (carries : s.Carries (allAnnotations s l) ρ node) : (runAll s l).Carries [] ρ node := by
  induction l generalizing s ledger with
  | nil => exact carries
  | cons operation l ih =>
    obtain ⟨ledger', carried⟩ := StateHeap.exists_carried h operation joins.1
    exact ih carried.kept joins.2 (carried.carries _ ρ node carries)

theorem mergedBack_append {l l' : List AnnotationOperation}
    (h : AnnotationOperation.MergedBack (l ++ l')) : AnnotationOperation.MergedBack l' := by
  induction l with
  | nil => exact h
  | cons operation l ih =>
    cases operation with
    | clone source target => exact ih h
    | initializeReachabilityMapping handle node cond => exact ih h.2
    | initializeExpressionMapping handle expression value cond => exact ih h.2
    | mergeAnnotationMapping handle other => exact ih h

theorem carries_of_visitsIn {l : List StateOperation} (h : s.Kept ledger)
    (merged : AnnotationOperation.MergedBack (allAnnotations s l)) (joins : JoinsIn s l)
    (visits : VisitsIn ρ node s l) : (runAll s l).Carries [] ρ node := by
  induction l generalizing s ledger with
  | nil => exact visits.elim
  | cons operation l ih =>
    obtain ⟨ledger', carried⟩ := StateHeap.exists_carried h operation joins.1
    obtain visits | visits := visits
    · have carries := carried.visits _ ρ node visits merged
      exact carries_runAll (s := operation.run s) carried.kept joins.2 carries
    · exact ih carried.kept (mergedBack_append merged) joins.2 visits

end StateOperation

/-- The condition that a run leaves for a node is true wherever a visit of the node was, if no visit
gives an object to a node that has one in another state. -/
theorem recordedReachability_covers (env : SymbolicEnv) (l : List StateOperation)
    (merged : AnnotationOperation.MergedBack
      (StateOperation.allAnnotations (StateHeap.initial env) l))
    (joins : StateOperation.JoinsIn (StateHeap.initial env) l) (ρ : Valuation) (node : Node)
    (visits : StateOperation.VisitsIn ρ node (StateHeap.initial env) l) :
    ((StateOperation.runAll (StateHeap.initial env) l).interpretation 0).Reaches ρ node := by
  obtain ⟨handle, reaches, rfl⟩ :=
    StateOperation.carries_of_visitsIn (StateHeap.kept_initial env) merged joins visits
  exact reaches

section Examples

open TableExecutor

/-- The table is active and its entry has the action with the flag `true`. -/
def flagEntry : Valuation
  | ⟨_, .boolean⟩ => true
  | ⟨_, .bits _ _⟩ => 1
  | ⟨_, .string⟩ => "a"

/-- A node that a state maps and then a clone of it, in which its condition is true. -/
def repeatedVisit : List StateOperation :=
  [.addReachabilityMapping 0 7 (.lit (t := .boolean) false), .clone 0 1,
    .pushExecutionCondition 1 (getTableActive "t").expr,
    .addReachabilityMapping 1 7 (.lit (t := .boolean) true), .merge 0 1]

theorem recordedReachability_repeatedVisit :
    ((StateOperation.runAll (StateHeap.initial OrderedMap.empty) repeatedVisit).interpretation
      0).Reaches flagEntry 7 := by
  have merged : AnnotationOperation.MergedBack
      (StateOperation.allAnnotations (StateHeap.initial OrderedMap.empty) repeatedVisit) := by
    simp [StateOperation.allAnnotations, repeatedVisit, StateOperation.annotations,
      AnnotationOperation.MergedBack, AnnotationOperation.Reaches]
  have joins : StateOperation.JoinsIn (StateHeap.initial OrderedMap.empty) repeatedVisit :=
    ⟨fun _ _ => rfl, trivial, trivial, (fun unmapped => by cases unmapped), trivial, trivial⟩
  refine recordedReachability_covers _ repeatedVisit merged joins flagEntry 7 ?_
  -- The visit of the clone is the fourth operation.
  iterate 3 right
  exact .inl ⟨rfl, rfl, rfl⟩

/-- An action with a condition that is its parameter. -/
def flagAction : P4Action where
  controlPlaneName := "a"
  parameters := [⟨"flag", "flag", .boolean⟩]
  body := [.ifStatement 7 (.path 8 "flag" .boolean) .empty none]
  named := by decide
  distinct := by decide

theorem flagAction_complete :
    [(⟨⟨"flag", "flag", .boolean⟩, false⟩ : Sigma fun p : Parameter => p.type.Val)].map Sigma.fst =
      flagAction.parameters := rfl

/-- A table that declares as its default an action that it lists, for the flag `false`. -/
def flagTable : P4Table where
  controlPlaneName := "t"
  key := []
  actionList := [⟨9, "a", flagAction, false, false⟩]
  defaultAction := ⟨"a", flagAction, [⟨⟨"flag", "flag", .boolean⟩, false⟩], flagAction_complete⟩
  entries := []
  isImmutable := false

/-- What the application of the table does: handle 1 is the state ahead of the table, handle 3 that
of the listed action. -/
def flagRun : List StateOperation :=
  let flag : StateVariable := ⟨"flag", .boolean⟩
  let argument : Expr .boolean := actionArgument "t" "a" ⟨"flag", "flag", .boolean⟩
  let condition := actionHitCondition flagTable ⟨9, "a", flagAction, false, false⟩
  [.clone 0 1,
    .set 0 flag (.lit (t := .boolean) false),
    .addReachabilityMapping 0 7 (.lit (t := .boolean) false),
    .clone 0 2, .pushExecutionCondition 2 (.lit (t := .boolean) false), .merge 0 2,
    .addReachabilityMapping 0 9 condition,
    .clone 1 3, .pushExecutionCondition 3 condition,
    .set 3 flag argument,
    .addReachabilityMapping 3 7 argument,
    .clone 3 4, .pushExecutionCondition 4 argument, .merge 3 4,
    .merge 0 3]

/-- The interpreter makes the run for the table, and the condition that it leaves for the node in the
action is that of the declared default action alone. -/
theorem flagTable_uncovered :
    let start := StateHeap.initial OrderedMap.empty
    let left := (StateOperation.runAll start flagRun).interpretation 0
    (∃ result i', processTable literalValue flagTable (start.interpretation 0) = some (result, i') ∧
      i'.state = left.state ∧ i'.objects = left.objects) ∧
    AnnotationOperation.MergedBack (StateOperation.allAnnotations start flagRun) ∧
    StateOperation.VisitsIn flagEntry 7 start flagRun ∧
    ¬left.Reaches flagEntry 7 := by
  refine ⟨⟨_, _, rfl, rfl, rfl⟩, ?_, ?_, ?_⟩
  · simp [StateOperation.allAnnotations, flagRun, StateOperation.annotations,
      AnnotationOperation.MergedBack, AnnotationOperation.Reaches]
  · -- The visit is the eleventh operation.
    iterate 10 right
    exact .inl ⟨rfl, rfl, rfl⟩
  · rintro ⟨address, cond, mapped, found, holds⟩
    cases mapped
    cases found
    cases holds

end Examples

end Flay
