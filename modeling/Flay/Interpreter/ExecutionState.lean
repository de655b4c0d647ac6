import Flay.ControlPlane.Objects
import Flay.Interpreter.NodeMap

/-! `ExecutionState`: the symbolic values of the variables, the condition of the path, and how
states are merged. -/

namespace Flay

open Container

/-- The symbolic environment of a state. -/
abbrev SymbolicEnv : Type := OrderedMap fun x : StateVariable => Expr x.type

structure ExecutionState where
  env : SymbolicEnv
  executionCondition : Option (Expr .boolean)
  nodeAnnotationMap : NodeAnnotationMap

namespace ExecutionState

def getExecutionCondition (s : ExecutionState) : Expr .boolean :=
  s.executionCondition.getD .true

def set (s : ExecutionState) (x : StateVariable) (value : Expr x.type) : ExecutionState :=
  { s with env := s.env.set x value }

def pushExecutionCondition (s : ExecutionState) (cond : Expr .boolean) : ExecutionState :=
  { s with
    executionCondition :=
      match s.executionCondition with
      | none => some cond
      | some executionCondition => some (SimplifyExpression.simplify (.lAnd executionCondition cond)) }

/-- What `merge` makes of the environment under the condition of the other state. Only variables
that exist are merged, and only when their values are different. -/
def mergeEnv (cond : Expr .boolean) (env mergeEnv : SymbolicEnv) : SymbolicEnv :=
  match cond.literal? with
  | some true => env.update (fun _ _ mergeExpr => mergeExpr) mergeEnv.entries
  | some false => env
  | none =>
    env.update (fun _ currentExpr mergeExpr =>
      if currentExpr = mergeExpr then currentExpr
      else SimplifyExpression.produceSimplifiedMux cond mergeExpr currentExpr) mergeEnv.entries

def merge (s mergeState : ExecutionState) : ExecutionState :=
  { s with
    nodeAnnotationMap := s.nodeAnnotationMap.mergeAnnotationMapping mergeState.nodeAnnotationMap
    env :=
      mergeEnv (SimplifyExpression.simplify mergeState.getExecutionCondition) s.env mergeState.env }

/-- `addExpressionMapping`, which maps only expressions of type `Type_Bits`. -/
def addExpressionMapping (s : ExecutionState) (node : Node) : {t : Ty} → Expr t → ExecutionState
  | .bits isSigned width, value =>
    { s with
      nodeAnnotationMap := s.nodeAnnotationMap.initializeExpressionMapping
        ⟨node, isSigned, width⟩ value s.getExecutionCondition }
  | _, _ => s

end ExecutionState

/-- The interpreter at work on a state, with what all states share: the reachability objects, and
the keys that tables have been given. -/
structure Interpretation where
  state : ExecutionState
  objects : ReachabilityExpressions
  tableKeyMatches : List (String × List TableMatchKey)

namespace Interpretation

/-- The interpreter goes on with another state. -/
def resume (i : Interpretation) (state : ExecutionState) : Interpretation := { i with state }

def addReachabilityMapping (i : Interpretation) (node : Node) (cond : Expr .boolean) :
    Interpretation :=
  let mapped := i.state.nodeAnnotationMap.initializeReachabilityMapping i.objects node
    (.lAnd i.state.getExecutionCondition cond)
  { i with state := { i.state with nodeAnnotationMap := mapped.1 }, objects := mapped.2 }

end Interpretation

namespace ExecutionState

variable {ρ : Valuation} {s s' : ExecutionState}

/-- The valuation makes the condition of the path true. -/
def Holds (ρ : Valuation) (s : ExecutionState) : Prop := s.getExecutionCondition.eval ρ = true

/-- The value of a variable under the valuation. -/
def value (s : ExecutionState) (ρ : Valuation) (x : StateVariable) : Option x.type.Val :=
  (s.env.find x).map (Expr.eval ρ)

theorem eval_pushExecutionCondition (s : ExecutionState) (cond : Expr .boolean) :
    (s.pushExecutionCondition cond).getExecutionCondition.eval ρ =
      (s.getExecutionCondition.eval ρ && cond.eval ρ) := by
  cases h : s.executionCondition <;>
    simp [pushExecutionCondition, getExecutionCondition, h]

theorem keys_merge (s mergeState : ExecutionState) : (s.merge mergeState).env.keys = s.env.keys := by
  unfold merge mergeEnv
  dsimp only
  split
  · exact OrderedMap.keys_update _ _ _
  · rfl
  · exact OrderedMap.keys_update _ _ _

theorem keys_foldl_merge (states : List ExecutionState) (s : ExecutionState) :
    (states.foldl merge s).env.keys = s.env.keys := by
  induction states generalizing s with
  | nil => rfl
  | cons state states ih => exact (ih _).trans (keys_merge s state)

theorem executionCondition_foldl_merge (states : List ExecutionState) (s : ExecutionState) :
    (states.foldl merge s).executionCondition = s.executionCondition := by
  induction states generalizing s with
  | nil => rfl
  | cons state states ih => exact ih (s.merge state)

/-- A merged variable has the value of the other state exactly where that state's condition holds. -/
theorem value_merge (s mergeState : ExecutionState) {x : StateVariable}
    (h : x ∈ mergeState.env.keys) :
    (s.merge mergeState).value ρ x =
      if mergeState.getExecutionCondition.eval ρ then
        (s.value ρ x).bind fun _ => mergeState.value ρ x
      else s.value ρ x := by
  obtain ⟨new, found⟩ := OrderedMap.exists_find_of_mem h
  have looked : mergeState.env.entries.dlookup x = some new := found
  have cond : (SimplifyExpression.simplify mergeState.getExecutionCondition).eval ρ =
      mergeState.getExecutionCondition.eval ρ := SimplifyExpression.eval_simplify _
  rw [← cond]
  unfold merge mergeEnv value
  dsimp only
  split
  · rename_i literal
    rw [Expr.eval_of_literal? literal, OrderedMap.find_update _ _ mergeState.env.nodupKeys, looked,
      found]
    cases s.env.find x <;> simp
  · rename_i literal
    rw [Expr.eval_of_literal? literal]
    simp
  · rw [OrderedMap.find_update _ _ mergeState.env.nodupKeys, looked, found]
    cases s.env.find x with
    | none => simp
    | some current =>
      by_cases same : current = new
      · simp [same]
      · simp [same]
        split <;> rfl

end ExecutionState

end Flay
