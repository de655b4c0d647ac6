import Flay.Lib.OrderedMap
import Flay.Program.Syntax

/-! `NodeAnnotationMap`: what the interpreter records about the nodes it visits. The reachability
conditions are objects that the maps of all states refer to. -/

namespace Flay

open Container

/-- The `ReachabilityExpression` objects, by address. -/
abbrev ReachabilityExpressions : Type := List (Expr .boolean)

/-- `SubstitutionExpression`. -/
structure SubstitutionExpression (t : Ty) where
  condition : Expr .boolean
  originalExpression : Expr t

/-- `SymbolMap`: the nodes that depend on a symbol. -/
abbrev SymbolMap (κ : Type) : Type := SymbolicVariable → List κ

namespace SymbolMap

variable {κ : Type}

def add (m : SymbolMap κ) (symbols : List SymbolicVariable) (node : κ) : SymbolMap κ :=
  fun x => if x ∈ symbols then m x ++ [node] else m x

def insert (m m' : SymbolMap κ) : SymbolMap κ := fun x => m x ++ m' x

end SymbolMap

structure NodeAnnotationMap where
  reachabilityMap : OrderedMap fun _ : Node => Nat
  substitutionMap : OrderedMap fun e : ExpressionNode => SubstitutionExpression e.type
  reachabilitySymbolMap : SymbolMap Node
  expressionSymbolMap : SymbolMap ExpressionNode

namespace NodeAnnotationMap

def empty : NodeAnnotationMap := ⟨OrderedMap.empty, OrderedMap.empty, fun _ => [], fun _ => []⟩

/-- `initializeReachabilityMapping`: a node that is mapped already has the condition added to its
object, and any other gets a new object. -/
def initializeReachabilityMapping (m : NodeAnnotationMap) (objects : ReachabilityExpressions)
    (node : Node) (cond : Expr .boolean) : NodeAnnotationMap × ReachabilityExpressions :=
  let reachabilitySymbolMap := m.reachabilitySymbolMap.add cond.symbols node
  match m.reachabilityMap.find node with
  | some address =>
    ({ m with reachabilitySymbolMap }, objects.modify address fun old => .lOr old cond)
  | none =>
    ({ m with
        reachabilitySymbolMap
        reachabilityMap := m.reachabilityMap.emplace node objects.length },
      objects ++ [cond])

/-- `initializeExpressionMapping`: an expression that is mapped already keeps its value. -/
def initializeExpressionMapping (m : NodeAnnotationMap) (expression : ExpressionNode)
    (value : Expr expression.type) (cond : Expr .boolean) : NodeAnnotationMap :=
  { m with
    expressionSymbolMap := m.expressionSymbolMap.add value.symbols expression
    substitutionMap := m.substitutionMap.emplace expression ⟨cond, value⟩ }

/-- `mergeAnnotationMapping`: nodes that are mapped already keep what they are mapped to. -/
def mergeAnnotationMapping (m otherMap : NodeAnnotationMap) : NodeAnnotationMap where
  reachabilityMap := m.reachabilityMap.insertAll otherMap.reachabilityMap.entries
  substitutionMap := m.substitutionMap.insertAll otherMap.substitutionMap.entries
  reachabilitySymbolMap := m.reachabilitySymbolMap.insert otherMap.reachabilitySymbolMap
  expressionSymbolMap := m.expressionSymbolMap.insert otherMap.expressionSymbolMap

end NodeAnnotationMap

end Flay
