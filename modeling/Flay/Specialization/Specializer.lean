import Flay.Program.Calls
import Flay.Specialization.ElimDeadCode
import Flay.Specialization.SolverMap

/-! The pass `SubstituteExpressions`, and `FlaySpecializer`, which runs it after `ElimDeadCode`. -/

namespace Flay

variable {τ α : Type}

/-- What `isExpressionConstant` says of the expressions of a program. -/
abbrev Constants : Type := (e : ExpressionNode) → Option e.type.Val

namespace SubstituteExpressions

variable (constants : Constants)

/-- `preorder(PathExpression)` and `preorder(Member)`: only expressions of type `Type_Bits` are
substituted. -/
def pathExpression (node : Node) (name : String) : (t : Ty) → ProgramExpr τ t
  | .bits isSigned width =>
    match constants ⟨node, isSigned, width⟩ with
    | some value => .lit value
    | none => .path node name (.bits isSigned width)
  | t => .path node name t

/-- The pass over an expression. It does not look into the application of a table. -/
def expression : {t : Ty} → ProgramExpr τ t → ProgramExpr τ t
  | _, .lit value => .lit value
  | _, .path node name t => pathExpression constants node name t
  | _, .hit node table => .hit node table
  | _, .miss node table => .miss node table
  | _, .actionRun table => .actionRun table
  | _, .lNot e => .lNot (expression e)
  | _, .lAnd left right => .lAnd (expression left) (expression right)
  | _, .lOr left right => .lOr (expression left) (expression right)
  | _, .equ left right => .equ (expression left) (expression right)
  | _, .neq left right => .neq (expression left) (expression right)
  | _, .unary op e => .unary op (expression e)
  | _, .binary op left right => .binary op (expression left) (expression right)
  | _, .mux e0 e1 e2 => .mux (expression e0) (expression e1) (expression e2)

/-- An argument of a call, which `preorder(MethodCallExpression)` leaves as it is if the call writes
it. -/
def argument (direction : Direction) (argument : Sigma (ProgramExpr Empty)) :
    Sigma (ProgramExpr Empty) :=
  if direction.writes then argument else ⟨argument.1, expression constants argument.2⟩

/-- `preorder(MethodCallExpression)`. A call with more arguments than parameters is an error. -/
def methodCall (call : MethodCall) : MethodCall :=
  if call.arguments.length > call.parameters.length then call
  else { call with arguments := List.zipWith (argument constants) call.parameters call.arguments }

variable (call : α → α)

mutual

/-- The pass over a statement, with `call` at the calls. -/
def statement : Statement τ α → Statement τ α
  | .empty => .empty
  | .assignment left right => .assignment left (expression constants right)
  | .declaration name initializer => .declaration name (expression constants initializer)
  | .block components => .block (statements components)
  | .ifStatement node condition ifTrue ifFalse =>
    .ifStatement node (expression constants condition) (statement ifTrue) (optionalStatement ifFalse)
  | .switchStatement e cases => .switchStatement (expression constants e) (switchCases cases)
  | .apply table => .apply table
  | .call action => .call (call action)

def statements : List (Statement τ α) → List (Statement τ α)
  | [] => []
  | s :: l => statement s :: statements l

def optionalStatement : Option (Statement τ α) → Option (Statement τ α)
  | none => none
  | some s => some (statement s)

def switchCases : List (SwitchCase τ α) → List (SwitchCase τ α)
  | [] => []
  | .mk node label body :: cases => .mk node label (optionalBody body) :: switchCases cases

def optionalBody : Option (List (Statement τ α)) → Option (List (Statement τ α))
  | none => none
  | some body => some (statements body)

end

end SubstituteExpressions

/-- `FlaySpecializer`. The arguments of the calls of a control block are literals. -/
def flaySpecializer (reachability : Node → Option Bool) (constants : Constants)
    (program : ControlStatement) : ControlStatement :=
  SubstituteExpressions.statement constants id (ElimDeadCode.controlStatement reachability program)

/-- `FlaySpecializer` for a program with calls of methods. -/
def flaySpecializerOfCalls (reachability : Node → Option Bool) (constants : Constants)
    (program : CallStatement) : CallStatement :=
  SubstituteExpressions.statement constants (SubstituteExpressions.methodCall constants)
    (ElimDeadCode.statement reachability Empty.elim program)

end Flay
