import Flay.Program.Syntax

/-! The pass `ElimDeadCode`: what it makes of if statements, switch statements, the members `hit`
and `miss` of a table application, and applications that stand as statements. -/

namespace Flay

variable {τ α : Type}

def SwitchCase.withStatement (c : SwitchCase τ α) (statement : List (Statement τ α)) :
    SwitchCase τ α :=
  .mk c.node c.label (some statement)

namespace ElimDeadCode

/-- The last of the cases kept so far with the statement of a case that goes away. -/
def mergeInto (filtered : List (SwitchCase τ α)) (statement : Option (List (Statement τ α))) :
    List (SwitchCase τ α) :=
  match filtered.getLast?, statement with
  | some previous, some body => filtered.dropLast ++ [previous.withStatement body]
  | _, _ => filtered

/-- The loop of `preorder(SwitchStatement)` over the cases: those kept so far, and whether the case
before fell through. -/
def filterCases (reachability : Node → Option Bool) (filtered : List (SwitchCase τ α))
    (previousFallThrough : Bool) : List (SwitchCase τ α) → List (SwitchCase τ α)
  | [] => filtered
  | switchCase :: cases =>
    if switchCase.label = .default then filtered ++ [switchCase]
    else
      match reachability switchCase.node with
      | none =>
        filterCases reachability (filtered ++ [switchCase]) switchCase.statement.isNone cases
      | some true =>
        if switchCase.statement.isSome then filtered ++ [switchCase]
        else filterCases reachability (filtered ++ [switchCase]) true cases
      | some false =>
        filterCases reachability
          (if previousFallThrough then mergeInto filtered switchCase.statement else filtered)
          switchCase.statement.isNone cases

/-- `preorder(SwitchStatement)`. -/
def preorderSwitch (reachability : Node → Option Bool) {t : Ty} (expression : ProgramExpr τ t)
    (cases : List (SwitchCase τ α)) : Statement τ α :=
  match filterCases reachability [] false cases with
  | [] => .empty
  | [.mk _ .default statement] => (statement.map .block).getD .empty
  | filtered => .switchStatement expression filtered

/-- `preorder(IfStatement)`. -/
def preorderIf (reachability : Node → Option Bool) (node : Node)
    (condition : ProgramExpr τ .boolean) (ifTrue : Statement τ α)
    (ifFalse : Option (Statement τ α)) : Statement τ α :=
  match reachability node with
  | none => .ifStatement node condition ifTrue ifFalse
  | some true => .ifStatement node condition ifTrue none
  | some false => .ifStatement node (.lNot condition) (ifFalse.getD .empty) none

/-- `IR::BoolLiteral::get`. -/
def boolLiteral (value : Bool) : ProgramExpr τ .boolean := .lit (t := .boolean) value

/-- The pass over an expression, with `preorder(Member)` at the members of applications. -/
def expression (reachability : Node → Option Bool) : {t : Ty} → ProgramExpr τ t → ProgramExpr τ t
  | _, .lit value => .lit value
  | _, .path node name t => .path node name t
  | _, .hit node table => ((reachability node).map boolLiteral).getD (.hit node table)
  | _, .miss node table => ((reachability node).map boolLiteral).getD (.miss node table)
  | _, .actionRun table => .actionRun table
  | _, .lNot e => .lNot (expression reachability e)
  | _, .lAnd left right => .lAnd (expression reachability left) (expression reachability right)
  | _, .lOr left right => .lOr (expression reachability left) (expression reachability right)
  | _, .equ left right => .equ (expression reachability left) (expression reachability right)
  | _, .neq left right => .neq (expression reachability left) (expression reachability right)
  | _, .unary op e => .unary op (expression reachability e)
  | _, .binary op left right =>
    .binary op (expression reachability left) (expression reachability right)
  | _, .mux e0 e1 e2 =>
    .mux (expression reachability e0) (expression reachability e1) (expression reachability e2)

/-- `TableUtils::buildTableActionList`: the actions that are not `@defaultonly`. -/
def buildTableActionList (table : P4Table) : List ActionListElement :=
  table.actionList.filter fun action => !action.defaultOnly

/-- Whether `preorder(MethodCallStatement)` gets past its loop over the actions: every action that
is neither `@defaultonly` nor the declared default one is known not to be reachable. -/
def noActionReachable (reachability : Node → Option Bool) (table : P4Table) : Bool :=
  (buildTableActionList table).all fun action =>
    action.path == table.defaultAction.path || reachability action.node == some false

/-- `preorder(MethodCallStatement)` of an application. -/
def preorderMethodCall (reachability : Node → Option Bool) (table : P4Table) : ControlStatement :=
  if table.isImmutable then .apply table
  else if noActionReachable reachability table then
    if table.defaultAction.action.body.isEmpty then .empty else .call table.defaultAction
  else .apply table

mutual

/-- The pass over a statement, with `methodCall` at the applications that stand as statements. -/
def statement (reachability : Node → Option Bool) (methodCall : τ → Statement τ α) :
    Statement τ α → Statement τ α
  | .empty => .empty
  | .assignment left right => .assignment left (expression reachability right)
  | .declaration name initializer => .declaration name (expression reachability initializer)
  | .block components => .block (statements reachability methodCall components)
  | .ifStatement node condition ifTrue ifFalse =>
    preorderIf reachability node (expression reachability condition)
      (statement reachability methodCall ifTrue) (optionalStatement reachability methodCall ifFalse)
  | .switchStatement e cases =>
    preorderSwitch reachability (expression reachability e) (switchCases reachability methodCall cases)
  | .apply table => methodCall table
  | .call action => .call action

def statements (reachability : Node → Option Bool) (methodCall : τ → Statement τ α) :
    List (Statement τ α) → List (Statement τ α)
  | [] => []
  | s :: l => statement reachability methodCall s :: statements reachability methodCall l

def optionalStatement (reachability : Node → Option Bool) (methodCall : τ → Statement τ α) :
    Option (Statement τ α) → Option (Statement τ α)
  | none => none
  | some s => some (statement reachability methodCall s)

def switchCases (reachability : Node → Option Bool) (methodCall : τ → Statement τ α) :
    List (SwitchCase τ α) → List (SwitchCase τ α)
  | [] => []
  | c :: cases => switchCase reachability methodCall c :: switchCases reachability methodCall cases

def switchCase (reachability : Node → Option Bool) (methodCall : τ → Statement τ α) :
    SwitchCase τ α → SwitchCase τ α
  | .mk node label body => .mk node label (optionalBody reachability methodCall body)

def optionalBody (reachability : Node → Option Bool) (methodCall : τ → Statement τ α) :
    Option (List (Statement τ α)) → Option (List (Statement τ α))
  | none => none
  | some body => some (statements reachability methodCall body)

end

/-- The pass over a statement of a control block. -/
def controlStatement (reachability : Node → Option Bool) : ControlStatement → ControlStatement :=
  statement reachability (preorderMethodCall reachability)

end ElimDeadCode

end Flay
