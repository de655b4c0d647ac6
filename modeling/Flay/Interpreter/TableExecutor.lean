import Flay.Interpreter.Stepper
import Flay.Interpreter.TableConditions

/-! `TableExecutor`: the symbolic application of a table. -/

namespace Flay

open Container

/-- The symbolic arguments of an action. -/
abbrev Arguments : Type := List (Sigma fun p : Parameter => Expr p.type)

namespace TableExecutor

def createActionCallArguments (symbolicTablePrefix actionName : String)
    (parameters : List Parameter) : Arguments :=
  parameters.map fun parameter =>
    ⟨parameter, actionArgument symbolicTablePrefix actionName parameter⟩

/-- The arguments of a call that the program makes. -/
def literalArguments (call : ActionCall) : Arguments := call.arguments.map fun a => ⟨a.1, .lit a.2⟩

def setArguments (state : ExecutionState) (arguments : Arguments) : ExecutionState :=
  arguments.foldl (fun state a => state.set a.1.reference a.2) state

def callAction (i : Interpretation) (action : P4Action) (arguments : Arguments) :
    Option Interpretation :=
  FlayStepper.statements SymbolicHandlers.none action.body
    (i.resume (setArguments i.state arguments))

def processDefaultAction (table : P4Table) (i : Interpretation) : Option Interpretation :=
  callAction i table.defaultAction.action (literalArguments table.defaultAction)

/-- The second loop of `processTableActionOptions`. Each action starts from the state ahead of the
table. -/
def processActionOptions (table : P4Table) (referenceState : ExecutionState) :
    List ActionListElement → Interpretation → Expr .string → Option (Interpretation × Expr .string)
  | [], i, actionRun => some (i, actionRun)
  | action :: actionList, i, actionRun => do
    let condition := actionHitCondition table action
    let i := i.addReachabilityMapping action.node condition
    let actionState ← callAction (i.resume (referenceState.pushExecutionCondition condition))
      action.action (createActionCallArguments table.controlPlaneName
        action.action.controlPlaneName action.action.parameters)
    processActionOptions table referenceState actionList
      (actionState.resume (i.state.merge actionState.state))
      (SimplifyExpression.produceSimplifiedMux condition (.lit action.path) actionRun)

/-- The name of the key for a selector field. -/
def selectorKeyName (tableName fieldName : String) : String := tableName ++ "_selector_" ++ fieldName

/-- `V1ModelTableExecutor::computeTargetMatchType`. -/
def computeTargetMatchType (tableName : String) (keyField : KeyElement)
    (keyExpression : Expr keyField.type) : TableMatchKey :=
  match keyField.matchType with
  | .exact => .exact tableName keyField.name keyExpression
  | .ternary => .ternary tableName keyField.name keyExpression
  | .lpm => .lpm tableName keyField.name keyExpression
  | .optional => .optional tableName keyField.name keyExpression
  | .range => .range tableName keyField.name keyExpression
  | .selector => .selector tableName (selectorKeyName tableName keyField.name) keyExpression

/-- The expression itself, where `SymbolicEnv::isSymbolicValue` says that it needs no resolution. -/
abbrev SymbolicValue : Type := {t : Ty} → ProgramExpr Empty t → Option (Expr t)

variable (symbolicValue? : SymbolicValue)

/-- The keys that are resolved. -/
def resolveKeyFields : List KeyElement → Interpretation →
    Option (List (Sigma fun key : KeyElement => Expr key.type) × Interpretation)
  | [], i => some ([], i)
  | keyField :: key, i =>
    match symbolicValue? keyField.expression with
    | some _ => resolveKeyFields key i
    | none => do
      let (expr, i) ← ExpressionResolver.computeResult SymbolicHandlers.none keyField.expression i
      let (resolved, i) ← resolveKeyFields key i
      some (⟨keyField, expr⟩ :: resolved, i)

/-- A key with a field that is resolved keeps no other fields. -/
def resolveKey (key : List KeyElement) (i : Interpretation) :
    Option (List (Sigma fun key : KeyElement => Expr key.type) × Interpretation) := do
  let (resolved, i) ← resolveKeyFields symbolicValue? key i
  if resolved.isEmpty then
    some (key.filterMap fun keyField =>
      (symbolicValue? keyField.expression).map fun expr => ⟨keyField, expr⟩, i)
  else some (resolved, i)

def computeHitCondition (tableName : String)
    (key : List (Sigma fun key : KeyElement => Expr key.type)) : List TableMatchKey :=
  key.map fun keyField => computeTargetMatchType tableName keyField.1 keyField.2

def processTable (table : P4Table) (i : Interpretation) :
    Option (TableExpression × Interpretation) := do
  let (key, i) ← resolveKey symbolicValue? table.key i
  let tableKeyMap := computeHitCondition table.controlPlaneName key
  let referenceState := i.state
  let i ← processDefaultAction table i
  let (i, actionRun) ← processActionOptions table referenceState table.actionList i
    (.lit table.defaultAction.path)
  some (⟨totalHitCondition table, actionRun⟩,
    { i with tableKeyMatches := i.tableKeyMatches ++ [(table.controlPlaneName, tableKeyMap)] })

/-- What the tables and the actions of a control do to the interpreter. -/
def handlers : SymbolicHandlers P4Table ActionCall where
  processTable := processTable symbolicValue?
  callAction call i := callAction i call.action (literalArguments call)

end TableExecutor

end Flay
