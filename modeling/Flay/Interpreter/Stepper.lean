import Flay.Interpreter.ExecutionState

/-! `ExpressionResolver` and `FlayStepper`: the symbolic execution of expressions and statements.
An expression or a statement that the interpreter does not support ends it with `none`. -/

namespace Flay

open Container

/-- The members of the struct expression that an applied table results in. -/
structure TableExpression where
  hit : Expr .boolean
  actionRun : Expr .string

/-- What the application of a table and the call of an action do to the interpreter. -/
structure SymbolicHandlers (τ α : Type) where
  processTable : τ → Interpretation → Option (TableExpression × Interpretation)
  callAction : α → Interpretation → Option Interpretation

/-- The handlers where there is nothing to apply or to call. -/
def SymbolicHandlers.none : SymbolicHandlers Empty Empty := ⟨fun t => t.elim, fun a => a.elim⟩

namespace ExpressionResolver

variable {τ α : Type} (h : SymbolicHandlers τ α)

/-- `preorder` of the expressions. The first operand of a `Mux` is computed in a state of its own,
after the others. -/
def computeResult : {t : Ty} → ProgramExpr τ t → Interpretation → Option (Expr t × Interpretation)
  | _, .lit value, i => some (.lit value, i)
  | _, .path node name t, i => do
    let result ← i.state.env.find ⟨name, t⟩
    some (result, i.resume (i.state.addExpressionMapping node result))
  | _, .hit node table, i => do
    let (result, i) ← h.processTable table i
    some (result.hit, i.addReachabilityMapping node result.hit)
  | _, .miss node table, i => do
    let (result, i) ← h.processTable table i
    some (.lNot result.hit, i.addReachabilityMapping node (.lNot result.hit))
  | _, .actionRun table, i => do
    let (result, i) ← h.processTable table i
    some (result.actionRun, i)
  | _, .lNot e, i => do
    let (e, i) ← computeResult e i
    some (.lNot e, i)
  | _, .lAnd left right, i => do
    let (left, i) ← computeResult left i
    let (right, i) ← computeResult right i
    some (.lAnd left right, i)
  | _, .lOr left right, i => do
    let (left, i) ← computeResult left i
    let (right, i) ← computeResult right i
    some (.lOr left right, i)
  | _, .equ left right, i => do
    let (left, i) ← computeResult left i
    let (right, i) ← computeResult right i
    some (.equ left right, i)
  | _, .neq left right, i => do
    let (left, i) ← computeResult left i
    let (right, i) ← computeResult right i
    some (.lNot (.equ left right), i)
  | _, .unary op e, i => do
    let (e, i) ← computeResult e i
    some (.unary op e, i)
  | _, .binary op left right, i => do
    let (left, i) ← computeResult left i
    let (right, i) ← computeResult right i
    some (.binary op left right, i)
  | _, .mux e0 e1 e2, i => do
    let (cond, i) ← computeResult e0 i
    let (elseExpr, i) ← computeResult e2 i
    let (ifExpr, t) ← computeResult e1 (i.resume (i.state.pushExecutionCondition cond))
    some (.mux cond ifExpr elseExpr, t.resume (i.state.merge t.state))

end ExpressionResolver

namespace FlayStepper

variable {τ α : Type} (h : SymbolicHandlers τ α)

open ExpressionResolver

mutual

/-- `preorder` of the statements. There is none for a declaration. -/
def statement : Statement τ α → Interpretation → Option Interpretation
  | .empty, i => some i
  | .assignment (t := t) left right, i => do
    let (right, i) ← computeResult h right i
    some (i.resume (i.state.set ⟨left, t⟩ right))
  | .declaration _ _, _ => none
  | .block components, i => statements components i
  | .ifStatement node condition ifTrue ifFalse, i => do
    let (cond, i) ← computeResult h condition i
    let i := i.addReachabilityMapping node cond
    let trueState ← statement ifTrue (i.resume (i.state.pushExecutionCondition cond))
    let i ← optionalStatement ifFalse (trueState.resume i.state)
    some (i.resume (i.state.merge trueState.state))
  | .switchStatement expression cases, i => do
    let (switchExpr, i) ← computeResult h expression i
    let (i, accumulatedStates) ← switchCases switchExpr none cases i
    let i ← defaultCase cases i
    some (i.resume (accumulatedStates.foldl ExecutionState.merge i.state))
  | .apply table, i => (h.processTable table i).map Prod.snd
  | .call action, i => h.callAction action i

def statements : List (Statement τ α) → Interpretation → Option Interpretation
  | [], i => some i
  | s :: l, i => do
    let i ← statement s i
    statements l i

def optionalStatement : Option (Statement τ α) → Interpretation → Option Interpretation
  | none, i => some i
  | some s, i => statement s i

/-- The loop over the cases ahead of the default label: the states of the blocks, each under the
condition that one of its labels matches. -/
def switchCases {t : Ty} (switchExpr : Expr t) (cond : Option (Expr .boolean)) :
    List (SwitchCase τ α) → Interpretation → Option (Interpretation × List ExecutionState)
  | [], i => some (i, [])
  | .mk node label body :: cases, i =>
    if label = .default then some (i, [])
    else
      match label.literal t with
      | none => none
      | some switchCaseLabel =>
        let switchCaseEquality := .equ switchExpr (.lit switchCaseLabel)
        let cond := (cond.map fun cond => Expr.lOr cond switchCaseEquality).getD switchCaseEquality
        caseBody cond body (i.addReachabilityMapping node switchCaseEquality)
          (fun cond i => switchCases switchExpr cond cases i)

/-- The statement of a case and the cases after it. A case without one falls through. -/
def caseBody (cond : Expr .boolean) :
    Option (List (Statement τ α)) → Interpretation →
      (Option (Expr .boolean) → Interpretation →
        Option (Interpretation × List ExecutionState)) →
      Option (Interpretation × List ExecutionState)
  | none, i, next => next (some cond) i
  | some body, i, next => do
    let caseState ← statements body
      (i.resume (i.state.pushExecutionCondition (SimplifyExpression.simplify cond)))
    let (i, accumulatedStates) ← next none (caseState.resume i.state)
    some (i, caseState.state :: accumulatedStates)

/-- The default case, which is to have a statement. -/
def defaultCase : List (SwitchCase τ α) → Interpretation → Option Interpretation
  | [], i => some i
  | .mk _ label body :: cases, i =>
    if label = .default then defaultBody body i else defaultCase cases i

def defaultBody : Option (List (Statement τ α)) → Interpretation → Option Interpretation
  | none, _ => none
  | some body, i => statements body i

end

end FlayStepper

end Flay
