import Flay.Interpreter.Control
import Flay.Lib.Acyclic
import Flay.Program.Parser

/-! `ParserStepper`: the symbolic execution of a parser. Each select case but the default one goes to
a clone of the state, and the clones are merged after the default case. -/

namespace Flay

/-- The generation of equations between the values of a select expression and a keyset, which is not
part of the repository. -/
class GenEq where
  equate : {types : List Ty} → Components Expr types →
    Components (KeysetComponent Expr) types → Expr .boolean

/-- The equation is true where the values are in the keyset. -/
class GenEq.Lawful [GenEq] : Prop where
  eval_equate : ∀ {types : List Ty} (key : Components Expr types)
    (keyset : Components (KeysetComponent Expr) types) (ρ : Valuation),
      (GenEq.equate key keyset).eval ρ =
        keyset.all₂ (fun keyset v => (keyset.map (Expr.eval ρ)).accepts v) (key.map (Expr.eval ρ))

inductive ParserFailure
  | alreadyVisited (state : String)
  | unimplemented
  | outOfFuel
deriving DecidableEq

/-- The interpreter at work on a state, with the parser states that this state has visited. -/
structure ParserExecution where
  interpretation : Interpretation
  visitedParserIds : List Int

namespace ParserExecution

def addParserId (e : ParserExecution) (parserId : Int) : ParserExecution :=
  { e with visitedParserIds := parserId :: e.visitedParserIds }

def hasVisitedParserId (e : ParserExecution) (parserId : Int) : Bool :=
  decide (parserId ∈ e.visitedParserIds)

end ParserExecution

/-- What a part of the interpreter returns, which fails where it has no rule. -/
def implemented {α : Type} : Option α → Except ParserFailure α
  | none => .error .unimplemented
  | some a => .ok a

namespace ParserStepper

/-- The components of an expression are resolved one after another. -/
def resolveComponents {F G : Ty → Type}
    (resolve : {t : Ty} → F t → Interpretation → Option (G t × Interpretation)) :
    {types : List Ty} → Components F types → Interpretation →
      Option (Components G types × Interpretation)
  | _, .nil, i => some (.nil, i)
  | _, .cons head tail, i => do
    let (head, i) ← resolve head i
    let (tail, i) ← resolveComponents resolve tail i
    some (.cons head tail, i)

def resolveExpression {t : Ty} (e : ProgramExpr Empty t) (i : Interpretation) :
    Option (Expr t × Interpretation) :=
  ExpressionResolver.computeResult SymbolicHandlers.none e i

def resolveKeyset : {t : Ty} → KeysetComponent (ProgramExpr Empty) t → Interpretation →
    Option (KeysetComponent Expr t × Interpretation)
  | _, .expression e, i => do
    let (e, i) ← resolveExpression e i
    some (.expression e, i)
  | _, .mask left right, i => do
    let (left, i) ← resolveExpression left i
    let (right, i) ← resolveExpression right i
    some (.mask left right, i)
  | _, .range left right, i => do
    let (left, i) ← resolveExpression left i
    let (right, i) ← resolveExpression right i
    some (.range left right, i)
  | _, .default, i => some (.default, i)

variable [GenEq]

/-- The condition that the values are in a keyset other than `default`. A value set only matches when
it is configured. -/
def matchCond {types : List Ty} (selectKeyExpr : Components Expr types) :
    Keyset types → Interpretation → Option (Expr .boolean × Interpretation)
  | .default, _ => none
  | .valueSet set, i =>
    let selectCaseMatchExpr := set.labels.map fun {t} label => .expression (.var label t)
    some (.lAnd (GenEq.equate selectKeyExpr selectCaseMatchExpr)
      (getParserValueSetConfigured set.controlPlaneName).expr, i)
  | .components l, i => do
    let (selectCaseMatchExpr, i) ← resolveComponents resolveKeyset l i
    some (GenEq.equate selectKeyExpr selectCaseMatchExpr, i)

/-- The condition of a case, under those that no case before matches. -/
def caseCond (notCond : Option (Expr .boolean)) (matchCond : Expr .boolean) : Expr .boolean :=
  (notCond.map fun notCond => .lAnd notCond matchCond).getD matchCond

variable {ε : Type} (p : P4Parser ε) (externs : ε → Interpretation → Option Interpretation)

def component : ParserComponent ε → Interpretation → Option Interpretation
  | .statement s, i => FlayStepper.statement SymbolicHandlers.none s i
  | .externCall call, i => externs call i

def components : List (ParserComponent ε) → Interpretation → Option Interpretation
  | [], i => some i
  | c :: l, i => do
    let i ← component externs c i
    components l i

/-- The loop of `processSelectExpression`, with the states of the cases. `step` is the visit of a
parser state. -/
def selectCases (step : ParserState ε → ParserExecution → Except ParserFailure ParserExecution)
    {types : List Ty} (selectKeyExpr : Components Expr types) :
    List (SelectCase types) → Option (Expr .boolean) → ParserExecution →
      Except ParserFailure (ParserExecution × List ExecutionState)
  | [], _, e => .ok (e, [])
  | ⟨.default, state⟩ :: _, _, e => do
    let decl ← implemented (p.findDecl state)
    let e ← step decl e
    .ok (e, [])
  | ⟨keyset, state⟩ :: cases, notCond, e => do
    let decl ← implemented (p.findDecl state)
    if e.hasVisitedParserId decl.cloneId then .error (.alreadyVisited state)
    let (matchCond, i) ← implemented (matchCond selectKeyExpr keyset e.interpretation)
    let selectState := i.resume (i.state.pushExecutionCondition (caseCond notCond matchCond))
    let selectState ← step decl
      (ParserExecution.addParserId ⟨selectState, e.visitedParserIds⟩ decl.cloneId)
    let (e, accumulatedStates) ← selectCases step selectKeyExpr cases
      (some (caseCond notCond (.lNot matchCond)))
      ⟨selectState.interpretation.resume i.state, e.visitedParserIds⟩
    .ok (e, selectState.interpretation.state :: accumulatedStates)

def processSelectExpression
    (step : ParserState ε → ParserExecution → Except ParserFailure ParserExecution)
    (selectExpr : SelectExpression) (e : ParserExecution) :
    Except ParserFailure ParserExecution := do
  let (selectKeyExpr, i) ←
    implemented (resolveComponents resolveExpression selectExpr.select e.interpretation)
  let (e, accumulatedStates) ←
    selectCases p step selectKeyExpr selectExpr.selectCases none ⟨i, e.visitedParserIds⟩
  .ok { e with
    interpretation := e.interpretation.resume
      (accumulatedStates.foldl ExecutionState.merge e.interpretation.state) }

/-- `preorder(ParserState)`, for at most the given number of states in a row. -/
def preorder : Nat → ParserState ε → ParserExecution → Except ParserFailure ParserExecution
  | 0, _, _ => .error .outOfFuel
  | fuel + 1, parserState, e =>
    if parserState.isFinal then .ok e
    else do
      let i ← implemented (components externs parserState.components e.interpretation)
      let e := { e with interpretation := i }
      match parserState.selectExpression with
      | .select selectExpr => processSelectExpression p (preorder fuel) selectExpr e
      | .path state => do
        let decl ← implemented (p.findDecl state)
        if e.hasVisitedParserId decl.cloneId then .error (.alreadyVisited state)
        preorder fuel decl (e.addParserId decl.cloneId)

/-- The part of `preorder(P4Parser)` that steps into the start state. -/
def parse (fuel : Nat) (e : ParserExecution) : Except ParserFailure ParserExecution := do
  let startState ← implemented (p.findDecl "start")
  preorder p externs fuel startState (e.addParserId startState.cloneId)

end ParserStepper

end Flay
