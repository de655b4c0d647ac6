import Flay.Program.Semantics

/-! Programs that call methods: the directions of the arguments, and what a call does to the state. -/

namespace Flay

/-- `IR::Direction`. -/
inductive Direction
  | none
  | «in»
  | inOut
  | out
deriving DecidableEq, Repr

/-- The call writes an argument of the direction. -/
def Direction.writes (direction : Direction) : Bool :=
  direction == .inOut || direction == .out

/-- A call of a method, with the directions of its parameters. A call that stands to the right of an
assignment or an initialization has the variable to its left as its result. -/
structure MethodCall where
  method : String
  parameters : List Direction
  arguments : List (Sigma (ProgramExpr Empty))
  result : Option StateVariable

/-- What a method returns, by the positions of the arguments, and the state that it leaves. -/
structure MethodResult where
  env : (x : StateVariable) → x.type.Val
  argument : Nat → (t : Ty) → t.Val
  result : (t : Ty) → t.Val

/-- What the methods do, given the values of their arguments and the state. -/
abbrev Externs : Type :=
  String → List (Sigma Ty.Val) → ((x : StateVariable) → x.type.Val) → MethodResult

/-- An argument with the direction of its parameter. -/
abbrev PassedArgument : Type := Direction × Sigma (ProgramExpr Empty)

namespace PassedArgument

/-- The value of an argument. One that is only written has none yet. -/
def eval : PassedArgument → World → Sigma Ty.Val × World
  | (.out, ⟨t, _⟩), w => (⟨t, default⟩, w)
  | (_, ⟨t, argument⟩), w =>
    let result := argument.eval Handlers.none w
    (⟨t, result.1⟩, result.2)

/-- The variable that an argument names is set to what the method returns for it. -/
def write (returned : MethodResult) (position : Nat) : PassedArgument → World → World
  | (direction, ⟨_, .path _ name t⟩), w =>
    if direction.writes then w.set ⟨name, t⟩ (returned.argument position t) else w
  | _, w => w

def evalAll : List PassedArgument → World → List (Sigma Ty.Val) × World
  | [], w => ([], w)
  | argument :: arguments, w =>
    let first := argument.eval w
    let rest := evalAll arguments first.2
    (first.1 :: rest.1, rest.2)

def writeAll (returned : MethodResult) : Nat → List PassedArgument → World → World
  | _, [], w => w
  | position, argument :: arguments, w =>
    writeAll returned (position + 1) arguments (argument.write returned position w)

end PassedArgument

namespace MethodCall

def passedArguments (call : MethodCall) : List PassedArgument := call.parameters.zip call.arguments

def writeResult (returned : MethodResult) : Option StateVariable → World → World
  | none, w => w
  | some x, w => w.set x (returned.result x.type)

/-- The arguments are evaluated from left to right and written back in the same order. -/
def run (externs : Externs) (call : MethodCall) (w : World) : World :=
  let evaluated := PassedArgument.evalAll call.passedArguments w
  let returned := externs call.method evaluated.1 evaluated.2.env
  writeResult returned call.result
    (PassedArgument.writeAll returned 0 call.passedArguments
      { evaluated.2 with env := returned.env })

end MethodCall

/-- A program without tables whose calls are calls of methods. -/
abbrev CallStatement : Type := Statement Empty MethodCall

/-- A place that a program writes: a variable, or an argument of a call. -/
inductive WrittenPlace
  | assigned (x : StateVariable)
  | passed (argument : Sigma (ProgramExpr Empty))

def MethodCall.written (call : MethodCall) : List WrittenPlace :=
  (call.passedArguments.filter fun a => a.1.writes).map (fun a => .passed a.2) ++
    call.result.toList.map .assigned

mutual

/-- The places that a program writes, in the order of the program. -/
def CallStatement.written : Statement Empty MethodCall → List WrittenPlace
  | .empty => []
  | .assignment (t := t) left _ => [.assigned ⟨left, t⟩]
  | .declaration (t := t) name _ => [.assigned ⟨name, t⟩]
  | .block components => writtenAll components
  | .ifStatement _ _ ifTrue ifFalse => CallStatement.written ifTrue ++ writtenOption ifFalse
  | .switchStatement _ cases => writtenCases cases
  | .apply table => table.elim
  | .call call => call.written

def writtenAll : List (Statement Empty MethodCall) → List WrittenPlace
  | [] => []
  | s :: l => CallStatement.written s ++ writtenAll l

def writtenOption : Option (Statement Empty MethodCall) → List WrittenPlace
  | none => []
  | some s => CallStatement.written s

def writtenCases : List (SwitchCase Empty MethodCall) → List WrittenPlace
  | [] => []
  | .mk _ _ body :: cases => writtenBody body ++ writtenCases cases

def writtenBody : Option (List (Statement Empty MethodCall)) → List WrittenPlace
  | none => []
  | some body => writtenAll body

end

/-- An execution of a program: what the methods do, and the state at the start. -/
structure Execution where
  externs : Externs
  env : (x : StateVariable) → x.type.Val

namespace Execution

def handlers (e : Execution) : Handlers Empty MethodCall where
  applyTable table := table.elim
  callAction call := call.run e.externs

def run (e : Execution) (program : CallStatement) : World := program.exec e.handlers ⟨e.env, []⟩

end Execution

/-- Assignments, declarations with initializers, calls, blocks and if statements. A block is built
statement by statement. -/
inductive CallStatement.Plain : CallStatement → Prop
  | empty : Plain .empty
  | assignment {t : Ty} (left : String) (right : ProgramExpr Empty t) : Plain (.assignment left right)
  | declaration {t : Ty} (name : String) (initializer : ProgramExpr Empty t) :
      Plain (.declaration name initializer)
  | call (methodCall : MethodCall) : Plain (.call methodCall)
  | nil : Plain (.block [])
  | cons {s : CallStatement} {l : List CallStatement} (head : Plain s) (tail : Plain (.block l)) :
      Plain (.block (s :: l))
  | ifThen {node : Node} {condition : ProgramExpr Empty .boolean} {ifTrue : CallStatement}
      (thenPlain : Plain ifTrue) : Plain (.ifStatement node condition ifTrue none)
  | ifThenElse {node : Node} {condition : ProgramExpr Empty .boolean}
      {ifTrue ifFalse : CallStatement} (thenPlain : Plain ifTrue) (elsePlain : Plain ifFalse) :
      Plain (.ifStatement node condition ifTrue (some ifFalse))

end Flay
