import Flay.Ir.Expression

/-! The part of a P4 program that the analysis steps through: expressions, statements, actions and
tables, each node that an annotation may name with its identity. -/

namespace Flay

/-- The identity of a node of the program, its source id. -/
abbrev Node : Type := Nat

/-- An expression of the program whose type is `Type_Bits`. -/
structure ExpressionNode where
  node : Node
  isSigned : Bool
  width : Nat
deriving DecidableEq

abbrev ExpressionNode.type (e : ExpressionNode) : Ty := .bits e.isSigned e.width

/-- A variable of the program state, by name and type. -/
structure StateVariable where
  name : String
  type : Ty
deriving DecidableEq, Repr

/-- The expressions of a program over the tables `τ`, whose application has the members `hit`,
`miss` and `action_run`. -/
inductive ProgramExpr (τ : Type) : Ty → Type
  | lit {t : Ty} (value : t.Val) : ProgramExpr τ t
  | path (node : Node) (name : String) (t : Ty) : ProgramExpr τ t
  | hit (node : Node) (table : τ) : ProgramExpr τ .boolean
  | miss (node : Node) (table : τ) : ProgramExpr τ .boolean
  | actionRun (table : τ) : ProgramExpr τ .string
  | lNot (e : ProgramExpr τ .boolean) : ProgramExpr τ .boolean
  | lAnd (left right : ProgramExpr τ .boolean) : ProgramExpr τ .boolean
  | lOr (left right : ProgramExpr τ .boolean) : ProgramExpr τ .boolean
  | equ {t : Ty} (left right : ProgramExpr τ t) : ProgramExpr τ .boolean
  | neq {t : Ty} (left right : ProgramExpr τ t) : ProgramExpr τ .boolean
  | unary {s t : Ty} (op : UnaryOp s t) (e : ProgramExpr τ s) : ProgramExpr τ t
  | binary {s t u : Ty} (op : BinaryOp s t u) (left : ProgramExpr τ s) (right : ProgramExpr τ t) :
      ProgramExpr τ u
  | mux {t : Ty} (e0 : ProgramExpr τ .boolean) (e1 e2 : ProgramExpr τ t) : ProgramExpr τ t

/-- The label of a switch case: a constant, the name of an action, or `default`. -/
inductive SwitchLabel
  | constant (value : Int)
  | path (name : String)
  | default
deriving DecidableEq, Repr

/-- The value of a label against an expression of the type, if it is a label for one. -/
def SwitchLabel.literal : (t : Ty) → SwitchLabel → Option t.Val
  | .bits _ width, .constant value => some (BitVec.ofInt width value)
  | .string, .path name => some name
  | _, _ => none

mutual

/-- The statements over tables `τ` and callable actions `α`. -/
inductive Statement (τ α : Type)
  | empty
  | assignment {t : Ty} (left : String) (right : ProgramExpr τ t)
  | declaration {t : Ty} (name : String) (initializer : ProgramExpr τ t)
  | block (components : List (Statement τ α))
  | ifStatement (node : Node) (condition : ProgramExpr τ .boolean) (ifTrue : Statement τ α)
      (ifFalse : Option (Statement τ α))
  | switchStatement {t : Ty} (expression : ProgramExpr τ t) (cases : List (SwitchCase τ α))
  | apply (table : τ)
  | call (action : α)

/-- A case without a statement falls through to the next one. -/
inductive SwitchCase (τ α : Type)
  | mk (node : Node) (label : SwitchLabel) (statement : Option (List (Statement τ α)))

end

namespace SwitchCase

variable {τ α : Type}

def node : SwitchCase τ α → Node
  | mk node _ _ => node

def label : SwitchCase τ α → SwitchLabel
  | mk _ label _ => label

def statement : SwitchCase τ α → Option (List (Statement τ α))
  | mk _ _ statement => statement

end SwitchCase

/-- A body that applies no table and calls no action. -/
abbrev ActionBody : Type := List (Statement Empty Empty)

structure Parameter where
  name : String
  controlPlaneName : String
  type : Ty
deriving DecidableEq, Repr

/-- The variable that holds the argument. -/
def Parameter.reference (p : Parameter) : StateVariable := ⟨p.name, p.type⟩

/-- The name that stands for no action of the control plane. No identifier is like it. -/
def noAction : String := "*NONE*"

structure P4Action where
  controlPlaneName : String
  parameters : List Parameter
  body : ActionBody
  named : controlPlaneName ≠ noAction
  distinct : (parameters.map Parameter.controlPlaneName).Nodup

/-- An action with a literal for each of its parameters. -/
structure ActionCall where
  path : String
  action : P4Action
  arguments : List (Sigma fun p : Parameter => p.type.Val)
  complete : arguments.map Sigma.fst = action.parameters

/-- A call without arguments is complete for an action without parameters. -/
theorem ActionCall.complete_nil :
    ([] : List (Sigma fun p : Parameter => p.type.Val)).map Sigma.fst = [] := rfl

/-- An element of the action list of a table. -/
structure ActionListElement where
  node : Node
  path : String
  action : P4Action
  defaultOnly : Bool
  tableOnly : Bool

/-- The kinds of match that the target supports. A selector key is no part of the match: it is for
the choice of a member of an action selector. -/
inductive MatchKind
  | exact
  | ternary
  | lpm
  | optional
  | range
  | selector
deriving DecidableEq, Repr

structure KeyElement where
  name : String
  matchType : MatchKind
  isSigned : Bool
  width : Nat
  expression : ProgramExpr Empty (.bits isSigned width)

abbrev KeyElement.type (key : KeyElement) : Ty := .bits key.isSigned key.width

/-- The match of a table entry on one key. -/
inductive EntryKey (t : Ty)
  | literal (value : t.Val)
  | mask (left right : t.Val)
  | range (left right : t.Val)
  | default

/-- An entry that the program gives a table. -/
structure Entry (keys : List KeyElement) where
  components : List (Sigma fun key : KeyElement => EntryKey key.type)
  complete : components.map Sigma.fst = keys
  action : ActionCall
  priority : Option Int

structure P4Table where
  controlPlaneName : String
  key : List KeyElement
  actionList : List ActionListElement
  defaultAction : ActionCall
  entries : List (Entry key)
  isImmutable : Bool

/-- The statements of a control block. -/
abbrev ControlStatement : Type := Statement P4Table ActionCall

end Flay
