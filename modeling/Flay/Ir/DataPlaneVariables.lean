import Flay.Ir.Expression

/-! `DataPlaneVariablePropagator`: operations on data-plane variables collapse to one of their
operands, or to a new data-plane variable. -/

namespace Flay

def SymbolLabel.isDataPlane : SymbolLabel → Bool
  | .dataPlane _ => true
  | _ => false

/-- `Type::width_bits`. -/
def Ty.widthBits : Ty → Nat
  | .boolean => 1
  | .bits _ width => width
  | .string => 0

/-- An expression as the compiler keeps it. The operands of an operation need not have the types
that the operation is for, after a pass has replaced them. -/
inductive IrExpression
  | lit {t : Ty} (value : t.Val)
  | var (label : SymbolLabel) (t : Ty)
  | lNot (e : IrExpression)
  | lAnd (left right : IrExpression)
  | lOr (left right : IrExpression)
  | equ (t : Ty) (left right : IrExpression)
  | unary {s t : Ty} (op : UnaryOp s t) (e : IrExpression)
  | binary {s t u : Ty} (op : BinaryOp s t u) (left right : IrExpression)
  | mux (t : Ty) (e0 e1 e2 : IrExpression)

/-- The expression in the compiler's form. -/
def Expr.ir : {t : Ty} → Expr t → IrExpression
  | _, .lit value => .lit value
  | _, .var label t => .var label t
  | _, .lNot e => .lNot e.ir
  | _, .lAnd left right => .lAnd left.ir right.ir
  | _, .lOr left right => .lOr left.ir right.ir
  | _, .equ (t := t) left right => .equ t left.ir right.ir
  | _, .unary op e => .unary op e.ir
  | _, .binary op left right => .binary op left.ir right.ir
  | t, .mux e0 e1 e2 => .mux t e0.ir e1.ir e2.ir

def UnaryOp.isCast {s t : Ty} : UnaryOp s t → Bool
  | .cast _ _ _ _ | .castToBoolean | .castFromBoolean => true
  | _ => false

/-- The lowest bit and the width of a slice. -/
def UnaryOp.slice? {s t : Ty} : UnaryOp s t → Option (Nat × Nat)
  | .slice low width => some (low, width)
  | _ => none

def BinaryOp.isRelation {s t u : Ty} : BinaryOp s t u → Bool
  | .neq | .lss | .leq | .grt | .geq => true
  | _ => false

def BinaryOp.isConcat {s t u : Ty} : BinaryOp s t u → Bool
  | .concat _ => true
  | _ => false

namespace IrExpression

def type : IrExpression → Ty
  | .lit (t := t) _ => t
  | .var _ t => t
  | .lNot _ | .lAnd _ _ | .lOr _ _ | .equ _ _ _ => .boolean
  | .unary (t := t) _ _ => t
  | .binary (u := u) _ _ _ => u
  | .mux t _ _ _ => t

def boolLiteral? : IrExpression → Option Bool
  | .lit (t := .boolean) value => some value
  | _ => none

def constant? : IrExpression → Option Nat
  | .lit (t := .bits _ _) value => some value.toNat
  | _ => none

def isDataPlaneVariable : IrExpression → Bool
  | .var label _ => label.isDataPlane
  | _ => false

def symbols : IrExpression → List SymbolicVariable
  | .lit _ => []
  | .var label t => [⟨label, t⟩]
  | .lNot e => e.symbols
  | .lAnd left right => left.symbols ++ right.symbols
  | .lOr left right => left.symbols ++ right.symbols
  | .equ _ left right => left.symbols ++ right.symbols
  | .unary _ e => e.symbols
  | .binary _ left right => left.symbols ++ right.symbols
  | .mux _ e0 e1 e2 => e0.symbols ++ (e1.symbols ++ e2.symbols)

/-- The positions of the operations that the pass visits. -/
def positions : List Nat → IrExpression → List (List Nat)
  | position, .lit _ => [position]
  | position, .var _ _ => [position]
  | position, .lNot e => position :: e.positions (0 :: position)
  | position, .lAnd left right =>
    position :: (left.positions (0 :: position) ++ right.positions (1 :: position))
  | position, .lOr left right =>
    position :: (left.positions (0 :: position) ++ right.positions (1 :: position))
  | position, .equ _ left right =>
    position :: (left.positions (0 :: position) ++ right.positions (1 :: position))
  | position, .unary _ e => position :: e.positions (0 :: position)
  | position, .binary _ left right =>
    position :: (left.positions (0 :: position) ++ right.positions (1 :: position))
  | position, .mux _ _ _ _ => [position]

end IrExpression

namespace DataPlaneVariablePropagator

/-- The bits below the width, as a number whose bits are the members. -/
def fullmask (width : Nat) : Nat := (1 <<< width) - 1

/-- A single tainted bit taints an operation that may overflow. -/
def overflowBits (width left right : Nat) : Nat :=
  if left = 0 ∧ right = 0 then 0 else fullmask width

/-- The tainted bits of a binary operation, by those of its operands. -/
def computeBinaryBits {s t u : Ty} (op : BinaryOp s t u) (left right rightWidth : Nat)
    (shiftConst : Option Nat) : Nat :=
  match op, shiftConst with
  | .concat _, _ => (left <<< rightWidth) ||| right
  | .shl (w := w), some shift => fullmask w &&& (left <<< shift)
  | .shr, some shift => left >>> shift
  | .shl (w := w), none | .shr (w := w), none => fullmask w
  | .bAnd, _ | .bOr, _ | .bXor, _ => left ||| right
  | _, _ => overflowBits u.widthBits left right

def computeDataPlaneBits : IrExpression → Nat
  | .lit _ => 0
  | .var label t => if label.isDataPlane then fullmask t.widthBits else 0
  | .lNot e => computeDataPlaneBits e
  | .lAnd left right | .lOr left right | .equ _ left right =>
    overflowBits 1 (computeDataPlaneBits left) (computeDataPlaneBits right)
  | .unary op e =>
    match op.slice? with
    | some (low, width) => (computeDataPlaneBits e >>> low) &&& fullmask width
    | none => computeDataPlaneBits e
  | .binary op left right =>
    computeBinaryBits op (computeDataPlaneBits left) (computeDataPlaneBits right)
      right.type.widthBits right.constant?
  | .mux _ _ e1 e2 => computeDataPlaneBits e1 &&& computeDataPlaneBits e2

def hasDataPlaneVariable : IrExpression → Bool
  | .lit _ => false
  | .var label _ => label.isDataPlane
  | .lNot e => hasDataPlaneVariable e
  | .lAnd left right =>
    if left.boolLiteral? = some false then false
    else hasDataPlaneVariable left || hasDataPlaneVariable right
  | .lOr left right =>
    if left.boolLiteral? = some true then false
    else hasDataPlaneVariable left || hasDataPlaneVariable right
  | .equ _ left right => hasDataPlaneVariable left || hasDataPlaneVariable right
  | .unary op e =>
    match op.slice? with
    | some (low, width) => computeDataPlaneBits e &&& (fullmask width <<< low) != 0
    | none => hasDataPlaneVariable e
  | .binary _ left right => hasDataPlaneVariable left || hasDataPlaneVariable right
  | .mux _ _ e1 e2 => hasDataPlaneVariable e1 && hasDataPlaneVariable e2

/-- `postorder` of a unary operation. -/
def postorderUnary (unaryOp e : IrExpression) : IrExpression :=
  if hasDataPlaneVariable e then e else unaryOp

/-- `postorder` of a binary operation. -/
def postorderBinary (binOp left right : IrExpression) : IrExpression :=
  if hasDataPlaneVariable left then left
  else if hasDataPlaneVariable right then right
  else binOp

/-- `postorder` of an `LAnd`, with the variable that it draws. -/
def postorderLAnd (drawn : String) (left right : IrExpression) : IrExpression :=
  if left.isDataPlaneVariable && right.isDataPlaneVariable then .var (.dataPlane drawn) .boolean
  else .lAnd left right

/-- `postorder` of a relation. -/
def postorderRelation (drawn : String) (relOp left right : IrExpression) : IrExpression :=
  if hasDataPlaneVariable left || hasDataPlaneVariable right then .var (.dataPlane drawn) .boolean
  else relOp

/-- `postorder` of a slice. -/
def postorderSlice (drawn : String) (slice : IrExpression) (width : Nat) : IrExpression :=
  if hasDataPlaneVariable slice then .var (.dataPlane drawn) (.bit width) else slice

/-- `preorder` of a `Mux`, which does not go into it. -/
def preorderMux (drawn : String) (t : Ty) (e0 e1 e2 : IrExpression) : IrExpression :=
  if hasDataPlaneVariable e1 && hasDataPlaneVariable e2 then .var (.dataPlane drawn) t
  else .mux t e0 e1 e2

/-- The pass, on the expression at the position. `generateRandomString` has drawn a string for each
position. -/
def apply (generateRandomString : List Nat → String) :
    List Nat → IrExpression → IrExpression
  | _, .lit value => .lit value
  | _, .var label t => .var label t
  | position, .lNot e =>
    let e := apply generateRandomString (0 :: position) e
    postorderUnary (.lNot e) e
  | position, .lAnd left right =>
    postorderLAnd (generateRandomString position)
      (apply generateRandomString (0 :: position) left)
      (apply generateRandomString (1 :: position) right)
  | position, .lOr left right =>
    let left := apply generateRandomString (0 :: position) left
    let right := apply generateRandomString (1 :: position) right
    postorderBinary (.lOr left right) left right
  | position, .equ t left right =>
    let left := apply generateRandomString (0 :: position) left
    let right := apply generateRandomString (1 :: position) right
    postorderRelation (generateRandomString position) (.equ t left right) left right
  | position, .unary op e =>
    let e := apply generateRandomString (0 :: position) e
    match op.slice? with
    | some (_, width) => postorderSlice (generateRandomString position) (.unary op e) width
    | none => if op.isCast then .unary op e else postorderUnary (.unary op e) e
  | position, .binary op left right =>
    let left := apply generateRandomString (0 :: position) left
    let right := apply generateRandomString (1 :: position) right
    if op.isConcat then .binary op left right
    else if op.isRelation then
      postorderRelation (generateRandomString position) (.binary op left right) left right
    else postorderBinary (.binary op left right) left right
  | position, .mux t e0 e1 e2 => preorderMux (generateRandomString position) t e0 e1 e2

/-- What the pass reads of an expression: its type, whether it is a literal or a data-plane variable,
and what the analysis of its data-plane variables says. -/
structure Shape where
  type : Ty
  boolLiteral? : Option Bool
  constant? : Option Nat
  isDataPlaneVariable : Bool
  hasDataPlaneVariable : Bool
  dataPlaneBits : Nat

end DataPlaneVariablePropagator

open DataPlaneVariablePropagator in
def IrExpression.shape (e : IrExpression) : Shape :=
  ⟨e.type, e.boolLiteral?, e.constant?, e.isDataPlaneVariable, hasDataPlaneVariable e,
    computeDataPlaneBits e⟩

namespace DataPlaneVariablePropagator

/-- The shape of an operation. -/
def Shape.operation (t : Ty) (hasDataPlaneVariable : Bool) (dataPlaneBits : Nat) : Shape :=
  ⟨t, none, none, false, hasDataPlaneVariable, dataPlaneBits⟩

/-- The shape of a data-plane variable. -/
def Shape.variable (t : Ty) : Shape := ⟨t, none, none, true, true, fullmask t.widthBits⟩

/-- What becomes of an operation: an operand takes its place, or a variable that is drawn, or it
stays. -/
inductive Fate
  | left
  | right
  | drawn
  | stays
deriving DecidableEq

namespace Fate

def choose {α : Sort*} (ofLeft ofRight ofDrawn ofStays : α) : Fate → α
  | left => ofLeft
  | right => ofRight
  | drawn => ofDrawn
  | stays => ofStays

def drawnIf (collapses : Bool) : Fate := if collapses then drawn else stays

/-- The fate of an operation on the operand. -/
def unary (e : Shape) : Fate := if e.hasDataPlaneVariable then left else stays

def lAnd (left right : Shape) : Fate :=
  drawnIf (left.isDataPlaneVariable && right.isDataPlaneVariable)

def relation (left right : Shape) : Fate :=
  drawnIf (left.hasDataPlaneVariable || right.hasDataPlaneVariable)

/-- The fate of any other operation on the operands. -/
def binary (left right : Shape) : Fate :=
  if left.hasDataPlaneVariable then .left
  else if right.hasDataPlaneVariable then .right
  else stays

def ofUnary {s t : Ty} (op : UnaryOp s t) (e : Shape) : Fate :=
  match op.slice? with
  | some (low, width) => drawnIf (e.dataPlaneBits &&& (fullmask width <<< low) != 0)
  | none => if op.isCast then stays else unary e

def ofBinary {s t u : Ty} (op : BinaryOp s t u) (left right : Shape) : Fate :=
  if op.isConcat then stays
  else if op.isRelation then relation left right
  else binary left right

end Fate

/-- The shape of a unary operation on an operand of the shape. -/
def Shape.ofUnary {s t : Ty} (op : UnaryOp s t) (e : Shape) : Shape :=
  match op.slice? with
  | some (low, width) =>
    operation t (e.dataPlaneBits &&& (fullmask width <<< low) != 0)
      ((e.dataPlaneBits >>> low) &&& fullmask width)
  | none => operation t e.hasDataPlaneVariable e.dataPlaneBits

def Shape.ofBinary {s t u : Ty} (op : BinaryOp s t u) (left right : Shape) : Shape :=
  operation u (left.hasDataPlaneVariable || right.hasDataPlaneVariable)
    (computeBinaryBits op left.dataPlaneBits right.dataPlaneBits right.type.widthBits
      right.constant?)

/-- The shape of a logical operation, which the literal on the left decides. -/
def Shape.ofLogical (decides : Bool) (left right : Shape) : Shape :=
  operation .boolean
    (if left.boolLiteral? = some decides then false
      else left.hasDataPlaneVariable || right.hasDataPlaneVariable)
    (overflowBits 1 left.dataPlaneBits right.dataPlaneBits)

def Shape.ofEqu (left right : Shape) : Shape :=
  operation .boolean (left.hasDataPlaneVariable || right.hasDataPlaneVariable)
    (overflowBits 1 left.dataPlaneBits right.dataPlaneBits)

/-- The shape of what becomes of an expression, from the expression alone. -/
def shape : {t : Ty} → Expr t → Shape
  | _, .lit value => (Expr.lit value).ir.shape
  | t, .var label _ => (Expr.var label t).ir.shape
  | _, .lNot e =>
    (Fate.unary (shape e)).choose (shape e) (shape e) (.variable .boolean)
      (.operation .boolean (shape e).hasDataPlaneVariable (shape e).dataPlaneBits)
  | _, .lAnd left right =>
    (Fate.lAnd (shape left) (shape right)).choose (shape left) (shape right) (.variable .boolean)
      (.ofLogical false (shape left) (shape right))
  | _, .lOr left right =>
    (Fate.binary (shape left) (shape right)).choose (shape left) (shape right) (.variable .boolean)
      (.ofLogical true (shape left) (shape right))
  | _, .equ left right =>
    (Fate.relation (shape left) (shape right)).choose (shape left) (shape right)
      (.variable .boolean) (.ofEqu (shape left) (shape right))
  | t, .unary op e =>
    (Fate.ofUnary op (shape e)).choose (shape e) (shape e) (.variable t) (.ofUnary op (shape e))
  | u, .binary op left right =>
    (Fate.ofBinary op (shape left) (shape right)).choose (shape left) (shape right) (.variable u)
      (.ofBinary op (shape left) (shape right))
  | t, .mux e0 e1 e2 =>
    if hasDataPlaneVariable e1.ir && hasDataPlaneVariable e2.ir then .variable t
    else (Expr.mux e0 e1 e2).ir.shape

section Apply

variable {generateRandomString : List Nat → String} {position : List Nat}

end Apply

end DataPlaneVariablePropagator

end Flay
