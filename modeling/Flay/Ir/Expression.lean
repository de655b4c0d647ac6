import Mathlib.Data.List.Basic
import Mathlib.Tactic.Common

/-! Types, literals and symbolic expressions of the intermediate representation, and the value that
an expression has under a valuation of its symbolic variables. -/

namespace Flay

/-- The base types of the program: `Type_Boolean`, `Type_Bits` and `Type_String`. -/
inductive Ty
  | boolean
  | bits (isSigned : Bool) (width : Nat)
  | string
deriving DecidableEq, Repr

abbrev Ty.Val : Ty → Type
  | .boolean => Bool
  | .bits _ width => BitVec width
  | .string => String

instance (t : Ty) : DecidableEq t.Val :=
  match t with
  | .boolean => inferInstanceAs (DecidableEq Bool)
  | .bits _ width => inferInstanceAs (DecidableEq (BitVec width))
  | .string => inferInstanceAs (DecidableEq String)

instance (t : Ty) : Inhabited t.Val :=
  match t with
  | .boolean => ⟨false⟩
  | .bits _ _ => ⟨0⟩
  | .string => ⟨""⟩

/-- `IR::Type_Bits::get(width)`. -/
abbrev Ty.bit (width : Nat) : Ty := .bits false width

/-- The labels that the interpreter and the control plane give to symbolic variables. -/
inductive SymbolLabel
  | dataPlane (label : String)
  | tableActive (table : String)
  | tableActionChoice (table : String)
  | defaultAction (table : String)
  | tableActionArgument (table action parameter : String)
  | tableKey (table field : String)
  | tableTernaryMask (table field : String)
  | tableMatchLpmPrefix (table field : String)
  | tableRangeMin (table field : String)
  | tableRangeMax (table field : String)
  | parserValueSetConfigured (name : String)
  | wildcard (label : SymbolLabel)
deriving DecidableEq, Repr

structure SymbolicVariable where
  label : SymbolLabel
  type : Ty
deriving DecidableEq, Repr

/-- A value for every symbolic variable. -/
abbrev Valuation : Type := (x : SymbolicVariable) → x.type.Val

/-- The unary operations, by the types of operand and result. -/
inductive UnaryOp : Ty → Ty → Type
  | neg {s : Bool} {w : Nat} : UnaryOp (.bits s w) (.bits s w)
  | uPlus {s : Bool} {w : Nat} : UnaryOp (.bits s w) (.bits s w)
  | cmpl {s : Bool} {w : Nat} : UnaryOp (.bits s w) (.bits s w)
  | cast (s : Bool) (w : Nat) (s' : Bool) (w' : Nat) : UnaryOp (.bits s w) (.bits s' w')
  | castToBoolean : UnaryOp (.bits false 1) .boolean
  | castFromBoolean : UnaryOp .boolean (.bits false 1)
  | slice {s : Bool} {w : Nat} (low width : Nat) : UnaryOp (.bits s w) (.bits false width)
deriving DecidableEq

/-- The binary operations apart from the logical ones and equality. -/
inductive BinaryOp : Ty → Ty → Ty → Type
  | add {s : Bool} {w : Nat} : BinaryOp (.bits s w) (.bits s w) (.bits s w)
  | sub {s : Bool} {w : Nat} : BinaryOp (.bits s w) (.bits s w) (.bits s w)
  | mul {s : Bool} {w : Nat} : BinaryOp (.bits s w) (.bits s w) (.bits s w)
  | div {s : Bool} {w : Nat} : BinaryOp (.bits s w) (.bits s w) (.bits s w)
  | mod {s : Bool} {w : Nat} : BinaryOp (.bits s w) (.bits s w) (.bits s w)
  | addSat {s : Bool} {w : Nat} : BinaryOp (.bits s w) (.bits s w) (.bits s w)
  | subSat {s : Bool} {w : Nat} : BinaryOp (.bits s w) (.bits s w) (.bits s w)
  | bAnd {s : Bool} {w : Nat} : BinaryOp (.bits s w) (.bits s w) (.bits s w)
  | bOr {s : Bool} {w : Nat} : BinaryOp (.bits s w) (.bits s w) (.bits s w)
  | bXor {s : Bool} {w : Nat} : BinaryOp (.bits s w) (.bits s w) (.bits s w)
  | shl {s : Bool} {w : Nat} {r : Bool} {v : Nat} :
      BinaryOp (.bits s w) (.bits r v) (.bits s w)
  | shr {s : Bool} {w : Nat} {r : Bool} {v : Nat} :
      BinaryOp (.bits s w) (.bits r v) (.bits s w)
  | neq {t : Ty} : BinaryOp t t .boolean
  | lss {s : Bool} {w : Nat} : BinaryOp (.bits s w) (.bits s w) .boolean
  | leq {s : Bool} {w : Nat} : BinaryOp (.bits s w) (.bits s w) .boolean
  | grt {s : Bool} {w : Nat} : BinaryOp (.bits s w) (.bits s w) .boolean
  | geq {s : Bool} {w : Nat} : BinaryOp (.bits s w) (.bits s w) .boolean
  | concat {s : Bool} {w v u : Nat} (h : w + v = u) :
      BinaryOp (.bits s w) (.bits s v) (.bits s u)
deriving DecidableEq

def UnaryOp.eval : {s t : Ty} → UnaryOp s t → s.Val → t.Val
  | _, _, .neg, a => -a
  | _, _, .uPlus, a => a
  | _, _, .cmpl, a => ~~~a
  | _, _, .cast s w _ w', (a : BitVec w) => if s then a.signExtend w' else a.setWidth w'
  | _, _, .castToBoolean, (a : BitVec 1) => a == 1#1
  | _, _, .castFromBoolean, (a : Bool) => BitVec.ofBool a
  | _, _, .slice (w := w) low width, (a : BitVec w) => a.extractLsb' low width

def BinaryOp.less (isSigned : Bool) {w : Nat} (a b : BitVec w) : Bool :=
  if isSigned then a.slt b else a.ult b

def BinaryOp.lessEqual (isSigned : Bool) {w : Nat} (a b : BitVec w) : Bool :=
  if isSigned then a.sle b else a.ule b

/-- The value of the type that is closest to the integer. -/
def BinaryOp.saturate (isSigned : Bool) (w : Nat) (a : Int) : BitVec w :=
  let low : Int := if isSigned then (BitVec.intMin w).toInt else 0
  let high : Int := if isSigned then (BitVec.intMax w).toInt else (BitVec.allOnes w).toNat
  .ofInt w (if a < low then low else if high < a then high else a)

def BinaryOp.toInt (isSigned : Bool) {w : Nat} (a : BitVec w) : Int :=
  if isSigned then a.toInt else a.toNat

def BinaryOp.eval : {s t u : Ty} → BinaryOp s t u → s.Val → t.Val → u.Val
  | _, _, _, .add, a, b => a + b
  | _, _, _, .sub, a, b => a - b
  | _, _, _, .mul, a, b => a * b
  | _, _, _, .div (s := s) (w := w), (a : BitVec w), (b : BitVec w) =>
    if s then a.smtSDiv b else a.smtUDiv b
  | _, _, _, .mod (s := s) (w := w), (a : BitVec w), (b : BitVec w) =>
    if s then a.srem b else a.umod b
  | _, _, _, .addSat (s := s) (w := w), (a : BitVec w), (b : BitVec w) =>
    saturate s w (toInt s a + toInt s b)
  | _, _, _, .subSat (s := s) (w := w), (a : BitVec w), (b : BitVec w) =>
    saturate s w (toInt s a - toInt s b)
  | _, _, _, .bAnd, a, b => a &&& b
  | _, _, _, .bOr, a, b => a ||| b
  | _, _, _, .bXor, a, b => a ^^^ b
  | _, _, _, .shl (w := w) (v := v), (a : BitVec w), (b : BitVec v) => a <<< b.toNat
  | _, _, _, .shr (s := s) (w := w) (v := v), (a : BitVec w), (b : BitVec v) =>
    if s then a.sshiftRight b.toNat else a >>> b.toNat
  | _, _, _, .neq, a, b => decide (a ≠ b)
  | _, _, _, .lss (s := s), a, b => less s a b
  | _, _, _, .leq (s := s), a, b => lessEqual s a b
  | _, _, _, .grt (s := s), a, b => less s b a
  | _, _, _, .geq (s := s), a, b => lessEqual s b a
  | _, _, _, .concat (w := w) (v := v) h, (a : BitVec w), (b : BitVec v) => (a ++ b).cast h

/-- The symbolic expressions, by their type. -/
inductive Expr : Ty → Type
  | lit {t : Ty} (value : t.Val) : Expr t
  | var (label : SymbolLabel) (t : Ty) : Expr t
  | lNot (e : Expr .boolean) : Expr .boolean
  | lAnd (left right : Expr .boolean) : Expr .boolean
  | lOr (left right : Expr .boolean) : Expr .boolean
  | equ {t : Ty} (left right : Expr t) : Expr .boolean
  | unary {s t : Ty} (op : UnaryOp s t) (e : Expr s) : Expr t
  | binary {s t u : Ty} (op : BinaryOp s t u) (left : Expr s) (right : Expr t) : Expr u
  | mux {t : Ty} (e0 : Expr .boolean) (e1 e2 : Expr t) : Expr t
deriving DecidableEq

instance (t : Ty) : Inhabited (Expr t) := ⟨.lit default⟩

abbrev Expr.true : Expr .boolean := .lit Bool.true

abbrev Expr.false : Expr .boolean := .lit Bool.false

/-- The expression that reads the variable. -/
def SymbolicVariable.expr (x : SymbolicVariable) : Expr x.type := .var x.label x.type

namespace Expr

def eval (ρ : Valuation) : {t : Ty} → Expr t → t.Val
  | _, .lit value => value
  | _, .var label t => ρ ⟨label, t⟩
  | _, .lNot e => !e.eval ρ
  | _, .lAnd left right => left.eval ρ && right.eval ρ
  | _, .lOr left right => left.eval ρ || right.eval ρ
  | _, .equ left right => decide (left.eval ρ = right.eval ρ)
  | _, .unary op e => op.eval (e.eval ρ)
  | _, .binary op left right => op.eval (left.eval ρ) (right.eval ρ)
  | _, .mux e0 e1 e2 => if e0.eval ρ then e1.eval ρ else e2.eval ρ

/-- The literal value of an expression that is a literal, as `to<IR::Literal>` reads it. -/
def literal? : {t : Ty} → Expr t → Option t.Val
  | _, .lit value => some value
  | _, _ => none

/-- The symbolic variables that occur in an expression, as `SymbolCollector` gathers them. -/
def symbols : {t : Ty} → Expr t → List SymbolicVariable
  | _, .lit _ => []
  | _, .var label t => [⟨label, t⟩]
  | _, .lNot e => e.symbols
  | _, .lAnd left right => left.symbols ++ right.symbols
  | _, .lOr left right => left.symbols ++ right.symbols
  | _, .equ left right => left.symbols ++ right.symbols
  | _, .unary _ e => e.symbols
  | _, .binary _ left right => left.symbols ++ right.symbols
  | _, .mux e0 e1 e2 => e0.symbols ++ (e1.symbols ++ e2.symbols)

/-- The expression with the variables that `σ` assigns replaced, as `SubstituteSymbolicVariable`
does it. -/
def substitute (σ : (x : SymbolicVariable) → Option (Expr x.type)) : {t : Ty} → Expr t → Expr t
  | _, .lit value => .lit value
  | _, .var label t => (σ ⟨label, t⟩).getD (.var label t)
  | _, .lNot e => .lNot (e.substitute σ)
  | _, .lAnd left right => .lAnd (left.substitute σ) (right.substitute σ)
  | _, .lOr left right => .lOr (left.substitute σ) (right.substitute σ)
  | _, .equ left right => .equ (left.substitute σ) (right.substitute σ)
  | _, .unary op e => .unary op (e.substitute σ)
  | _, .binary op left right => .binary op (left.substitute σ) (right.substitute σ)
  | _, .mux e0 e1 e2 => .mux (e0.substitute σ) (e1.substitute σ) (e2.substitute σ)

variable {t : Ty} {ρ ρ' : Valuation}

@[simp] theorem eval_lit (v : t.Val) : (lit v).eval ρ = v := (rfl)

@[simp] theorem eval_var (x : SymbolLabel) : (var x t).eval ρ = ρ ⟨x, t⟩ := (rfl)

@[simp] theorem eval_expr (x : SymbolicVariable) : x.expr.eval ρ = ρ x := eval_var x.label

@[simp] theorem eval_lNot (e : Expr .boolean) : (lNot e).eval ρ = !e.eval ρ := (rfl)

@[simp] theorem eval_lAnd (a b : Expr .boolean) :
    (lAnd a b).eval ρ = (a.eval ρ && b.eval ρ) := (rfl)

@[simp] theorem eval_lOr (a b : Expr .boolean) :
    (lOr a b).eval ρ = (a.eval ρ || b.eval ρ) := (rfl)

@[simp] theorem eval_equ (a b : Expr t) :
    (equ a b).eval ρ = decide (a.eval ρ = b.eval ρ) := (rfl)

@[simp] theorem eval_unary {s : Ty} (op : UnaryOp s t) (e : Expr s) :
    (unary op e).eval ρ = op.eval (e.eval ρ) := (rfl)

@[simp] theorem eval_binary {s u : Ty} (op : BinaryOp s t u) (a : Expr s) (b : Expr t) :
    (binary op a b).eval ρ = op.eval (a.eval ρ) (b.eval ρ) := (rfl)

@[simp] theorem eval_mux (c : Expr .boolean) (a b : Expr t) :
    (mux c a b).eval ρ = if c.eval ρ then a.eval ρ else b.eval ρ := (rfl)

theorem eval_of_literal? {e : Expr t} {v : t.Val} (h : e.literal? = some v) : e.eval ρ = v := by
  cases e <;> simp_all [literal?]

/-- An expression reads no variables but its own. -/
theorem eval_congr {e : Expr t} (h : ∀ x ∈ e.symbols, ρ x = ρ' x) : e.eval ρ = e.eval ρ' := by
  induction e with
  | lit value => simp
  | var label t => simpa using h _ (by simp [symbols])
  | lNot e ih => simp [ih h]
  | lAnd left right ihLeft ihRight | lOr left right ihLeft ihRight
  | equ left right ihLeft ihRight | binary op left right ihLeft ihRight =>
    simp only [symbols, List.mem_append] at h
    simp [ihLeft fun x hx => h x (.inl hx), ihRight fun x hx => h x (.inr hx)]
  | unary op e ih => simp [ih h]
  | mux e0 e1 e2 ih0 ih1 ih2 =>
    simp only [symbols, List.mem_append] at h
    simp [ih0 fun x hx => h x (.inl hx), ih1 fun x hx => h x (.inr (.inl hx)),
      ih2 fun x hx => h x (.inr (.inr hx))]

/-- The valuation in which an assigned variable has the value of what is assigned to it. -/
def assigned (σ : (x : SymbolicVariable) → Option (Expr x.type)) (ρ : Valuation) : Valuation :=
  fun x => ((σ x).map fun e => e.eval ρ).getD (ρ x)

theorem eval_substitute (σ : (x : SymbolicVariable) → Option (Expr x.type)) (e : Expr t) :
    (e.substitute σ).eval ρ = e.eval (assigned σ ρ) := by
  induction e with
  | var label t => cases h : σ ⟨label, t⟩ <;> simp [substitute, assigned, h]
  | lit => simp [substitute]
  | lNot e ih | unary op e ih => simp [substitute, ih]
  | lAnd left right ihLeft ihRight | lOr left right ihLeft ihRight
  | equ left right ihLeft ihRight | binary op left right ihLeft ihRight =>
    simp [substitute, ihLeft, ihRight]
  | mux e0 e1 e2 ih0 ih1 ih2 => simp [substitute, ih0, ih1, ih2]

/-- Substitution looks at the assignments of the variables that occur, and at no others. -/
theorem substitute_congr {σ τ : (x : SymbolicVariable) → Option (Expr x.type)} {e : Expr t}
    (h : ∀ x ∈ e.symbols, σ x = τ x) : e.substitute σ = e.substitute τ := by
  induction e with
  | lit => rfl
  | var label t => simp [substitute, h _ (List.mem_singleton.mpr rfl)]
  | lNot e ih | unary op e ih => simp [substitute, ih h]
  | lAnd left right ihLeft ihRight | lOr left right ihLeft ihRight
  | equ left right ihLeft ihRight | binary op left right ihLeft ihRight =>
    simp only [symbols, List.mem_append] at h
    simp [substitute, ihLeft fun x hx => h x (.inl hx), ihRight fun x hx => h x (.inr hx)]
  | mux e0 e1 e2 ih0 ih1 ih2 =>
    simp only [symbols, List.mem_append] at h
    simp [substitute, ih0 fun x hx => h x (.inl hx), ih1 fun x hx => h x (.inr (.inl hx)),
      ih2 fun x hx => h x (.inr (.inr hx))]

/-- What occurs after a substitution is unassigned, or occurs in what is assigned. -/
theorem free_of_mem_symbols_substitute {σ : (x : SymbolicVariable) → Option (Expr x.type)}
    {e : Expr t} {x : SymbolicVariable} (h : x ∈ (e.substitute σ).symbols) :
    σ x = none ∨ ∃ y v, σ y = some v ∧ x ∈ v.symbols := by
  induction e with
  | lit value => cases h
  | var label t =>
    rw [substitute] at h
    cases found : σ ⟨label, t⟩ with
    | none =>
      rw [found] at h
      exact .inl (List.mem_singleton.mp h ▸ found)
    | some v =>
      rw [found] at h
      exact .inr ⟨_, v, found, h⟩
  | lNot e ih | unary op e ih => exact ih h
  | lAnd left right ihLeft ihRight | lOr left right ihLeft ihRight
  | equ left right ihLeft ihRight | binary op left right ihLeft ihRight =>
    exact (List.mem_append.mp h).elim ihLeft ihRight
  | mux e0 e1 e2 ih0 ih1 ih2 =>
    rcases List.mem_append.mp h with h | h
    · exact ih0 h
    · exact (List.mem_append.mp h).elim ih1 ih2

end Expr

end Flay
