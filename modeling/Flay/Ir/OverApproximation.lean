import Flay.Ir.DataPlaneVariables

/-! When the collapse of data-plane operations only over-approximates: an operand that takes the place
of operations must take the values that they take. -/

namespace Flay

namespace Expr

variable {t : Ty}

end Expr

namespace DataPlaneVariablePropagator

/-- The fate of the operation at the root. -/
def fate : {t : Ty} → Expr t → Fate
  | _, .lit _ | _, .var _ _ => .stays
  | _, .lNot e => .unary (shape e)
  | _, .lAnd left right => .lAnd (shape left) (shape right)
  | _, .lOr left right => .binary (shape left) (shape right)
  | _, .equ left right => .relation (shape left) (shape right)
  | _, .unary op e => .ofUnary op (shape e)
  | _, .binary op left right => .ofBinary op (shape left) (shape right)
  | _, .mux _ e1 e2 => .drawnIf (hasDataPlaneVariable e1.ir && hasDataPlaneVariable e2.ir)

/-- The variables of the expression that are left. -/
def surviving : {t : Ty} → Expr t → List SymbolicVariable
  | _, .lit _ => []
  | _, .var label t => [⟨label, t⟩]
  | _, .lNot e => (fate (.lNot e)).choose (surviving e) (surviving e) [] (surviving e)
  | _, .lAnd left right => (fate (.lAnd left right)).choose (surviving left) (surviving right) []
    (surviving left ++ surviving right)
  | _, .lOr left right => (fate (.lOr left right)).choose (surviving left) (surviving right) []
    (surviving left ++ surviving right)
  | _, .equ left right => (fate (.equ left right)).choose (surviving left) (surviving right) []
    (surviving left ++ surviving right)
  | _, .unary op e => (fate (.unary op e)).choose (surviving e) (surviving e) [] (surviving e)
  | _, .binary op left right =>
    (fate (.binary op left right)).choose (surviving left) (surviving right) []
      (surviving left ++ surviving right)
  | _, .mux e0 e1 e2 =>
    if fate (.mux e0 e1 e2) = .drawn then [] else (Expr.mux e0 e1 e2).symbols

/-- By a change of these variables, the expression takes every value that the target has. -/
def Takes (changes : SymbolicVariable → Prop) {s t : Ty} (e : Expr s) (target : Expr t) : Prop :=
  s = t ∧ ∀ ρ : Valuation, ∃ ρ' : Valuation,
    (∀ x, ¬changes x → ρ' x = ρ x) ∧ HEq (e.eval ρ') (target.eval ρ)

/-- What is left of the expression stands for the target. An operand that takes the place of the
operation stands for the target instead, a variable that is drawn need only have its type, and an
operation that stays takes its values, while what is left of its operands stands for them, each by
variables that are not left in the other. -/
def Covers : {s : Ty} → Expr s → (SymbolicVariable → Prop) → {t : Ty} → Expr t → Prop
  | _, .lit value, changes, _, target => Takes changes (.lit value) target
  | _, .var label s, changes, _, target => Takes changes (.var label s) target
  | _, .lNot e, changes, t, target =>
    (fate (.lNot e)).choose (Covers e changes target) (Covers e changes target) (Ty.boolean = t)
      (Covers e changes e ∧ Takes changes (.lNot e) target)
  | _, .lAnd left right, changes, t, target =>
    (fate (.lAnd left right)).choose (Covers left changes target) (Covers right changes target)
      (Ty.boolean = t) (Covers left (fun x => changes x ∧ x ∉ surviving right) left ∧
        Covers right (fun x => changes x ∧ x ∉ surviving left) right ∧
          Takes changes (.lAnd left right) target)
  | _, .lOr left right, changes, t, target =>
    (fate (.lOr left right)).choose (Covers left changes target) (Covers right changes target)
      (Ty.boolean = t) (Covers left (fun x => changes x ∧ x ∉ surviving right) left ∧
        Covers right (fun x => changes x ∧ x ∉ surviving left) right ∧
          Takes changes (.lOr left right) target)
  | _, .equ left right, changes, t, target =>
    (fate (.equ left right)).choose (Covers left changes target) (Covers right changes target)
      (Ty.boolean = t) (Covers left (fun x => changes x ∧ x ∉ surviving right) left ∧
        Covers right (fun x => changes x ∧ x ∉ surviving left) right ∧
          Takes changes (.equ left right) target)
  | s, .unary op e, changes, t, target =>
    (fate (.unary op e)).choose (Covers e changes target) (Covers e changes target) (s = t)
      (Covers e changes e ∧ Takes changes (.unary op e) target)
  | s, .binary op left right, changes, t, target =>
    (fate (.binary op left right)).choose (Covers left changes target) (Covers right changes target)
      (s = t) (Covers left (fun x => changes x ∧ x ∉ surviving right) left ∧
        Covers right (fun x => changes x ∧ x ∉ surviving left) right ∧
          Takes changes (.binary op left right) target)
  | s, .mux e0 e1 e2, changes, t, target =>
    if fate (.mux e0 e1 e2) = .drawn then s = t else Takes changes (.mux e0 e1 e2) target

variable {generateRandomString : List Nat → String} {positions : List (List Nat)}
  {position : List Nat}

section Fates

end Fates

variable (generateRandomString)

/-- The strings drawn at the positions are distinct, and none of them is the label of a variable of
the expression. -/
structure Fresh (positions : List (List Nat)) {t : Ty} (e : Expr t) : Prop where
  injective : ∀ p ∈ positions, ∀ q ∈ positions,
    generateRandomString p = generateRandomString q → p = q
  unused : ∀ x ∈ e.symbols, ∀ p ∈ positions, x.label ≠ .dataPlane (generateRandomString p)

/-- The variable is one that the pass draws at the position or below it. -/
def Drawn (positions : List (List Nat)) (position : List Nat) (x : SymbolicVariable) : Prop :=
  ∃ below ∈ positions, position <:+ below ∧ x.label = .dataPlane (generateRandomString below)

variable {generateRandomString}

theorem Drawn.here {x : SymbolicVariable} (mem : position ∈ positions)
    (label : x.label = .dataPlane (generateRandomString position)) :
    Drawn generateRandomString positions position x :=
  ⟨position, mem, List.suffix_rfl, label⟩

section Surviving

variable {x : SymbolicVariable} {becomes : Fate} {t : Ty} {left right : List SymbolicVariable}

end Surviving

/-- The variables that may differ between the valuations of a target and of the result. -/
def Changes (generateRandomString : List Nat → String) (positions : List (List Nat))
    (position : List Nat) (changes : SymbolicVariable → Prop) (x : SymbolicVariable) : Prop :=
  changes x ∨ Drawn generateRandomString positions position x

/-- The result is an expression of the type, and it takes the value of the target when no other
variables than those change. -/
def Simulates (changes : SymbolicVariable → Prop) {t : Ty} (target : Expr t)
    (result : IrExpression) : Prop :=
  ∃ e : Expr t, result = e.ir ∧
    ∀ ρ : Valuation, ∃ ρ' : Valuation, (∀ x, ¬changes x → ρ' x = ρ x) ∧
      e.eval ρ' = target.eval ρ

/-- No string that is drawn is the label of one of the variables. -/
def Unused (generateRandomString : List Nat → String) (positions : List (List Nat))
    (changes : SymbolicVariable → Prop) (symbols : List SymbolicVariable) : Prop :=
  ∀ x, changes x ∨ x ∈ symbols → ∀ p ∈ positions, x.label ≠ .dataPlane (generateRandomString p)

theorem Unused.mono {changes changes' : SymbolicVariable → Prop}
    {symbols symbols' : List SymbolicVariable}
    (h : Unused generateRandomString positions changes symbols)
    (fewer : ∀ x, changes' x → changes x) (less : ∀ x ∈ symbols', x ∈ symbols) :
    Unused generateRandomString positions changes' symbols' :=
  fun x occurs => h x (occurs.imp (fewer x) (less x))

section Steps

variable {s t u v : Ty} {changes changes' : SymbolicVariable → Prop} {result : IrExpression}

theorem Simulates.mono {target : Expr t} (h : Simulates changes target result)
    (more : ∀ x, changes x → changes' x) : Simulates changes' target result := by
  obtain ⟨e, ir, simulates⟩ := h
  refine ⟨e, ir, fun ρ => ?_⟩
  obtain ⟨ρ', same, value⟩ := simulates ρ
  exact ⟨ρ', fun x unchanged => same x fun changed => unchanged (more x changed), value⟩

theorem Takes.simulated {e : Expr s} {target : Expr t} (takes : Takes changes e target) :
    Simulates changes target e.ir := by
  obtain ⟨rfl, takes⟩ := takes
  refine ⟨e, rfl, fun ρ => ?_⟩
  obtain ⟨ρ', same, value⟩ := takes ρ
  exact ⟨ρ', same, eq_of_heq value⟩

end Steps

section Exact

variable {s t : Ty} {changes : SymbolicVariable → Prop}

theorem Takes.refl (e : Expr t) : Takes changes e e :=
  ⟨rfl, fun ρ => ⟨ρ, fun _ _ => rfl, HEq.rfl⟩⟩

/-- The pass leaves the expression alone. -/
def LeftAlone : {t : Ty} → Expr t → Prop
  | _, .lit _ | _, .var _ _ => True
  | _, .lNot e => fate (.lNot e) = .stays ∧ LeftAlone e
  | _, .lAnd left right => fate (.lAnd left right) = .stays ∧ LeftAlone left ∧ LeftAlone right
  | _, .lOr left right => fate (.lOr left right) = .stays ∧ LeftAlone left ∧ LeftAlone right
  | _, .equ left right => fate (.equ left right) = .stays ∧ LeftAlone left ∧ LeftAlone right
  | _, .unary op e => fate (.unary op e) = .stays ∧ LeftAlone e
  | _, .binary op left right =>
    fate (.binary op left right) = .stays ∧ LeftAlone left ∧ LeftAlone right
  | _, .mux e0 e1 e2 => fate (.mux e0 e1 e2) ≠ .drawn

/-- The operand that takes the place of the operations at the root, if any does, is drawn, or the pass
leaves its own operands alone. -/
def Settled : {t : Ty} → Expr t → Prop
  | _, .lit _ | _, .var _ _ | _, .mux _ _ _ => True
  | _, .lNot e => (fate (.lNot e)).choose (Settled e) (Settled e) True (LeftAlone e)
  | _, .lAnd left right => (fate (.lAnd left right)).choose (Settled left) (Settled right) True
    (LeftAlone left ∧ LeftAlone right)
  | _, .lOr left right => (fate (.lOr left right)).choose (Settled left) (Settled right) True
    (LeftAlone left ∧ LeftAlone right)
  | _, .equ left right => (fate (.equ left right)).choose (Settled left) (Settled right) True
    (LeftAlone left ∧ LeftAlone right)
  | _, .unary op e => (fate (.unary op e)).choose (Settled e) (Settled e) True (LeftAlone e)
  | _, .binary op left right =>
    (fate (.binary op left right)).choose (Settled left) (Settled right) True
      (LeftAlone left ∧ LeftAlone right)

theorem LeftAlone.covers {e : Expr t} (alone : LeftAlone e) : Covers e changes e := by
  induction e generalizing changes with
  | lit | var => exact .refl _
  | lNot e ih | unary op e ih =>
    rw [Covers, alone.1]
    exact ⟨ih alone.2, .refl _⟩
  | lAnd left right ihLeft ihRight | lOr left right ihLeft ihRight
  | equ left right ihLeft ihRight | binary op left right ihLeft ihRight =>
    rw [Covers, alone.1]
    exact ⟨ihLeft alone.2.1, ihRight alone.2.2, .refl _⟩
  | mux e0 e1 e2 =>
    have kept : fate (.mux e0 e1 e2) ≠ .drawn := alone
    rw [Covers, if_neg kept]
    exact .refl _

theorem type_ir (e : Expr t) : e.ir.type = t := by
  cases e <;> rfl

theorem ir_injective {e : Expr s} {e' : Expr t} (h : e.ir = e'.ir) : s = t ∧ HEq e e' := by
  have same : s = t := by rw [← type_ir e, h, type_ir]
  subst same
  refine ⟨rfl, heq_of_eq ?_⟩
  induction e with
  | lit value =>
    cases e' <;> cases h
    rfl
  | var label t =>
    cases e' <;> cases h
    rfl
  | lNot e ih =>
    cases e' with
    | lNot e' => rw [ih (IrExpression.lNot.inj h)]
    | _ => cases h
  | lAnd left right ihLeft ihRight =>
    cases e' with
    | lAnd left' right' =>
      obtain ⟨hl, hr⟩ := IrExpression.lAnd.inj h
      rw [ihLeft hl, ihRight hr]
    | _ => cases h
  | lOr left right ihLeft ihRight =>
    cases e' with
    | lOr left' right' =>
      obtain ⟨hl, hr⟩ := IrExpression.lOr.inj h
      rw [ihLeft hl, ihRight hr]
    | _ => cases h
  | equ left right ihLeft ihRight =>
    cases e' with
    | equ left' right' =>
      obtain ⟨rfl, hl, hr⟩ := IrExpression.equ.inj h
      rw [ihLeft hl, ihRight hr]
    | _ => cases h
  | unary op e ih =>
    cases e' with
    | unary op' e' =>
      obtain ⟨rfl, -, hop, he⟩ := IrExpression.unary.inj h
      rw [eq_of_heq hop, ih he]
    | _ => cases h
  | binary op left right ihLeft ihRight =>
    cases e' with
    | binary op' left' right' =>
      obtain ⟨rfl, rfl, -, hop, hl, hr⟩ := IrExpression.binary.inj h
      rw [eq_of_heq hop, ihLeft hl, ihRight hr]
    | _ => cases h
  | mux e0 e1 e2 ih0 ih1 ih2 =>
    cases e' with
    | mux e0' e1' e2' =>
      obtain ⟨-, h0, h1, h2⟩ := IrExpression.mux.inj h
      rw [ih0 h0, ih1 h1, ih2 h2]
    | _ => cases h

/-- An expression that the result is simulates the target by its own data-plane variables. -/
theorem Simulates.takes {e : Expr s} {target : Expr t}
    (h : Simulates (fun x => x.label.isDataPlane = true) target e.ir)
    (own : ∀ x ∈ e.symbols, x.label.isDataPlane = true → changes x) : Takes changes e target := by
  classical
  obtain ⟨e', ir, simulates⟩ := h
  obtain ⟨rfl, same⟩ := ir_injective ir
  cases same
  refine ⟨rfl, fun ρ => ?_⟩
  obtain ⟨ρ', controlPlane, value⟩ := simulates ρ
  refine ⟨fun x => if changes x then ρ' x else ρ x, fun x unchanged => if_neg unchanged, ?_⟩
  refine heq_of_eq ((Expr.eval_congr fun x occurs => ?_).trans value)
  split
  · rfl
  · rename_i unchanged
    exact (controlPlane x fun dataPlane => unchanged (own x occurs dataPlane)).symm

end Exact

section Conjunction

/-- Whether the table `t` has entries, a variable of the control plane. -/
def active : Expr .boolean := .var (.tableActive "t") .boolean

/-- Whether the packet has the header `h`, a data-plane variable. -/
def valid : Expr .boolean := .var (.dataPlane "h.$valid") .boolean

end Conjunction

end DataPlaneVariablePropagator

end Flay
