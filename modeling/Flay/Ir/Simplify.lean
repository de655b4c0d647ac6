import Flay.Ir.Expression

/-! `SimplifyExpression::simplify`: the passes `FoldMuxConditionDown` and `LiftMuxConditions` over
an expression, and that they keep its value. -/

namespace Flay

theorem append_subset_append {α : Type} {l l' m m' : List α} (h : l ⊆ l') (h' : m ⊆ m') :
    l ++ m ⊆ l' ++ m' :=
  List.append_subset.mpr ⟨List.subset_append_of_subset_left _ h, List.subset_append_of_subset_right _ h'⟩

namespace FoldMuxConditionDown

/-- A condition and the value it is known to have, the one entry of an `ExpressionMap`. -/
abbrev ExpressionMap : Type := Option (Expr .boolean × Bool)

/-- The known value of the condition, when the map has it. -/
def ExpressionMap.find (expressionMap : ExpressionMap) (cond : Expr .boolean) : Option Bool :=
  match expressionMap with
  | some (known, value) => if cond = known then some value else none
  | none => none

def optionalValue (expressionMap : ExpressionMap) (cond : Expr .boolean) : Option Bool :=
  match cond with
  | .lit (t := .boolean) value => some value
  | cond => expressionMap.find cond

/-- `FoldExpression::postorder` of an `LAnd`. -/
def foldLAnd (expressionMap : ExpressionMap) (left right : Expr .boolean) : Expr .boolean :=
  match optionalValue expressionMap left, optionalValue expressionMap right with
  | some true, some value => .lit value
  | some true, none => right
  | some false, _ => .false
  | none, some true => left
  | none, some false => .false
  | none, none => .lAnd left right

/-- `FoldExpression::postorder` of an `LOr`. -/
def foldLOr (expressionMap : ExpressionMap) (left right : Expr .boolean) : Expr .boolean :=
  match optionalValue expressionMap left, optionalValue expressionMap right with
  | some true, _ => .true
  | some false, some value => .lit value
  | some false, none => right
  | none, some true => .true
  | none, some false => left
  | none, none => .lOr left right

/-- `FoldExpression::postorder` of an `LNot`. -/
def foldLNot (expressionMap : ExpressionMap) (e : Expr .boolean) : Expr .boolean :=
  match expressionMap.find e with
  | some value => .lit (!value)
  | none => .lNot e

/-- `FoldExpression::postorder` of a `Mux`. -/
def foldMux {t : Ty} (expressionMap : ExpressionMap) (e0 : Expr .boolean) (e1 e2 : Expr t) :
    Expr t :=
  match optionalValue expressionMap e0 with
  | some value => if value then e1 else e2
  | none => if e1 = e2 then e1 else .mux e0 e1 e2

def foldExpression (expressionMap : ExpressionMap) : {t : Ty} → Expr t → Expr t
  | _, .lit value => .lit value
  | _, .var label t => .var label t
  | _, .lNot e => foldLNot expressionMap (foldExpression expressionMap e)
  | _, .lAnd left right =>
    foldLAnd expressionMap (foldExpression expressionMap left) (foldExpression expressionMap right)
  | _, .lOr left right =>
    foldLOr expressionMap (foldExpression expressionMap left) (foldExpression expressionMap right)
  | _, .equ left right =>
    .equ (foldExpression expressionMap left) (foldExpression expressionMap right)
  | _, .unary op e => .unary op (foldExpression expressionMap e)
  | _, .binary op left right =>
    .binary op (foldExpression expressionMap left) (foldExpression expressionMap right)
  | _, .mux e0 e1 e2 =>
    foldMux expressionMap (foldExpression expressionMap e0) (foldExpression expressionMap e1)
      (foldExpression expressionMap e2)

/-- `FoldMuxConditionDown::preorder` at the outermost `Mux` expressions. -/
def apply : {t : Ty} → Expr t → Expr t
  | _, .lit value => .lit value
  | _, .var label t => .var label t
  | _, .lNot e => .lNot (apply e)
  | _, .lAnd left right => .lAnd (apply left) (apply right)
  | _, .lOr left right => .lOr (apply left) (apply right)
  | _, .equ left right => .equ (apply left) (apply right)
  | _, .unary op e => .unary op (apply e)
  | _, .binary op left right => .binary op (apply left) (apply right)
  | _, .mux e0 e1 e2 =>
    let cond := foldExpression none e0
    .mux cond (foldExpression (some (cond, true)) e1) (foldExpression (some (cond, false)) e2)

/-- What the map knows holds under the valuation. -/
def ExpressionMap.Holds (expressionMap : ExpressionMap) (ρ : Valuation) : Prop :=
  ∀ cond value, expressionMap = some (cond, value) → cond.eval ρ = value

variable {expressionMap : ExpressionMap} {ρ : Valuation}

theorem holds_none (ρ : Valuation) : ExpressionMap.Holds none ρ := by
  intro cond value h
  cases h

theorem holds_some {cond : Expr .boolean} {value : Bool} (h : cond.eval ρ = value) :
    ExpressionMap.Holds (some (cond, value)) ρ := by
  rintro _ _ ⟨⟩
  exact h

theorem eval_of_find (holds : expressionMap.Holds ρ) {cond : Expr .boolean} {value : Bool}
    (h : expressionMap.find cond = some value) : cond.eval ρ = value := by
  rcases expressionMap with _ | ⟨known, v⟩
  · cases h
  · simp only [ExpressionMap.find, Option.ite_none_right_eq_some, Option.some.injEq] at h
    obtain ⟨rfl, rfl⟩ := h
    exact holds _ _ rfl

theorem eval_of_optionalValue (holds : expressionMap.Holds ρ) {cond : Expr .boolean}
    {value : Bool} (h : optionalValue expressionMap cond = some value) : cond.eval ρ = value := by
  unfold optionalValue at h
  split at h
  · simpa using h
  · exact eval_of_find holds h

theorem eval_foldLAnd (holds : expressionMap.Holds ρ) (left right : Expr .boolean) :
    (foldLAnd expressionMap left right).eval ρ = (left.eval ρ && right.eval ρ) := by
  have hl : ∀ value, optionalValue expressionMap left = some value → left.eval ρ = value :=
    fun _ h => eval_of_optionalValue holds h
  have hr : ∀ value, optionalValue expressionMap right = some value → right.eval ρ = value :=
    fun _ h => eval_of_optionalValue holds h
  unfold foldLAnd
  split <;> simp_all

theorem eval_foldLOr (holds : expressionMap.Holds ρ) (left right : Expr .boolean) :
    (foldLOr expressionMap left right).eval ρ = (left.eval ρ || right.eval ρ) := by
  have hl : ∀ value, optionalValue expressionMap left = some value → left.eval ρ = value :=
    fun _ h => eval_of_optionalValue holds h
  have hr : ∀ value, optionalValue expressionMap right = some value → right.eval ρ = value :=
    fun _ h => eval_of_optionalValue holds h
  unfold foldLOr
  split <;> simp_all

theorem eval_foldLNot (holds : expressionMap.Holds ρ) (e : Expr .boolean) :
    (foldLNot expressionMap e).eval ρ = !e.eval ρ := by
  unfold foldLNot
  split
  · rename_i h
    simp [eval_of_find holds h]
  · simp

theorem eval_foldMux {t : Ty} (holds : expressionMap.Holds ρ) (e0 : Expr .boolean)
    (e1 e2 : Expr t) :
    (foldMux expressionMap e0 e1 e2).eval ρ = if e0.eval ρ then e1.eval ρ else e2.eval ρ := by
  unfold foldMux
  split
  · rename_i h
    rw [eval_of_optionalValue holds h]
    split <;> rfl
  · split
    · rename_i h
      simp [h]
    · simp

theorem eval_foldExpression {t : Ty} (holds : expressionMap.Holds ρ) (e : Expr t) :
    (foldExpression expressionMap e).eval ρ = e.eval ρ := by
  induction e with
  | lit | var => simp [foldExpression]
  | lNot e ih => simp [foldExpression, eval_foldLNot holds, ih]
  | lAnd left right ihLeft ihRight =>
    simp [foldExpression, eval_foldLAnd holds, ihLeft, ihRight]
  | lOr left right ihLeft ihRight => simp [foldExpression, eval_foldLOr holds, ihLeft, ihRight]
  | equ left right ihLeft ihRight | binary op left right ihLeft ihRight =>
    simp [foldExpression, ihLeft, ihRight]
  | unary op e ih => simp [foldExpression, ih]
  | mux e0 e1 e2 ih0 ih1 ih2 => simp [foldExpression, eval_foldMux holds, ih0, ih1, ih2]

theorem eval_apply {t : Ty} (e : Expr t) : (apply e).eval ρ = e.eval ρ := by
  induction e with
  | lit | var => simp [apply]
  | lNot e ih | unary op e ih => simp [apply, ih]
  | lAnd left right ihLeft ihRight | lOr left right ihLeft ihRight
  | equ left right ihLeft ihRight | binary op left right ihLeft ihRight =>
    simp [apply, ihLeft, ihRight]
  | mux e0 e1 e2 =>
    have cond : (foldExpression none e0).eval ρ = e0.eval ρ :=
      eval_foldExpression (holds_none ρ) e0
    simp only [apply, Expr.eval_mux, cond]
    split
    · rename_i h
      exact eval_foldExpression (holds_some (cond.trans h)) e1
    · rename_i h
      exact eval_foldExpression (holds_some (cond.trans (Bool.not_eq_true _ ▸ h))) e2

section Symbols

variable {x : SymbolicVariable}

theorem mem_symbols_foldLAnd {left right : Expr .boolean}
    (mem : x ∈ (foldLAnd expressionMap left right).symbols) :
    x ∈ left.symbols ∨ x ∈ right.symbols := by
  unfold foldLAnd at mem
  split at mem <;> simp_all [Expr.symbols]

theorem mem_symbols_foldLOr {left right : Expr .boolean}
    (mem : x ∈ (foldLOr expressionMap left right).symbols) :
    x ∈ left.symbols ∨ x ∈ right.symbols := by
  unfold foldLOr at mem
  split at mem <;> simp_all [Expr.symbols]

theorem mem_symbols_foldLNot {e : Expr .boolean}
    (mem : x ∈ (foldLNot expressionMap e).symbols) : x ∈ e.symbols := by
  unfold foldLNot at mem
  split at mem
  · cases mem
  · exact mem

theorem mem_symbols_foldMux {t : Ty} {e0 : Expr .boolean} {e1 e2 : Expr t}
    (mem : x ∈ (foldMux expressionMap e0 e1 e2).symbols) :
    x ∈ e0.symbols ∨ x ∈ e1.symbols ∨ x ∈ e2.symbols := by
  unfold foldMux at mem
  split at mem
  · split at mem
    · exact .inr (.inl mem)
    · exact .inr (.inr mem)
  · split at mem
    · exact .inr (.inl mem)
    · simpa [Expr.symbols] using mem

/-- Folding brings in no variables. -/
theorem symbols_foldExpression {t : Ty} (e : Expr t) :
    (foldExpression expressionMap e).symbols ⊆ e.symbols := by
  induction e with
  | lit | var => exact List.Subset.refl _
  | lNot e ih => exact fun x mem => ih (mem_symbols_foldLNot mem)
  | unary op e ih => exact ih
  | lAnd left right ihLeft ihRight =>
    intro x mem
    exact List.mem_append.mpr ((mem_symbols_foldLAnd mem).imp (ihLeft ·) (ihRight ·))
  | lOr left right ihLeft ihRight =>
    intro x mem
    exact List.mem_append.mpr ((mem_symbols_foldLOr mem).imp (ihLeft ·) (ihRight ·))
  | equ left right ihLeft ihRight | binary op left right ihLeft ihRight =>
    exact append_subset_append ihLeft ihRight
  | mux e0 e1 e2 ih0 ih1 ih2 =>
    intro x mem
    rw [Expr.symbols, List.mem_append, List.mem_append]
    exact (mem_symbols_foldMux mem).imp (ih0 ·) (Or.imp (ih1 ·) (ih2 ·))

theorem symbols_apply {t : Ty} (e : Expr t) : (apply e).symbols ⊆ e.symbols := by
  induction e with
  | lit | var => exact List.Subset.refl _
  | lNot e ih | unary op e ih => exact ih
  | lAnd left right ihLeft ihRight | lOr left right ihLeft ihRight
  | equ left right ihLeft ihRight | binary op left right ihLeft ihRight =>
    exact append_subset_append ihLeft ihRight
  | mux e0 e1 e2 =>
    exact append_subset_append (symbols_foldExpression e0)
      (append_subset_append (symbols_foldExpression e1) (symbols_foldExpression e2))

end Symbols

end FoldMuxConditionDown

namespace LiftMuxConditions

/-- `LiftMuxConditions::postorder` of a `Mux`. -/
def postorder {t : Ty} (e0 : Expr .boolean) (e1 e2 : Expr t) : Expr t :=
  if e1 = e2 then e1 else .mux e0 e1 e2

/-- Each `Mux` after `preorder`, its children after the pass, and then `postorder`. -/
def apply : {t : Ty} → Expr t → Expr t
  | _, .lit value => .lit value
  | _, .var label t => .var label t
  | _, .lNot e => .lNot (apply e)
  | _, .lAnd left right => .lAnd (apply left) (apply right)
  | _, .lOr left right => .lOr (apply left) (apply right)
  | _, .equ left right => .equ (apply left) (apply right)
  | _, .unary op e => .unary op (apply e)
  | _, .binary op left right => .binary op (apply left) (apply right)
  | _, .mux e0 e1 e2 =>
    let trueMux := match e1 with
      | .mux c a b =>
        if e2 = a then
          some (postorder (.lAnd (apply e0) (.lNot (apply c))) (apply b) (apply e2))
        else if e2 = b then
          some (postorder (.lAnd (apply e0) (apply c)) (apply a) (apply e2))
        else none
      | _ => none
    let falseMux := match e2 with
      | .mux c a b =>
        if e1 = a then
          some (postorder (.lOr (apply e0) (apply c)) (apply e1) (apply b))
        else if e1 = b then
          some (postorder (.lOr (apply e0) (.lNot (apply c))) (apply e1) (apply a))
        else none
      | _ => none
    (trueMux <|> falseMux).getD (postorder (apply e0) (apply e1) (apply e2))

theorem eval_postorder {t : Ty} {ρ : Valuation} (e0 : Expr .boolean) (e1 e2 : Expr t) :
    (postorder e0 e1 e2).eval ρ = if e0.eval ρ then e1.eval ρ else e2.eval ρ := by
  unfold postorder
  split
  · rename_i h
    simp [h]
  · simp

theorem eval_orElse_getD {t : Ty} {ρ : Valuation} {a b : Option (Expr t)} {d : Expr t} {v : t.Val}
    (ha : ∀ x, a = some x → x.eval ρ = v) (hb : ∀ x, b = some x → x.eval ρ = v)
    (hd : d.eval ρ = v) : ((a <|> b).getD d).eval ρ = v := by
  cases a with
  | some x => exact ha x rfl
  | none =>
    cases b with
    | some x => exact hb x rfl
    | none => exact hd

theorem eval_apply {ρ : Valuation} : {t : Ty} → (e : Expr t) → (apply e).eval ρ = e.eval ρ
  | _, .lit _ => by simp [apply]
  | _, .var _ _ => by simp [apply]
  | _, .lNot e => by simp [apply, eval_apply e]
  | _, .lAnd left right => by simp [apply, eval_apply left, eval_apply right]
  | _, .lOr left right => by simp [apply, eval_apply left, eval_apply right]
  | _, .equ left right => by simp [apply, eval_apply left, eval_apply right]
  | _, .unary op e => by simp [apply, eval_apply e]
  | _, .binary op left right => by simp [apply, eval_apply left, eval_apply right]
  | _, .mux e0 e1 e2 => by
    have h0 := eval_apply (ρ := ρ) e0
    have h1 := eval_apply (ρ := ρ) e1
    have h2 := eval_apply (ρ := ρ) e2
    have trueMux : ∀ c a b, e1 = .mux c a b → (apply c).eval ρ = c.eval ρ ∧
        (apply a).eval ρ = a.eval ρ ∧ (apply b).eval ρ = b.eval ρ := by
      rintro c a b rfl
      exact ⟨eval_apply c, eval_apply a, eval_apply b⟩
    have falseMux : ∀ c a b, e2 = .mux c a b → (apply c).eval ρ = c.eval ρ ∧
        (apply a).eval ρ = a.eval ρ ∧ (apply b).eval ρ = b.eval ρ := by
      rintro c a b rfl
      exact ⟨eval_apply c, eval_apply a, eval_apply b⟩
    rw [apply.eq_def]
    refine eval_orElse_getD (fun x hx => ?_) (fun x hx => ?_) (by simp [eval_postorder, h0, h1, h2])
    · revert hx
      split
      · rename_i c a b
        obtain ⟨hc, ha, hb⟩ := trueMux c a b rfl
        rintro hx
        split_ifs at hx with hea heb <;> cases hx <;>
          simp only [eval_postorder, Expr.eval_mux, Expr.eval_lAnd, Expr.eval_lNot, *] <;>
          cases Expr.eval ρ e0 <;> cases Expr.eval ρ c <;> rfl
      · rintro ⟨⟩
    · revert hx
      split
      · rename_i c a b
        obtain ⟨hc, ha, hb⟩ := falseMux c a b rfl
        rintro hx
        split_ifs at hx with hea heb <;> cases hx <;>
          simp only [eval_postorder, Expr.eval_mux, Expr.eval_lOr, Expr.eval_lNot, *] <;>
          cases Expr.eval ρ e0 <;> cases Expr.eval ρ c <;> rfl
      · rintro ⟨⟩
  termination_by _ e => sizeOf e

theorem symbols_postorder {t : Ty} (e0 : Expr .boolean) (e1 e2 : Expr t) :
    (postorder e0 e1 e2).symbols ⊆ e0.symbols ++ (e1.symbols ++ e2.symbols) := by
  unfold postorder
  split
  · intro x mem
    simp [mem]
  · exact List.Subset.refl _

theorem symbols_orElse_getD {t : Ty} {a b : Option (Expr t)} {d : Expr t}
    {l : List SymbolicVariable} (ha : ∀ x, a = some x → x.symbols ⊆ l)
    (hb : ∀ x, b = some x → x.symbols ⊆ l) (hd : d.symbols ⊆ l) :
    ((a <|> b).getD d).symbols ⊆ l := by
  cases a with
  | some x => exact ha x rfl
  | none =>
    cases b with
    | some x => exact hb x rfl
    | none => exact hd

theorem symbols_apply : {t : Ty} → (e : Expr t) → (apply e).symbols ⊆ e.symbols
  | _, .lit _ => by simp [apply]
  | _, .var _ _ => by simp [apply]
  | _, .lNot e => by simpa [apply, Expr.symbols] using symbols_apply e
  | _, .lAnd left right => by
    rw [apply]
    exact append_subset_append (symbols_apply left) (symbols_apply right)
  | _, .lOr left right => by
    rw [apply]
    exact append_subset_append (symbols_apply left) (symbols_apply right)
  | _, .equ left right => by
    rw [apply]
    exact append_subset_append (symbols_apply left) (symbols_apply right)
  | _, .unary op e => by simpa [apply, Expr.symbols] using symbols_apply e
  | _, .binary op left right => by
    rw [apply]
    exact append_subset_append (symbols_apply left) (symbols_apply right)
  | _, .mux e0 e1 e2 => by
    have h0 := symbols_apply e0
    have h1 := symbols_apply e1
    have h2 := symbols_apply e2
    have trueMux : ∀ c a b, e1 = .mux c a b → (apply c).symbols ⊆ e1.symbols ∧
        (apply a).symbols ⊆ e1.symbols ∧ (apply b).symbols ⊆ e1.symbols := by
      rintro c a b rfl
      have hc := symbols_apply c
      have ha := symbols_apply a
      have hb := symbols_apply b
      simp only [Expr.symbols]
      grind
    have falseMux : ∀ c a b, e2 = .mux c a b → (apply c).symbols ⊆ e2.symbols ∧
        (apply a).symbols ⊆ e2.symbols ∧ (apply b).symbols ⊆ e2.symbols := by
      rintro c a b rfl
      have hc := symbols_apply c
      have ha := symbols_apply a
      have hb := symbols_apply b
      simp only [Expr.symbols]
      grind
    rw [apply.eq_def]
    refine symbols_orElse_getD (fun x hx => ?_) (fun x hx => ?_) ?_
    · revert hx
      split
      · rename_i c a b
        obtain ⟨hc, ha, hb⟩ := trueMux c a b rfl
        rintro hx
        split_ifs at hx <;> cases hx <;>
          refine List.Subset.trans (symbols_postorder _ _ _) ?_ <;>
          simp only [Expr.symbols] at * <;> grind
      · rintro ⟨⟩
    · revert hx
      split
      · rename_i c a b
        obtain ⟨hc, ha, hb⟩ := falseMux c a b rfl
        rintro hx
        split_ifs at hx <;> cases hx <;>
          refine List.Subset.trans (symbols_postorder _ _ _) ?_ <;>
          simp only [Expr.symbols] at * <;> grind
      · rintro ⟨⟩
    · exact List.Subset.trans (symbols_postorder _ _ _)
        (append_subset_append h0 (append_subset_append h1 h2))
  termination_by _ e => sizeOf e

end LiftMuxConditions

namespace SimplifyExpression

def simplify {t : Ty} (expr : Expr t) : Expr t :=
  LiftMuxConditions.apply (FoldMuxConditionDown.apply expr)

def produceSimplifiedMux {t : Ty} (cond : Expr .boolean) (trueExpression falseExpression : Expr t) :
    Expr t :=
  simplify (.mux cond trueExpression falseExpression)

@[simp] theorem eval_simplify {t : Ty} {ρ : Valuation} (expr : Expr t) :
    (simplify expr).eval ρ = expr.eval ρ :=
  (LiftMuxConditions.eval_apply _).trans (FoldMuxConditionDown.eval_apply expr)

@[simp] theorem eval_produceSimplifiedMux {t : Ty} {ρ : Valuation} (cond : Expr .boolean)
    (trueExpression falseExpression : Expr t) :
    (produceSimplifiedMux cond trueExpression falseExpression).eval ρ =
      if cond.eval ρ then trueExpression.eval ρ else falseExpression.eval ρ := by
  simp [produceSimplifiedMux]

/-- Simplification returns an expression with the same meaning. -/
theorem simplify_preserves_meaning {t : Ty} (expr : Expr t) :
    ∀ ρ : Valuation, (simplify expr).eval ρ = expr.eval ρ :=
  fun _ => eval_simplify expr

/-- Simplification brings in no variables. -/
theorem symbols_simplify {t : Ty} (expr : Expr t) : (simplify expr).symbols ⊆ expr.symbols :=
  List.Subset.trans (LiftMuxConditions.symbols_apply _) (FoldMuxConditionDown.symbols_apply expr)

end SimplifyExpression

end Flay
