import Mathlib.Data.List.Perm.Basic

/-! Two parties that take steps on one state. When the steps of the one commute with those of the
other, all ways to interleave them do the same. -/

namespace Interleaving

universe u v w

variable {σ : Type u} {α : Type v} {β : Type w}

/-- The steps one after another, with what each of them yields. -/
def runs (step : σ → α → σ × β) (s : σ) : List α → σ × List (α × β)
  | [] => (s, [])
  | a :: l =>
    let rest := runs step (step s a).1 l
    (rest.1, (a, (step s a).2) :: rest.2)

/-- The steps of two parties, each of which keeps its own order. -/
inductive Interleaved : List α → List α → List α → Prop
  | nil : Interleaved [] [] []
  | left {a : α} {l r w : List α} (h : Interleaved l r w) : Interleaved (a :: l) r (a :: w)
  | right {b : α} {l r w : List α} (h : Interleaved l r w) : Interleaved l (b :: r) (b :: w)

/-- Steps that are apart commute, in what they do and in what they yield, as long as the state has
the property, which no step takes away. -/
structure Commute (step : σ → α → σ × β) (P : σ → Prop) (Apart : α → α → Prop) : Prop where
  keeps : ∀ {s}, P s → ∀ a, P (step s a).1
  state : ∀ {s a b}, P s → Apart a b → (step (step s a).1 b).1 = (step (step s b).1 a).1
  yields : ∀ {s a b}, P s → Apart a b →
    (step (step s a).1 b).2 = (step s b).2 ∧ (step (step s b).1 a).2 = (step s a).2

/-- The runs end in one state, and every step yields the same in both. -/
structure SameRun (step : σ → α → σ × β) (s : σ) (w w' : List α) : Prop where
  state : (runs step s w).1 = (runs step s w').1
  yields : (runs step s w).2.Perm (runs step s w').2

variable {step : σ → α → σ × β} {P : σ → Prop} {Apart : α → α → Prop} {s : σ}

theorem SameRun.refl (w : List α) : SameRun step s w w := ⟨rfl, .refl _⟩

theorem SameRun.symm {w w' : List α} (h : SameRun step s w w') : SameRun step s w' w :=
  ⟨h.state.symm, h.yields.symm⟩

theorem SameRun.trans {w w' w'' : List α} (h : SameRun step s w w') (h' : SameRun step s w' w'') :
    SameRun step s w w'' :=
  ⟨h.state.trans h'.state, h.yields.trans h'.yields⟩

theorem SameRun.cons {a : α} {w w' : List α} (h : SameRun step (step s a).1 w w') :
    SameRun step s (a :: w) (a :: w') :=
  ⟨h.state, h.yields.cons _⟩

namespace Commute

variable (commute : Commute step P Apart)
include commute

theorem swap {a b : α} (holds : P s) (apart : Apart a b) (w : List α) :
    SameRun step s (a :: b :: w) (b :: a :: w) := by
  obtain ⟨yieldB, yieldA⟩ := commute.yields holds apart
  constructor
  · simp only [runs]
    rw [commute.state holds apart]
  · simp only [runs]
    rw [commute.state holds apart, yieldA, yieldB]
    exact .swap _ _ _

/-- A step moves past steps that are apart from it. -/
theorem move {b : α} {l : List α} (holds : P s) (apart : ∀ a ∈ l, Apart a b) (w : List α) :
    SameRun step s (b :: (l ++ w)) (l ++ b :: w) := by
  induction l generalizing s with
  | nil => exact .refl _
  | cons a l ih =>
    obtain ⟨head, tail⟩ := List.forall_mem_cons.mp apart
    exact (commute.swap holds head _).symm.trans (ih (commute.keeps holds a) tail).cons

/-- The steps of the first party may all come first. -/
theorem sameRun_append {l r w : List α} (interleaved : Interleaved l r w) (holds : P s)
    (apart : ∀ a ∈ l, ∀ b ∈ r, Apart a b) : SameRun step s w (l ++ r) := by
  induction interleaved generalizing s with
  | nil => exact .refl _
  | left _ ih =>
    exact (ih (commute.keeps holds _) fun a mem => apart a (List.mem_cons_of_mem _ mem)).cons
  | @right b l r w _ ih =>
    have rest := ih (commute.keeps holds b) fun a memA b' memB =>
      apart a memA b' (List.mem_cons_of_mem b memB)
    exact rest.cons.trans (commute.move holds (fun a mem => apart a mem b List.mem_cons_self) r)

theorem sameRun {l r w w' : List α} (interleaved : Interleaved l r w)
    (interleaved' : Interleaved l r w') (holds : P s) (apart : ∀ a ∈ l, ∀ b ∈ r, Apart a b) :
    SameRun step s w w' :=
  (commute.sameRun_append interleaved holds apart).trans
    (commute.sameRun_append interleaved' holds apart).symm

end Commute

end Interleaving
