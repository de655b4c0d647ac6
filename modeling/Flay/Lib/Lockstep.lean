import Mathlib.Logic.Basic

/-! Two systems that take the same steps, and when a relation between them holds all along. -/

namespace Lockstep

universe u v w x

variable {σ : Type u} {ω : Type v} {τ : Type w} {δ : Type x}

/-- The steps one after another, as far as they can be taken. -/
def run (step : τ → σ → Option σ) : List τ → σ → Option σ
  | [], s => some s
  | t :: l, s => (step t s).bind (run step l)

/-- Every step that a run takes has the property, in the state that it is taken in. -/
def AllSteps (step : τ → ω → Option ω) (P : τ → ω → Prop) : List τ → ω → Prop
  | [], _ => True
  | t :: l, w => ∀ w', step t w = some w' → P t w ∧ AllSteps step P l w'

/-- What the steps of a run yield. -/
def collect (step : τ → ω → Option ω) (yield : τ → ω → List δ) : List τ → ω → List δ
  | [], _ => []
  | t :: l, w =>
    match step t w with
    | none => []
    | some w' => yield t w ++ collect step yield l w'

section Steps

variable {step : τ → ω → Option ω} {P Q : τ → ω → Prop} {yield : τ → ω → List δ}

theorem AllSteps.mono {l : List τ} {w : ω} (h : AllSteps step P l w)
    (implies : ∀ t w, P t w → Q t w) : AllSteps step Q l w := by
  induction l generalizing w with
  | nil => trivial
  | cons t l ih => exact fun w' taken => ⟨implies t w (h w' taken).1, ih (h w' taken).2⟩

theorem allSteps_and {l : List τ} {w : ω} :
    AllSteps step (fun t w => P t w ∧ Q t w) l w ↔ AllSteps step P l w ∧ AllSteps step Q l w := by
  refine ⟨fun h => ⟨h.mono fun _ _ h => h.1, h.mono fun _ _ h => h.2⟩, fun h => ?_⟩
  induction l generalizing w with
  | nil => trivial
  | cons t l ih =>
    intro w' taken
    obtain ⟨hP, restP⟩ := h.1 w' taken
    obtain ⟨hQ, restQ⟩ := h.2 w' taken
    exact ⟨⟨hP, hQ⟩, ih ⟨restP, restQ⟩⟩

/-- All that the steps yield has a property if and only if each step's yield has it. -/
theorem allSteps_yield {R : δ → Prop} {l : List τ} {w : ω} :
    AllSteps step (fun t w => ∀ d ∈ yield t w, R d) l w ↔
      ∀ d ∈ collect step yield l w, R d := by
  induction l generalizing w with
  | nil => simp [AllSteps, collect]
  | cons t l ih =>
    rw [AllSteps, collect]
    cases taken : step t w with
    | none => simp
    | some w' =>
      simp only [Option.some.injEq, List.mem_append]
      constructor
      · intro h d mem
        obtain ⟨here, later⟩ := h w' rfl
        exact mem.elim (here d) (ih.mp later d)
      · rintro h _ rfl
        exact ⟨fun d mem => h d (.inl mem), ih.mpr fun d mem => h d (.inr mem)⟩

end Steps

/-- Two systems that are related stay so at every step if and only if all steps are good, where a
good step is one that keeps the relation. -/
theorem related_iff {sym : τ → σ → Option σ} {con : τ → ω → Option ω} {related : σ → ω → Prop}
    {good : τ → ω → Prop} {l : List τ}
    (keeps : ∀ t ∈ l, ∀ s w w', related s w → con t w = some w' →
      ∃ s', sym t s = some s' ∧ (related s' w' ↔ good t w))
    {s : σ} {w : ω} (start : related s w) :
    (∀ n w', run con (l.take n) w = some w' →
      ∃ s', run sym (l.take n) s = some s' ∧ related s' w') ↔ AllSteps con good l w := by
  induction l generalizing s w with
  | nil =>
    refine iff_of_true (fun n w' ran => ?_) trivial
    rw [List.take_nil] at ran
    cases ran
    exact ⟨s, by rw [List.take_nil]; rfl, start⟩
  | cons t l ih =>
    have rest := fun t mem => keeps t (List.mem_cons_of_mem _ mem)
    constructor
    · intro follows w' taken
      obtain ⟨s', taken', iff⟩ := keeps t List.mem_cons_self s w w' start taken
      have related' : related s' w' := by
        obtain ⟨s₁, ran, related₁⟩ := follows 1 w' (by simp [run, taken])
        have taken₁ : sym t s = some s₁ := by simpa [run] using ran
        cases taken₁.symm.trans taken'
        exact related₁
      refine ⟨iff.mp related', (ih rest related').mp fun n w₂ ran => ?_⟩
      have ran' : run con ((t :: l).take (n + 1)) w = some w₂ := by
        rw [List.take_succ_cons, run, taken]
        exact ran
      obtain ⟨s₂, ranSym, related₂⟩ := follows (n + 1) w₂ ran'
      rw [List.take_succ_cons, run, taken'] at ranSym
      exact ⟨s₂, ranSym, related₂⟩
    · intro good n w₂ ran
      cases n with
      | zero =>
        cases ran
        exact ⟨s, rfl, start⟩
      | succ n =>
        rw [List.take_succ_cons, run] at ran
        obtain ⟨w', taken, ran⟩ := Option.bind_eq_some_iff.mp ran
        obtain ⟨s', taken', iff⟩ := keeps t List.mem_cons_self s w w' start taken
        obtain ⟨here, later⟩ := good w' taken
        obtain ⟨s₂, ranSym, related₂⟩ := (ih rest (iff.mpr here)).mpr later n w₂ ran
        exact ⟨s₂, by rw [List.take_succ_cons, run, taken']; exact ranSym, related₂⟩

end Lockstep
