import Mathlib.Data.List.Basic
import Mathlib.Tactic.Common

/-! Choice by a chain of guarded alternatives, each of which overrides those before it when its
guard holds. -/

namespace Choice

universe u

variable {α : Type u}

/-- One more alternative: it takes over when its guard holds, and when there is nothing yet. -/
def override (current : Option α) (alternative : Bool × α) : Option α :=
  match current with
  | none => some alternative.2
  | some value => some (if alternative.1 then alternative.2 else value)

def chain (default : Option α) (alternatives : List (Bool × α)) : Option α :=
  alternatives.foldl override default

theorem chain_append (default : Option α) (before after : List (Bool × α)) :
    chain default (before ++ after) = chain (chain default before) after :=
  List.foldl_append

/-- Alternatives that do not apply change nothing once there is a value. -/
theorem chain_some_of_none {a : α} {alternatives : List (Bool × α)}
    (h : ∀ g ∈ alternatives, g.1 = false) : chain (some a) alternatives = some a := by
  induction alternatives with
  | nil => rfl
  | cons g alternatives ih =>
    have here := h g List.mem_cons_self
    have rest := ih fun g' hg => h g' (List.mem_cons_of_mem g hg)
    simpa [chain, override, here] using rest

/-- Without an alternative that applies, the default stays, or else the first alternative. -/
theorem chain_of_none {default : Option α} {alternatives : List (Bool × α)}
    (h : ∀ g ∈ alternatives, g.1 = false) :
    chain default alternatives = default.or (alternatives.head?.map Prod.snd) := by
  cases default with
  | some a => simpa using chain_some_of_none h
  | none =>
    cases alternatives with
    | nil => rfl
    | cons g alternatives =>
      exact chain_some_of_none fun g' hg => h g' (List.mem_cons_of_mem g hg)

/-- The last alternative that applies is chosen. -/
theorem chain_of_last {default : Option α} {before after : List (Bool × α)} {a : α}
    (h : ∀ g ∈ after, g.1 = false) : chain default (before ++ (true, a) :: after) = some a := by
  have taken : override (chain default before) (true, a) = some a := by
    cases chain default before <;> rfl
  rw [chain_append]
  exact (congrArg (after.foldl override) taken).trans (chain_some_of_none h)

/-- A list with an element that has the property splits at the last such element. -/
theorem exists_last {β : Type u} {p : β → Prop} [DecidablePred p] {l : List β}
    (h : ∃ b ∈ l, p b) : ∃ before b after, l = before ++ b :: after ∧ p b ∧ ∀ c ∈ after, ¬p c := by
  induction l with
  | nil => simp at h
  | cons b l ih =>
    by_cases later : ∃ c ∈ l, p c
    · obtain ⟨before, c, after, rfl, hc, hafter⟩ := ih later
      exact ⟨b :: before, c, after, rfl, hc, hafter⟩
    · obtain ⟨c, hc, hp⟩ := h
      rcases List.mem_cons.mp hc with rfl | hc
      · exact ⟨[], c, l, rfl, hp, fun d hd hpd => later ⟨d, hd, hpd⟩⟩
      · exact absurd ⟨c, hc, hp⟩ later

/-- Where some alternative applies, the default has no say. -/
theorem chain_eq_of_some {default default' : Option α} {alternatives : List (Bool × α)}
    (h : ∃ g ∈ alternatives, g.1 = true) :
    chain default alternatives = chain default' alternatives := by
  obtain ⟨before, ⟨applies, a⟩, after, rfl, rfl, later⟩ := exists_last h
  have unmatched : ∀ g ∈ after, g.1 = false := fun g hg => by simpa using later g hg
  rw [chain_of_last unmatched, chain_of_last unmatched]

end Choice
