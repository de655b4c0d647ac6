import Mathlib.Logic.Relation
import Mathlib.Data.Finset.Card

/-! Graphs without a cycle whose edges leave finitely many vertices. -/

namespace Paths

variable {α : Type} {r : α → α → Prop}

/-- No path leads back to where it starts. -/
def Acyclic (r : α → α → Prop) : Prop := ∀ a, ¬Relation.TransGen r a a

theorem Acyclic.of_rank (rank : α → Nat) (descends : ∀ a b, r a b → rank b < rank a) :
    Acyclic r := by
  have lower : ∀ a b, Relation.TransGen r a b → rank b < rank a := by
    intro a b path
    induction path with
    | single edge => exact descends a _ edge
    | tail _ edge ih => exact (descends _ _ edge).trans ih
  exact fun a path => Nat.lt_irrefl _ (lower a a path)

/-- The vertices of a graph without cycles can be numbered so that every edge descends. -/
theorem Acyclic.exists_rank (acyclic : Acyclic r) (vertices : Finset α)
    (leaves : ∀ a b, r a b → a ∈ vertices) : ∃ rank : α → Nat, ∀ a b, r a b → rank b < rank a := by
  classical
  -- The rank counts the vertices that can be reached.
  let reached : α → Finset α := fun a => vertices.filter (Relation.ReflTransGen r a)
  refine ⟨fun a => (reached a).card, fun a b edge => Finset.card_lt_card ?_⟩
  refine Finset.ssubset_iff_of_subset ?_ |>.mpr ⟨a, ?_, ?_⟩
  · intro c mem
    obtain ⟨mem, path⟩ := Finset.mem_filter.mp mem
    exact Finset.mem_filter.mpr ⟨mem, path.head edge⟩
  · exact Finset.mem_filter.mpr ⟨leaves a b edge, .refl⟩
  · intro back
    have path := (Finset.mem_filter.mp back).2
    exact acyclic a (.head' edge path)

end Paths
