import Mathlib.Algebra.BigOperators.Fin
import Mathlib.Data.Finite.Sigma
import Mathlib.Data.Set.Card

/-! Walks of a graph from a vertex to its end, by the edges that they take, and how many there are that
visit no vertex twice or stay in a set of vertices. -/

namespace Paths

/-- A graph with vertices at which walks end. Edges from one vertex to another may be parallel. -/
structure Graph (V : Type) where
  targets : V → List V
  Ends : V → Prop
  /-- Walks go on from the vertex. -/
  Inner : V → Prop
  disjoint : ∀ v, Inner v → ¬Ends v

variable {V : Type} (g : Graph V)

/-- A walk from a vertex to an end. -/
inductive Walk : V → Type
  | stop {v : V} (ends : g.Ends v) : Walk v
  | step {v : V} (inner : g.Inner v) (i : Fin (g.targets v).length)
      (rest : Walk ((g.targets v).get i)) : Walk v

namespace Walk

variable {g} {v : V}

/-- The vertices of a walk ahead of its end. -/
def vertices : {v : V} → Walk g v → List V
  | _, .stop _ => []
  | v, .step _ _ rest => v :: rest.vertices

/-- No vertex is visited twice. -/
def LoopFree (p : Walk g v) : Prop := p.vertices.Nodup

/-- All vertices are in the set. -/
def Within (s : Set V) (p : Walk g v) : Prop := ∀ w ∈ p.vertices, w ∈ s

/-- Where the first vertex ends walks, there is one. -/
theorem eq_stop (ends : g.Ends v) (p : Walk g v) : p = .stop ends := by
  cases p with
  | stop _ => rfl
  | step inner i rest => exact absurd ends (g.disjoint v inner)

/-- The walks from an inner vertex by the edge they take first. -/
def stepEquiv (inner : g.Inner v) (Q : (i : Fin (g.targets v).length) →
    Walk g ((g.targets v).get i) → Prop) (R : Walk g v → Prop)
    (iff : ∀ i rest, R (.step inner i rest) ↔ Q i rest) :
    {p : Walk g v // R p} ≃ (i : Fin (g.targets v).length) × {rest // Q i rest} where
  toFun
    | ⟨.stop ends, _⟩ => absurd ends (g.disjoint v inner)
    | ⟨.step _ i rest, h⟩ => ⟨i, rest, (iff i rest).mp h⟩
  invFun q := ⟨.step inner q.1 q.2.1, (iff q.1 q.2.1).mpr q.2.2⟩
  left_inv := by
    rintro ⟨_ | ⟨_, i, rest⟩, h⟩
    · rename_i ends
      exact absurd ends (g.disjoint v inner)
    · rfl
  right_inv := by
    rintro ⟨i, rest, h⟩
    rfl

theorem finite_of_ends (ends : g.Ends v) (R : Walk g v → Prop) : Finite {p : Walk g v // R p} := by
  have : Subsingleton {p : Walk g v // R p} :=
    ⟨fun p q => Subtype.ext ((eq_stop ends p.1).trans (eq_stop ends q.1).symm)⟩
  exact Finite.of_subsingleton

theorem isEmpty_of_outer (ends : ¬g.Ends v) (inner : ¬g.Inner v) : IsEmpty (Walk g v) :=
  ⟨fun p => by
    cases p with
    | stop h => exact ends h
    | step h => exact inner h⟩

theorem finite_of_step (inner : g.Inner v) {Q : (i : Fin (g.targets v).length) →
    Walk g ((g.targets v).get i) → Prop} {R : Walk g v → Prop}
    (iff : ∀ i rest, R (.step inner i rest) ↔ Q i rest)
    (finite : ∀ i, Finite {rest // Q i rest}) : Finite {p : Walk g v // R p} :=
  Finite.of_equiv _ (stepEquiv inner Q R iff).symm

/-- There are finitely many walks that visit no vertex twice and none of a list. -/
theorem finite_avoiding [Finite V] (visited : List V) (v : V) :
    Finite {p : Walk g v // p.LoopFree ∧ ∀ w ∈ p.vertices, w ∉ visited} := by
  classical
  have := Fintype.ofFinite V
  induction left : (Finset.univ.filter (· ∉ visited)).card using Nat.strong_induction_on
    generalizing visited v with
  | _ n ih =>
    by_cases ends : g.Ends v
    · exact finite_of_ends ends _
    by_cases inner : g.Inner v
    · by_cases mem : v ∈ visited
      · refine @Finite.of_subsingleton _ ⟨fun p => ?_⟩
        obtain ⟨p, -, fresh⟩ := p
        cases p with
        | stop h => exact absurd h ends
        | step h i rest => exact absurd mem (fresh v List.mem_cons_self)
      · refine finite_of_step inner
          (Q := fun i rest => rest.LoopFree ∧ ∀ w ∈ rest.vertices, w ∉ v :: visited) ?_ fun i => ?_
        · intro i rest
          rw [LoopFree, vertices, List.nodup_cons, List.forall_mem_cons]
          simp only [List.mem_cons, not_or]
          constructor
          · exact fun ⟨⟨new, nodup⟩, _, fresh⟩ =>
              ⟨nodup, fun w mem => ⟨fun same => new (same ▸ mem), fresh w mem⟩⟩
          · exact fun ⟨nodup, fresh⟩ =>
              ⟨⟨fun again => (fresh v again).1 rfl, nodup⟩, mem, fun w mem => (fresh w mem).2⟩
        · refine ih _ ?_ (v :: visited) _ rfl
          rw [← left]
          refine Finset.card_lt_card (Finset.ssubset_iff_of_subset ?_ |>.mpr ⟨v, ?_, ?_⟩)
          · intro w
            simp only [Finset.mem_filter, List.mem_cons, not_or]
            exact fun h => ⟨h.1, h.2.2⟩
          · exact Finset.mem_filter.mpr ⟨Finset.mem_univ v, mem⟩
          · simp
    · have := isEmpty_of_outer ends inner
      exact inferInstance

theorem finite_loopFree [Finite V] (v : V) : Finite {p : Walk g v // p.LoopFree} := by
  have := finite_avoiding (g := g) [] v
  simpa using this

/-! ### Walks within a set -/

/-- How many walks there are that stay in a set. -/
noncomputable def count (g : Graph V) (s : Set V) (v : V) : Nat :=
  Nat.card {p : Walk g v // p.Within s}

variable {s : Set V}

theorem count_ends (ends : g.Ends v) : count g s v = 1 := by
  have only : Subsingleton {p : Walk g v // p.Within s} :=
    ⟨fun p q => Subtype.ext ((eq_stop ends p.1).trans (eq_stop ends q.1).symm)⟩
  have : Nonempty {p : Walk g v // p.Within s} := ⟨⟨.stop ends, fun _ mem => nomatch mem⟩⟩
  exact Nat.card_unique

theorem isEmpty_outside (ends : ¬g.Ends v) (outside : v ∉ s) :
    IsEmpty {p : Walk g v // p.Within s} :=
  ⟨fun ⟨p, within⟩ => by
    cases p with
    | stop h => exact ends h
    | step h i rest => exact outside (within v List.mem_cons_self)⟩

theorem count_outside (ends : ¬g.Ends v) (outside : v ∉ s) : count g s v = 0 := by
  have := isEmpty_outside ends outside
  exact Nat.card_of_isEmpty

theorem finite_outside (outside : v ∉ s) : Finite {p : Walk g v // p.Within s} := by
  by_cases ends : g.Ends v
  · exact finite_of_ends ends _
  · have := isEmpty_outside ends outside
    infer_instance

theorem within_step {inner : g.Inner v} (mem : v ∈ s) (i : Fin (g.targets v).length)
    (rest : Walk g ((g.targets v).get i)) : (step inner i rest).Within s ↔ rest.Within s := by
  simp [Within, vertices, mem]

/-- A rank for a set, along which the edges within the set descend. -/
structure Ranked (g : Graph V) (s : Set V) (rank : V → Nat) : Prop where
  inner : ∀ v ∈ s, g.Inner v
  descends : ∀ v ∈ s, ∀ w ∈ g.targets v, w ∈ s → rank w < rank v

variable {rank : V → Nat}

theorem finite_within (ranked : Ranked g s rank) (v : V) :
    Finite {p : Walk g v // p.Within s} := by
  induction level : rank v using Nat.strong_induction_on generalizing v with
  | _ n ih =>
    by_cases mem : v ∈ s
    · refine finite_of_step (ranked.inner v mem) (Q := fun i rest => rest.Within s)
        (within_step mem) fun i => ?_
      by_cases memTarget : (g.targets v).get i ∈ s
      · exact ih _ (level ▸ ranked.descends v mem _ (List.get_mem _ _) memTarget) _ rfl
      · exact finite_outside memTarget
    · exact finite_outside mem

/-- The walks from a vertex of the set are those from the vertices that its edges lead to. -/
theorem count_step (ranked : Ranked g s rank) (mem : v ∈ s) :
    count g s v = ((g.targets v).map (count g s)).sum := by
  have finite := fun i => finite_within ranked ((g.targets v).get i)
  rw [count, Nat.card_congr (stepEquiv (ranked.inner v mem) (fun i rest => rest.Within s) _
    (within_step mem)), Nat.card_sigma]
  exact Fin.sum_univ_fun_getElem (g.targets v) (count g s)

/-- The set is closed but for a set that is not to be visited. -/
structure Closed (g : Graph V) (s avoided : Set V) : Prop where
  disjoint : ∀ v ∈ s, v ∉ avoided
  targets : ∀ v ∈ s, ∀ w ∈ g.targets v, g.Inner w → w ∈ s ∨ w ∈ avoided

variable {avoided : Set V}

theorem vertices_rank_le (ranked : Ranked g s rank) (p : Walk g v) (within : p.Within s) :
    ∀ w ∈ p.vertices, rank w ≤ rank v := by
  induction p with
  | stop => exact fun _ mem => nomatch mem
  | @step v inner i rest ih =>
    obtain ⟨mem, within⟩ := List.forall_mem_cons.mp within
    refine List.forall_mem_cons.mpr ⟨le_rfl, fun w memRest => ?_⟩
    refine (ih within w memRest).trans ?_
    cases rest with
    | stop => exact nomatch memRest
    | step inner' j rest =>
      exact (ranked.descends v mem _ (List.get_mem _ _) (within _ List.mem_cons_self)).le

theorem loopFree_of_within (ranked : Ranked g s rank) (p : Walk g v) (within : p.Within s) :
    p.LoopFree := by
  induction p with
  | stop => exact List.nodup_nil
  | @step v inner i rest ih =>
    obtain ⟨mem, within⟩ := List.forall_mem_cons.mp within
    refine List.nodup_cons.mpr ⟨fun again => ?_, ih within⟩
    have low := vertices_rank_le ranked rest within v again
    cases rest with
    | stop => exact nomatch again
    | step inner' j rest =>
      have lower := ranked.descends v mem _ (List.get_mem _ _) (within _ List.mem_cons_self)
      exact absurd low (not_le_of_gt lower)

/-- From a vertex of the set, a walk that visits nothing that is avoided stays in the set. -/
theorem within_of_avoids (closed : Closed g s avoided) (mem : v ∈ s) (p : Walk g v)
    (avoids : ∀ w ∈ p.vertices, w ∉ avoided) : p.Within s := by
  induction p with
  | stop => exact fun _ mem => nomatch mem
  | @step v inner i rest ih =>
    obtain ⟨-, avoids⟩ := List.forall_mem_cons.mp avoids
    refine List.forall_mem_cons.mpr ⟨mem, ?_⟩
    cases rest with
    | stop => exact fun _ mem => nomatch mem
    | step inner' j rest =>
      refine ih ?_ avoids
      exact (closed.targets v mem _ (List.get_mem _ _) inner').resolve_right
        (avoids _ List.mem_cons_self)

/-- The vertex is in the set, or it is one that walks within the set do not go on from. -/
def Settled (g : Graph V) (s avoided : Set V) (v : V) : Prop :=
  g.Inner v → v ∈ s ∨ v ∈ avoided

/-- Staying in the set is visiting no vertex twice and none that is avoided. -/
theorem within_iff (ranked : Ranked g s rank) (closed : Closed g s avoided)
    (settled : Settled g s avoided v) (p : Walk g v) :
    p.Within s ↔ p.LoopFree ∧ ∀ w ∈ p.vertices, w ∉ avoided := by
  constructor
  · exact fun within =>
      ⟨loopFree_of_within ranked p within, fun w mem => closed.disjoint w (within w mem)⟩
  · rintro ⟨-, avoids⟩
    cases p with
    | stop => exact fun _ mem => nomatch mem
    | step inner i rest =>
      exact within_of_avoids closed ((settled inner).resolve_right (avoids v List.mem_cons_self)) _
        avoids

/-- A larger set that is not avoided has no more walks from a settled vertex. -/
theorem count_congr {s' : Set V} (closed : Closed g s avoided) (subset : s ⊆ s')
    (disjoint : ∀ v ∈ s', v ∉ avoided) (settled : Settled g s avoided v) :
    count g s v = count g s' v := by
  refine Nat.card_congr (Equiv.subtypeEquivRight fun p => ?_)
  refine ⟨fun within w mem => subset (within w mem), fun within => ?_⟩
  cases p with
  | stop => exact fun _ mem => nomatch mem
  | step inner i rest =>
    exact within_of_avoids closed
      ((settled inner).resolve_right (disjoint v (within v List.mem_cons_self))) _
      fun w mem => disjoint w (within w mem)

end Walk

section Restriction

variable {α : Type} {P Q : α → Prop} [Finite {a // P a}]

theorem card_restriction_le (implies : ∀ a, Q a → P a) :
    Nat.card {a // Q a} ≤ Nat.card {a // P a} :=
  Nat.card_le_card_of_injective (fun a => (⟨a.1, implies a.1 a.2⟩ : {a // P a})) fun _ _ same =>
    Subtype.ext (Subtype.mk.inj same)

/-- A restriction of a finite type that is as large holds everywhere. -/
theorem card_restriction_eq_iff (implies : ∀ a, Q a → P a) :
    Nat.card {a // Q a} = Nat.card {a // P a} ↔ ∀ a, P a → Q a := by
  constructor
  · intro same a holds
    have finite : Set.Finite {a | P a} := ‹Finite {a // P a}›
    have whole : {a | Q a} = {a | P a} :=
      Set.eq_of_subset_of_ncard_le implies same.ge finite
    exact whole.ge holds
  · exact fun all => Nat.card_congr (Equiv.subtypeEquivRight fun a => ⟨implies a, all a⟩)

end Restriction

end Paths
