import Flay.Lib.OrderedMap

/-! Recomputation of the values of a map at chosen keys, and when it leaves every value as the
recomputation of all of them does. -/

namespace Container

universe u v

/-- How the value of a key is computed anew from the old one, and whether that is a change. -/
structure Recompute {α : Type u} (β : α → Type v) where
  compute : (k : α) → β k → β k
  changes : (k : α) → β k → Bool
  idempotent : ∀ k b, compute k (compute k b) = compute k b
  settled : ∀ k b, changes k (compute k b) = false

namespace Recompute

variable {α : Type u} {β : α → Type v} [DecidableEq α] (r : Recompute β)

/-- The keys in turn, and whether any of them changes. A key that the map does not have is an
error. -/
def run : List α → OrderedMap β → Option (OrderedMap β × Bool)
  | [], m => some (m, false)
  | k :: l, m =>
    match m.find k with
    | none => none
    | some b =>
      (run l (m.assign k (r.compute k b))).map fun rest => (rest.1, r.changes k b || rest.2)

/-- The value is the one that computing it anew gives. -/
def UpToDate (m : OrderedMap β) (k : α) : Prop := ∀ b, m.find k = some b → r.compute k b = b

/-- What a run leaves: the keys it has are recomputed, and the others are as they were. -/
structure Recomputed (l : List α) (m m' : OrderedMap β) (changed : Bool) : Prop where
  keys : m'.keys = m.keys
  find : ∀ k, m'.find k = if k ∈ l then (m.find k).map (r.compute k) else m.find k
  changed : changed = true ↔ ∃ k ∈ l, ∃ b, m.find k = some b ∧ r.changes k b = true

variable {r} {l : List α} {m m' : OrderedMap β} {changed : Bool}

theorem Recomputed.cons {k : α} {b : β k} (found : m.find k = some b)
    (h : r.Recomputed l (m.assign k (r.compute k b)) m' changed) :
    r.Recomputed (k :: l) m m' (r.changes k b || changed) := by
  have self : (m.assign k (r.compute k b)).find k = some (r.compute k b) :=
    OrderedMap.find_assign_self _ (OrderedMap.mem_keys_of_find found)
  have other : ∀ {j : α}, j ≠ k → (m.assign k (r.compute k b)).find j = m.find j :=
    fun hj => OrderedMap.find_assign_ne m _ hj
  constructor
  · rw [h.keys, OrderedMap.keys_assign]
  · intro j
    rw [h.find]
    by_cases same : j = k
    · subst same
      rw [self, found]
      simp [r.idempotent]
    · rw [other same]
      simp [same]
  · rw [Bool.or_eq_true, h.changed]
    constructor
    · rintro (here | ⟨j, hj, d, hd, later⟩)
      · exact ⟨k, List.mem_cons_self, b, found, here⟩
      · by_cases same : j = k
        · subst same
          rw [self, Option.some.injEq] at hd
          subst hd
          simp [r.settled] at later
        · rw [other same] at hd
          exact ⟨j, List.mem_cons_of_mem k hj, d, hd, later⟩
    · rintro ⟨j, hj, d, hd, change⟩
      by_cases same : j = k
      · subst same
        rw [found, Option.some.injEq] at hd
        subst hd
        exact .inl change
      · rcases List.mem_cons.mp hj with rfl | hj
        · exact absurd rfl same
        · exact .inr ⟨j, hj, d, (other same).trans hd, change⟩

/-- A run over keys of the map succeeds. -/
theorem exists_run (known : ∀ k ∈ l, k ∈ m.keys) :
    ∃ m' changed, r.run l m = some (m', changed) ∧ r.Recomputed l m m' changed := by
  induction l generalizing m with
  | nil => exact ⟨m, false, rfl, rfl, fun k => by simp, by simp⟩
  | cons k l ih =>
    obtain ⟨b, found⟩ := OrderedMap.exists_find_of_mem (known k List.mem_cons_self)
    have rest : ∀ j ∈ l, j ∈ (m.assign k (r.compute k b)).keys := by
      intro j hj
      rw [OrderedMap.keys_assign]
      exact known j (List.mem_cons_of_mem k hj)
    obtain ⟨m', changed, run, recomputed⟩ := ih rest
    refine ⟨m', r.changes k b || changed, ?_, recomputed.cons found⟩
    simp [Recompute.run, found, run]

/-- A run that succeeds is one over keys of the map. -/
theorem recomputed_of_run (h : r.run l m = some (m', changed)) : r.Recomputed l m m' changed := by
  have known : ∀ k ∈ l, k ∈ m.keys := by
    induction l generalizing m m' changed with
    | nil => exact fun _ mem => absurd mem List.not_mem_nil
    | cons k l ih =>
      rw [run] at h
      split at h
      · cases h
      · rename_i b found
        obtain ⟨rest, ran, -⟩ := Option.map_eq_some_iff.mp h
        refine List.forall_mem_cons.mpr ⟨OrderedMap.mem_keys_of_find found, fun j mem => ?_⟩
        have later := ih ran j mem
        rwa [OrderedMap.keys_assign] at later
  obtain ⟨m₁, changed₁, ran, recomputed⟩ := exists_run (r := r) known
  cases h.symm.trans ran
  exact recomputed

/-- When the keys left out are up to date, all keys are recomputed. -/
theorem Recomputed.find_of_upToDate (h : r.Recomputed l m m' changed)
    (rest : ∀ k ∉ l, r.UpToDate m k) (k : α) : m'.find k = (m.find k).map (r.compute k) := by
  rw [h.find]
  split
  · rfl
  · rename_i out
    cases found : m.find k with
    | none => rfl
    | some b => rw [Option.map_some, rest k out b found]

theorem Recomputed.upToDate (h : r.Recomputed l m m' changed) (rest : ∀ k ∉ l, r.UpToDate m k)
    (k : α) : r.UpToDate m' k := by
  intro b found
  rw [h.find_of_upToDate rest, Option.map_eq_some_iff] at found
  obtain ⟨d, -, rfl⟩ := found
  exact r.idempotent k d

/-- The run tells a change exactly when recomputing some key is one. -/
theorem Recomputed.changed_of_upToDate (h : r.Recomputed l m m' changed)
    (rest : ∀ k ∉ l, r.UpToDate m k) :
    changed = true ↔ ∃ k b, m.find k = some b ∧ r.changes k b = true := by
  rw [h.changed]
  constructor
  · rintro ⟨k, -, b, found, change⟩
    exact ⟨k, b, found, change⟩
  · rintro ⟨k, b, found, change⟩
    by_cases out : k ∈ l
    · exact ⟨k, out, b, found, change⟩
    · have same := rest k out b found
      have settled := r.settled k b
      rw [same, change] at settled
      cases settled

end Recompute

end Container
