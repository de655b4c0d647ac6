import Mathlib.Data.List.Sigma

/-! Finite maps that iterate over their keys in the order of insertion.  The type of a value may
depend on its key. -/

namespace Container

universe u v

/-- A map with its entries in insertion order, at most one for each key. -/
structure OrderedMap {α : Type u} (β : α → Type v) where
  entries : List (Sigma β)
  nodupKeys : entries.NodupKeys

namespace OrderedMap

variable {α : Type u} {β γ : α → Type v}

@[ext] theorem ext {m m' : OrderedMap β} (h : m.entries = m'.entries) : m = m' := by
  cases m; cases m'; cases h; rfl

def empty : OrderedMap β := ⟨[], List.nodupKeys_nil⟩

instance : Inhabited (OrderedMap β) := ⟨empty⟩

def keys (m : OrderedMap β) : List α := m.entries.keys

def size (m : OrderedMap β) : Nat := m.entries.length

/-- The map with the same keys and the values that `f` makes of the old ones. -/
def mapValues (f : (k : α) → β k → γ k) (m : OrderedMap β) : OrderedMap γ :=
  ⟨m.entries.map fun s => ⟨s.1, f s.1 s.2⟩, List.NodupKeys.map₂ f m.entries m.nodupKeys⟩

@[simp] theorem keys_mapValues (f : (k : α) → β k → γ k) (m : OrderedMap β) :
    (m.mapValues f).keys = m.keys :=
  List.map₂_keys f m.entries

@[simp] theorem not_mem_keys_empty (k : α) : ¬k ∈ (empty : OrderedMap β).keys := List.not_mem_nil

theorem mapValues_mapValues {δ : α → Type v} (f : (k : α) → β k → γ k) (g : (k : α) → γ k → δ k)
    (m : OrderedMap β) : (m.mapValues f).mapValues g = m.mapValues fun k v => g k (f k v) :=
  ext (List.map_map (l := m.entries))

theorem mapValues_id (m : OrderedMap β) : (m.mapValues fun _ v => v) = m :=
  ext (List.map_id' m.entries)

variable [DecidableEq α]

instance [(k : α) → DecidableEq (β k)] : DecidableEq (OrderedMap β) := fun m m' =>
  decidable_of_iff (m.entries = m'.entries) ⟨ext, congrArg entries⟩

def find (m : OrderedMap β) (k : α) : Option (β k) := m.entries.dlookup k

/-- The map with an entry for `k` at its end, unless it has one already. -/
def emplace (m : OrderedMap β) (k : α) (v : β k) : OrderedMap β :=
  if h : k ∈ m.keys then m
  else ⟨m.entries ++ [⟨k, v⟩], by
    refine (List.perm_nodupKeys (List.perm_append_singleton _ _)).mpr ?_
    exact List.nodupKeys_cons.mpr ⟨h, m.nodupKeys⟩⟩

/-- The map with `v` in place of the value of `k`, if it has one. -/
def assign (m : OrderedMap β) (k : α) (v : β k) : OrderedMap β :=
  m.mapValues fun j w => if h : j = k then h ▸ v else w

/-- Each entry of a list in turn, by `emplace`. -/
def insertAll (m : OrderedMap β) (l : List (Sigma β)) : OrderedMap β :=
  l.foldl (fun m s => m.emplace s.1 s.2) m

@[simp] theorem find_empty (k : α) : (empty : OrderedMap β).find k = none := rfl

theorem find_isSome {m : OrderedMap β} {k : α} : (m.find k).isSome ↔ k ∈ m.keys :=
  List.dlookup_isSome

theorem find_eq_none {m : OrderedMap β} {k : α} : m.find k = none ↔ k ∉ m.keys :=
  List.dlookup_eq_none

theorem find_eq_some {m : OrderedMap β} {k : α} {v : β k} :
    m.find k = some v ↔ ⟨k, v⟩ ∈ m.entries := by
  rw [← List.mem_dlookup_iff m.nodupKeys]
  rfl

theorem mem_keys_of_find {m : OrderedMap β} {k : α} {v : β k} (h : m.find k = some v) :
    k ∈ m.keys :=
  find_isSome.mp (by simp [h])

theorem exists_find_of_mem {m : OrderedMap β} {k : α} (h : k ∈ m.keys) : ∃ v, m.find k = some v :=
  Option.isSome_iff_exists.mp (find_isSome.mpr h)

@[simp] theorem find_mapValues (f : (k : α) → β k → γ k) (m : OrderedMap β) (k : α) :
    (m.mapValues f).find k = (m.find k).map (f k) :=
  List.dlookup_map₂ k

theorem mapValues_congr {f g : (k : α) → β k → γ k} {m : OrderedMap β}
    (h : ∀ k v, m.find k = some v → f k v = g k v) : m.mapValues f = m.mapValues g := by
  refine ext (List.map_congr_left fun s mem => ?_)
  rw [h s.1 s.2 (find_eq_some.mpr mem)]

theorem find_emplace (m : OrderedMap β) (k : α) (v : β k) (j : α) :
    (m.emplace k v).find j = (m.find j).or (List.dlookup j [⟨k, v⟩]) := by
  by_cases h : k ∈ m.keys
  · rw [emplace, dif_pos h]
    by_cases hj : j = k
    · subst hj
      obtain ⟨w, hw⟩ := exists_find_of_mem h
      simp [hw]
    · simp [List.dlookup_cons_ne _ ⟨k, v⟩ hj]
  · rw [emplace, dif_neg h]
    exact List.dlookup_append _ _ _

theorem find_emplace_self (m : OrderedMap β) (k : α) (v : β k) :
    (m.emplace k v).find k = some ((m.find k).getD v) := by
  rw [find_emplace, List.dlookup_cons_eq]
  cases m.find k <;> rfl

theorem find_emplace_ne (m : OrderedMap β) {j k : α} (v : β k) (h : j ≠ k) :
    (m.emplace k v).find j = m.find j := by
  simp [find_emplace, List.dlookup_cons_ne _ ⟨k, v⟩ h]

@[simp] theorem mem_keys_emplace {m : OrderedMap β} {j k : α} {v : β k} :
    j ∈ (m.emplace k v).keys ↔ j ∈ m.keys ∨ j = k := by
  by_cases h : k ∈ m.keys
  · rw [emplace, dif_pos h]
    exact ⟨Or.inl, fun hj => hj.elim id fun e => e ▸ h⟩
  · rw [emplace, dif_neg h]
    simp [keys, List.keys_append]

@[simp] theorem keys_assign (m : OrderedMap β) (k : α) (v : β k) : (m.assign k v).keys = m.keys :=
  keys_mapValues _ m

theorem find_assign_self {m : OrderedMap β} {k : α} (v : β k) (h : k ∈ m.keys) :
    (m.assign k v).find k = some v := by
  obtain ⟨w, hw⟩ := exists_find_of_mem h
  simp [assign, hw]

theorem find_assign_ne (m : OrderedMap β) {j k : α} (v : β k) (h : j ≠ k) :
    (m.assign k v).find j = m.find j := by
  simp [assign, h]

theorem find_insertAll (m : OrderedMap β) (l : List (Sigma β)) (k : α) :
    (m.insertAll l).find k = (m.find k).or (l.dlookup k) := by
  induction l generalizing m with
  | nil => simp [insertAll]
  | cons s l ih =>
    have step : (m.insertAll (s :: l)) = (m.emplace s.1 s.2).insertAll l := rfl
    rw [step, ih, find_emplace, Option.or_assoc, ← List.dlookup_append]
    rfl

@[simp] theorem mem_keys_insertAll {m : OrderedMap β} {l : List (Sigma β)} {k : α} :
    k ∈ (m.insertAll l).keys ↔ k ∈ m.keys ∨ k ∈ l.keys := by
  rw [← find_isSome, find_insertAll, Option.isSome_or, Bool.or_eq_true, find_isSome,
    List.dlookup_isSome]

/-- The map with `v` as the value of `k`. -/
def set (m : OrderedMap β) (k : α) (v : β k) : OrderedMap β := (m.emplace k v).assign k v

@[simp] theorem mem_keys_set {m : OrderedMap β} {j k : α} {v : β k} :
    j ∈ (m.set k v).keys ↔ j ∈ m.keys ∨ j = k := by
  rw [set, keys_assign, mem_keys_emplace]

theorem find_set_self (m : OrderedMap β) (k : α) (v : β k) : (m.set k v).find k = some v :=
  find_assign_self v (mem_keys_emplace.mpr (.inr rfl))

theorem find_set_ne (m : OrderedMap β) {j k : α} (v : β k) (h : j ≠ k) :
    (m.set k v).find j = m.find j := by
  rw [set, find_assign_ne _ v h, find_emplace_ne m v h]

/-- The map with the value of `k`, if it has one, changed by another. -/
def updateAt (f : (k : α) → β k → γ k → β k) (m : OrderedMap β) (k : α) (c : γ k) : OrderedMap β :=
  match m.find k with
  | some b => m.assign k (f k b c)
  | none => m

/-- The values of the map, each changed by one of the list for the same key. -/
def update (f : (k : α) → β k → γ k → β k) (m : OrderedMap β) (l : List (Sigma γ)) : OrderedMap β :=
  l.foldl (fun m s => m.updateAt f s.1 s.2) m

theorem keys_updateAt (f : (k : α) → β k → γ k → β k) (m : OrderedMap β) (k : α) (c : γ k) :
    (m.updateAt f k c).keys = m.keys := by
  unfold updateAt
  split <;> simp

theorem find_updateAt_self (f : (k : α) → β k → γ k → β k) (m : OrderedMap β) (k : α) (c : γ k) :
    (m.updateAt f k c).find k = (m.find k).map fun b => f k b c := by
  unfold updateAt
  split
  · rename_i b found
    rw [find_assign_self _ (mem_keys_of_find found), found]
    rfl
  · rename_i none
    rw [none]
    rfl

theorem find_updateAt_ne (f : (k : α) → β k → γ k → β k) (m : OrderedMap β) {j k : α} (c : γ k)
    (h : j ≠ k) : (m.updateAt f k c).find j = m.find j := by
  unfold updateAt
  split
  · exact find_assign_ne m _ h
  · rfl

theorem keys_update (f : (k : α) → β k → γ k → β k) (m : OrderedMap β) (l : List (Sigma γ)) :
    (m.update f l).keys = m.keys := by
  induction l generalizing m with
  | nil => rfl
  | cons s l ih => exact (ih _).trans (keys_updateAt f m s.1 s.2)

theorem find_update (f : (k : α) → β k → γ k → β k) (m : OrderedMap β) {l : List (Sigma γ)}
    (nodup : l.NodupKeys) (k : α) :
    (m.update f l).find k =
      (m.find k).map fun b => ((l.dlookup k).map (f k b)).getD b := by
  induction l generalizing m with
  | nil => simp [update]
  | cons s l ih =>
    obtain ⟨j, c⟩ := s
    obtain ⟨fresh, nodup⟩ := List.nodupKeys_cons.mp nodup
    refine (ih (m.updateAt f j c) nodup).trans ?_
    by_cases same : k = j
    · subst same
      rw [List.dlookup_eq_none.mpr fresh, List.dlookup_cons_eq, find_updateAt_self]
      cases m.find k <;> rfl
    · rw [List.dlookup_cons_ne _ ⟨j, c⟩ same, find_updateAt_ne f m c same]

end OrderedMap

end Container
