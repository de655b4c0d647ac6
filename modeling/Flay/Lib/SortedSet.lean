import Mathlib.Data.List.Basic
import Mathlib.Data.List.Pairwise
import Mathlib.Tactic.Common

/-! Sets kept as lists that a strict weak order sorts.  Elements that the order does not tell apart
count as one, and the element that came first stays. -/

namespace Container

universe u v

/-- A strict weak order: incomparable elements form classes that the order ranks. -/
structure WeakOrder (α : Type u) where
  less : α → α → Bool
  irrefl : ∀ a, less a a = false
  trans : ∀ a b c, less a b = true → less b c = true → less a c = true
  cotrans : ∀ a b c, less a c = true → less a b = true ∨ less b c = true

namespace WeakOrder

variable {α : Type u} (o : WeakOrder α)

/-- Neither element comes before the other. -/
def equiv (a b : α) : Bool := !o.less a b && !o.less b a

theorem equiv_iff {a b : α} : o.equiv a b = true ↔ o.less a b = false ∧ o.less b a = false := by
  simp [equiv]

theorem equiv_refl (a : α) : o.equiv a a = true := by simp [equiv, o.irrefl]

theorem equiv_symm {a b : α} (h : o.equiv a b = true) : o.equiv b a = true := by
  rw [equiv_iff] at *
  exact ⟨h.2, h.1⟩

theorem asymm {a b : α} (h : o.less a b = true) : o.less b a = false := by
  by_contra hb
  have := o.trans a b a h (by simpa using hb)
  simp [o.irrefl] at this

theorem less_of_equiv_of_less {a b c : α} (h : o.equiv a b = true) (hc : o.less b c = true) :
    o.less a c = true := by
  rcases o.cotrans b a c hc with hba | hac
  · simp [((o.equiv_iff).mp h).2] at hba
  · exact hac

theorem less_of_less_of_equiv {a b c : α} (h : o.less a b = true) (hc : o.equiv b c = true) :
    o.less a c = true := by
  rcases o.cotrans a c b h with hac | hcb
  · exact hac
  · simp [((o.equiv_iff).mp hc).2] at hcb

theorem equiv_trans {a b c : α} (h : o.equiv a b = true) (hc : o.equiv b c = true) :
    o.equiv a c = true := by
  rw [equiv_iff]
  refine ⟨?_, ?_⟩ <;> by_contra hl <;> simp only [Bool.not_eq_false] at hl
  · have := o.less_of_equiv_of_less (o.equiv_symm h) hl
    simp [((o.equiv_iff).mp hc).1] at this
  · have := o.less_of_equiv_of_less hc hl
    simp [((o.equiv_iff).mp h).2] at this

theorem less_or_equiv_or_less (a b : α) :
    o.less a b = true ∨ o.equiv a b = true ∨ o.less b a = true := by
  cases h : o.less a b <;> cases h' : o.less b a <;> simp [equiv, h, h']

/-- A comparison that computes the same. -/
def withLess (less : α → α → Bool) (same : less = o.less) : WeakOrder α where
  less := less
  irrefl := same ▸ o.irrefl
  trans := same ▸ o.trans
  cotrans := same ▸ o.cotrans

/-- Pairs by their first components, and those that these do not tell apart by the second. -/
def prod {β : Type v} (o' : WeakOrder β) : WeakOrder (α × β) where
  less a b := o.less a.1 b.1 || (o.equiv a.1 b.1 && o'.less a.2 b.2)
  irrefl a := by simp [o.irrefl, o'.irrefl]
  trans a b c := by
    simp only [Bool.or_eq_true, Bool.and_eq_true]
    rintro (hab | ⟨hab, hab'⟩) (hbc | ⟨hbc, hbc'⟩)
    · exact .inl (o.trans _ _ _ hab hbc)
    · exact .inl (o.less_of_less_of_equiv hab hbc)
    · exact .inl (o.less_of_equiv_of_less hab hbc)
    · exact .inr ⟨o.equiv_trans hab hbc, o'.trans _ _ _ hab' hbc'⟩
  cotrans a b c := by
    simp only [Bool.or_eq_true, Bool.and_eq_true]
    rintro (hac | ⟨hac, hac'⟩)
    · exact (o.cotrans _ b.1 _ hac).imp .inl .inl
    · rcases o.less_or_equiv_or_less a.1 b.1 with hab | hab | hba
      · exact .inl (.inl hab)
      · have hbc := o.equiv_trans (o.equiv_symm hab) hac
        exact (o'.cotrans _ b.2 _ hac').imp (fun h => .inr ⟨hab, h⟩) fun h => .inr ⟨hbc, h⟩
      · exact .inr (.inl (o.less_of_less_of_equiv hba hac))

def listLess : List α → List α → Bool
  | _, [] => false
  | [], _ :: _ => true
  | a :: l, b :: m => o.less a b || (o.equiv a b && listLess l m)

theorem listLess_irrefl : ∀ l : List α, o.listLess l l = false
  | [] => rfl
  | a :: l => by simp [listLess, o.irrefl, listLess_irrefl l]

theorem listLess_trans : ∀ l m n : List α, o.listLess l m = true → o.listLess m n = true →
    o.listLess l n = true
  | _, [], _, h, _ => by simp [listLess] at h
  | _, _ :: _, [], _, h => by simp [listLess] at h
  | [], _ :: _, _ :: _, _, _ => rfl
  | a :: l, b :: m, c :: n, hab, hbc => by
    simp only [listLess, Bool.or_eq_true, Bool.and_eq_true] at hab hbc ⊢
    rcases hab with hab | ⟨hab, hlm⟩ <;> rcases hbc with hbc | ⟨hbc, hmn⟩
    · exact .inl (o.trans _ _ _ hab hbc)
    · exact .inl (o.less_of_less_of_equiv hab hbc)
    · exact .inl (o.less_of_equiv_of_less hab hbc)
    · exact .inr ⟨o.equiv_trans hab hbc, listLess_trans l m n hlm hmn⟩

theorem listLess_cotrans : ∀ l m n : List α, o.listLess l n = true →
    o.listLess l m = true ∨ o.listLess m n = true
  | _, _, [], h => by simp [listLess] at h
  | _, [], _ :: _, _ => .inr rfl
  | [], _ :: _, _ :: _, _ => .inl rfl
  | a :: l, b :: m, c :: n, hac => by
    simp only [listLess, Bool.or_eq_true, Bool.and_eq_true] at hac ⊢
    rcases hac with hac | ⟨hac, hln⟩
    · exact (o.cotrans _ b _ hac).imp .inl .inl
    · rcases o.less_or_equiv_or_less a b with hab | hab | hba
      · exact .inl (.inl hab)
      · have hbc := o.equiv_trans (o.equiv_symm hab) hac
        exact (listLess_cotrans l m n hln).imp (fun h => .inr ⟨hab, h⟩) fun h => .inr ⟨hbc, h⟩
      · exact .inr (.inl (o.less_of_less_of_equiv hba hac))

/-- Lists by the first elements that the order tells apart, a list before its extensions. -/
def list : WeakOrder (List α) where
  less := o.listLess
  irrefl := o.listLess_irrefl
  trans := o.listLess_trans
  cotrans := o.listLess_cotrans

theorem equiv_prod {β : Type v} {o' : WeakOrder β} {a b : α × β} :
    (o.prod o').equiv a b = true ↔ o.equiv a.1 b.1 = true ∧ o'.equiv a.2 b.2 = true := by
  constructor
  · intro h
    obtain ⟨below, above⟩ := (equiv_iff _).mp h
    simp only [prod, Bool.or_eq_false_iff, Bool.and_eq_false_iff] at below above
    have first : o.equiv a.1 b.1 = true := (o.equiv_iff).mpr ⟨below.1, above.1⟩
    refine ⟨first, (o'.equiv_iff).mpr ⟨?_, ?_⟩⟩
    · exact below.2.resolve_left (by simp [first])
    · exact above.2.resolve_left (by simp [o.equiv_symm first])
  · rintro ⟨first, second⟩
    obtain ⟨below, above⟩ := (o.equiv_iff).mp first
    obtain ⟨below', above'⟩ := (o'.equiv_iff).mp second
    simp [equiv_iff, prod, below, above, below', above']

theorem equiv_list_cons {a b : α} {l m : List α} :
    o.list.equiv (a :: l) (b :: m) = true ↔ o.equiv a b = true ∧ o.list.equiv l m = true := by
  have pair : (o.prod o.list).equiv (a, l) (b, m) = true ↔
      o.equiv a b = true ∧ o.list.equiv l m = true := o.equiv_prod
  exact pair

/-- An order that identifies only equal elements identifies only equal lists. -/
theorem eq_of_list_equiv (total : ∀ a b, o.equiv a b = true → a = b) :
    ∀ {l m : List α}, o.list.equiv l m = true → l = m
  | [], [], _ => rfl
  | [], _ :: _, h => by simp [equiv, list, listLess] at h
  | _ :: _, [], h => by simp [equiv, list, listLess] at h
  | a :: l, b :: m, h => by
    obtain ⟨head, tail⟩ := (o.equiv_list_cons).mp h
    rw [total a b head, eq_of_list_equiv total tail]

/-- The order of natural ranks. -/
def ofRank (rank : α → Nat) : WeakOrder α where
  less a b := decide (rank a < rank b)
  irrefl a := by simp
  trans a b c := by simp only [decide_eq_true_eq]; omega
  cotrans a b c := by simp only [decide_eq_true_eq]; omega

/-- The order that `f` pulls back. -/
def comap {β : Type v} (f : β → α) : WeakOrder β where
  less a b := o.less (f a) (f b)
  irrefl a := o.irrefl (f a)
  trans a b c := o.trans (f a) (f b) (f c)
  cotrans a b c := o.cotrans (f a) (f b) (f c)

end WeakOrder

/-- The elements of a set, each before the ones that `o` ranks after it. -/
structure SortedSet {α : Type u} (o : WeakOrder α) where
  list : List α
  sorted : list.Pairwise fun a b => o.less a b = true

namespace SortedSet

variable {α : Type u} {o : WeakOrder α}

instance : Membership α (SortedSet o) := ⟨fun s a => a ∈ s.list⟩

theorem mem_def {s : SortedSet o} {a : α} : a ∈ s ↔ a ∈ s.list := Iff.rfl

@[ext] theorem ext {s t : SortedSet o} (h : s.list = t.list) : s = t := by
  cases s; cases t; cases h; rfl

def empty : SortedSet o := ⟨[], .nil⟩

instance : Inhabited (SortedSet o) := ⟨empty⟩

@[simp] theorem not_mem_empty (a : α) : ¬a ∈ (empty : SortedSet o) := List.not_mem_nil

def size (s : SortedSet o) : Nat := s.list.length

/-- The element of the set that `o` does not tell apart from `a`. -/
def find (s : SortedSet o) (a : α) : Option α := s.list.find? (o.equiv a)

def contains (s : SortedSet o) (a : α) : Bool := s.list.any (o.equiv a)

theorem contains_iff {s : SortedSet o} {a : α} :
    s.contains a = true ↔ ∃ b ∈ s, o.equiv a b = true := List.any_eq_true

/-- `x` before the first element that comes after it, unless an element is equivalent to it. -/
def insertSorted (o : WeakOrder α) (x : α) : List α → List α
  | [] => [x]
  | a :: l =>
    if o.less x a then x :: a :: l else if o.less a x then a :: insertSorted o x l else a :: l

theorem mem_insertSorted {x y : α} : ∀ {l : List α}, y ∈ insertSorted o x l → y = x ∨ y ∈ l
  | [], h => .inl (List.mem_singleton.mp h)
  | a :: l, h => by
    rw [insertSorted] at h
    split at h
    · exact List.mem_cons.mp h
    · split at h
      · rcases List.mem_cons.mp h with rfl | h
        · exact .inr (List.mem_cons_self)
        · exact (mem_insertSorted h).imp id (List.mem_cons_of_mem a)
      · exact .inr h

theorem mem_insertSorted_of_mem {x y : α} : ∀ {l : List α}, y ∈ l → y ∈ insertSorted o x l
  | a :: l, h => by
    rw [insertSorted]
    split
    · exact List.mem_cons_of_mem x h
    · split
      · rcases List.mem_cons.mp h with rfl | h
        · exact List.mem_cons_self
        · exact List.mem_cons_of_mem a (mem_insertSorted_of_mem h)
      · exact h

theorem insertSorted_sorted {x : α} : ∀ {l : List α},
    l.Pairwise (fun a b => o.less a b = true) →
      (insertSorted o x l).Pairwise fun a b => o.less a b = true
  | [], _ => List.pairwise_singleton _ x
  | a :: l, h => by
    obtain ⟨before, tail⟩ := List.pairwise_cons.mp h
    rw [insertSorted]
    split
    · rename_i hx
      refine List.pairwise_cons.mpr ⟨fun b hb => ?_, h⟩
      rcases List.mem_cons.mp hb with rfl | hb
      · exact hx
      · exact o.trans _ _ _ hx (before b hb)
    · split
      · rename_i ha
        refine List.pairwise_cons.mpr ⟨fun b hb => ?_, insertSorted_sorted tail⟩
        rcases mem_insertSorted hb with rfl | hb
        · exact ha
        · exact before b hb
      · exact h

/-- A new element goes in, and an element equivalent to one that is there does not. -/
theorem insertSorted_perm {x : α} : ∀ {l : List α},
    l.Pairwise (fun a b => o.less a b = true) →
      if l.any (o.equiv x) then insertSorted o x l = l else (insertSorted o x l).Perm (x :: l)
  | [], _ => by simp [insertSorted]
  | a :: l, h => by
    obtain ⟨before, tail⟩ := List.pairwise_cons.mp h
    have ih := insertSorted_perm (x := x) tail
    by_cases hx : o.less x a = true
    · have none : (a :: l).any (o.equiv x) = false := by
        rw [List.any_eq_false]
        intro b hb
        have : o.less x b = true := by
          rcases List.mem_cons.mp hb with rfl | hb
          · exact hx
          · exact o.trans _ _ _ hx (before b hb)
        simp [WeakOrder.equiv, this]
      simp [none, insertSorted, hx]
    · by_cases ha : o.less a x = true
      · have skip : o.equiv x a = false := by simp [WeakOrder.equiv, ha]
        simp only [List.any_cons, skip, Bool.false_or, insertSorted, hx, ha, if_true]
        split at ih
        · simp [*]
        · simp only [*]
          exact (List.Perm.cons a ih).trans (List.Perm.swap x a l)
      · have here : o.equiv x a = true := by simp [WeakOrder.equiv, hx, ha]
        simp [here, insertSorted, hx, ha]

def insert (s : SortedSet o) (x : α) : SortedSet o :=
  ⟨insertSorted o x s.list, insertSorted_sorted s.sorted⟩

/-- The set without the elements equivalent to `x`. -/
def erase (s : SortedSet o) (x : α) : SortedSet o :=
  ⟨s.list.filter fun a => !o.equiv x a, s.sorted.filter _⟩

theorem insert_of_contains {s : SortedSet o} {x : α} (h : s.contains x = true) :
    s.insert x = s := by
  have := insertSorted_perm (x := x) s.sorted
  have hs : s.list.any (o.equiv x) = true := h
  rw [hs, if_pos rfl] at this
  exact ext this

theorem insert_perm {s : SortedSet o} {x : α} (h : s.contains x = false) :
    (s.insert x).list.Perm (x :: s.list) := by
  have := insertSorted_perm (x := x) s.sorted
  have hs : s.list.any (o.equiv x) = false := h
  rwa [hs, if_neg Bool.false_ne_true] at this

theorem mem_insert_imp {s : SortedSet o} {x y : α} (h : y ∈ s.insert x) : y = x ∨ y ∈ s :=
  mem_insertSorted h

theorem mem_insert {s : SortedSet o} {x y : α} (h : s.contains x = false) :
    y ∈ s.insert x ↔ y = x ∨ y ∈ s :=
  (insert_perm h).mem_iff.trans List.mem_cons

theorem size_insert {s : SortedSet o} {x : α} (h : s.contains x = false) :
    (s.insert x).size = s.size + 1 :=
  (insert_perm h).length_eq

@[simp] theorem mem_erase {s : SortedSet o} {x y : α} :
    y ∈ s.erase x ↔ y ∈ s ∧ o.equiv x y = false := by
  simp [mem_def, erase]

@[simp] theorem contains_erase (s : SortedSet o) (x : α) : (s.erase x).contains x = false := by
  rw [Bool.eq_false_iff, ne_eq, contains_iff]
  rintro ⟨b, hb, he⟩
  simp [mem_erase.mp hb] at he

/-- No two elements of a set are equivalent. -/
theorem eq_of_equiv {s : SortedSet o} {a b : α} (ha : a ∈ s) (hb : b ∈ s)
    (h : o.equiv a b = true) : a = b := by
  obtain ⟨i, hi, rfl⟩ := List.mem_iff_getElem.mp ha
  obtain ⟨j, hj, rfl⟩ := List.mem_iff_getElem.mp hb
  have ranked := List.pairwise_iff_getElem.mp s.sorted
  obtain ⟨notLess, notGreater⟩ := o.equiv_iff.mp h
  rcases Nat.lt_trichotomy i j with hij | rfl | hij
  · simp [ranked i j hi hj hij] at notLess
  · rfl
  · simp [ranked j i hj hi hij] at notGreater

theorem nodup (s : SortedSet o) : s.list.Nodup :=
  s.sorted.imp fun {a b} h same => by
    subst same
    simp [o.irrefl] at h

/-- A set is determined by its elements. -/
theorem ext_mem {s t : SortedSet o} (h : ∀ a, a ∈ s ↔ a ∈ t) : s = t := by
  have perm : s.list.Perm t.list := (List.perm_ext_iff_of_nodup s.nodup t.nodup).mpr h
  refine ext (perm.eq_of_pairwise (fun a b _ _ hab hba => ?_) s.sorted t.sorted)
  simp [o.asymm hab] at hba

theorem erase_of_not_contains {s : SortedSet o} {x : α} (h : s.contains x = false) :
    s.erase x = s := by
  refine ext_mem fun a => ⟨fun ha => (mem_erase.mp ha).1, fun ha => mem_erase.mpr ⟨ha, ?_⟩⟩
  by_contra he
  rw [contains_iff.mpr ⟨a, ha, by simpa using he⟩] at h
  cases h

theorem erase_ne_of_contains {s : SortedSet o} {x : α} (h : s.contains x = true) :
    s.erase x ≠ s := by
  intro same
  rw [← same, contains_erase] at h
  cases h

theorem insert_ne_of_not_contains {s : SortedSet o} {x : α} (h : s.contains x = false) :
    s.insert x ≠ s := by
  intro same
  have size := size_insert h
  rw [same] at size
  omega

/-- Replacing the element equivalent to `x` by `y`, which is equivalent to it as well, changes nothing
exactly when that element is `y`. -/
theorem insert_erase_eq_iff {s : SortedSet o} {x y : α} (h : o.equiv x y = true) :
    (s.erase x).insert y = s ↔ y ∈ s := by
  have absent : (s.erase x).contains y = false := by
    rw [Bool.eq_false_iff, ne_eq, contains_iff]
    rintro ⟨b, hb, he⟩
    simp [o.equiv_trans h he] at hb
  constructor
  · intro same
    rw [← same]
    exact (mem_insert absent).mpr (.inl rfl)
  · intro hy
    refine ext_mem fun a => ?_
    rw [mem_insert absent, mem_erase]
    constructor
    · rintro (rfl | ⟨ha, -⟩)
      · exact hy
      · exact ha
    · intro ha
      cases he : o.equiv x a with
      | false => exact .inr ⟨ha, rfl⟩
      | true => exact .inl (eq_of_equiv ha hy (o.equiv_trans (o.equiv_symm he) h))

theorem find_eq_none {s : SortedSet o} {a : α} : s.find a = none ↔ s.contains a = false := by
  simp [find, contains, List.find?_eq_none]

theorem find_eq_some {s : SortedSet o} {a b : α} :
    s.find a = some b ↔ b ∈ s ∧ o.equiv a b = true := by
  constructor
  · intro h
    exact ⟨List.mem_of_find?_eq_some h, List.find?_some h⟩
  · rintro ⟨hb, he⟩
    cases hf : s.find a with
    | none =>
      have := find_eq_none.mp hf
      rw [Bool.eq_false_iff, ne_eq, contains_iff] at this
      exact absurd ⟨b, hb, he⟩ this
    | some c =>
      have hc : c ∈ s := List.mem_of_find?_eq_some hf
      have hac : o.equiv a c = true := List.find?_some hf
      rw [eq_of_equiv hc hb (o.equiv_trans (o.equiv_symm hac) he)]

/-- The elements changed by `f`, which keeps their order. -/
def map (f : α → α) (hf : ∀ a b, o.less (f a) (f b) = o.less a b) (s : SortedSet o) :
    SortedSet o :=
  ⟨s.list.map f, List.pairwise_map.mpr (s.sorted.imp fun {a b} h => (hf a b).trans h)⟩

@[simp] theorem mem_map {f : α → α} {hf : ∀ a b, o.less (f a) (f b) = o.less a b}
    {s : SortedSet o} {b : α} : b ∈ s.map f hf ↔ ∃ a ∈ s, f a = b :=
  List.mem_map

@[simp] theorem size_map (f : α → α) (hf : ∀ a b, o.less (f a) (f b) = o.less a b)
    (s : SortedSet o) : (s.map f hf).size = s.size :=
  List.length_map f

section Map

variable {f : α → α} (hf : ∀ a b, o.less (f a) (f b) = o.less a b)

include hf

theorem equiv_map (a b : α) : o.equiv (f a) (f b) = o.equiv a b := by
  rw [WeakOrder.equiv, WeakOrder.equiv, hf, hf]

/-- A change that keeps the order of the elements goes through every operation on the set. -/
theorem contains_map (s : SortedSet o) (x : α) : (s.map f hf).contains (f x) = s.contains x := by
  simp only [contains, map, List.any_map, Function.comp_def, equiv_map hf]

theorem map_erase (s : SortedSet o) (x : α) : (s.erase x).map f hf = (s.map f hf).erase (f x) := by
  refine ext ?_
  simp only [erase, map, List.filter_map, Function.comp_def, equiv_map hf]

theorem map_insert (s : SortedSet o) (x : α) :
    (s.insert x).map f hf = (s.map f hf).insert (f x) := by
  have loop : ∀ l : List α, (insertSorted o x l).map f = insertSorted o (f x) (l.map f) := by
    intro l
    induction l with
    | nil => rfl
    | cons a l ih =>
      rw [List.map_cons, insertSorted, insertSorted, hf, hf]
      split
      · rfl
      · split
        · rw [List.map_cons, ih]
        · rfl
  exact ext (loop s.list)

end Map

end SortedSet

end Container
