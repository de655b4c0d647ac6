import Mathlib.Algebra.Group.Nat.Defs
import Mathlib.Data.List.Lex
import Mathlib.Data.Sum.Order

/-! `compareNat`, by which the files with updates are sorted: the comparison of two names is that of
keys that are made of their numbers and letters. -/

namespace Flay

/-- `std::isdigit` of a character. -/
def isdigit (c : UInt8) : Bool := decide (48 ≤ c) && decide (c ≤ 57)

def intMax : Nat := 2 ^ 31 - 1

/-- What a string stream of a name reads as an `int` at a digit, and what is left of the stream, which
fails on a number that is too large. -/
def extractInt (name : List UInt8) : Nat × Option (List UInt8) :=
  let value := (name.takeWhile isdigit).foldl (fun n c => 10 * n + (c.toNat - 48)) 0
  if value ≤ intMax then (value, some (name.dropWhile isdigit)) else (intMax, none)

/-- `std::getline` from a stream, which reads nothing once the stream has failed. -/
def getline : Option (List UInt8) → List UInt8
  | none => []
  | some rest => rest.takeWhile (· != 10)

theorem length_getline_lt {c : UInt8} (digit : isdigit c = true) (name : List UInt8) :
    (getline (extractInt (c :: name)).2).length < (c :: name).length := by
  unfold extractInt
  dsimp only
  split
  · rw [getline, List.dropWhile_cons_of_pos digit]
    have taken := (List.takeWhile_sublist (l := name.dropWhile isdigit) (· != 10)).length_le
    have dropped := (List.dropWhile_sublist (l := name) isdigit).length_le
    rw [List.length_cons]
    omega
  · exact Nat.succ_pos _

section Compare

variable (toupper : UInt8 → Int)

def compareNat : List UInt8 → List UInt8 → Bool
  | [], _ => true
  | _ :: _, [] => false
  | c :: a, d :: b =>
    if isdigit c && !isdigit d then true
    else if !isdigit c && isdigit d then false
    else if _digits : !isdigit c && !isdigit d then
      if toupper c = toupper d then compareNat a b
      else decide (toupper c < toupper d)
    else
      if (extractInt (c :: a)).1 ≠ (extractInt (d :: b)).1 then
        decide ((extractInt (c :: a)).1 < (extractInt (d :: b)).1)
      else compareNat (getline (extractInt (c :: a)).2) (getline (extractInt (d :: b)).2)
termination_by a => a.length
decreasing_by
  · exact Nat.lt_succ_self _
  · rename_i second _
    refine length_getline_lt ?_ a
    cases digit : isdigit c <;> simp_all

/-- The numbers and the upper case letters of a name, where a number comes before a letter. -/
def natKey : List UInt8 → List (Nat ⊕ₗ Int)
  | [] => []
  | c :: a =>
    if _digit : isdigit c then
      toLex (.inl (extractInt (c :: a)).1) :: natKey (getline (extractInt (c :: a)).2)
    else toLex (.inr (toupper c)) :: natKey a
termination_by a => a.length
decreasing_by
  · exact length_getline_lt _digit a
  · exact Nat.lt_succ_self _

variable {toupper}

theorem natKey_digit {c : UInt8} (digit : isdigit c = true) (a : List UInt8) :
    natKey toupper (c :: a) =
      toLex (.inl (extractInt (c :: a)).1) :: natKey toupper (getline (extractInt (c :: a)).2) := by
  rw [natKey, dif_pos digit]

theorem natKey_other {c : UInt8} (other : isdigit c = false) (a : List UInt8) :
    natKey toupper (c :: a) = toLex (.inr (toupper c)) :: natKey toupper a := by
  rw [natKey, dif_neg (by simp [other])]

section Heads

variable {α : Type} [LinearOrder α] {x y : α} {l l' : List α}

theorem cons_le_of_lt (lower : x < y) : x :: l ≤ y :: l' :=
  le_of_lt (List.cons_lt_cons_iff.mpr (.inl lower))

theorem not_cons_le_of_lt (lower : y < x) : ¬x :: l ≤ y :: l' :=
  not_le_of_gt (List.cons_lt_cons_iff.mpr (.inl lower))

theorem cons_le_iff_of_ne (different : x ≠ y) : x :: l ≤ y :: l' ↔ x < y :=
  ⟨fun le => lt_of_not_ge fun ge => not_cons_le_of_lt (lt_of_le_of_ne ge different.symm) le,
    cons_le_of_lt⟩

theorem cons_le_iff_of_eq : x :: l ≤ x :: l' ↔ l ≤ l' := by
  rw [← not_lt, ← not_lt, List.cons_lt_cons_iff]
  simp

end Heads

/-- The comparison is that of the keys. -/
theorem compareNat_iff (a b : List UInt8) :
    compareNat toupper a b = true ↔ natKey toupper a ≤ natKey toupper b := by
  induction a, b using compareNat.induct toupper with
  | case1 b =>
    rw [compareNat, natKey]
    exact iff_of_true rfl (not_lt.mp (List.not_lt_nil _))
  | case2 c a =>
    have longer : natKey toupper [] < natKey toupper (c :: a) := by
      rw [natKey, natKey]
      split <;> exact List.nil_lt_cons _ _
    rw [compareNat]
    exact iff_of_false Bool.false_ne_true (not_le_of_gt longer)
  | case3 c a d b first =>
    obtain ⟨digit, other⟩ : isdigit c = true ∧ isdigit d = false := by simpa using first
    rw [compareNat, if_pos first, natKey_digit digit, natKey_other other]
    exact iff_of_true rfl (cons_le_of_lt (Sum.Lex.inl_lt_inr _ _))
  | case4 c a d b first second =>
    obtain ⟨other, digit⟩ : isdigit c = false ∧ isdigit d = true := by simpa using second
    rw [compareNat, if_neg first, if_pos second, natKey_digit digit, natKey_other other]
    exact iff_of_false Bool.false_ne_true (not_cons_le_of_lt (Sum.Lex.inl_lt_inr _ _))
  | case5 c a d b first second others same ih =>
    obtain ⟨otherC, otherD⟩ : isdigit c = false ∧ isdigit d = false := by simpa using others
    rw [compareNat, if_neg first, if_neg second, dif_pos others, if_pos same, natKey_other otherC,
      natKey_other otherD, same, cons_le_iff_of_eq]
    exact ih
  | case6 c a d b first second others different =>
    obtain ⟨otherC, otherD⟩ : isdigit c = false ∧ isdigit d = false := by simpa using others
    rw [compareNat, if_neg first, if_neg second, dif_pos others, if_neg different,
      natKey_other otherC, natKey_other otherD, decide_eq_true_iff,
      cons_le_iff_of_ne fun same => different (Sum.inr.inj (toLex.injective same))]
    exact Sum.Lex.inr_lt_inr_iff.symm
  | case7 c a d b first second others different =>
    have digits : isdigit c = true ∧ isdigit d = true := by
      cases digitC : isdigit c <;> cases digitD : isdigit d <;> simp_all
    rw [compareNat, if_neg first, if_neg second, dif_neg others, if_pos different,
      natKey_digit digits.1, natKey_digit digits.2, decide_eq_true_iff,
      cons_le_iff_of_ne fun same => different (Sum.inl.inj (toLex.injective same))]
    exact Sum.Lex.inl_lt_inl_iff.symm
  | case8 c a d b first second others same ih =>
    have digits : isdigit c = true ∧ isdigit d = true := by
      cases digitC : isdigit c <;> cases digitD : isdigit d <;> simp_all
    rw [compareNat, if_neg first, if_neg second, dif_neg others, if_neg same,
      natKey_digit digits.1, natKey_digit digits.2, not_not.mp same, cons_le_iff_of_eq]
    exact ih

/-! ### The axioms of a strict weak order -/

/-- Neither name is before the other. -/
def Incomparable (toupper : UInt8 → Int) (a b : List UInt8) : Prop :=
  compareNat toupper a b = false ∧ compareNat toupper b a = false

/-- What `std::sort` requires of the comparison, of three names. -/
structure StrictWeak (toupper : UInt8 → Int) (a b c : List UInt8) : Prop where
  irreflexive : compareNat toupper a a = false
  asymmetric : compareNat toupper a b = true → compareNat toupper b a = false
  transitive : compareNat toupper a b = true → compareNat toupper b c = true →
    compareNat toupper a c = true
  incomparable : Incomparable toupper a b → Incomparable toupper b c → Incomparable toupper a c

theorem compareNat_self (a : List UInt8) : compareNat toupper a a = true :=
  (compareNat_iff a a).mpr le_rfl

theorem compareNat_trans {a b c : List UInt8} (ab : compareNat toupper a b = true)
    (bc : compareNat toupper b c = true) : compareNat toupper a c = true :=
  (compareNat_iff a c).mpr (((compareNat_iff a b).mp ab).trans ((compareNat_iff b c).mp bc))

theorem not_incomparable (a b : List UInt8) : ¬Incomparable toupper a b := by
  rintro ⟨ab, ba⟩
  obtain le | le := le_total (natKey toupper a) (natKey toupper b)
  · rw [(compareNat_iff a b).mpr le] at ab
    cases ab
  · rw [(compareNat_iff b a).mpr le] at ba
    cases ba

/-- Both names are before the other where their keys are equal. -/
theorem compareNat_both_iff {a b : List UInt8} :
    compareNat toupper a b = true ∧ compareNat toupper b a = true ↔
      natKey toupper a = natKey toupper b := by
  rw [compareNat_iff, compareNat_iff]
  exact ⟨fun both => le_antisymm both.1 both.2, fun same => ⟨same.le, same.ge⟩⟩

/-- No three names meet what `std::sort` requires: every name is before itself. Of the other axioms,
asymmetry holds exactly of names with different keys, and transitivity and that of incomparability
hold always. -/
theorem not_strictWeak (toupper : UInt8 → Int) (a b c : List UInt8) :
    ¬StrictWeak toupper a b c ∧ compareNat toupper a a = true ∧
      ((compareNat toupper a b = true → compareNat toupper b a = false) ↔
        natKey toupper a ≠ natKey toupper b) ∧
      (compareNat toupper a b = true → compareNat toupper b c = true →
        compareNat toupper a c = true) ∧
      (Incomparable toupper a b → Incomparable toupper b c → Incomparable toupper a c) := by
  refine ⟨fun order => ?_, compareNat_self a, ?_, compareNat_trans, ?_⟩
  · have before : compareNat toupper a a = true := compareNat_self a
    rw [order.irreflexive] at before
    cases before
  · rw [Ne, ← compareNat_both_iff, not_and, Bool.not_eq_true]
  · exact fun ab => absurd ab (not_incomparable a b)

end Compare

section Examples

/-- `std::toupper` of the characters of ASCII. -/
def asciiToupper (c : UInt8) : Int := if 97 ≤ c ∧ c ≤ 122 then c.toNat - 32 else c.toNat

/-- The name `u9999999999`. -/
def overlong : List UInt8 := 117 :: 57 :: List.replicate 9 57

/-- The name `U8888888888.txt`, whose number is too large for an `int` as well. -/
def overlong' : List UInt8 := 85 :: 56 :: (List.replicate 9 56 ++ [46, 116, 120, 116])

/-- Each of the two names is before the other, and before itself. -/
theorem overlong_both :
    (compareNat asciiToupper overlong overlong' = true ∧
      compareNat asciiToupper overlong' overlong = true) ∧
    compareNat asciiToupper overlong overlong = true ∧
    ¬StrictWeak asciiToupper overlong overlong' overlong := by
  have key : natKey asciiToupper overlong = natKey asciiToupper overlong' := by
    have lower : isdigit 117 = false := by decide
    have upper : isdigit 85 = false := by decide
    have nine : isdigit 57 = true := by decide
    have eight : isdigit 56 = true := by decide
    rw [overlong, overlong', natKey_other lower, natKey_other upper, natKey_digit nine,
      natKey_digit eight]
    rfl
  refine ⟨compareNat_both_iff.mpr key, compareNat_self _, fun order => ?_⟩
  have before : compareNat asciiToupper overlong overlong = true := compareNat_self overlong
  rw [order.irreflexive] at before
  cases before

end Examples

end Flay
