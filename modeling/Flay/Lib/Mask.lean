import Mathlib.Data.List.Basic
import Mathlib.Tactic.Common

/-! Masks of bit vectors: the values that agree with one on the bits of a mask, and the masks whose
bits are the leading ones. -/

namespace Mask

variable {w : Nat}

/-- Two values have the same bits under a mask when they agree on each bit of it. -/
theorem and_eq_iff {k v m : BitVec w} :
    k &&& m = v &&& m ↔ ∀ i, m.getLsbD i = true → k.getLsbD i = v.getLsbD i := by
  constructor
  · intro h i set
    have bit := congrArg (BitVec.getLsbD · i) h
    simpa only [BitVec.getLsbD_and, set, Bool.and_true] using bit
  · intro h
    refine BitVec.eq_of_getLsbD_eq fun i _ => ?_
    rw [BitVec.getLsbD_and, BitVec.getLsbD_and]
    cases set : m.getLsbD i with
    | false => rw [Bool.and_false, Bool.and_false]
    | true => rw [h i set]

/-- The values that agree with one on the bits of a mask determine the mask, and the value on it. -/
theorem unique {l r u m : BitVec w} (same : ∀ k, k &&& r = l &&& r ↔ k &&& m = u &&& m) :
    r = m ∧ l &&& r = u &&& m := by
  have base : l &&& m = u &&& m := (same l).mp rfl
  -- A value that differs from `l` outside of `p` only agrees with it on `q`, so `q` is within `p`.
  have below : ∀ {p q : BitVec w}, (l ^^^ ~~~p) &&& q = l &&& q → ∀ i, q.getLsbD i = true →
      p.getLsbD i = true := by
    intro p q h i hi
    have bit := and_eq_iff.mp h i hi
    have bound : i < w := BitVec.lt_of_getLsbD hi
    simp only [BitVec.getLsbD_xor, BitVec.getLsbD_not, bound] at bit
    revert bit
    cases l.getLsbD i <;> cases p.getLsbD i <;> simp
  have kept : ∀ p : BitVec w, (l ^^^ ~~~p) &&& p = l &&& p := by
    intro p
    refine and_eq_iff.mpr fun i hi => ?_
    have bound : i < w := BitVec.lt_of_getLsbD hi
    simp [BitVec.getLsbD_xor, BitVec.getLsbD_not, hi]
  have ofMask : ∀ i, r.getLsbD i = true → m.getLsbD i = true :=
    below ((same _).mpr ((kept m).trans base))
  have toMask : ∀ i, m.getLsbD i = true → r.getLsbD i = true :=
    below (((same _).mp (kept r)).trans base.symm)
  have equal : r = m :=
    BitVec.eq_of_getLsbD_eq fun i _ => Bool.eq_iff_iff.mpr ⟨ofMask i, toMask i⟩
  exact ⟨equal, equal ▸ base⟩

theorem getLsbD_allOnes_shiftLeft (n i : Nat) :
    (BitVec.allOnes w <<< n).getLsbD i = decide (n ≤ i ∧ i < w) := by
  rw [BitVec.getLsbD_shiftLeft, BitVec.getLsbD_allOnes, Bool.eq_iff_iff]
  simp only [Bool.and_eq_true, Bool.not_eq_true', decide_eq_true_eq, decide_eq_false_iff_not]
  omega

/-- Within the width, shifts of the ones by two amounts differ. -/
theorem allOnes_shiftLeft_inj {n n' : Nat} (h : n ≤ w) (h' : n' ≤ w) :
    BitVec.allOnes w <<< n = BitVec.allOnes w <<< n' ↔ n = n' := by
  constructor
  · intro same
    by_contra ne
    have atFirst := congrArg (BitVec.getLsbD · n) same
    have atSecond := congrArg (BitVec.getLsbD · n') same
    simp only [getLsbD_allOnes_shiftLeft, decide_eq_decide] at atFirst atSecond
    omega
  · exact congrArg (BitVec.allOnes w <<< ·)

/-- The mask of the leading bits. -/
theorem and_leading_iff {k v : BitVec w} {n : Nat} (h : n ≤ w) :
    k &&& (BitVec.allOnes w <<< (w - n)) = v &&& (BitVec.allOnes w <<< (w - n)) ↔
      ∀ i < n, k.getMsbD i = v.getMsbD i := by
  rw [and_eq_iff]
  simp only [getLsbD_allOnes_shiftLeft, decide_eq_true_eq, BitVec.getMsbD_eq_getLsbD]
  constructor
  · intro same i hi
    rw [same (w - 1 - i) (by omega)]
  · rintro same i ⟨low, high⟩
    have bit := same (w - 1 - i) (by omega)
    have back : w - 1 - (w - 1 - i) = i := by omega
    have bound : w - 1 - i < w := by omega
    simpa only [back, bound, decide_true, Bool.true_and] using bit

/-- No mask of a positive width is the shift of the ones by itself. -/
theorem allOnes_shiftLeft_toNat_ne (positive : 0 < w) (m : BitVec w) :
    BitVec.allOnes w <<< m.toNat ≠ m := by
  intro h
  have value := congrArg BitVec.toNat h
  by_cases wide : w ≤ m.toNat
  · rw [BitVec.shiftLeft_eq_zero wide] at h
    rw [← h] at wide
    simp at wide
    omega
  · -- The lowest bit of the shifted mask is its bit `m.toNat`, which is above the number itself.
    have set := congrArg (BitVec.getLsbD · m.toNat) h
    have small : m.toNat < 2 ^ m.toNat := Nat.lt_two_pow_self
    have clear : m.getLsbD m.toNat = false := Nat.testBit_lt_two_pow small
    simp only [getLsbD_allOnes_shiftLeft, clear, decide_eq_false_iff_not] at set
    omega

end Mask
