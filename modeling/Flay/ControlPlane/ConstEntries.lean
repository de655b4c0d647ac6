import Flay.ControlPlane.Initializer
import Flay.ControlPlane.Messages
import Flay.Lib.Mask

/-! Const entries and the messages of the control plane that mean the same: when both are encoded
by the same assignment set. -/

namespace Flay

open Container ControlPlaneStateInitializer

/-- The targets with an initializer of their own, and the one that they fall back to. -/
inductive Target
  | core
  | bmv2
  | tofino
deriving DecidableEq

def Target.computeMatch : Target → ComputeMatch
  | .core => fun _ _ => ControlPlaneStateInitializer.computeMatch
  | .bmv2 => fun _ _ => bmv2ComputeMatch
  | .tofino => fun _ _ => tofinoComputeMatch

/-- The mask of a prefix: its bits from the top are ones. -/
def prefixMask (w : Nat) (prefixLen : Int) : BitVec w :=
  BitVec.allOnes w <<< (w - prefixLen.toNat)

/-- The values of the key that a const entry stands for. -/
def EntryKey.Covers {s : Bool} {w : Nat} (k : BitVec w) : EntryKey (.bits s w) → Prop
  | .literal value => k = value
  | .mask left right => k &&& right = left &&& right
  | .range left right => BinaryOp.lessEqual s left k = true ∧ BinaryOp.lessEqual s k right = true
  | .default => True

/-- The values of the key that a match of a message stands for; an omitted field stands for all. -/
def FieldMatchType.Covers (s : Bool) {w : Nat} (k : BitVec w) : Option FieldMatchType → Prop
  | some (.exact value) | some (.optional value) => k = .ofNat w value
  | some (.lpm value prefixLen) =>
    k &&& prefixMask w prefixLen = .ofNat w value &&& prefixMask w prefixLen
  | some (.ternary value mask) => k &&& .ofNat w mask = .ofNat w value &&& .ofNat w mask
  | some (.range low high) =>
    BinaryOp.lessEqual s (.ofNat w low) k = true ∧ BinaryOp.lessEqual s k (.ofNat w high) = true
  | some .unset => False
  | none => True

/-- The matches that P4Runtime has for a key of the kind. Only exact matches cannot be omitted, and a
selector key has no match. -/
def MatchKind.Takes (s : Bool) (w : Nat) : MatchKind → Option FieldMatchType → Prop
  | .selector, _ => False
  | .exact, some (.exact _) => True
  | .lpm, some (.lpm _ prefixLen) => 0 ≤ prefixLen ∧ prefixLen ≤ w
  | .ternary, some (.ternary _ _) => True
  | .range, some (.range low high) =>
    BinaryOp.lessEqual s (.ofNat w low) (.ofNat w high) = true
  | .optional, some (.optional _) => True
  | .exact, none => False
  | _, none => True
  | _, some _ => False

/-- The const entry and the message stand for the same values of the key. -/
def SameMeaning {s : Bool} {w : Nat} (entryKey : EntryKey (.bits s w))
    (field : Option FieldMatchType) : Prop :=
  ∀ k : BitVec w, entryKey.Covers k ↔ FieldMatchType.Covers s k field

/-- `produceTableMatch`, or `produceTableMatchForMissingField` for an omitted field. -/
def producedMatch (tableName : String) (matchField : P4Info.MatchField)
    (field : Option FieldMatchType) : Option LiteralAssignmentSet :=
  match field with
  | some field => (produceTableMatch field tableName matchField).map Prod.fst
  | none => (produceTableMatchForMissingField tableName matchField).map Prod.fst

/-- The initializer and the converter of messages make the same assignment set. -/
def EncodedAlike (target : Target) (tableName : String) (matchField : P4Info.MatchField) {s : Bool}
    (entryKey : EntryKey (.bits s matchField.bitwidth)) (field : Option FieldMatchType) : Prop :=
  ∃ keySet, target.computeMatch entryKey tableName matchField.name matchField.matchType
      OrderedMap.empty = some keySet ∧ producedMatch tableName matchField field = some keySet

/-- When the two encodings are the same: the key is unsigned, the target has the kind, no bits
outside of a mask are set differently, and the prefix of an lpm match is not written as a mask. -/
def AlikeWhen (target : Target) (s : Bool) {w : Nat} (matchType : MatchKind)
    (entryKey : EntryKey (.bits s w)) (field : Option FieldMatchType) : Prop :=
  s = false ∧
    match matchType, entryKey, field with
    | .exact, .literal _, some (.exact _) => True
    | .lpm, .literal _, some (.lpm _ _) => True
    | .lpm, .mask left _, some (.lpm value prefixLen) =>
      left = .ofNat w value ∧ (prefixLen = 0 ∨ w ≤ 1)
    | .lpm, .default, some (.lpm value _) => BitVec.ofNat w value = 0
    | .ternary, .literal _, _ => True
    | .ternary, .mask left _, some (.ternary value _) => left = .ofNat w value
    | .ternary, .mask left _, none => left = 0
    | .ternary, .default, some (.ternary value _) => BitVec.ofNat w value = 0
    | .ternary, .default, none => True
    | .range, .literal _, some _ | .range, .range _ _, some _ | .range, .default, some _ =>
      target ≠ .core
    | .optional, .literal _, some _ => target ≠ .core
    | .optional, .default, none => target = .bmv2
    | _, _, _ => False

section Sets

variable {x y : SymbolicVariable}

theorem emplace_inj {a a' : x.type.Val} :
    (OrderedMap.empty.emplace x a : LiteralAssignmentSet) = OrderedMap.empty.emplace x a' ↔
      a = a' := by
  constructor
  · intro h
    have found := congrArg (OrderedMap.find · x) h
    simpa [OrderedMap.find_emplace_self] using found
  · rintro rfl
    rfl

theorem emplace_emplace_inj (ne : x ≠ y) {a a' : x.type.Val} {b b' : y.type.Val} :
    ((OrderedMap.empty.emplace x a).emplace y b : LiteralAssignmentSet) =
        (OrderedMap.empty.emplace x a').emplace y b' ↔ a = a' ∧ b = b' := by
  constructor
  · intro h
    have first := congrArg (OrderedMap.find · x) h
    have second := congrArg (OrderedMap.find · y) h
    simp only [OrderedMap.find_emplace_ne _ _ ne, OrderedMap.find_emplace_self,
      OrderedMap.find_emplace_ne _ _ ne.symm, OrderedMap.find_empty, Option.getD_none,
      Option.some.injEq] at first second
    exact ⟨first, second⟩
  · rintro ⟨rfl, rfl⟩
    rfl

end Sets

section Masks

variable {w : Nat}

theorem prefixMask_zero (w : Nat) : prefixMask w 0 = 0 := by
  simp [prefixMask]

/-- The mask of a prefix that is not empty has the highest bit. -/
theorem getLsbD_prefixMask {n : Nat} (positive : 0 < n) (wide : 0 < w) :
    (prefixMask w (n : Int)).getLsbD (w - 1) = true := by
  simp only [prefixMask, BitVec.getLsbD_shiftLeft, BitVec.getLsbD_allOnes, Int.toNat_natCast,
    Bool.and_eq_true, Bool.not_eq_true', decide_eq_true_eq, decide_eq_false_iff_not]
  omega

theorem ofInt_of_prefixMask_eq_zero {prefixLen : Int} (low : 0 ≤ prefixLen)
    (high : prefixLen ≤ w) (h : 0 = prefixMask w prefixLen) : 0 = BitVec.ofInt w prefixLen := by
  obtain ⟨n, rfl⟩ := Int.eq_ofNat_of_zero_le low
  have none : n = 0 := by
    by_contra some
    have top := congrArg (BitVec.getLsbD · (w - 1)) h
    rw [getLsbD_prefixMask (by omega) (by omega)] at top
    simp at top
  subst none
  simp

/-- The mask of a prefix of ones only is the one of the full length. -/
theorem ofInt_of_prefixMask_eq_allOnes {prefixLen : Int} (low : 0 ≤ prefixLen)
    (high : prefixLen ≤ w) (h : BitVec.allOnes w = prefixMask w prefixLen) :
    BitVec.ofNat w w = BitVec.ofInt w prefixLen := by
  obtain ⟨n, rfl⟩ := Int.eq_ofNat_of_zero_le low
  have full : n = w := by
    by_contra ne
    have bit := congrArg (BitVec.getLsbD · 0) h
    have positive : 0 < w := by omega
    have shifted : 0 < w - n := by omega
    simp [prefixMask, positive, shifted] at bit
  subst full
  rfl

/-- A prefix length is its own mask for the empty prefix only, or for a single bit. -/
theorem prefixMask_eq_ofInt_iff {prefixLen : Int} (low : 0 ≤ prefixLen) (high : prefixLen ≤ w) :
    prefixMask w prefixLen = BitVec.ofInt w prefixLen ↔ prefixLen = 0 ∨ w ≤ 1 := by
  obtain ⟨n, rfl⟩ := Int.eq_ofNat_of_zero_le low
  constructor
  · intro h
    by_contra neither
    obtain ⟨positive, wide⟩ : 0 < n ∧ 1 < w := by omega
    have top := congrArg (BitVec.getLsbD · (w - 1)) h
    have masked : (prefixMask w (n : Int)).getLsbD (w - 1) = true :=
      getLsbD_prefixMask positive (by omega)
    by_cases two : w = 2
    · subst two
      obtain rfl | rfl : n = 1 ∨ n = 2 := by omega
      · exact absurd h (by decide)
      · exact absurd h (by decide)
    · -- Three bits are enough to write the length of a prefix without the highest.
      have room : n < 2 ^ (w - 1) := by
        have below : w - 2 < 2 ^ (w - 2) := Nat.lt_two_pow_self
        have twice : 2 ^ (w - 1) = 2 * 2 ^ (w - 2) := by
          rw [← Nat.pow_succ']
          congr 1
          omega
        omega
      have cleared : (BitVec.ofInt w (n : Int)).getLsbD (w - 1) = false := by
        simp [BitVec.ofInt_natCast, BitVec.getLsbD_ofNat, Nat.testBit_lt_two_pow room]
      simp only [masked, cleared] at top
      exact absurd top (by decide)
  · rintro (none | narrow)
    · rw [none, prefixMask_zero]
      simp
    · obtain rfl | rfl : w = 0 ∨ w = 1 := by omega
      · exact Subsingleton.elim _ _
      · obtain rfl | rfl : n = 0 ∨ n = 1 := by omega
        · decide
        · decide

end Masks

section Kinds

variable {target : Target} {tableName : String} {matchField : P4Info.MatchField} {s : Bool}
  {entryKey : EntryKey (.bits s matchField.bitwidth)} {field : Option FieldMatchType}

theorem encodedAlike_of_sets {initial produced : LiteralAssignmentSet}
    (initialized : target.computeMatch entryKey tableName matchField.name matchField.matchType
      OrderedMap.empty = some initial)
    (converted : producedMatch tableName matchField field = some produced) :
    EncodedAlike target tableName matchField entryKey field ↔ initial = produced := by
  constructor
  · rintro ⟨keySet, same, same'⟩
    rw [initialized] at same
    rw [converted] at same'
    cases same
    cases same'
    rfl
  · rintro rfl
    exact ⟨initial, initialized, converted⟩

theorem not_encodedAlike_of_unsupported
    (unsupported : target.computeMatch entryKey tableName matchField.name matchField.matchType
      OrderedMap.empty = none) : ¬EncodedAlike target tableName matchField entryKey field := by
  rintro ⟨keySet, same, -⟩
  rw [unsupported] at same
  cases same

theorem not_encodedAlike_of_unconverted
    (unconverted : producedMatch tableName matchField field = none) :
    ¬EncodedAlike target tableName matchField entryKey field := by
  rintro ⟨keySet, -, same⟩
  rw [unconverted] at same
  cases same

/-- The initializer assigns variables of the key's own type. -/
theorem type_of_computeMatch {keySet : LiteralAssignmentSet} {x : SymbolicVariable}
    (h : target.computeMatch entryKey tableName matchField.name matchField.matchType
      OrderedMap.empty = some keySet) (mem : x ∈ keySet.keys) :
    x.type = .bits s matchField.bitwidth := by
  revert h
  cases target <;> cases matchField.matchType <;> cases entryKey <;> rintro ⟨⟩ <;>
    simp only [OrderedMap.mem_keys_emplace, OrderedMap.not_mem_keys_empty, false_or] at mem <;>
    aesop

/-- The converter of messages assigns some variable, and takes the key to be unsigned. -/
theorem exists_type_of_producedMatch {produced : LiteralAssignmentSet}
    (h : producedMatch tableName matchField field = some produced) :
    ∃ x ∈ produced.keys, x.type = .bit matchField.bitwidth := by
  have first : ∀ {x : SymbolicVariable} {v : x.type.Val},
      x ∈ (OrderedMap.empty.emplace x v : LiteralAssignmentSet).keys :=
    OrderedMap.mem_keys_emplace.mpr (.inr rfl)
  cases field with
  | none =>
    simp only [producedMatch, produceTableMatchForMissingField, Option.map_eq_some_iff] at h
    obtain ⟨made, h, rfl⟩ := h
    split at h
    · cases h
      exact ⟨_, OrderedMap.mem_keys_emplace.mpr (.inl first), rfl⟩
    · cases h
      exact ⟨_, OrderedMap.mem_keys_emplace.mpr (.inl first), rfl⟩
    · cases h
  | some field =>
    simp only [producedMatch, Option.map_eq_some_iff] at h
    obtain ⟨made, h, rfl⟩ := h
    cases field with
    | exact value | optional value =>
      cases h
      exact ⟨_, first, rfl⟩
    | lpm | ternary | range =>
      cases h
      exact ⟨_, OrderedMap.mem_keys_emplace.mpr (.inl first), rfl⟩
    | unset => cases h

/-- The two encoders disagree on the variables of a signed key. -/
theorem not_encodedAlike_of_signed (signed : s = true) :
    ¬EncodedAlike target tableName matchField entryKey field := by
  rintro ⟨keySet, initialized, converted⟩
  obtain ⟨x, mem, type⟩ := exists_type_of_producedMatch converted
  have other := type_of_computeMatch initialized mem
  rw [type, signed] at other
  cases other

end Kinds

section Unsigned

variable {target : Target} {tableName name : String} {id w : Nat}
  {entryKey : EntryKey (.bits false w)} {field : Option FieldMatchType}

theorem encodedAlike_exact_iff (taken : MatchKind.exact.Takes false w field)
    (same : SameMeaning entryKey field) :
    EncodedAlike target tableName ⟨id, name, w, .exact⟩ entryKey field ↔
      AlikeWhen target false .exact entryKey field := by
  match field, taken with
  | some (.exact value), _ =>
    cases entryKey with
    | literal v =>
      have equal : v = .ofNat w value := (same v).mp rfl
      have initialized : target.computeMatch (.literal v) tableName name .exact OrderedMap.empty =
          some (OrderedMap.empty.emplace (getTableKey tableName name (.bit w)) v) := by
        cases target <;> rfl
      refine (encodedAlike_of_sets initialized rfl).trans ?_
      refine emplace_inj.trans ?_
      exact ⟨fun _ => ⟨rfl, trivial⟩, fun _ => equal⟩
    | mask | range | default =>
      refine iff_of_false (not_encodedAlike_of_unsupported ?_) fun h => h.2
      cases target <;> rfl

/-- The value and the mask of an entry key that has them. -/
def EntryKey.valueMask {w : Nat} : EntryKey (.bits false w) → Option (BitVec w × BitVec w)
  | .literal value => some (value, BitVec.allOnes w)
  | .mask left right => some (left, right)
  | .range _ _ => none
  | .default => some (0, 0)

theorem EntryKey.covers_iff (entryKey : EntryKey (.bits false w)) {l r : BitVec w}
    (h : entryKey.valueMask = some (l, r)) (k : BitVec w) :
    entryKey.Covers k ↔ k &&& r = l &&& r := by
  cases entryKey with
  | literal | mask | default =>
    cases h
    simp [Covers]
  | range => cases h

/-- The value and the mask of a ternary match, and of an omitted field. -/
def FieldMatchType.valueMask (w : Nat) : Option FieldMatchType → BitVec w × BitVec w
  | some (.ternary value mask) => (.ofNat w value, .ofNat w mask)
  | _ => (0, 0)

theorem encodedAlike_ternary_iff (taken : MatchKind.ternary.Takes false w field)
    (same : SameMeaning entryKey field) :
    EncodedAlike target tableName ⟨id, name, w, .ternary⟩ entryKey field ↔
      AlikeWhen target false .ternary entryKey field := by
  let keySymbol := getTableKey tableName name (.bit w)
  let maskSymbol := getTableTernaryMask tableName name (.bit w)
  have apart : keySymbol ≠ maskSymbol := by simp [keySymbol, maskSymbol]
  have converted : producedMatch tableName ⟨id, name, w, .ternary⟩ field =
      some ((OrderedMap.empty.emplace keySymbol (FieldMatchType.valueMask w field).1).emplace
        maskSymbol (FieldMatchType.valueMask w field).2) := by
    match field, taken with
    | some (.ternary _ _), _ => rfl
    | none, _ => rfl
  have covered : ∀ k, FieldMatchType.Covers false k field ↔
      k &&& (FieldMatchType.valueMask w field).2 =
        (FieldMatchType.valueMask w field).1 &&& (FieldMatchType.valueMask w field).2 := by
    match field, taken with
    | some (.ternary _ _), _ => exact fun k => Iff.rfl
    | none, _ => simp [FieldMatchType.Covers, FieldMatchType.valueMask]
  cases initial : entryKey.valueMask with
  | none =>
    cases entryKey with
    | literal | mask | default => cases initial
    | range =>
      refine iff_of_false (not_encodedAlike_of_unsupported ?_) fun h => h.2
      cases target <;> rfl
  | some p =>
    obtain ⟨l, r⟩ := p
    obtain ⟨masks, values⟩ := Mask.unique fun k =>
      (EntryKey.covers_iff entryKey initial k).symm.trans ((same k).trans (covered k))
    have initialized : target.computeMatch entryKey tableName name .ternary OrderedMap.empty =
        some ((OrderedMap.empty.emplace keySymbol l).emplace maskSymbol r) := by
      cases entryKey with
      | literal | mask | default =>
        cases initial
        cases target <;> rfl
      | range => cases initial
    refine (encodedAlike_of_sets initialized converted).trans ?_
    refine (emplace_emplace_inj apart).trans ((and_iff_left masks).trans ?_)
    cases entryKey with
    | literal =>
      cases initial
      rw [← masks, BitVec.and_allOnes, BitVec.and_allOnes] at values
      exact iff_of_true values ⟨rfl, trivial⟩
    | mask =>
      cases initial
      match field, taken with
      | some (.ternary _ _), _ => exact ⟨fun h => ⟨rfl, h⟩, fun h => h.2⟩
      | none, _ => exact ⟨fun h => ⟨rfl, h⟩, fun h => h.2⟩
    | default =>
      cases initial
      match field, taken with
      | some (.ternary _ _), _ => exact ⟨fun h => ⟨rfl, h.symm⟩, fun h => h.2.symm⟩
      | none, _ => exact iff_of_true rfl ⟨rfl, trivial⟩
    | range => cases initial

theorem encodedAlike_lpm_iff (taken : MatchKind.lpm.Takes false w field)
    (same : SameMeaning entryKey field) :
    EncodedAlike target tableName ⟨id, name, w, .lpm⟩ entryKey field ↔
      AlikeWhen target false .lpm entryKey field := by
  match field, taken with
  | none, _ =>
    refine iff_of_false (not_encodedAlike_of_unconverted rfl) ?_
    cases entryKey <;> exact fun h => h.2
  | some (.lpm value prefixLen), taken =>
    obtain ⟨low, high⟩ := taken
    let keySymbol := getTableKey tableName name (.bit w)
    let lpmPrefixSymbol := getTableMatchLpmPrefix tableName name (.bit w)
    have apart : keySymbol ≠ lpmPrefixSymbol := by simp [keySymbol, lpmPrefixSymbol]
    cases entryKey with
    | literal v =>
      obtain ⟨masks, values⟩ := Mask.unique fun k =>
        (EntryKey.covers_iff (.literal v) rfl k).symm.trans (same k)
      have initialized : target.computeMatch (.literal v) tableName name .lpm OrderedMap.empty =
          some ((OrderedMap.empty.emplace keySymbol v).emplace lpmPrefixSymbol
            (BitVec.ofNat w w)) := by
        cases target <;> rfl
      refine (encodedAlike_of_sets initialized rfl).trans ((emplace_emplace_inj apart).trans ?_)
      rw [← masks, BitVec.and_allOnes, BitVec.and_allOnes] at values
      exact iff_of_true ⟨values, ofInt_of_prefixMask_eq_allOnes low high masks⟩ ⟨rfl, trivial⟩
    | mask l r =>
      obtain ⟨masks, -⟩ := Mask.unique fun k =>
        (EntryKey.covers_iff (.mask l r) rfl k).symm.trans (same k)
      have initialized : target.computeMatch (.mask l r) tableName name .lpm OrderedMap.empty =
          some ((OrderedMap.empty.emplace keySymbol l).emplace lpmPrefixSymbol r) := by
        cases target <;> rfl
      refine (encodedAlike_of_sets initialized rfl).trans ((emplace_emplace_inj apart).trans ?_)
      rw [masks, prefixMask_eq_ofInt_iff low high]
      exact ⟨fun h => ⟨rfl, h⟩, fun h => h.2⟩
    | default =>
      obtain ⟨masks, -⟩ := Mask.unique fun k =>
        (EntryKey.covers_iff .default rfl k).symm.trans (same k)
      have initialized : target.computeMatch (.default : EntryKey (.bits false w)) tableName name
          .lpm OrderedMap.empty =
          some ((OrderedMap.empty.emplace keySymbol 0#w).emplace lpmPrefixSymbol 0#w) := by
        cases target <;> rfl
      refine (encodedAlike_of_sets initialized rfl).trans ((emplace_emplace_inj apart).trans ?_)
      have empty := ofInt_of_prefixMask_eq_zero low high masks
      exact ⟨fun h => ⟨rfl, h.1.symm⟩, fun h => ⟨h.2.symm, empty⟩⟩
    | range =>
      refine iff_of_false (not_encodedAlike_of_unsupported ?_) fun h => h.2
      cases target <;> rfl

theorem lessEqual_iff {a b : BitVec w} : BinaryOp.lessEqual false a b = true ↔ a ≤ b := by
  simp [BinaryOp.lessEqual, BitVec.ule_eq_decide, BitVec.le_def]

/-- The range of an entry key for which an initializer has a range. -/
def EntryKey.bounds {w : Nat} : EntryKey (.bits false w) → Option (BitVec w × BitVec w)
  | .literal value => some (value, value)
  | .mask _ _ => none
  | .range left right => some (left, right)
  | .default => some (0, BitVec.allOnes w)

theorem EntryKey.covers_iff_of_bounds (entryKey : EntryKey (.bits false w)) {l r : BitVec w}
    (h : entryKey.bounds = some (l, r)) (k : BitVec w) : entryKey.Covers k ↔ l ≤ k ∧ k ≤ r := by
  cases entryKey with
  | literal value =>
    cases h
    simp only [Covers, BitVec.le_def, ← BitVec.toNat_inj]
    omega
  | mask => cases h
  | range left right =>
    cases h
    exact and_congr lessEqual_iff lessEqual_iff
  | default =>
    cases h
    simp [Covers, BitVec.le_def]
    omega

theorem encodedAlike_range_iff (taken : MatchKind.range.Takes false w field)
    (same : SameMeaning entryKey field) :
    EncodedAlike target tableName ⟨id, name, w, .range⟩ entryKey field ↔
      AlikeWhen target false .range entryKey field := by
  match field, taken with
  | none, _ =>
    refine iff_of_false (not_encodedAlike_of_unconverted rfl) ?_
    cases entryKey <;> exact fun h => h.2
  | some (.range low high), ordered =>
    let range := getTableRange tableName name (.bit w)
    have apart : range.1 ≠ range.2 := by simp [range]
    cases initial : entryKey.bounds with
    | none =>
      cases entryKey with
      | literal | range | default => cases initial
      | mask =>
        refine iff_of_false (not_encodedAlike_of_unsupported ?_) fun h => h.2
        cases target <;> rfl
    | some p =>
      obtain ⟨l, r⟩ := p
      have covered : ∀ k, (l ≤ k ∧ k ≤ r) ↔ (.ofNat w low ≤ k ∧ k ≤ .ofNat w high) := fun k =>
        (EntryKey.covers_iff_of_bounds entryKey initial k).symm.trans
          ((same k).trans (and_congr lessEqual_iff lessEqual_iff))
      have bounds : l = .ofNat w low ∧ r = .ofNat w high := by
        have nonempty := lessEqual_iff.mp ordered
        have atLow := covered (.ofNat w low)
        have atHigh := covered (.ofNat w high)
        have atLeft := covered l
        have atRight := covered r
        simp only [BitVec.le_def] at nonempty atLow atHigh atLeft atRight
        exact ⟨BitVec.eq_of_toNat_eq (by omega), BitVec.eq_of_toNat_eq (by omega)⟩
      cases supported : decide (target = .core) with
      | true =>
        obtain rfl := of_decide_eq_true supported
        refine iff_of_false (not_encodedAlike_of_unsupported ?_) ?_
        · cases entryKey <;> rfl
        · cases entryKey <;> simp [AlikeWhen]
      | false =>
        have initialized : target.computeMatch entryKey tableName name .range OrderedMap.empty =
            some ((OrderedMap.empty.emplace range.1 l).emplace range.2 r) := by
          cases entryKey with
          | literal | range | default =>
            cases initial
            cases target with
            | core => cases supported
            | bmv2 | tofino => rfl
          | mask => cases initial
        refine (encodedAlike_of_sets initialized rfl).trans ((emplace_emplace_inj apart).trans ?_)
        refine iff_of_true bounds ⟨rfl, ?_⟩
        cases entryKey with
        | literal | range | default => exact of_decide_eq_false supported
        | mask => cases initial

theorem encodedAlike_optional_iff (taken : MatchKind.optional.Takes false w field)
    (same : SameMeaning entryKey field) :
    EncodedAlike target tableName ⟨id, name, w, .optional⟩ entryKey field ↔
      AlikeWhen target false .optional entryKey field := by
  let keySymbol := getTableKey tableName name (.bit w)
  let maskSymbol := getTableTernaryMask tableName name (.bit w)
  have apart : maskSymbol ≠ keySymbol := by simp [keySymbol, maskSymbol]
  -- A match on anything has a mask, or nothing at all, where one on a value has the key alone.
  have masked : ∀ {v : BitVec w} {s : LiteralAssignmentSet}, maskSymbol ∈ s.keys →
      s ≠ OrderedMap.empty.emplace keySymbol v := by
    rintro v s mem rfl
    rcases OrderedMap.mem_keys_emplace.mp mem with mem | equal
    · exact OrderedMap.not_mem_keys_empty _ mem
    · exact apart equal
  have mask : ∀ {s : LiteralAssignmentSet} {m : BitVec w},
      maskSymbol ∈ (s.emplace maskSymbol m).keys :=
    OrderedMap.mem_keys_emplace.mpr (.inr rfl)
  have unsupported : target = .core → ¬EncodedAlike target tableName ⟨id, name, w, .optional⟩
      entryKey field := by
    rintro rfl
    exact not_encodedAlike_of_unsupported (by cases entryKey <;> rfl)
  match field, taken with
  | some (.optional value), _ =>
    cases entryKey with
    | literal v =>
      have equal : v = .ofNat w value := (same v).mp rfl
      cases target with
      | core => exact iff_of_false (unsupported rfl) fun h => h.2 rfl
      | bmv2 | tofino =>
        refine (encodedAlike_of_sets rfl rfl).trans (emplace_inj.trans ?_)
        exact iff_of_true equal ⟨rfl, by simp⟩
    | mask | range =>
      refine iff_of_false (not_encodedAlike_of_unsupported ?_) fun h => h.2
      cases target <;> rfl
    | default =>
      refine iff_of_false ?_ fun h => h.2
      cases target with
      | core => exact unsupported rfl
      | bmv2 => exact fun h => masked mask ((encodedAlike_of_sets rfl rfl).mp h)
      | tofino =>
        intro h
        have keys := congrArg OrderedMap.keys ((encodedAlike_of_sets rfl rfl).mp h)
        exact absurd keys (by simp [OrderedMap.empty, OrderedMap.emplace, OrderedMap.keys])
  | none, _ =>
    cases entryKey with
    | literal v =>
      refine iff_of_false ?_ fun h => h.2
      cases target with
      | core => exact unsupported rfl
      | bmv2 | tofino =>
        intro h
        have sets : (OrderedMap.empty.emplace keySymbol v : LiteralAssignmentSet) =
            (OrderedMap.empty.emplace keySymbol (0 : BitVec w)).emplace maskSymbol
              (0 : BitVec w) := (encodedAlike_of_sets rfl rfl).mp h
        exact masked mask sets.symm
    | mask | range =>
      refine iff_of_false (not_encodedAlike_of_unsupported ?_) fun h => h.2
      cases target <;> rfl
    | default =>
      cases target with
      | core => exact iff_of_false (unsupported rfl) fun h => by cases h.2
      | bmv2 => exact iff_of_true ((encodedAlike_of_sets rfl rfl).mpr rfl) ⟨rfl, rfl⟩
      | tofino =>
        refine iff_of_false (fun h => ?_) fun h => by cases h.2
        have keys := congrArg (maskSymbol ∈ OrderedMap.keys ·) ((encodedAlike_of_sets rfl rfl).mp h)
        exact OrderedMap.not_mem_keys_empty _ (keys.mpr mask)

end Unsigned

/-- A const entry and the message that means the same are encoded alike in exactly the cases of
`AlikeWhen`. -/
theorem encodedAlike_iff (target : Target) (tableName : String) (matchField : P4Info.MatchField)
    {s : Bool} (entryKey : EntryKey (.bits s matchField.bitwidth)) (field : Option FieldMatchType)
    (taken : matchField.matchType.Takes s matchField.bitwidth field)
    (same : SameMeaning entryKey field) :
    EncodedAlike target tableName matchField entryKey field ↔
      AlikeWhen target s matchField.matchType entryKey field := by
  cases s with
  | true => exact iff_of_false (not_encodedAlike_of_signed rfl) fun h => by cases h.1
  | false =>
    obtain ⟨id, name, w, kind⟩ := matchField
    cases kind with
    | exact => exact encodedAlike_exact_iff taken same
    | ternary => exact encodedAlike_ternary_iff taken same
    | lpm => exact encodedAlike_lpm_iff taken same
    | optional => exact encodedAlike_optional_iff taken same
    | range => exact encodedAlike_range_iff taken same
    | selector => cases taken

/-- A const entry for one key value and the message for it. -/
theorem encodedAlike_literal :
    EncodedAlike .bmv2 "t" ⟨1, "k", 8, .lpm⟩ (.literal (3 : BitVec 8) : EntryKey (.bits false 8))
      (some (.lpm 3 8)) := by
  have taken : MatchKind.lpm.Takes false 8 (some (.lpm 3 8)) := ⟨by decide, by decide⟩
  refine (encodedAlike_iff .bmv2 "t" ⟨1, "k", 8, .lpm⟩ _ _ taken fun k => ?_).mpr ⟨rfl, trivial⟩
  have mask : prefixMask 8 8 = BitVec.allOnes 8 := by decide
  have covers := EntryKey.covers_iff (.literal (3 : BitVec 8)) rfl k
  rw [← mask] at covers
  exact covers

/-- The entry `0x10 &&& 0xf0` keeps its mask where the message keeps the length of its prefix. -/
theorem mask_not_encodedAlike :
    MatchKind.lpm.Takes false 8 (some (.lpm 16 4)) ∧
      SameMeaning (.mask 16 240 : EntryKey (.bits false 8)) (some (.lpm 16 4)) ∧
      ¬EncodedAlike .bmv2 "t" ⟨1, "k", 8, .lpm⟩ (.mask 16 240 : EntryKey (.bits false 8))
        (some (.lpm 16 4)) := by
  have mask : prefixMask 8 4 = 240 := by decide
  refine ⟨⟨by decide, by decide⟩, fun k => ?_, ?_⟩
  · simp [EntryKey.Covers, FieldMatchType.Covers, mask]
  · rintro ⟨keySet, initialized, converted⟩
    have same := initialized.trans converted.symm
    have values := congrArg (Option.map (OrderedMap.find ·
      (getTableMatchLpmPrefix "t" "k" (.bit 8)))) same
    exact absurd values (by decide)

end Flay
