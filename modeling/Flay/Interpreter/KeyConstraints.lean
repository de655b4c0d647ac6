import Flay.ControlPlane.ConstEntries
import Flay.ControlPlane.Semantics
import Flay.Interpreter.TableExecutor

/-! What the matches of const entries and of messages mean to the constraints that the table executor
builds for the keys: the values of a key that satisfy its constraint. -/

namespace Flay

open Container TableExecutor

/-- The field that the program information has for the key. -/
def KeyElement.matchField (keyField : KeyElement) (id : Nat) : P4Info.MatchField :=
  ⟨id, keyField.name, keyField.width, keyField.matchType⟩

/-- Under the match, the constraint of the key holds for these values of its expression and for no
others. -/
def Means {s : Bool} {w : Nat} (key : Expr (.bits s w) → TableMatchKey)
    (matchSet : LiteralAssignmentSet) (values : BitVec w → Prop) : Prop :=
  ∀ (keyExpression : Expr (.bits s w)) (ρ : Valuation),
    (key keyExpression).computeControlPlaneConstraint.eval (matchSet.bind ρ) = true ↔
      values (keyExpression.eval (matchSet.bind ρ))

/-- The conversion succeeds, and the match that it makes means these values. -/
def Captures (keyField : KeyElement) (key : Expr keyField.type → TableMatchKey)
    (converted : Option LiteralAssignmentSet) (values : BitVec keyField.width → Prop) : Prop :=
  ∃ matchSet, converted = some matchSet ∧ Means key matchSet values

/-- The value is between the two bounds. -/
def Within (s : Bool) {w : Nat} (low high k : BitVec w) : Prop :=
  BinaryOp.lessEqual s low k = true ∧ BinaryOp.lessEqual s k high = true

namespace LiteralAssignmentSet

variable {x : SymbolicVariable} (ρ : Valuation)

theorem bind_of_find {m : LiteralAssignmentSet} {v : x.type.Val} (h : m.find x = some v) :
    m.bind ρ x = v := by
  rw [bind, h, Option.getD_some]

theorem bind_of_free {m : LiteralAssignmentSet} (h : x ∉ m.keys) : m.bind ρ x = ρ x := by
  rw [bind, OrderedMap.find_eq_none.mpr h, Option.getD_none]

end LiteralAssignmentSet

open LiteralAssignmentSet

namespace TableMatchKey

variable {tableName name : String} {s : Bool} {w : Nat} {k : Expr (.bits s w)} {ρ : Valuation}

theorem eval_optional :
    (TableMatchKey.optional tableName name k).computeControlPlaneConstraint.eval ρ = true ↔
      ρ (getTableKey tableName name (.bits s w)) = k.eval ρ := by
  simp [computeControlPlaneConstraint]

theorem eval_ternary {key mask : BitVec w}
    (hkey : ρ (getTableKey tableName name (.bits s w)) = key)
    (hmask : ρ (getTableTernaryMask tableName name (.bits s w)) = mask) :
    (TableMatchKey.ternary tableName name k).computeControlPlaneConstraint.eval ρ = true ↔
      k.eval ρ &&& mask = key &&& mask := by
  subst hkey hmask
  simp [computeControlPlaneConstraint, createTernaryKey, BinaryOp.eval]

theorem eval_lpm {key prefixLen : BitVec w}
    (hkey : ρ (getTableKey tableName name (.bits s w)) = key)
    (hlength : ρ (getTableMatchLpmPrefix tableName name (.bits s w)) = prefixLen) :
    (TableMatchKey.lpm tableName name k).computeControlPlaneConstraint.eval ρ = true ↔
      k.eval ρ &&& (BitVec.allOnes w <<< prefixLen.toNat) =
        key &&& (BitVec.allOnes w <<< prefixLen.toNat) := by
  subst hkey hlength
  simp [computeControlPlaneConstraint, createLpmKey, BinaryOp.eval]

theorem eval_range {low high : BitVec w}
    (hlow : ρ (getTableRange tableName name (.bits s w)).1 = low)
    (hhigh : ρ (getTableRange tableName name (.bits s w)).2 = high) :
    (TableMatchKey.range tableName name k).computeControlPlaneConstraint.eval ρ = true ↔
      BinaryOp.less s low high = true ∧ Within s low high (k.eval ρ) := by
  subst hlow hhigh
  simp [computeControlPlaneConstraint, createRangeKey, BinaryOp.eval, Within, and_assoc]

end TableMatchKey

section Meaning

variable {tableName name : String} {s : Bool} {w : Nat} {m : LiteralAssignmentSet}
  {values : BitVec w → Prop}

theorem captures_iff {keyField : KeyElement} {key : Expr keyField.type → TableMatchKey}
    {values : BitVec keyField.width → Prop} {converted : Option LiteralAssignmentSet}
    (made : converted = some m) :
    Captures keyField key converted values ↔ Means key m values := by
  constructor
  · rintro ⟨_, same, means⟩
    rw [made] at same
    cases same
    exact means
  · exact fun means => ⟨m, made, means⟩

/-- Where the match decides the constraint, its meaning is the same set of values. -/
theorem means_iff {key : Expr (.bits s w) → TableMatchKey} {holds : BitVec w → Prop}
    (decided : ∀ keyExpression ρ,
      (key keyExpression).computeControlPlaneConstraint.eval (m.bind ρ) = true ↔
        holds (keyExpression.eval (m.bind ρ))) :
    Means key m values ↔ ∀ k, holds k ↔ values k := by
  constructor
  · intro means k
    have literal := means (.lit k) fun _ => default
    rwa [decided, Expr.eval_lit] at literal
  · intro same keyExpression ρ
    rw [decided, same]

theorem means_optional_iff {key : BitVec w}
    (found : m.find (getTableKey tableName name (.bits s w)) = some key) :
    Means (TableMatchKey.optional (s := s) tableName name) m values ↔ ∀ k, key = k ↔ values k := by
  refine means_iff fun keyExpression ρ => ?_
  rw [TableMatchKey.eval_optional, bind_of_find ρ found]

theorem means_ternary_iff {key mask : BitVec w}
    (found : m.find (getTableKey tableName name (.bits s w)) = some key)
    (masked : m.find (getTableTernaryMask tableName name (.bits s w)) = some mask) :
    Means (TableMatchKey.ternary (s := s) tableName name) m values ↔
      ∀ k, k &&& mask = key &&& mask ↔ values k :=
  means_iff fun _ ρ => TableMatchKey.eval_ternary (bind_of_find ρ found) (bind_of_find ρ masked)

theorem means_lpm_iff {key prefixLen : BitVec w}
    (found : m.find (getTableKey tableName name (.bits s w)) = some key)
    (shifted : m.find (getTableMatchLpmPrefix tableName name (.bits s w)) = some prefixLen) :
    Means (TableMatchKey.lpm (s := s) tableName name) m values ↔
      ∀ k, k &&& (BitVec.allOnes w <<< prefixLen.toNat) =
        key &&& (BitVec.allOnes w <<< prefixLen.toNat) ↔ values k :=
  means_iff fun _ ρ => TableMatchKey.eval_lpm (bind_of_find ρ found) (bind_of_find ρ shifted)

theorem means_range_iff {low high : BitVec w}
    (lowest : m.find (getTableRange tableName name (.bits s w)).1 = some low)
    (highest : m.find (getTableRange tableName name (.bits s w)).2 = some high) :
    Means (TableMatchKey.range (s := s) tableName name) m values ↔
      ∀ k, BinaryOp.less s low high = true ∧ Within s low high k ↔ values k :=
  means_iff fun _ ρ => TableMatchKey.eval_range (bind_of_find ρ lowest) (bind_of_find ρ highest)

theorem ne_not (positive : 0 < w) (v : BitVec w) : v ≠ ~~~v := by
  intro same
  have bit := congrArg (BitVec.getLsbD · 0) same
  simp [positive] at bit

/-- Equality with zero accepts every value only where there is just one. -/
theorem means_optional_zero_iff
    (found : m.find (getTableKey tableName name (.bits s w)) = some 0#w) :
    Means (TableMatchKey.optional (s := s) tableName name) m (fun _ : BitVec w => True) ↔
      w = 0 := by
  rw [means_optional_iff found]
  constructor
  · intro all
    by_contra positive
    have ones := (all (~~~0#w)).mpr trivial
    exact ne_not (Nat.pos_of_ne_zero positive) _ ones
  · rintro rfl k
    exact iff_of_true (BitVec.eq_of_zero_length rfl) trivial

/-- A shift by zero leaves all bits of the mask. -/
theorem means_lpm_zero_iff
    (found : m.find (getTableKey tableName name (.bits s w)) = some 0#w)
    (shifted : m.find (getTableMatchLpmPrefix tableName name (.bits s w)) = some 0#w) :
    Means (TableMatchKey.lpm (s := s) tableName name) m (fun _ : BitVec w => True) ↔ w = 0 := by
  rw [means_lpm_iff found shifted]
  constructor
  · intro all
    by_contra positive
    have ones := (all (~~~0#w)).mpr trivial
    simp only [BitVec.toNat_ofNat, Nat.zero_mod, BitVec.shiftLeft_zero, BitVec.and_allOnes] at ones
    exact ne_not (Nat.pos_of_ne_zero positive) _ ones.symm
  · rintro rfl k
    exact iff_of_true (BitVec.eq_of_zero_length rfl) trivial

/-- A mask of zero accepts every value. -/
theorem means_ternary_zero {key : BitVec w}
    (found : m.find (getTableKey tableName name (.bits s w)) = some key)
    (masked : m.find (getTableTernaryMask tableName name (.bits s w)) = some 0#w) :
    Means (TableMatchKey.ternary (s := s) tableName name) m (fun _ : BitVec w => True) := by
  rw [means_ternary_iff found masked]
  intro k
  rw [BitVec.and_zero, BitVec.and_zero]
  exact iff_of_true rfl trivial

/-- Where the match leaves the variables of the key open, the constraint means something only for a
key without bits: `refuted` is a valuation of the open variables that excludes a value. -/
theorem means_free_iff {key : Expr (.bits s w) → TableMatchKey} (some_value : ∃ v, values v)
    (empty : w = 0 → ∀ keyExpression ρ,
      (key keyExpression).computeControlPlaneConstraint.eval ρ = true)
    (refuted : 0 < w → ∀ v, ∃ ρ,
      (key (.lit v)).computeControlPlaneConstraint.eval (m.bind ρ) ≠ true) :
    Means key m values ↔ w = 0 := by
  obtain ⟨v, hv⟩ := some_value
  constructor
  · intro means
    by_contra positive
    obtain ⟨ρ, excluded⟩ := refuted (by omega) v
    exact excluded ((means (.lit v) ρ).mpr (by rwa [Expr.eval_lit]))
  · rintro rfl keyExpression ρ
    have same : keyExpression.eval (m.bind ρ) = v := BitVec.eq_of_zero_length rfl
    rw [same]
    exact iff_of_true (empty rfl keyExpression _) hv

theorem means_optional_free_iff (free : getTableKey tableName name (.bits s w) ∉ m.keys)
    (some_value : ∃ v, values v) :
    Means (TableMatchKey.optional (s := s) tableName name) m values ↔ w = 0 := by
  refine means_free_iff some_value ?_ fun positive v => ?_
  · rintro rfl keyExpression ρ
    exact TableMatchKey.eval_optional.mpr (BitVec.eq_of_zero_length rfl)
  · refine ⟨Function.update (fun _ => default) (getTableKey tableName name (.bits s w)) (~~~v), ?_⟩
    rw [ne_eq, TableMatchKey.eval_optional, bind_of_free _ free, Function.update_self,
      Expr.eval_lit]
    exact (ne_not positive v).symm

theorem means_ternary_free_iff (free : getTableKey tableName name (.bits s w) ∉ m.keys)
    (unmasked : getTableTernaryMask tableName name (.bits s w) ∉ m.keys)
    (some_value : ∃ v, values v) :
    Means (TableMatchKey.ternary (s := s) tableName name) m values ↔ w = 0 := by
  refine means_free_iff some_value ?_ fun positive v => ?_
  · rintro rfl keyExpression ρ
    exact (TableMatchKey.eval_ternary rfl rfl).mpr (BitVec.eq_of_zero_length rfl)
  · let ρ : Valuation := Function.update (Function.update (fun _ => default)
      (getTableKey tableName name (.bits s w)) (~~~v))
      (getTableTernaryMask tableName name (.bits s w)) (BitVec.allOnes w)
    have key : m.bind ρ (getTableKey tableName name (.bits s w)) = ~~~v := by
      rw [bind_of_free _ free]
      simp [ρ]
    have mask : m.bind ρ (getTableTernaryMask tableName name (.bits s w)) = BitVec.allOnes w := by
      rw [bind_of_free _ unmasked]
      simp [ρ]
    refine ⟨ρ, ?_⟩
    rw [ne_eq, TableMatchKey.eval_ternary key mask]
    simpa using ne_not positive v

theorem means_lpm_free_iff (free : getTableKey tableName name (.bits s w) ∉ m.keys)
    (unshifted : getTableMatchLpmPrefix tableName name (.bits s w) ∉ m.keys)
    (some_value : ∃ v, values v) :
    Means (TableMatchKey.lpm (s := s) tableName name) m values ↔ w = 0 := by
  refine means_free_iff some_value ?_ fun positive v => ?_
  · rintro rfl keyExpression ρ
    exact (TableMatchKey.eval_lpm rfl rfl).mpr (BitVec.eq_of_zero_length rfl)
  · let ρ : Valuation := Function.update (Function.update (fun _ => default)
      (getTableKey tableName name (.bits s w)) (~~~v))
      (getTableMatchLpmPrefix tableName name (.bits s w)) 0#w
    have key : m.bind ρ (getTableKey tableName name (.bits s w)) = ~~~v := by
      rw [bind_of_free _ free]
      simp [ρ]
    have shift : m.bind ρ (getTableMatchLpmPrefix tableName name (.bits s w)) = 0#w := by
      rw [bind_of_free _ unshifted]
      simp [ρ]
    refine ⟨ρ, ?_⟩
    rw [ne_eq, TableMatchKey.eval_lpm key shift]
    simpa using ne_not positive v

theorem not_less_self (v : BitVec w) : BinaryOp.less s v v = false := by
  cases s
  · simp [BinaryOp.less, BitVec.ult]
  · simp [BinaryOp.less, BitVec.slt]

theorem lessEqual_self (v : BitVec w) : BinaryOp.lessEqual s v v = true := by
  cases s
  · simp [BinaryOp.lessEqual, BitVec.ule]
  · simp [BinaryOp.lessEqual, BitVec.sle]

/-- An interval that is not a single point is what the constraint means. -/
theorem means_interval_iff {low high : BitVec w} (ordered : BinaryOp.lessEqual s low high = true)
    (lowest : m.find (getTableRange tableName name (.bits s w)).1 = some low)
    (highest : m.find (getTableRange tableName name (.bits s w)).2 = some high) :
    Means (TableMatchKey.range (s := s) tableName name) m (Within s low high) ↔
      BinaryOp.less s low high = true := by
  rw [means_range_iff lowest highest]
  constructor
  · intro same
    exact ((same low).mpr ⟨lessEqual_self low, ordered⟩).1
  · intro strict k
    exact and_iff_right strict

theorem not_means_range_free (lowest : (getTableRange tableName name (.bits s w)).1 ∉ m.keys)
    (highest : (getTableRange tableName name (.bits s w)).2 ∉ m.keys) (some_value : ∃ v, values v) :
    ¬Means (TableMatchKey.range (s := s) tableName name) m values := by
  obtain ⟨v, hv⟩ := some_value
  intro means
  have within := (means (.lit v) fun _ => default).mpr (by rwa [Expr.eval_lit])
  rw [TableMatchKey.eval_range (bind_of_free _ lowest) (bind_of_free _ highest)] at within
  rw [not_less_self] at within
  exact absurd within.1 (by decide)

end Meaning

section Producers

variable {tableName : String}

/-- The converter of messages takes every key to be unsigned. -/
theorem type_of_producedMatch {matchField : P4Info.MatchField} {field : Option FieldMatchType}
    {produced : LiteralAssignmentSet}
    (h : producedMatch tableName matchField field = some produced) {x : SymbolicVariable}
    (mem : x ∈ produced.keys) : x.type = .bit matchField.bitwidth := by
  cases field with
  | none =>
    simp only [producedMatch, produceTableMatchForMissingField, Option.map_eq_some_iff] at h
    obtain ⟨made, h, rfl⟩ := h
    split at h <;> cases h <;>
      simp only [OrderedMap.mem_keys_emplace, OrderedMap.not_mem_keys_empty, false_or] at mem <;>
      rcases mem with rfl | rfl <;> rfl
  | some field =>
    simp only [producedMatch, Option.map_eq_some_iff] at h
    obtain ⟨made, h, rfl⟩ := h
    cases field with
    | unset => cases h
    | exact value | optional value =>
      cases h
      simp only [OrderedMap.mem_keys_emplace, OrderedMap.not_mem_keys_empty, false_or] at mem
      rw [mem]
    | lpm | ternary | range =>
      cases h
      simp only [OrderedMap.mem_keys_emplace, OrderedMap.not_mem_keys_empty, false_or] at mem
      rcases mem with rfl | rfl <;> rfl

/-- A message leaves the variables of a signed key open. -/
theorem free_of_signed {matchField : P4Info.MatchField} {field : Option FieldMatchType}
    {produced : LiteralAssignmentSet}
    (h : producedMatch tableName matchField field = some produced) (label : SymbolLabel) :
    (⟨label, .bits true matchField.bitwidth⟩ : SymbolicVariable) ∉ produced.keys := by
  intro mem
  have type := type_of_producedMatch h mem
  cases type

theorem find_first {x y : SymbolicVariable} (ne : x ≠ y) (a : x.type.Val) (b : y.type.Val) :
    ((OrderedMap.empty.emplace x a).emplace y b : LiteralAssignmentSet).find x = some a := by
  rw [OrderedMap.find_emplace_ne _ _ ne, OrderedMap.find_emplace_self]
  rfl

theorem find_second {x y : SymbolicVariable} (ne : y ≠ x) (a : x.type.Val) (b : y.type.Val) :
    ((OrderedMap.empty.emplace x a).emplace y b : LiteralAssignmentSet).find y = some b := by
  rw [OrderedMap.find_emplace_self, OrderedMap.find_emplace_ne _ _ ne]
  rfl

/-- The shift by a prefix length keeps the leading bits that are left. -/
theorem shifted_prefix_iff {w : Nat} {v : BitVec w} {p : Nat} (short : p ≤ w) :
    (∀ k, k &&& (BitVec.allOnes w <<< (BitVec.ofInt w p).toNat) =
        v &&& (BitVec.allOnes w <<< (BitVec.ofInt w p).toNat) ↔
      ∀ i < p, k.getMsbD i = v.getMsbD i) ↔ 2 * p = w := by
  have exact : (BitVec.ofInt w p).toNat = p := by
    have bound : p < 2 ^ w := lt_of_le_of_lt short Nat.lt_two_pow_self
    rw [BitVec.ofInt_natCast, BitVec.toNat_ofNat, Nat.mod_eq_of_lt bound]
  rw [exact]
  simp only [← Mask.and_leading_iff short]
  constructor
  · intro same
    have shift := (Mask.allOnes_shiftLeft_inj short (by omega)).mp (Mask.unique same).1
    omega
  · intro half k
    have shift : w - p = p := by omega
    rw [shift]

variable (keyField : KeyElement) (tableName)

theorem lpm_message_iff (id value : Nat) {prefixLen : Nat} (short : prefixLen ≤ keyField.width) :
    Captures keyField (.lpm tableName keyField.name)
        (producedMatch tableName (keyField.matchField id) (some (.lpm value prefixLen)))
        (fun k => ∀ i < prefixLen, k.getMsbD i = (BitVec.ofNat keyField.width value).getMsbD i) ↔
      2 * prefixLen = keyField.width ∧ (keyField.isSigned = false ∨ keyField.width = 0) := by
  refine (captures_iff rfl).trans ?_
  obtain ⟨name, matchType, isSigned, w, expression⟩ := keyField
  cases isSigned with
  | false =>
    refine (means_lpm_iff (find_first (by simp) _ _) (find_second (by simp) _ _)).trans ?_
    refine (shifted_prefix_iff short).trans ?_
    simp
  | true =>
    have converted : producedMatch tableName ⟨id, name, w, matchType⟩
        (some (.lpm value prefixLen)) = some _ := rfl
    have open_key := free_of_signed converted
    refine (means_lpm_free_iff (open_key _) (open_key _)
      ⟨BitVec.ofNat w value, fun _ _ => rfl⟩).trans ?_
    have bound : prefixLen ≤ w := short
    constructor
    · rintro (empty : w = 0)
      have half : 2 * prefixLen = w := by omega
      exact ⟨half, .inr empty⟩
    · exact fun half => half.2.resolve_left (by simp)

theorem lpm_literal_iff (target : Target) (value : BitVec keyField.width) :
    Captures keyField (.lpm tableName keyField.name)
        (target.computeMatch (.literal value : EntryKey keyField.type) tableName keyField.name .lpm
          OrderedMap.empty) (fun k => k = value) ↔
      keyField.width = 0 := by
  obtain ⟨name, matchType, isSigned, w, expression⟩ := keyField
  have made : target.computeMatch (.literal value : EntryKey (.bits isSigned w)) tableName name .lpm
      OrderedMap.empty = some ((OrderedMap.empty.emplace (getTableKey tableName name (.bits isSigned w))
        value).emplace (getTableMatchLpmPrefix tableName name (.bits isSigned w))
          (BitVec.ofNat w w)) := by
    cases target <;> rfl
  refine (captures_iff made).trans ((means_lpm_iff (find_first (by simp) _ _)
    (find_second (by simp) _ _)).trans ?_)
  -- The width as a shift leaves no bit of the mask.
  have shift : (BitVec.ofNat w w).toNat = w := by
    rw [BitVec.toNat_ofNat, Nat.mod_eq_of_lt Nat.lt_two_pow_self]
  rw [shift, BitVec.shiftLeft_eq_zero (le_refl w)]
  constructor
  · intro same
    by_contra positive
    have other := (same (~~~value)).mp (by simp)
    exact ne_not (Nat.pos_of_ne_zero positive) value other.symm
  · rintro rfl k
    exact iff_of_true (BitVec.eq_of_zero_length rfl) (BitVec.eq_of_zero_length rfl)

theorem lpm_mask_iff (target : Target) (value mask : BitVec keyField.width) :
    Captures keyField (.lpm tableName keyField.name)
        (target.computeMatch (.mask value mask : EntryKey keyField.type) tableName keyField.name .lpm
          OrderedMap.empty)
        (fun k => ∀ i, mask.getLsbD i = true → k.getLsbD i = value.getLsbD i) ↔
      keyField.width = 0 := by
  obtain ⟨name, matchType, isSigned, w, expression⟩ := keyField
  have made : target.computeMatch (.mask value mask : EntryKey (.bits isSigned w)) tableName name
      .lpm OrderedMap.empty = some ((OrderedMap.empty.emplace
        (getTableKey tableName name (.bits isSigned w)) value).emplace
          (getTableMatchLpmPrefix tableName name (.bits isSigned w)) mask) := by
    cases target <;> rfl
  refine (captures_iff made).trans ((means_lpm_iff (find_first (by simp) _ _)
    (find_second (by simp) _ _)).trans ?_)
  simp only [← Mask.and_eq_iff]
  constructor
  · intro same
    by_contra positive
    exact Mask.allOnes_shiftLeft_toNat_ne (Nat.pos_of_ne_zero positive) mask (Mask.unique same).1
  · rintro rfl k
    exact iff_of_true (BitVec.eq_of_zero_length rfl) (BitVec.eq_of_zero_length rfl)

/-- The lpm match of a message means the values with its prefix when the prefix is half of the key,
and the one of a const entry never does, but for a key without bits. -/
theorem lpm_captures_iff :
    (∀ id value prefixLen : Nat, prefixLen ≤ keyField.width →
      (Captures keyField (.lpm tableName keyField.name)
          (producedMatch tableName (keyField.matchField id) (some (.lpm value prefixLen)))
          (fun k => ∀ i < prefixLen, k.getMsbD i = (BitVec.ofNat keyField.width value).getMsbD i) ↔
        2 * prefixLen = keyField.width ∧ (keyField.isSigned = false ∨ keyField.width = 0))) ∧
    ∀ target : Target,
      (∀ value : BitVec keyField.width,
        Captures keyField (.lpm tableName keyField.name)
          (target.computeMatch (.literal value : EntryKey keyField.type) tableName keyField.name .lpm
            OrderedMap.empty) (fun k => k = value) ↔ keyField.width = 0) ∧
      ∀ value mask : BitVec keyField.width,
        Captures keyField (.lpm tableName keyField.name)
          (target.computeMatch (.mask value mask : EntryKey keyField.type) tableName keyField.name
            .lpm OrderedMap.empty)
          (fun k => ∀ i, mask.getLsbD i = true → k.getLsbD i = value.getLsbD i) ↔
            keyField.width = 0 :=
  ⟨fun id value _ short => lpm_message_iff tableName keyField id value short,
    fun target => ⟨lpm_literal_iff tableName keyField target, lpm_mask_iff tableName keyField target⟩⟩

theorem range_message_iff (id low high : Nat)
    (ordered : BinaryOp.lessEqual keyField.isSigned (BitVec.ofNat keyField.width low)
      (BitVec.ofNat keyField.width high) = true) :
    Captures keyField (.range tableName keyField.name)
        (producedMatch tableName (keyField.matchField id) (some (.range low high)))
        (Within keyField.isSigned (.ofNat keyField.width low) (.ofNat keyField.width high)) ↔
      keyField.isSigned = false ∧ BinaryOp.less keyField.isSigned
        (BitVec.ofNat keyField.width low) (BitVec.ofNat keyField.width high) = true := by
  refine (captures_iff rfl).trans ?_
  obtain ⟨name, matchType, isSigned, w, expression⟩ := keyField
  cases isSigned with
  | false =>
    refine (means_interval_iff ordered (find_first (by simp) _ _)
      (find_second (by simp) _ _)).trans ?_
    exact (and_iff_right rfl).symm
  | true =>
    have converted : producedMatch tableName ⟨id, name, w, matchType⟩ (some (.range low high)) =
        some _ := rfl
    have open_key := free_of_signed converted
    refine iff_of_false (not_means_range_free (open_key _) (open_key _)
      ⟨BitVec.ofNat w low, lessEqual_self _, ordered⟩) (by simp)

section Initializers

variable {target : Target} (supported : target ≠ .core)

include supported

theorem range_entry_iff (low high : BitVec keyField.width)
    (ordered : BinaryOp.lessEqual keyField.isSigned low high = true) :
    Captures keyField (.range tableName keyField.name)
        (target.computeMatch (.range low high : EntryKey keyField.type) tableName keyField.name
          .range OrderedMap.empty) (Within keyField.isSigned low high) ↔
      BinaryOp.less keyField.isSigned low high = true := by
  obtain ⟨name, matchType, isSigned, w, expression⟩ := keyField
  have made : target.computeMatch (.range low high : EntryKey (.bits isSigned w)) tableName name
      .range OrderedMap.empty = some ((OrderedMap.empty.emplace
        (getTableRange tableName name (.bits isSigned w)).1 low).emplace
          (getTableRange tableName name (.bits isSigned w)).2 high) := by
    cases target <;> first | rfl | exact absurd rfl supported
  exact (captures_iff made).trans (means_interval_iff ordered (find_first (by simp) _ _)
    (find_second (by simp) _ _))

/-- A literal is an interval of one value, which the constraint never accepts. -/
theorem range_literal_empty (value : BitVec keyField.width) :
    ¬Captures keyField (.range tableName keyField.name)
      (target.computeMatch (.literal value : EntryKey keyField.type) tableName keyField.name .range
        OrderedMap.empty) (Within keyField.isSigned value value) := by
  obtain ⟨name, matchType, isSigned, w, expression⟩ := keyField
  have made : target.computeMatch (.literal value : EntryKey (.bits isSigned w)) tableName name
      .range OrderedMap.empty = some ((OrderedMap.empty.emplace
        (getTableRange tableName name (.bits isSigned w)).1 value).emplace
          (getTableRange tableName name (.bits isSigned w)).2 value) := by
    cases target <;> first | rfl | exact absurd rfl supported
  intro captures
  have strict := (means_interval_iff (lessEqual_self value) (find_first (by simp) _ _)
    (find_second (by simp) _ _)).mp ((captures_iff made).mp captures)
  rw [not_less_self] at strict
  exact absurd strict (by decide)

/-- The range from 0 to the largest value is the whole type when it has no negative values. -/
theorem range_default_iff :
    Captures keyField (.range tableName keyField.name)
        (target.computeMatch (.default : EntryKey keyField.type) tableName keyField.name .range
          OrderedMap.empty) (fun _ => True) ↔
      keyField.isSigned = false ∧ 0 < keyField.width := by
  obtain ⟨name, matchType, isSigned, w, expression⟩ := keyField
  have made : target.computeMatch (.default : EntryKey (.bits isSigned w)) tableName name .range
      OrderedMap.empty = some ((OrderedMap.empty.emplace
        (getTableRange tableName name (.bits isSigned w)).1 0#w).emplace
          (getTableRange tableName name (.bits isSigned w)).2
            (ControlPlaneStateInitializer.getMaxValueConstant isSigned w)) := by
    cases target <;> first | rfl | exact absurd rfl supported
  refine (captures_iff made).trans ((means_range_iff (find_first (by simp) _ _)
    (find_second (by simp) _ _)).trans ?_)
  constructor
  · intro all
    have positive : 0 < w := by
      by_contra empty
      have strict := ((all 0#w).mpr trivial).1
      have same : ControlPlaneStateInitializer.getMaxValueConstant isSigned w = 0#w :=
        BitVec.eq_of_zero_length (by omega)
      rw [same, not_less_self] at strict
      exact absurd strict (by decide)
    refine ⟨?_, positive⟩
    cases isSigned with
    | false => rfl
    | true =>
      have negative := ((all (BitVec.allOnes w)).mpr trivial).2.1
      simp [BinaryOp.lessEqual, BitVec.sle, BitVec.toInt_allOnes, positive] at negative
  · rintro ⟨unsigned, positive⟩ k
    cases unsigned
    refine iff_of_true ⟨?_, ?_, ?_⟩ trivial
    · have ones : 0 < 2 ^ w - 1 := by
        have large : 1 < 2 ^ w := Nat.one_lt_two_pow (Nat.pos_iff_ne_zero.mp positive)
        omega
      simpa [BinaryOp.less, ControlPlaneStateInitializer.getMaxValueConstant, BitVec.ult] using ones
    · simp [BinaryOp.lessEqual, BitVec.ule]
    · have bound : k.toNat ≤ 2 ^ w - 1 := Nat.le_sub_one_of_lt k.isLt
      simpa [BinaryOp.lessEqual, ControlPlaneStateInitializer.getMaxValueConstant, BitVec.ule]
        using bound

end Initializers

/-- A key of 16 bits with lpm matches. -/
def shortLpmKey : KeyElement := ⟨"k", .lpm, false, 16, .lit (0 : BitVec 16)⟩

theorem lpm_captures_half :
    Captures shortLpmKey (.lpm "t" "k") (producedMatch "t" (shortLpmKey.matchField 1)
      (some (.lpm 0x0a00 8))) (fun k => ∀ i < 8, k.getMsbD i = (0x0a00#16).getMsbD i) :=
  ((lpm_captures_iff "t" shortLpmKey).1 1 0x0a00 8 (by decide)).mpr ⟨rfl, .inl rfl⟩

/-- A key of 32 bits with lpm matches. -/
def addressKey : KeyElement := ⟨"k", .lpm, false, 32, .lit (0 : BitVec 32)⟩

/-- The match 10.0.0.0/8 excludes the address 10.0.1.0. -/
theorem address_excluded :
    ¬Captures addressKey (.lpm "t" "k") (producedMatch "t" (addressKey.matchField 1)
      (some (.lpm 0x0a000000 8))) (fun k => ∀ i < 8, k.getMsbD i = (0x0a000000#32).getMsbD i) := by
  rintro ⟨_, ⟨⟩, means⟩
  have excluded := (means (.lit 0x0a000100#32) fun _ => default).mpr (by decide)
  exact absurd excluded (by decide)

/-- A range means its interval when the key is unsigned and the interval has more than one value. A
don't-care expression stands for the whole range of the type. -/
theorem range_captures_iff :
    (∀ id low high : Nat, BinaryOp.lessEqual keyField.isSigned (BitVec.ofNat keyField.width low)
        (BitVec.ofNat keyField.width high) = true →
      (Captures keyField (.range tableName keyField.name)
          (producedMatch tableName (keyField.matchField id) (some (.range low high)))
          (Within keyField.isSigned (.ofNat keyField.width low) (.ofNat keyField.width high)) ↔
        keyField.isSigned = false ∧ BinaryOp.less keyField.isSigned
          (BitVec.ofNat keyField.width low) (BitVec.ofNat keyField.width high) = true)) ∧
    ∀ target : Target, target ≠ .core →
      (∀ low high : BitVec keyField.width, BinaryOp.lessEqual keyField.isSigned low high = true →
        (Captures keyField (.range tableName keyField.name)
            (target.computeMatch (.range low high : EntryKey keyField.type) tableName keyField.name
              .range OrderedMap.empty) (Within keyField.isSigned low high) ↔
          BinaryOp.less keyField.isSigned low high = true)) ∧
      (∀ value : BitVec keyField.width,
        ¬Captures keyField (.range tableName keyField.name)
          (target.computeMatch (.literal value : EntryKey keyField.type) tableName keyField.name
            .range OrderedMap.empty) (Within keyField.isSigned value value)) ∧
      (Captures keyField (.range tableName keyField.name)
          (target.computeMatch (.default : EntryKey keyField.type) tableName keyField.name .range
            OrderedMap.empty) (fun _ => True) ↔
        keyField.isSigned = false ∧ 0 < keyField.width) :=
  ⟨range_message_iff tableName keyField, fun _ supported =>
    ⟨range_entry_iff tableName keyField supported,
      range_literal_empty tableName keyField supported,
      range_default_iff tableName keyField supported⟩⟩

/-- A key of 8 bits with range matches. -/
def rangeKey : KeyElement := ⟨"k", .range, false, 8, .lit (0 : BitVec 8)⟩

theorem range_captures_interval :
    Captures rangeKey (.range "t" "k") (producedMatch "t" (rangeKey.matchField 1)
      (some (.range 3 7))) (Within false 3 7) :=
  ((range_captures_iff "t" rangeKey).1 1 3 7 (by decide)).mpr ⟨rfl, by decide⟩

/-- The range from 3 to 3 excludes the value 3. -/
theorem point_excluded :
    ¬Captures rangeKey (.range "t" "k") (producedMatch "t" (rangeKey.matchField 1)
      (some (.range 3 3))) (Within false 3 3) := by
  rintro ⟨_, ⟨⟩, means⟩
  have excluded := (means (.lit 3) fun _ => default).mpr ⟨lessEqual_self 3, lessEqual_self 3⟩
  exact absurd excluded (by decide)

theorem omitted_means_iff (id : Nat) {m : LiteralAssignmentSet}
    (made : producedMatch tableName (keyField.matchField id) none = some m) :
    Means (computeTargetMatchType tableName keyField) m (fun _ => True) ↔
      match keyField.matchType with
      | .ternary => keyField.isSigned = false ∨ keyField.width = 0
      | _ => keyField.width = 0 := by
  obtain ⟨name, matchType, isSigned, w, expression⟩ := keyField
  cases isSigned with
  | true =>
    have open_key := free_of_signed made
    cases matchType with
    | exact | lpm | range | selector => cases made
    | ternary =>
      refine (means_ternary_free_iff (open_key _) (open_key _) ⟨0#w, trivial⟩).trans ?_
      exact (or_iff_right (by simp)).symm
    | optional => exact means_optional_free_iff (open_key _) ⟨0#w, trivial⟩
  | false =>
    cases matchType with
    | exact | lpm | range | selector => cases made
    | ternary =>
      cases made
      refine iff_of_true ?_ (.inl rfl)
      exact means_ternary_zero (find_first (by simp) _ _) (find_second (by simp) _ _)
    | optional =>
      cases made
      exact means_optional_zero_iff (find_first (by simp) _ _)

theorem default_means_iff (target : Target) {m : LiteralAssignmentSet}
    (made : target.computeMatch (.default : EntryKey keyField.type) tableName keyField.name
      keyField.matchType OrderedMap.empty = some m) :
    Means (computeTargetMatchType tableName keyField) m (fun _ => True) ↔
      match keyField.matchType with
      | .ternary => True
      | .range => keyField.isSigned = false ∧ 0 < keyField.width
      | _ => keyField.width = 0 := by
  obtain ⟨name, matchType, isSigned, w, expression⟩ := keyField
  cases matchType with
  | exact | selector => cases target <;> cases made
  | ternary =>
    have zero : m = (OrderedMap.empty.emplace (getTableKey tableName name (.bits isSigned w))
        0#w).emplace (getTableTernaryMask tableName name (.bits isSigned w)) 0#w := by
      cases target <;> cases made <;> rfl
    subst zero
    exact iff_of_true (means_ternary_zero (find_first (by simp) _ _) (find_second (by simp) _ _))
      trivial
  | lpm =>
    have zero : m = (OrderedMap.empty.emplace (getTableKey tableName name (.bits isSigned w))
        0#w).emplace (getTableMatchLpmPrefix tableName name (.bits isSigned w)) 0#w := by
      cases target <;> cases made <;> rfl
    subst zero
    exact means_lpm_zero_iff (find_first (by simp) _ _) (find_second (by simp) _ _)
  | range =>
    have supported : target ≠ .core := by
      rintro rfl
      cases made
    exact (captures_iff made).symm.trans
      (range_default_iff tableName ⟨name, .range, isSigned, w, expression⟩ supported)
  | optional =>
    cases target with
    | core => cases made
    | bmv2 =>
      cases made
      exact means_optional_zero_iff (find_first (by simp) _ _)
    | tofino =>
      cases made
      exact means_optional_free_iff (OrderedMap.not_mem_keys_empty _) ⟨0#w, trivial⟩

/-- A don't-care field of a message or of a const entry leaves its key open for ternary matches, and
in a const entry also for ranges over a type without negative values. -/
theorem dontCare_means_iff :
    (∀ (id : Nat) (m : LiteralAssignmentSet),
      producedMatch tableName (keyField.matchField id) none = some m →
        (Means (computeTargetMatchType tableName keyField) m (fun _ => True) ↔
          match keyField.matchType with
          | .ternary => keyField.isSigned = false ∨ keyField.width = 0
          | _ => keyField.width = 0)) ∧
    ∀ (target : Target) (m : LiteralAssignmentSet),
      target.computeMatch (.default : EntryKey keyField.type) tableName keyField.name
          keyField.matchType OrderedMap.empty = some m →
        (Means (computeTargetMatchType tableName keyField) m (fun _ => True) ↔
          match keyField.matchType with
          | .ternary => True
          | .range => keyField.isSigned = false ∧ 0 < keyField.width
          | _ => keyField.width = 0) :=
  ⟨fun id _ => omitted_means_iff tableName keyField id,
    fun target _ => default_means_iff tableName keyField target⟩

/-- A key of 8 bits with ternary matches. -/
def ternaryKey : KeyElement := ⟨"k", .ternary, false, 8, .lit (0 : BitVec 8)⟩

theorem dontCare_means_ternary :
    Means (computeTargetMatchType "t" ternaryKey)
      ((OrderedMap.empty.emplace (getTableKey "t" "k" (.bit 8)) 0#8).emplace
        (getTableTernaryMask "t" "k" (.bit 8)) 0#8) (fun _ => True) :=
  ((dontCare_means_iff "t" ternaryKey).1 1 _ rfl).mpr (.inl rfl)

/-- A key of 8 bits with optional matches. -/
def optionalKey : KeyElement := ⟨"k", .optional, false, 8, .lit (0 : BitVec 8)⟩

/-- An optional field that a message omits excludes the value 1. -/
theorem omitted_excluded :
    ∃ m, producedMatch "t" (optionalKey.matchField 1) none = some m ∧
      ¬Means (computeTargetMatchType "t" optionalKey) m (fun _ => True) := by
  refine ⟨_, rfl, fun means => ?_⟩
  have excluded := (means (.lit 1#8) fun _ => default).mpr trivial
  exact absurd excluded (by decide)

end Producers

end Flay
