import Flay.ControlPlane.Semantics
import Flay.Interpreter.TableSimulation

/-! Which elements of a table key `resolveKey` keeps: a key with an element that has to be evaluated
loses those that are symbolic already. -/

namespace Flay

open Container

namespace TableExecutor

variable (symbolicValue? : SymbolicValue)

/-- The elements of a key, each with its evaluated expression. -/
def evaluatedKey : List KeyElement → Interpretation →
    Option (List (Sigma fun key : KeyElement => Expr key.type))
  | [], _ => some []
  | keyField :: key, i =>
    match symbolicValue? keyField.expression with
    | some expr => do
      let evaluated ← evaluatedKey key i
      some (⟨keyField, expr⟩ :: evaluated)
    | none => do
      let (expr, i) ← ExpressionResolver.computeResult SymbolicHandlers.none keyField.expression i
      let evaluated ← evaluatedKey key i
      some (⟨keyField, expr⟩ :: evaluated)

/-- The resolved key has the elements of the key in their order, with their evaluated expressions,
and what it sets as the key match of a table is the conjunction of one constraint for each. A table
without keys does not match. -/
structure Survives (key : List KeyElement) (i : Interpretation)
    (resolved : List (Sigma fun key : KeyElement => Expr key.type)) : Prop where
  elements : resolved.map Sigma.fst = key
  evaluated : evaluatedKey symbolicValue? key i = some resolved
  conjunction : ∀ [Z3] [IrOrder] (tableName : String) (t : TableConfiguration tableName)
    (ρ : Valuation), key ≠ [] →
      (t.setTableKeyMatch (computeHitCondition tableName resolved)).tableKeyMatch.eval ρ =
        resolved.all fun keyField =>
          (computeTargetMatchType tableName keyField.1
            keyField.2).computeControlPlaneConstraint.eval ρ

variable {symbolicValue?} {key : List KeyElement} {i i' : Interpretation}
  {resolved : List (Sigma fun key : KeyElement => Expr key.type)}

/-- The loop of `resolveKey` keeps the elements that it evaluates. -/
theorem elements_resolveKeyFields (h : resolveKeyFields symbolicValue? key i = some (resolved, i')) :
    resolved.map Sigma.fst = key.filter fun keyField =>
      (symbolicValue? keyField.expression).isNone := by
  induction key generalizing i resolved with
  | nil =>
    cases h
    rfl
  | cons keyField key ih =>
    rw [resolveKeyFields] at h
    split at h
    · rename_i expr symbolic
      rw [List.filter_cons_of_neg (by simp [symbolic])]
      exact ih h
    · rename_i evaluate
      simp only [bind, Option.bind_eq_some_iff, Option.some.injEq, Prod.mk.injEq] at h
      obtain ⟨⟨expr, j⟩, -, ⟨rest, k⟩, h, rfl, rfl⟩ := h
      rw [List.filter_cons_of_pos (by simp [evaluate]), List.map_cons, ih h]

/-- Where every element has to be evaluated, the loop evaluates them all. -/
theorem evaluatedKey_of_resolveKeyFields
    (evaluate : ∀ keyField ∈ key, symbolicValue? keyField.expression = none)
    (h : resolveKeyFields symbolicValue? key i = some (resolved, i')) :
    evaluatedKey symbolicValue? key i = some resolved := by
  induction key generalizing i resolved with
  | nil =>
    cases h
    rfl
  | cons keyField key ih =>
    have first := evaluate keyField List.mem_cons_self
    simp only [resolveKeyFields, first, bind, Option.bind_eq_some_iff, Option.some.injEq,
      Prod.mk.injEq] at h
    obtain ⟨⟨expr, j⟩, computed, ⟨rest, k⟩, h, rfl, rfl⟩ := h
    have others := ih (fun d hd => evaluate d (List.mem_cons_of_mem keyField hd)) h
    simp [evaluatedKey, first, computed, others]

/-- Where every element is symbolic, the key as it is has the evaluated expressions. -/
theorem evaluatedKey_of_symbolic
    (symbolic : ∀ keyField ∈ key, (symbolicValue? keyField.expression).isSome) :
    evaluatedKey symbolicValue? key i = some (key.filterMap fun keyField =>
      (symbolicValue? keyField.expression).map fun expr => ⟨keyField, expr⟩) := by
  induction key with
  | nil => rfl
  | cons keyField key ih =>
    obtain ⟨expr, first⟩ := Option.isSome_iff_exists.mp (symbolic keyField List.mem_cons_self)
    have others := ih fun d hd => symbolic d (List.mem_cons_of_mem keyField hd)
    simp [evaluatedKey, first, others]

theorem elements_evaluatedKey (h : evaluatedKey symbolicValue? key i = some resolved) :
    resolved.map Sigma.fst = key := by
  induction key generalizing i resolved with
  | nil =>
    cases h
    rfl
  | cons keyField key ih =>
    rw [evaluatedKey] at h
    split at h
    · simp only [bind, Option.bind_eq_some_iff, Option.some.injEq] at h
      obtain ⟨rest, h, rfl⟩ := h
      rw [List.map_cons, ih h]
    · simp only [bind, Option.bind_eq_some_iff, Option.some.injEq] at h
      obtain ⟨⟨expr, j⟩, -, rest, h, rfl⟩ := h
      rw [List.map_cons, ih h]

theorem survives_of_evaluated (h : evaluatedKey symbolicValue? key i = some resolved) :
    Survives symbolicValue? key i resolved := by
  have elements := elements_evaluatedKey h
  refine ⟨elements, h, ?_⟩
  intro _ _ tableName t ρ some_key
  have some_field : computeHitCondition tableName resolved ≠ [] := by
    rintro none
    rw [computeHitCondition, List.map_eq_nil_iff] at none
    rw [none] at elements
    exact some_key elements.symm
  rw [t.eval_setTableKeyMatch ρ some_field, computeHitCondition, List.all_map]
  rfl

/-- A key survives its resolution exactly when none of its elements is symbolic already, or all of
them are. -/
theorem survives_resolveKey_iff (ran : resolveKey symbolicValue? key i = some (resolved, i')) :
    Survives symbolicValue? key i resolved ↔
      (∀ keyField ∈ key, symbolicValue? keyField.expression = none) ∨
        ∀ keyField ∈ key, (symbolicValue? keyField.expression).isSome := by
  simp only [resolveKey, bind, Option.bind_eq_some_iff] at ran
  obtain ⟨⟨fields, j⟩, loop, ran⟩ := ran
  have kept := elements_resolveKeyFields loop
  dsimp only at ran
  split at ran
  · rename_i empty
    cases ran
    have symbolic : ∀ keyField ∈ key, (symbolicValue? keyField.expression).isSome := by
      intro keyField mem
      rw [List.isEmpty_iff.mp empty, List.map_nil, eq_comm, List.filter_eq_nil_iff] at kept
      have some_value := kept keyField mem
      rwa [Option.isNone_iff_eq_none, ← ne_eq, Option.ne_none_iff_isSome] at some_value
    exact iff_of_true (survives_of_evaluated (evaluatedKey_of_symbolic symbolic)) (.inr symbolic)
  · rename_i some_field
    cases ran
    constructor
    · intro survives
      have all := kept.symm.trans survives.elements
      left
      intro keyField mem
      rw [List.filter_eq_self] at all
      simpa using all keyField mem
    · rintro (evaluate | symbolic)
      · exact survives_of_evaluated (evaluatedKey_of_resolveKeyFields evaluate loop)
      · -- The loop has kept an element, which was not symbolic.
        have none : resolved.map Sigma.fst = [] := by
          rw [kept, List.filter_eq_nil_iff]
          intro keyField mem
          rw [Option.isNone_iff_eq_none, ← ne_eq, Option.ne_none_iff_isSome]
          exact symbolic keyField mem
        rw [List.map_eq_nil_iff] at none
        rw [none] at some_field
        exact absurd rfl some_field

section Examples

/-- A key that reads the field. -/
def fieldKey : KeyElement := ⟨"k", .exact, false, 8, .path 15 "field" (.bit 8)⟩

/-- A key that is a literal. -/
def literalKey : KeyElement := ⟨"l", .exact, false, 8, .lit (3 : BitVec 8)⟩

/-- A key that compares some bits of the field. -/
def maskedKey : KeyElement := ⟨"m", .ternary, false, 8, .path 16 "field" (.bit 8)⟩

/-- Both elements are evaluated, and two literals are taken as they are. -/
theorem survives_fieldKey :
    (∃ resolved i', resolveKey literalValue [fieldKey, maskedKey] fieldState = some (resolved, i') ∧
      Survives literalValue [fieldKey, maskedKey] fieldState resolved) ∧
    ∃ resolved i', resolveKey literalValue [literalKey, literalKey] fieldState =
        some (resolved, i') ∧
      Survives literalValue [literalKey, literalKey] fieldState resolved := by
  constructor
  · refine ⟨_, _, rfl, (survives_resolveKey_iff rfl).mpr (.inl fun keyField mem => ?_)⟩
    rcases List.mem_pair.mp mem with rfl | rfl <;> rfl
  · refine ⟨_, _, rfl, (survives_resolveKey_iff rfl).mpr (.inr fun keyField mem => ?_)⟩
    rcases List.mem_pair.mp mem with rfl | rfl <;> rfl

/-- Next to an element that is evaluated, the literal goes away. -/
theorem literalKey_dropped :
    ∃ resolved i', resolveKey literalValue [literalKey, fieldKey] fieldState =
      some (resolved, i') ∧ resolved.map Sigma.fst = [fieldKey] ∧
        ¬Survives literalValue [literalKey, fieldKey] fieldState resolved := by
  refine ⟨_, _, rfl, rfl, fun survives => ?_⟩
  have lengths := congrArg List.length survives.elements
  exact absurd lengths (by decide)

end Examples

end TableExecutor

end Flay
