import Flay.ControlPlane.Priority

/-! The two encodings of a table, for the intermediate representation and for Z3: what they assign
agrees on every configuration whose key match has been set. -/

namespace Flay

open Container

namespace TableConfiguration

variable [Z3] [IrOrder] {tableName : String}

/-- The configurations on which `setTableKeyMatch` has been called, and any other operations
since. -/
inductive Keyed : TableConfiguration tableName → Prop
  | setTableKeyMatch (t : TableConfiguration tableName) (tableKeyMap : List TableMatchKey) :
      Keyed (t.setTableKeyMatch tableKeyMap)
  | addTableEntry {t : TableConfiguration tableName} (e : TableMatchEntry tableName)
      (replace : Bool) : Keyed t → Keyed (t.addTableEntry e replace).1
  | deleteTableEntry {t : TableConfiguration tableName} (e : TableMatchEntry tableName) :
      Keyed t → Keyed (t.deleteTableEntry e).1
  | clearTableEntries {t : TableConfiguration tableName} : Keyed t → Keyed t.clearTableEntries
  | setDefaultTableAction {t : TableConfiguration tableName} (action : TableDefaultAction) :
      Keyed t → Keyed (t.setDefaultTableAction action)

/-- Every entry has the condition that the current key match gives it. -/
def Cached (t : TableConfiguration tableName) : Prop :=
  ∀ e ∈ t.tableEntries, e.condition = some (e.conditionFor (Z3.set t.tableKeyMatch))

theorem cached_setTableKeyMatch (t : TableConfiguration tableName)
    (tableKeyMap : List TableMatchKey) : (t.setTableKeyMatch tableKeyMap).Cached := by
  intro e he
  obtain ⟨d, -, rfl⟩ := List.mem_map.mp he
  rfl

theorem Cached.addTableEntry {t : TableConfiguration tableName} (cached : t.Cached)
    (e : TableMatchEntry tableName) (replace : Bool) : (t.addTableEntry e replace).1.Cached := by
  intro d hd
  rcases SortedSet.mem_insert_imp hd with rfl | hd
  · rfl
  · refine cached d ?_
    split at hd
    · exact (SortedSet.mem_erase.mp hd).1
    · exact hd

theorem Cached.deleteTableEntry {t : TableConfiguration tableName} (cached : t.Cached)
    (e : TableMatchEntry tableName) : (t.deleteTableEntry e).1.Cached :=
  fun d hd => cached d (SortedSet.mem_erase.mp hd).1

theorem cached_clearTableEntries (t : TableConfiguration tableName) :
    t.clearTableEntries.Cached :=
  fun d hd => absurd hd (SortedSet.not_mem_empty d)

theorem Keyed.cached {t : TableConfiguration tableName} (keyed : t.Keyed) : t.Cached := by
  induction keyed with
  | setTableKeyMatch t tableKeyMap => exact t.cached_setTableKeyMatch tableKeyMap
  | addTableEntry e replace _ cached => exact cached.addTableEntry e replace
  | deleteTableEntry e _ cached => exact cached.deleteTableEntry e
  | clearTableEntries _ _ => exact cached_clearTableEntries _
  | setDefaultTableAction action _ cached => exact cached

/-- The Z3 form then gets to every entry. -/
theorem Cached.z3Entries {t : TableConfiguration tableName} (cached : t.Cached) :
    t.z3Entries = t.tableEntries.list := by
  refine List.takeWhile_eq_self_iff.mpr fun e he => ?_
  rw [cached e he]
  rfl

/-- Beyond the largest number of entries both forms leave every variable of the default action
open, and so are equal as they stand. -/
theorem value_of_many [Z3.Lawful] (t : TableConfiguration tableName) (ρ : Valuation)
    (many : t.tableEntries.size > kMaxEntriesPerTable) (x : SymbolicVariable) :
    (t.computeControlPlaneAssignments.find x).map (Expr.eval ρ) =
      (t.computeZ3ControlPlaneAssignments.find x).map (Z3.Lawful.eval ρ) := by
  have some_entry : t.tableEntries.size ≠ 0 := by omega
  rw [computeControlPlaneAssignments, computeZ3ControlPlaneAssignments]
  simp only [if_neg some_entry, if_pos many, OrderedMap.find_mapValues,
    LiteralAssignmentSet.find_expressions, LiteralAssignmentSet.find_toZ3]
  cases t.missAssignments.find x <;> simp

theorem Cached.value_agrees [Z3.Lawful] {t : TableConfiguration tableName} (cached : t.Cached)
    (ρ : Valuation) (x : SymbolicVariable) :
    (t.computeControlPlaneAssignments.find x).map (Expr.eval ρ) =
      (t.computeZ3ControlPlaneAssignments.find x).map (Z3.Lawful.eval ρ) := by
  by_cases few : t.tableEntries.size ≤ kMaxEntriesPerTable
  · rw [t.value_of_few ρ few, t.z3Value_of_few ρ few, cached.z3Entries]
  · exact t.value_of_many ρ (by omega) x

/-- The two encodings assign the same variables, and to each of them the same value. -/
theorem encodings_agree [Z3.Lawful] {t : TableConfiguration tableName} (keyed : t.Keyed) :
    (∀ x, x ∈ t.computeControlPlaneAssignments.keys ↔
      x ∈ t.computeZ3ControlPlaneAssignments.keys) ∧
    ∀ (ρ : Valuation) (x : SymbolicVariable),
      (t.computeControlPlaneAssignments.find x).map (Expr.eval ρ) =
        (t.computeZ3ControlPlaneAssignments.find x).map (Z3.Lawful.eval ρ) := by
  have value := keyed.cached.value_agrees
  refine ⟨fun x => ?_, value⟩
  have assigned := congrArg Option.isSome (value (fun _ => default) x)
  simp only [Option.isSome_map] at assigned
  rw [← OrderedMap.find_isSome, ← OrderedMap.find_isSome, assigned]

end TableConfiguration

section Overlap

attribute [local instance] exprSolver exprSolver.lawful IrOrder.literals

theorem encodings_agree_overlapping :
    ((overlapping 1 10).computeControlPlaneAssignments.find (getTableActionChoice "t")).map
        (Expr.eval keyIsOne) =
      ((overlapping 1 10).computeZ3ControlPlaneAssignments.find (getTableActionChoice "t")).map
        (Z3.Lawful.eval keyIsOne) := by
  have keyed : (overlapping 1 10).Keyed :=
    .addTableEntry _ false (.addTableEntry _ false (.setTableKeyMatch _ _))
  exact (TableConfiguration.encodings_agree keyed).2 keyIsOne _

end Overlap

end Flay
