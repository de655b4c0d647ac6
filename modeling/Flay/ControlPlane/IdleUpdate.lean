import Flay.ControlPlane.Rejection
import Flay.ControlPlane.UpdateOrder

/-! Updates that leave the constraints as they are, whether or not they are accepted: all that they store
is there already. -/

namespace Flay

open Container TableConfiguration

variable [Z3] [IrOrder]

/-- The table takes a P4Runtime message. -/
structure P4Runtime.Takes {tableName : String} (p4Info : P4Info) (message : TableEntryMessage)
    (p4Table : P4Info.Table) (updateType : UpdateType) (t : TableConfiguration tableName) : Prop where
  converts : message.Convertible p4Info tableName
  mutable : p4Table.isConstTable = false
  entry : message.TakesEntry p4Info message.tableId message.priority updateType t

section Tables

variable {tableName : String} {p4Info : P4Info} {message : TableEntryMessage}
  {t t' : TableConfiguration tableName} {updateType : UpdateType} {p4Table : P4Info.Table}

theorem TableConfiguration.eq_iff_unchanged (keyMatch : t'.tableKeyMatch = t.tableKeyMatch) :
    t' = t ↔ t.Unchanged t' := by
  constructor
  · rintro rfl
    exact .refl _
  · rintro ⟨default, entries⟩
    cases t
    cases t'
    cases keyMatch
    cases default
    cases entries
    rfl

theorem P4Runtime.updateTable_isSome :
    (P4Runtime.updateTable p4Info p4Table message updateType t).symbolSet.isSome = true ↔
      P4Runtime.Takes p4Info message p4Table updateType t := by
  have converts := updateDefaultAction_isSome p4Info message t
  have state := updateDefaultAction_state p4Info message t
  unfold P4Runtime.updateTable
  split
  · rename_i t₁ override
    rw [override] at converts
    exact iff_of_false Bool.false_ne_true fun takes => by simpa using converts.mpr takes.converts
  · rename_i t₁ symbolSet override
    rw [override] at converts state
    dsimp only at state
    subst state
    split
    · rename_i const
      exact iff_of_false Bool.false_ne_true fun takes => by simp [takes.mutable] at const
    · rename_i mutable
      rw [Bool.not_eq_true] at mutable
      rw [updateEntry_isSome, takesEntry_withRequestedDefault]
      exact ⟨fun entry => ⟨converts.mp rfl, mutable, entry⟩, fun takes => takes.entry⟩

/-- What a P4Runtime message that a table takes leaves as it was. -/
theorem P4Runtime.unchanged_iff_of_takes (takes : P4Runtime.Takes p4Info message p4Table updateType t) :
    t.Unchanged (P4Runtime.updateTable p4Info p4Table message updateType t).state ↔
      message.KeepsDefault p4Info t ∧
        updateType = .modify ∧ message.Repeats p4Info message.tableId message.priority t := by
  have converted := (updateDefaultAction_isSome p4Info message t).mpr takes.converts
  have state := updateDefaultAction_state p4Info message t
  rw [← withRequestedDefault_default_eq_iff]
  unfold P4Runtime.updateTable
  split
  · rename_i override
    simp [override] at converted
  · rename_i t₁ symbolSet override
    rw [override] at state
    dsimp only at state
    subst state
    rw [if_neg (by simp [takes.mutable])]
    have entries := updateEntry_entries_eq_iff symbolSet (takesEntry_withRequestedDefault.mpr takes.entry)
    rw [withRequestedDefault_tableEntries, repeats_withRequestedDefault] at entries
    constructor
    · intro unchanged
      refine ⟨?_, entries.mp unchanged.tableEntries⟩
      rw [← unchanged.defaultTableAction, updateEntry_defaultTableAction]
    · rintro ⟨same, kept⟩
      exact ⟨updateEntry_defaultTableAction.trans same, entries.mpr kept⟩

/-- A P4Runtime message leaves its table when the table has the default action that the message asks
for, and the entry, if it takes one. -/
theorem P4Runtime.updateTable_eq_iff :
    (P4Runtime.updateTable p4Info p4Table message updateType t).state = t ↔
      message.KeepsDefault p4Info t ∧
        (P4Runtime.Takes p4Info message p4Table updateType t →
          updateType = .modify ∧ message.Repeats p4Info message.tableId message.priority t) := by
  rw [eq_iff_unchanged (P4Runtime.updateTable_tableKeyMatch p4Table)]
  by_cases takes : P4Runtime.Takes p4Info message p4Table updateType t
  · rw [P4Runtime.unchanged_iff_of_takes takes, imp_iff_right takes]
  · have refused := mt P4Runtime.updateTable_isSome.mp takes
    rw [Option.not_isSome_iff_eq_none] at refused
    rw [unchanged_withRequestedDefault_iff (P4Runtime.updateTable_of_rejected refused)]
    exact (and_iff_left fun h => absurd h takes).symm

theorem BfRuntime.updateTable_eq_iff :
    (BfRuntime.updateTable p4Info p4Table message updateType t).state = t ↔
      message.KeepsDefault p4Info t ∧
        (message.Takes p4Info p4Table updateType t →
          message.KeepsEntries p4Info p4Table t updateType) := by
  rw [eq_iff_unchanged (BfRuntime.updateTable_tableKeyMatch p4Table)]
  by_cases takes : message.Takes p4Info p4Table updateType t
  · rw [BfRuntime.unchanged_iff_of_takes takes, imp_iff_right takes]
  · have refused := mt BfRuntime.updateTable_isSome.mp takes
    rw [Option.not_isSome_iff_eq_none] at refused
    rw [unchanged_withRequestedDefault_iff (BfRuntime.updateTable_of_rejected refused)]
    exact (and_iff_left fun h => absurd h takes).symm

end Tables

/-- All that the update stores is what the constraints have. -/
def ControlPlaneUpdate.Keeps (p4Info : P4Info) (constraints : ControlPlaneConstraints) :
    ControlPlaneUpdate → Prop
  | .p4Runtime (some message) updateType => ∀ p4Table t,
      p4Info.findP4RuntimeTable message.tableId = some p4Table →
      constraints.find p4Table.name = some (.tableConfiguration t) →
        message.KeepsDefault p4Info t ∧
          (P4Runtime.Takes p4Info message p4Table updateType t →
            updateType = .modify ∧ message.Repeats p4Info message.tableId message.priority t)
  | .bfRuntime (some message) updateType =>
    match p4Info.findP4RuntimeTable message.tableId with
    | some p4Table => p4Table.implementationId = 0 → ∀ t,
        constraints.find p4Table.name = some (.tableConfiguration t) →
          message.KeepsDefault p4Info t ∧
            (message.Takes p4Info p4Table updateType t →
              message.KeepsEntries p4Info p4Table t updateType)
    | none => ∀ name associatedTables, BfRuntime.getActionProfileName p4Info message = some name →
        constraints.find name = some (.actionProfile associatedTables) →
          message.KeepsProfile p4Info constraints updateType associatedTables
  | _ => True

section Constraints

open ControlPlaneConstraints

variable {p4Info : P4Info} {message : TableEntryMessage} {updateType : UpdateType}
  {constraints constraints' : ControlPlaneConstraints}

/-- Tables that keep their default actions, their entries and their key matches are the same. -/
theorem Changes.eq_iff_tablesUnchanged {names : List String} {f : TableMap}
    (changes : Changes names constraints constraints' f) :
    constraints' = constraints ↔ constraints.TablesUnchanged constraints' := by
  constructor
  · rintro rfl
    exact .refl _
  · intro unchanged
    rw [changes.state]
    refine (OrderedMap.mapValues_congr fun name item known => ?_).trans (OrderedMap.mapValues_id _)
    cases item with
    | tableConfiguration t =>
      obtain ⟨t', found, kept⟩ := unchanged name t known
      rw [changes.state, find_mapTables, known] at found
      cases found
      have same := (eq_iff_unchanged (changes.keyMatch name t known)).mpr kept
      rw [ControlPlaneItem.mapTable, same]
    | parserValueSet | actionProfile | actionSelector => rfl

theorem assign_eq_self_iff {name : String} {t t' : TableConfiguration name}
    (found : constraints.find name = some (.tableConfiguration t)) :
    constraints.assign name (.tableConfiguration t') = constraints ↔ t' = t := by
  have assigned := OrderedMap.find_assign_self (.tableConfiguration t')
    (OrderedMap.mem_keys_of_find found)
  constructor
  · intro same
    rw [same, found] at assigned
    cases assigned
    rfl
  · rintro rfl
    rw [assign_eq_mapTables found]
    refine (OrderedMap.mapValues_congr fun other item known => ?_).trans (OrderedMap.mapValues_id _)
    by_cases same : other = name
    · subst same
      cases known.symm.trans found
      rw [ControlPlaneItem.mapTable, only, Function.update_self]
    · rw [only_ne _ same]
      cases item <;> rfl

theorem P4Runtime.state_eq_iff {entity : Option TableEntryMessage} :
    (P4Runtime.updateControlPlaneConstraintsWithEntityMessage p4Info entity updateType
        constraints).state = constraints ↔
      (ControlPlaneUpdate.p4Runtime entity updateType).Keeps p4Info constraints := by
  cases entity with
  | none => exact iff_of_true rfl trivial
  | some message =>
    unfold ControlPlaneUpdate.Keeps
    unfold P4Runtime.updateControlPlaneConstraintsWithEntityMessage P4Runtime.updateTableEntry
    dsimp only
    split
    · rename_i missing
      exact iff_of_true rfl fun p4Table t present => by simp [missing] at present
    · rename_i p4Table present
      simp only [present, Option.some.injEq]
      split
      · rename_i t found
        rw [assign_eq_self_iff found, P4Runtime.updateTable_eq_iff]
        constructor
        · rintro kept p4Table' t' rfl found'
          cases found.symm.trans found'
          exact kept
        · intro kept
          exact kept p4Table t rfl found
      · rename_i untabled
        refine iff_of_true rfl ?_
        rintro p4Table' t rfl found
        exact absurd found (untabled t)

theorem BfRuntime.updateTableEntry_state_eq_iff {p4Table : P4Info.Table} :
    (BfRuntime.updateTableEntry p4Info p4Table message updateType constraints).state = constraints ↔
      (p4Table.implementationId = 0 → ∀ t,
        constraints.find p4Table.name = some (.tableConfiguration t) →
          message.KeepsDefault p4Info t ∧
            (message.Takes p4Info p4Table updateType t →
              message.KeepsEntries p4Info p4Table t updateType)) := by
  unfold BfRuntime.updateTableEntry
  split
  · rename_i t found
    split
    · rename_i implemented
      exact iff_of_true rfl fun none => absurd none implemented
    · rename_i implemented
      rw [assign_eq_self_iff found, BfRuntime.updateTable_eq_iff, imp_iff_right (not_not.mp implemented)]
      constructor
      · intro kept t' found'
        cases found.symm.trans found'
        exact kept
      · intro kept
        exact kept t found
  · rename_i untabled
    exact iff_of_true rfl fun _ t found => absurd found (untabled t)

theorem BfRuntime.configureActionProfile_state_eq_iff {associatedTables : List String}
    (distinct : associatedTables.Nodup) :
    (BfRuntime.configureActionProfile p4Info message updateType associatedTables constraints
        []).state = constraints ↔
      message.KeepsProfile p4Info constraints updateType associatedTables := by
  obtain ⟨f, changes⟩ := BfRuntime.exists_changes_configureActionProfile message updateType
    associatedTables (List.Subset.refl _) []
  exact changes.eq_iff_tablesUnchanged.trans (BfRuntime.configureActionProfile_unchanged_iff [] distinct)

theorem BfRuntime.state_eq_iff {entity : Option TableEntryMessage}
    (distinct : ∀ name associatedTables,
      constraints.find name = some (.actionProfile associatedTables) → associatedTables.Nodup) :
    (BfRuntime.updateControlPlaneConstraintsWithEntityMessage p4Info entity updateType
        constraints).state = constraints ↔
      (ControlPlaneUpdate.bfRuntime entity updateType).Keeps p4Info constraints := by
  cases entity with
  | none => exact iff_of_true rfl trivial
  | some message =>
    simp only [BfRuntime.updateControlPlaneConstraintsWithEntityMessage, ControlPlaneUpdate.Keeps]
    cases p4Info.findP4RuntimeTable message.tableId with
    | some p4Table => exact BfRuntime.updateTableEntry_state_eq_iff
    | none =>
      dsimp only
      cases BfRuntime.getActionProfileName p4Info message with
      | some name =>
        dsimp only
        split
        · rename_i associatedTables found
          rw [BfRuntime.configureActionProfile_state_eq_iff (distinct name associatedTables found)]
          constructor
          · rintro kept _ associatedTables' ⟨⟩ found'
            cases found.symm.trans found'
            exact kept
          · intro kept
            exact kept name associatedTables rfl found
        · rename_i unprofiled
          refine iff_of_true rfl ?_
          rintro _ associatedTables ⟨⟩ found
          exact absurd found (unprofiled associatedTables)
      | none =>
        refine iff_of_true ?_ fun _ _ named => by cases named
        dsimp only
        split
        · split <;> rfl
        · rfl

/-- An update leaves the constraints as they are exactly when all that it stores is there already. -/
theorem convert_state_eq_iff
    (distinct : ∀ name associatedTables,
      constraints.find name = some (.actionProfile associatedTables) → associatedTables.Nodup)
    (update : ControlPlaneUpdate) :
    (convertControlPlaneUpdate p4Info constraints update).state = constraints ↔
      update.Keeps p4Info constraints := by
  cases update with
  | p4Runtime entity updateType => exact P4Runtime.state_eq_iff
  | bfRuntime entity updateType => exact BfRuntime.state_eq_iff distinct

end Constraints

end Flay
