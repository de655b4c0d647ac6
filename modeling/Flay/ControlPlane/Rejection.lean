import Flay.ControlPlane.Miss

/-! What a rejected update leaves of the control-plane constraints. The default action is stored
before the rest of the message is checked, and the tables of an action profile are updated one after
the other, so an update that fails late has changed what came before. -/

namespace Flay

open Container

section Rejection

variable [Z3] [IrOrder]

/-- The default action and the entries of a table are the same in both configurations. -/
structure TableConfiguration.Unchanged {tableName : String}
    (t t' : TableConfiguration tableName) : Prop where
  defaultTableAction : t'.defaultTableAction = t.defaultTableAction
  tableEntries : t'.tableEntries = t.tableEntries

/-- Every table has the default action and the entries that it had. -/
def ControlPlaneConstraints.TablesUnchanged (constraints constraints' : ControlPlaneConstraints) :
    Prop :=
  ∀ name t, constraints.find name = some (.tableConfiguration t) →
    ∃ t', constraints'.find name = some (.tableConfiguration t') ∧ t.Unchanged t'

namespace TableEntryMessage

variable (p4Info : P4Info) (message : TableEntryMessage)

/-- The default action that a message asks for, if it converts. -/
def requestedDefault (tableName : String) : Option LiteralAssignmentSet :=
  if message.isDefaultAction then
    (p4Info.findP4RuntimeAction (message.action.getD ⟨0, []⟩).actionId).bind fun p4Action =>
      (convertTableAction (message.action.getD ⟨0, []⟩) tableName p4Action true).map Prod.fst
  else none

/-- A message that asks for a default action asks for one that converts. -/
def Convertible (tableName : String) : Prop :=
  message.isDefaultAction = true → (message.requestedDefault p4Info tableName).isSome = true

variable {tableName : String}

/-- The message asks for no default action that the table does not have. -/
def KeepsDefault (t : TableConfiguration tableName) : Prop :=
  ∀ actionAssignment, message.requestedDefault p4Info tableName = some actionAssignment →
    t.defaultTableAction = ⟨actionAssignment⟩

/-- An update of the type can apply the entry to the table. -/
def Applicable (t : TableConfiguration tableName) (e : TableMatchEntry tableName) :
    UpdateType → Prop
  | .modify => True
  | .insert => t.tableEntries.contains e = false
  | .delete => t.tableEntries.contains e = true
  | .unspecified => False

/-- The message makes an entry that an update of the type can apply to the table. -/
def TakesEntry (tableId : Nat) (priority : Int) (updateType : UpdateType)
    (t : TableConfiguration tableName) : Prop :=
  ∃ e used, produceTableEntry p4Info tableName tableId message priority = some (e, used) ∧
    Applicable t e updateType

/-- The message makes an entry that the table has as it is. -/
def Repeats (tableId : Nat) (priority : Int) (t : TableConfiguration tableName) : Prop :=
  ∃ e used, produceTableEntry p4Info tableName tableId message priority = some (e, used) ∧
    e.setZ3Condition (Z3.set t.tableKeyMatch) ∈ t.tableEntries

/-- A BFRuntime message that deletes all entries. -/
def WildcardDelete (updateType : UpdateType) : Prop :=
  updateType = .delete ∧ message.action.isNone = true

/-- The table takes a BFRuntime message. -/
structure Takes (p4Table : P4Info.Table) (updateType : UpdateType)
    (t : TableConfiguration tableName) : Prop where
  converts : message.Convertible p4Info tableName
  mutable : p4Table.isConstTable = false
  entry : message.WildcardDelete updateType ∨
    message.TakesEntry p4Info p4Table.id 0 updateType t

/-- A BFRuntime message that the table takes leaves its entries: it replaces an entry by itself, or
it deletes all entries of a table that has none. -/
def KeepsEntries (p4Table : P4Info.Table) (t : TableConfiguration tableName) : UpdateType → Prop
  | .modify => ∃ e used,
      produceTableEntry p4Info tableName p4Table.id message 0 = some (e, used) ∧
        e.setZ3Condition (Z3.set t.tableKeyMatch) ∈ t.tableEntries
  | .delete => message.action.isNone = true ∧ t.tableEntries = SortedSet.empty
  | _ => False

/-- No table of the profile that the message reaches is changed by it: the message keeps the default
action of each, and the entries of those that take it. The first that does not ends the update. -/
def KeepsProfile (constraints : ControlPlaneConstraints) (updateType : UpdateType) :
    List String → Prop
  | [] => True
  | associatedTable :: associatedTables =>
    ∀ t p4Table, constraints.find associatedTable = some (.tableConfiguration t) →
      p4Info.findP4RuntimeTableByName associatedTable = some p4Table →
      message.KeepsDefault p4Info t ∧
        (message.Takes p4Info p4Table updateType t →
          message.KeepsEntries p4Info p4Table t updateType ∧
            KeepsProfile constraints updateType associatedTables)

/-- The message keeps the default action of the table. -/
def KeepsTable (constraints : ControlPlaneConstraints) (p4Table : P4Info.Table) : Prop :=
  ∀ t, constraints.find p4Table.name = some (.tableConfiguration t) → message.KeepsDefault p4Info t

end TableEntryMessage

/-- What an update would store before it is rejected is what the constraints have. -/
def ControlPlaneUpdate.KeepsTables (p4Info : P4Info) (constraints : ControlPlaneConstraints) :
    ControlPlaneUpdate → Prop
  | .p4Runtime (some message) _ => ∀ p4Table,
      p4Info.findP4RuntimeTable message.tableId = some p4Table →
      message.KeepsTable p4Info constraints p4Table
  | .bfRuntime (some message) updateType =>
    match p4Info.findP4RuntimeTable message.tableId with
    | some p4Table => message.KeepsTable p4Info constraints p4Table
    | none => ∀ name, BfRuntime.getActionProfileName p4Info message = some name →
        ∀ associatedTables, constraints.find name = some (.actionProfile associatedTables) →
          message.KeepsProfile p4Info constraints updateType associatedTables
  | _ => True

namespace TableConfiguration

variable {tableName : String} {p4Info : P4Info} {message : TableEntryMessage}
  {t t' t₁ : TableConfiguration tableName} {updateType : UpdateType} {symbolSet : SymbolSet}

theorem Unchanged.refl (t : TableConfiguration tableName) : t.Unchanged t := ⟨rfl, rfl⟩

theorem Unchanged.trans (h : t.Unchanged t₁) (h' : t₁.Unchanged t') : t.Unchanged t' :=
  ⟨h'.defaultTableAction.trans h.defaultTableAction, h'.tableEntries.trans h.tableEntries⟩

/-- The state after the part of an update that overrides the default action. -/
def withRequestedDefault (p4Info : P4Info) (message : TableEntryMessage)
    (t : TableConfiguration tableName) : TableConfiguration tableName :=
  ((message.requestedDefault p4Info tableName).map fun actionAssignment =>
    t.setDefaultTableAction ⟨actionAssignment⟩).getD t

theorem updateDefaultAction_state (p4Info : P4Info) (message : TableEntryMessage)
    (t : TableConfiguration tableName) :
    (t.updateDefaultAction p4Info message).state = t.withRequestedDefault p4Info message := by
  unfold updateDefaultAction withRequestedDefault TableEntryMessage.requestedDefault
  split
  · dsimp only
    split
    · rename_i found
      simp [found]
    · rename_i p4Action found
      split <;> rename_i convert <;> simp [found, convert]
  · simp [*]

theorem updateDefaultAction_isSome (p4Info : P4Info) (message : TableEntryMessage)
    (t : TableConfiguration tableName) :
    (t.updateDefaultAction p4Info message).symbolSet.isSome = true ↔
      message.Convertible p4Info tableName := by
  unfold updateDefaultAction TableEntryMessage.Convertible TableEntryMessage.requestedDefault
  split
  · rename_i marked
    dsimp only
    split
    · rename_i found
      simp [marked, found]
    · rename_i p4Action found
      split <;> rename_i convert <;> simp [marked, found, convert]
  · rename_i unmarked
    simp [unmarked]

theorem withRequestedDefault_tableEntries :
    (t.withRequestedDefault p4Info message).tableEntries = t.tableEntries := by
  unfold withRequestedDefault
  cases message.requestedDefault p4Info tableName <;> rfl

theorem withRequestedDefault_tableKeyMatch :
    (t.withRequestedDefault p4Info message).tableKeyMatch = t.tableKeyMatch := by
  unfold withRequestedDefault
  cases message.requestedDefault p4Info tableName <;> rfl

theorem withRequestedDefault_default_eq_iff :
    (t.withRequestedDefault p4Info message).defaultTableAction = t.defaultTableAction ↔
      message.KeepsDefault p4Info t := by
  unfold withRequestedDefault TableEntryMessage.KeepsDefault
  cases message.requestedDefault p4Info tableName with
  | none => simp
  | some actionAssignment => simp [setDefaultTableAction, eq_comm]

theorem applyUpdate_accepts {e : TableMatchEntry tableName} :
    (t.applyUpdate e updateType).2 = true ↔ TableEntryMessage.Applicable t e updateType := by
  cases updateType with
  | unspecified => exact iff_of_false Bool.false_ne_true id
  | modify => exact iff_of_true rfl trivial
  | insert => exact iff_of_eq (Bool.not_eq_true' _)
  | delete => exact Iff.rfl

theorem applyUpdate_of_not_applicable {e : TableMatchEntry tableName}
    (rejected : ¬TableEntryMessage.Applicable t e updateType) :
    t.Unchanged (t.applyUpdate e updateType).1 := by
  cases updateType with
  | unspecified => exact .refl t
  | modify => exact absurd trivial rejected
  | insert =>
    have present : t.tableEntries.contains e = true := Bool.not_eq_false _ |>.mp rejected
    exact ⟨rfl, SortedSet.insert_of_contains present⟩
  | delete =>
    have absent : t.tableEntries.contains e = false := Bool.not_eq_true _ |>.mp rejected
    exact ⟨rfl, SortedSet.erase_of_not_contains absent⟩

/-- A rejected entry leaves the table as it was. -/
theorem updateEntry_of_rejected {tableId : Nat} {priority : Int}
    (rejected : (t.updateEntry p4Info tableId message priority updateType symbolSet).symbolSet =
      none) :
    t.Unchanged (t.updateEntry p4Info tableId message priority updateType symbolSet).state := by
  unfold updateEntry at rejected ⊢
  split at rejected
  · exact .refl t
  · refine applyUpdate_of_not_applicable fun applicable => ?_
    simp [applyUpdate_accepts.mpr applicable] at rejected

theorem updateEntry_isSome {tableId : Nat} {priority : Int} :
    (t.updateEntry p4Info tableId message priority updateType symbolSet).symbolSet.isSome = true ↔
      message.TakesEntry p4Info tableId priority updateType t := by
  unfold updateEntry TableEntryMessage.TakesEntry
  cases produceTableEntry p4Info tableName tableId message priority with
  | none => simp
  | some made =>
    obtain ⟨e, used⟩ := made
    simp [← applyUpdate_accepts]

theorem updateEntry_defaultTableAction {tableId : Nat} {priority : Int} :
    (t.updateEntry p4Info tableId message priority updateType symbolSet).state.defaultTableAction =
      t.defaultTableAction := by
  unfold updateEntry
  cases produceTableEntry p4Info tableName tableId message priority with
  | none => rfl
  | some made => cases updateType <;> rfl

/-- An accepted entry leaves the entries as they were only when it replaces one by itself. -/
theorem updateEntry_entries_eq_iff {tableId : Nat} {priority : Int} (symbolSet : SymbolSet)
    (accepted : message.TakesEntry p4Info tableId priority updateType t) :
    (t.updateEntry p4Info tableId message priority updateType symbolSet).state.tableEntries =
      t.tableEntries ↔ updateType = .modify ∧ message.Repeats p4Info tableId priority t := by
  obtain ⟨e, used, produced, applicable⟩ := accepted
  have equivalent : TableMatchEntry.order.equiv e
      (e.setZ3Condition (Z3.set t.tableKeyMatch)) = true := TableMatchEntry.order.equiv_refl e
  simp only [updateEntry, produced]
  cases updateType with
  | unspecified => cases applicable
  | modify =>
    simp only [applyUpdate, addTableEntry, if_true, TableEntryMessage.Repeats, produced, true_and]
    rw [SortedSet.insert_erase_eq_iff equivalent]
    constructor
    · intro mem
      exact ⟨e, used, rfl, mem⟩
    · rintro ⟨e', used', made, mem⟩
      cases made
      exact mem
  | insert =>
    refine iff_of_false (SortedSet.insert_ne_of_not_contains applicable) ?_
    rintro ⟨⟨⟩, -⟩
  | delete =>
    refine iff_of_false (SortedSet.erase_ne_of_contains applicable) ?_
    rintro ⟨⟨⟩, -⟩

theorem keepsEntries_iff_of_takesEntry {p4Table : P4Info.Table}
    (accepted : message.TakesEntry p4Info p4Table.id 0 updateType t) :
    message.KeepsEntries p4Info p4Table t updateType ↔
      updateType = .modify ∧ message.Repeats p4Info p4Table.id 0 t := by
  obtain ⟨e, used, produced, applicable⟩ := accepted
  cases updateType with
  | unspecified => cases applicable
  | modify => exact (and_iff_right rfl).symm
  | insert =>
    refine iff_of_false id ?_
    rintro ⟨⟨⟩, -⟩
  | delete =>
    refine iff_of_false ?_ ?_
    · rintro ⟨missing, -⟩
      exact absurd missing (by simp [action_of_produceTableEntry produced])
    · rintro ⟨⟨⟩, -⟩

end TableConfiguration

section Tables

variable {tableName : String} {p4Info : P4Info} {message : TableEntryMessage}
  {t : TableConfiguration tableName} {updateType : UpdateType} {p4Table : P4Info.Table}

open TableConfiguration

/-- A rejected message stores at most the default action that it asks for. -/
theorem P4Runtime.updateTable_of_rejected
    (rejected : (P4Runtime.updateTable p4Info p4Table message updateType t).symbolSet = none) :
    (t.withRequestedDefault p4Info message).Unchanged
      (P4Runtime.updateTable p4Info p4Table message updateType t).state := by
  rw [← updateDefaultAction_state]
  unfold P4Runtime.updateTable at rejected ⊢
  split at rejected
  · rename_i override
    simp only [override]
    exact .refl _
  · rename_i override
    simp only [override]
    split at rejected
    · rename_i const
      rw [if_pos const]
      exact .refl _
    · rename_i mutable
      rw [if_neg mutable]
      exact updateEntry_of_rejected rejected

theorem BfRuntime.updateTable_of_rejected
    (rejected : (BfRuntime.updateTable p4Info p4Table message updateType t).symbolSet = none) :
    (t.withRequestedDefault p4Info message).Unchanged
      (BfRuntime.updateTable p4Info p4Table message updateType t).state := by
  rw [← updateDefaultAction_state]
  unfold BfRuntime.updateTable at rejected ⊢
  split at rejected
  · rename_i override
    simp only [override]
    exact .refl _
  · rename_i override
    simp only [override]
    split at rejected
    · rename_i const
      rw [if_pos const]
      exact .refl _
    · rename_i mutable
      rw [if_neg mutable]
      split at rejected
      · cases rejected
      · rename_i wildcard
        rw [if_neg wildcard]
        exact updateEntry_of_rejected rejected

theorem unchanged_withRequestedDefault_iff {t' : TableConfiguration tableName}
    (h : (t.withRequestedDefault p4Info message).Unchanged t') :
    t.Unchanged t' ↔ message.KeepsDefault p4Info t := by
  rw [← withRequestedDefault_default_eq_iff]
  constructor
  · intro kept
    exact h.defaultTableAction.symm.trans kept.defaultTableAction
  · intro kept
    exact ⟨h.defaultTableAction.trans kept,
      h.tableEntries.trans withRequestedDefault_tableEntries⟩

theorem takesEntry_withRequestedDefault {tableId : Nat} {priority : Int} :
    message.TakesEntry p4Info tableId priority updateType (t.withRequestedDefault p4Info message) ↔
      message.TakesEntry p4Info tableId priority updateType t := by
  unfold TableEntryMessage.TakesEntry
  cases updateType <;> simp only [TableEntryMessage.Applicable, withRequestedDefault_tableEntries]

theorem repeats_withRequestedDefault {tableId : Nat} {priority : Int} :
    message.Repeats p4Info tableId priority (t.withRequestedDefault p4Info message) ↔
      message.Repeats p4Info tableId priority t := by
  simp only [TableEntryMessage.Repeats, withRequestedDefault_tableEntries,
    withRequestedDefault_tableKeyMatch]

theorem keepsEntries_withRequestedDefault :
    message.KeepsEntries p4Info p4Table (t.withRequestedDefault p4Info message) updateType ↔
      message.KeepsEntries p4Info p4Table t updateType := by
  cases updateType <;> simp only [TableEntryMessage.KeepsEntries, withRequestedDefault_tableEntries,
    withRequestedDefault_tableKeyMatch]

theorem BfRuntime.updateTable_isSome :
    (BfRuntime.updateTable p4Info p4Table message updateType t).symbolSet.isSome = true ↔
      message.Takes p4Info p4Table updateType t := by
  have converts := updateDefaultAction_isSome p4Info message t
  have state := updateDefaultAction_state p4Info message t
  unfold BfRuntime.updateTable
  split
  · rename_i t₁ override
    rw [override] at converts
    exact iff_of_false Bool.false_ne_true fun takes => by simpa using converts.mpr takes.converts
  · rename_i t₁ symbolSet override
    rw [override] at converts state
    dsimp only at state
    subst state
    have converted := converts.mp rfl
    split
    · rename_i const
      exact iff_of_false Bool.false_ne_true fun takes => by simp [takes.mutable] at const
    · rename_i mutable
      rw [Bool.not_eq_true] at mutable
      split
      · rename_i wildcard
        exact iff_of_true rfl ⟨converted, mutable, .inl wildcard⟩
      · rename_i wildcard
        rw [updateEntry_isSome, takesEntry_withRequestedDefault]
        constructor
        · intro entry
          exact ⟨converted, mutable, .inr entry⟩
        · intro takes
          exact takes.entry.resolve_left wildcard

/-- What a message that a table takes leaves as it was. -/
theorem BfRuntime.unchanged_iff_of_takes (takes : message.Takes p4Info p4Table updateType t) :
    t.Unchanged (BfRuntime.updateTable p4Info p4Table message updateType t).state ↔
      message.KeepsDefault p4Info t ∧ message.KeepsEntries p4Info p4Table t updateType := by
  have converted := (updateDefaultAction_isSome p4Info message t).mpr takes.converts
  have state := updateDefaultAction_state p4Info message t
  rw [← withRequestedDefault_default_eq_iff]
  unfold BfRuntime.updateTable
  split
  · rename_i override
    simp [override] at converted
  · rename_i t₁ symbolSet override
    rw [override] at state
    dsimp only at state
    subst state
    rw [if_neg (by simp [takes.mutable])]
    split
    · rename_i wildcard
      obtain ⟨rfl, missing⟩ := wildcard
      constructor
      · intro unchanged
        exact ⟨unchanged.defaultTableAction, missing, unchanged.tableEntries.symm⟩
      · rintro ⟨same, -, none⟩
        exact ⟨same, none.symm⟩
    · rename_i wildcard
      have entry := takesEntry_withRequestedDefault.mpr (takes.entry.resolve_left wildcard)
      have entries := updateEntry_entries_eq_iff symbolSet entry
      rw [← keepsEntries_iff_of_takesEntry entry, withRequestedDefault_tableEntries,
        keepsEntries_withRequestedDefault] at entries
      constructor
      · intro unchanged
        refine ⟨?_, entries.mp unchanged.tableEntries⟩
        rw [← unchanged.defaultTableAction, updateEntry_defaultTableAction]
      · rintro ⟨same, kept⟩
        exact ⟨updateEntry_defaultTableAction.trans same, entries.mpr kept⟩

end Tables

section Constraints

variable {p4Info : P4Info} {message : TableEntryMessage} {updateType : UpdateType}

namespace ControlPlaneConstraints

variable {constraints constraints' constraints₁ : ControlPlaneConstraints} {name : String}
  {t t₁ : TableConfiguration name}

theorem TablesUnchanged.refl (constraints : ControlPlaneConstraints) :
    constraints.TablesUnchanged constraints :=
  fun _ t found => ⟨t, found, .refl t⟩

/-- An update of one table, after which no other step changes it, leaves all tables as they were when
it leaves this one so and the other steps leave the rest so. -/
theorem tablesUnchanged_iff_of_assign (found : constraints.find name = some (.tableConfiguration t))
    (later : constraints'.find name =
      (constraints.assign name (.tableConfiguration t₁)).find name) :
    constraints.TablesUnchanged constraints' ↔
      t.Unchanged t₁ ∧
        ControlPlaneConstraints.TablesUnchanged (constraints.assign name (.tableConfiguration t₁))
          constraints' := by
  have assigned := OrderedMap.find_assign_self (.tableConfiguration t₁)
    (OrderedMap.mem_keys_of_find found)
  rw [assigned] at later
  constructor
  · intro unchanged
    refine ⟨?_, fun other t' found' => ?_⟩
    · obtain ⟨t', found', kept⟩ := unchanged name t found
      rw [later] at found'
      cases found'
      exact kept
    · by_cases same : other = name
      · subst same
        rw [assigned] at found'
        cases found'
        exact ⟨_, later, .refl _⟩
      · rw [OrderedMap.find_assign_ne _ _ same] at found'
        exact unchanged other t' found'
  · rintro ⟨kept, unchanged⟩ other t' found'
    by_cases same : other = name
    · subst same
      rw [found] at found'
      cases found'
      exact ⟨t₁, later, kept⟩
    · exact unchanged other t' (by rw [OrderedMap.find_assign_ne _ _ same, found'])

theorem tablesUnchanged_assign_iff
    (found : constraints.find name = some (.tableConfiguration t)) :
    constraints.TablesUnchanged (constraints.assign name (.tableConfiguration t₁)) ↔
      t.Unchanged t₁ :=
  (tablesUnchanged_iff_of_assign found rfl).trans (and_iff_left (.refl _))

end ControlPlaneConstraints

open ControlPlaneConstraints

/-- The profile's update reaches no table outside the list. -/
theorem find_configureActionProfile {other : String} :
    ∀ {associatedTables : List String} {constraints : ControlPlaneConstraints}
      {symbolSet : SymbolSet}, other ∉ associatedTables →
      (BfRuntime.configureActionProfile p4Info message updateType associatedTables constraints
        symbolSet).state.find other = constraints.find other := by
  intro associatedTables
  induction associatedTables with
  | nil =>
    intro constraints symbolSet _
    rfl
  | cons associatedTable associatedTables ih =>
    intro constraints symbolSet outside
    rw [List.mem_cons, not_or] at outside
    unfold BfRuntime.configureActionProfile
    split
    · split
      · rfl
      · dsimp only
        split
        · exact OrderedMap.find_assign_ne _ _ outside.1
        · exact (ih outside.2).trans (OrderedMap.find_assign_ne _ _ outside.1)
    · rfl

/-- Which tables a profile's message keeps depends on the tables of the profile alone. -/
theorem keepsProfile_congr {constraints constraints' : ControlPlaneConstraints} :
    ∀ {associatedTables : List String},
      (∀ name ∈ associatedTables, constraints.find name = constraints'.find name) →
      (message.KeepsProfile p4Info constraints updateType associatedTables ↔
        message.KeepsProfile p4Info constraints' updateType associatedTables) := by
  intro associatedTables
  induction associatedTables with
  | nil =>
    intro _
    exact Iff.rfl
  | cons associatedTable associatedTables ih =>
    intro same
    have rest := ih fun name h => same name (List.mem_cons_of_mem _ h)
    simp only [TableEntryMessage.KeepsProfile, same associatedTable List.mem_cons_self, rest]

theorem keepsProfile_assign_iff {constraints : ControlPlaneConstraints} {name : String}
    {item : ControlPlaneItem name} {associatedTables : List String} (outside : name ∉ associatedTables) :
    message.KeepsProfile p4Info (constraints.assign name item) updateType associatedTables ↔
      message.KeepsProfile p4Info constraints updateType associatedTables :=
  keepsProfile_congr fun _ mem =>
    OrderedMap.find_assign_ne _ _ (ne_of_mem_of_not_mem mem outside)

theorem keepsProfile_cons_iff {constraints : ControlPlaneConstraints} {associatedTable : String}
    {associatedTables : List String} {t : TableConfiguration associatedTable}
    {p4Table : P4Info.Table}
    (found : constraints.find associatedTable = some (.tableConfiguration t))
    (present : p4Info.findP4RuntimeTableByName associatedTable = some p4Table) :
    message.KeepsProfile p4Info constraints updateType (associatedTable :: associatedTables) ↔
      message.KeepsDefault p4Info t ∧
        (message.Takes p4Info p4Table updateType t →
          message.KeepsEntries p4Info p4Table t updateType ∧
            message.KeepsProfile p4Info constraints updateType associatedTables) := by
  simp [TableEntryMessage.KeepsProfile, found, present]

/-- An update of a profile leaves all tables as they were exactly when it keeps the profile. -/
theorem BfRuntime.configureActionProfile_unchanged_iff :
    ∀ {associatedTables : List String} {constraints : ControlPlaneConstraints}
      (symbolSet : SymbolSet), associatedTables.Nodup →
      (constraints.TablesUnchanged (BfRuntime.configureActionProfile p4Info message updateType
          associatedTables constraints symbolSet).state ↔
        message.KeepsProfile p4Info constraints updateType associatedTables) := by
  intro associatedTables
  induction associatedTables with
  | nil =>
    intro constraints _ _
    exact iff_of_true (.refl _) trivial
  | cons associatedTable associatedTables ih =>
    intro constraints symbolSet distinct
    obtain ⟨outside, distinct⟩ := List.nodup_cons.mp distinct
    unfold BfRuntime.configureActionProfile
    split
    · rename_i t found
      split
      · rename_i missing
        rw [TableEntryMessage.KeepsProfile]
        refine iff_of_true (.refl _) fun t' p4Table _ present => ?_
        rw [missing] at present
        cases present
      · rename_i p4Table present
        dsimp only
        rw [keepsProfile_cons_iff found present]
        split
        · rename_i refused
          have stored := unchanged_withRequestedDefault_iff (BfRuntime.updateTable_of_rejected refused)
          rw [tablesUnchanged_assign_iff found, stored]
          refine (and_iff_left fun takes => ?_).symm
          have accepted := BfRuntime.updateTable_isSome.mpr takes
          rw [refused] at accepted
          cases accepted
        · rename_i used taken
          have takes := BfRuntime.updateTable_isSome.mp (Option.isSome_of_eq_some taken)
          rw [tablesUnchanged_iff_of_assign found (find_configureActionProfile outside),
            BfRuntime.unchanged_iff_of_takes takes, ih _ distinct,
            keepsProfile_assign_iff outside, and_assoc, imp_iff_right takes]
    · rename_i untabled
      rw [TableEntryMessage.KeepsProfile]
      refine iff_of_true (.refl _) fun t' p4Table found _ => ?_
      exact absurd found (untabled t')

theorem keepsTable_iff {constraints : ControlPlaneConstraints} {p4Table : P4Info.Table}
    {t : TableConfiguration p4Table.name}
    (found : constraints.find p4Table.name = some (.tableConfiguration t)) :
    message.KeepsTable p4Info constraints p4Table ↔ message.KeepsDefault p4Info t := by
  simp [TableEntryMessage.KeepsTable, found]

theorem P4Runtime.unchanged_iff {constraints : ControlPlaneConstraints}
    {entity : Option TableEntryMessage}
    (rejected : (P4Runtime.updateControlPlaneConstraintsWithEntityMessage p4Info entity updateType
      constraints).symbolSet = none) :
    constraints.TablesUnchanged (P4Runtime.updateControlPlaneConstraintsWithEntityMessage p4Info
        entity updateType constraints).state ↔
      (ControlPlaneUpdate.p4Runtime entity updateType).KeepsTables p4Info constraints := by
  cases entity with
  | none => exact iff_of_true (.refl _) trivial
  | some message =>
    unfold ControlPlaneUpdate.KeepsTables
    unfold P4Runtime.updateControlPlaneConstraintsWithEntityMessage P4Runtime.updateTableEntry
      at rejected ⊢
    dsimp only at rejected ⊢
    split at rejected
    · rename_i missing
      exact iff_of_true (.refl _) fun p4Table present => by simp [missing] at present
    · rename_i p4Table present
      simp only [present, Option.some.injEq, forall_eq']
      split at rejected
      · rename_i t found
        rw [tablesUnchanged_assign_iff found, keepsTable_iff found]
        exact unchanged_withRequestedDefault_iff (P4Runtime.updateTable_of_rejected rejected)
      · rename_i untabled
        exact iff_of_true (.refl _) fun t found => absurd found (untabled t)

theorem keepsTables_iff_of_table {constraints : ControlPlaneConstraints} {p4Table : P4Info.Table}
    (present : p4Info.findP4RuntimeTable message.tableId = some p4Table) :
    (ControlPlaneUpdate.bfRuntime (some message) updateType).KeepsTables p4Info constraints ↔
      message.KeepsTable p4Info constraints p4Table := by
  simp [ControlPlaneUpdate.KeepsTables, present]

theorem keepsTables_iff_of_no_table {constraints : ControlPlaneConstraints}
    (missing : p4Info.findP4RuntimeTable message.tableId = none) :
    (ControlPlaneUpdate.bfRuntime (some message) updateType).KeepsTables p4Info constraints ↔
      ∀ name, BfRuntime.getActionProfileName p4Info message = some name →
        ∀ associatedTables, constraints.find name = some (.actionProfile associatedTables) →
          message.KeepsProfile p4Info constraints updateType associatedTables := by
  simp [ControlPlaneUpdate.KeepsTables, missing]

theorem BfRuntime.unchanged_iff {constraints : ControlPlaneConstraints}
    {entity : Option TableEntryMessage}
    (distinct : ∀ name associatedTables,
      constraints.find name = some (.actionProfile associatedTables) → associatedTables.Nodup)
    (rejected : (BfRuntime.updateControlPlaneConstraintsWithEntityMessage p4Info entity updateType
      constraints).symbolSet = none) :
    constraints.TablesUnchanged (BfRuntime.updateControlPlaneConstraintsWithEntityMessage p4Info
        entity updateType constraints).state ↔
      (ControlPlaneUpdate.bfRuntime entity updateType).KeepsTables p4Info constraints := by
  cases entity with
  | none => exact iff_of_true (.refl _) trivial
  | some message =>
    unfold BfRuntime.updateControlPlaneConstraintsWithEntityMessage BfRuntime.updateTableEntry
      at rejected ⊢
    dsimp only at rejected ⊢
    split at rejected
    · rename_i p4Table present
      rw [keepsTables_iff_of_table present]
      split at rejected
      · rename_i t found
        split at rejected
        · cases rejected
        · rename_i implemented
          rw [if_neg implemented, tablesUnchanged_assign_iff found, keepsTable_iff found]
          exact unchanged_withRequestedDefault_iff (BfRuntime.updateTable_of_rejected rejected)
      · rename_i untabled
        exact iff_of_true (.refl _) fun t found => absurd found (untabled t)
    · rename_i missing
      rw [keepsTables_iff_of_no_table missing]
      split at rejected
      · rename_i name named
        simp only [named, Option.some.injEq, forall_eq']
        split at rejected
        · rename_i associatedTables found
          rw [BfRuntime.configureActionProfile_unchanged_iff [] (distinct name associatedTables found)]
          simp [found]
        · rename_i unprofiled
          exact iff_of_true (.refl _) fun associatedTables found =>
            absurd found (unprofiled associatedTables)
      · rename_i unnamed
        simp only [unnamed]
        refine iff_of_true ?_ fun name h => by cases h
        split
        · split <;> exact .refl _
        · exact .refl _

/-- A rejected update leaves every table as it was exactly when all that it would store before it is
rejected is there already. -/
theorem rejected_unchanged_iff {constraints : ControlPlaneConstraints} {update : ControlPlaneUpdate}
    (distinct : ∀ name associatedTables,
      constraints.find name = some (.actionProfile associatedTables) → associatedTables.Nodup)
    (rejected : (convertControlPlaneUpdate p4Info constraints update).symbolSet = none) :
    constraints.TablesUnchanged (convertControlPlaneUpdate p4Info constraints update).state ↔
      update.KeepsTables p4Info constraints := by
  cases update with
  | p4Runtime entity updateType => exact P4Runtime.unchanged_iff rejected
  | bfRuntime entity updateType => exact BfRuntime.unchanged_iff distinct rejected

end Constraints

end Rejection

section Late

/-- A message that makes `forward` the default action of the table `t`, without a match. -/
def forwardByDefault : TableEntryMessage where
  tableId := 1
  fields := []
  action := some ⟨2, []⟩
  priority := 0
  isDefaultAction := true

attribute [local instance] exprSolver exprSolver.lawful IrOrder.literals

/-- The constraints of a table that forwards the key 1 and drops otherwise. -/
def forwardingConstraints : ControlPlaneConstraints :=
  OrderedMap.empty.emplace "t" (.tableConfiguration missForwarding)

theorem find_forwardingConstraints :
    forwardingConstraints.find "t" = some (.tableConfiguration missForwarding) :=
  OrderedMap.find_emplace_self _ _ _

theorem distinct_forwardingConstraints (name : String) (associatedTables : List String)
    (found : forwardingConstraints.find name = some (.actionProfile associatedTables)) :
    associatedTables.Nodup := by
  have mem := OrderedMap.mem_keys_of_find found
  have same : name = "t" := by simpa [forwardingConstraints] using mem
  subst same
  rw [find_forwardingConstraints] at found
  cases found

/-- The entry for the key 1 is there already. -/
theorem duplicate_unchanged :
    forwardingConstraints.TablesUnchanged (convertControlPlaneUpdate missP4Info
      forwardingConstraints (.p4Runtime (some (missMessage 2 1 false)) .insert)).state := by
  refine (rejected_unchanged_iff distinct_forwardingConstraints rfl).mpr ?_
  intro p4Table _ t _ actionAssignment requested
  cases requested

/-- The table has no entry without a match, so the message is rejected, and drops no more. -/
theorem late_rejection_changes :
    (convertControlPlaneUpdate missP4Info forwardingConstraints
        (.p4Runtime (some forwardByDefault) .modify)).symbolSet = none ∧
      ¬forwardingConstraints.TablesUnchanged (convertControlPlaneUpdate missP4Info
        forwardingConstraints (.p4Runtime (some forwardByDefault) .modify)).state := by
  have rejected : (convertControlPlaneUpdate missP4Info forwardingConstraints
      (.p4Runtime (some forwardByDefault) .modify)).symbolSet = none := rfl
  refine ⟨rejected, fun unchanged => ?_⟩
  obtain ⟨t', found, kept⟩ := unchanged "t" _ find_forwardingConstraints
  have stored : t'.defaultTableAction.actionAssignment.find (getDefaultActionVariable "t") =
      some "forward" := by
    cases found
    rfl
  rw [kept.defaultTableAction] at stored
  exact absurd stored (by decide)

end Late

end Flay
