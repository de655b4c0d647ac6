import Flay.ControlPlane.Messages

/-! Updates of the control-plane constraints by P4Runtime and BFRuntime messages. An update that is
rejected may have changed the constraints before it fails. -/

namespace Flay

open Container

variable [Z3] [IrOrder]

/-- What an update leaves: the constraints, and the symbols used when it is accepted. A rejected
update has reported an error. -/
structure Updated (σ : Type) where
  state : σ
  symbolSet : Option SymbolSet

namespace TableConfiguration

variable {tableName : String}

/-- The override of the default action by a message that is marked as one. -/
def updateDefaultAction (p4Info : P4Info) (message : TableEntryMessage)
    (t : TableConfiguration tableName) : Updated (TableConfiguration tableName) :=
  if message.isDefaultAction then
    let defaultAction := message.action.getD ⟨0, []⟩
    match p4Info.findP4RuntimeAction defaultAction.actionId with
    | none => ⟨t, none⟩
    | some p4Action =>
      match convertTableAction defaultAction tableName p4Action true with
      | none => ⟨t, none⟩
      | some converted => ⟨t.setDefaultTableAction ⟨converted.1⟩, some converted.2⟩
  else ⟨t, some []⟩

/-- The change of the entry set by a message of the type. -/
def applyUpdate (t : TableConfiguration tableName) (e : TableMatchEntry tableName) :
    UpdateType → TableConfiguration tableName × Bool
  | .modify => ((t.addTableEntry e true).1, true)
  | .insert => t.addTableEntry e false
  | .delete => t.deleteTableEntry e
  | .unspecified => (t, false)

/-- The part of an update that produces an entry and applies it, after the symbols used so far. -/
def updateEntry (p4Info : P4Info) (tableId : Nat) (message : TableEntryMessage) (priority : Int)
    (updateType : UpdateType) (symbolSet : SymbolSet) (t : TableConfiguration tableName) :
    Updated (TableConfiguration tableName) :=
  match produceTableEntry p4Info tableName tableId message priority with
  | none => ⟨t, none⟩
  | some (e, used) =>
    let applied := t.applyUpdate e updateType
    ⟨applied.1, if applied.2 then some (symbolSet ++ used) else none⟩

end TableConfiguration

namespace P4Runtime

/-- `P4Runtime::updateTableEntry`, from the table configuration on. -/
def updateTable {tableName : String} (p4Info : P4Info) (p4Table : P4Info.Table)
    (message : TableEntryMessage) (updateType : UpdateType) (t : TableConfiguration tableName) :
    Updated (TableConfiguration tableName) :=
  match t.updateDefaultAction p4Info message with
  | ⟨t, none⟩ => ⟨t, none⟩
  | ⟨t, some symbolSet⟩ =>
    if p4Table.isConstTable then ⟨t, none⟩
    else t.updateEntry p4Info message.tableId message message.priority updateType symbolSet

/-- `P4Runtime::updateTableEntry`. -/
def updateTableEntry (p4Info : P4Info) (message : TableEntryMessage) (updateType : UpdateType)
    (constraints : ControlPlaneConstraints) : Updated ControlPlaneConstraints :=
  match p4Info.findP4RuntimeTable message.tableId with
  | none => ⟨constraints, none⟩
  | some p4Table =>
    match constraints.find p4Table.name with
    | some (.tableConfiguration t) =>
      let updated := updateTable p4Info p4Table message updateType t
      ⟨constraints.assign p4Table.name (.tableConfiguration updated.state), updated.symbolSet⟩
    | _ => ⟨constraints, none⟩

/-- An entity that is not a table entry is not supported. -/
def updateControlPlaneConstraintsWithEntityMessage (p4Info : P4Info)
    (entity : Option TableEntryMessage) (updateType : UpdateType)
    (constraints : ControlPlaneConstraints) : Updated ControlPlaneConstraints :=
  match entity with
  | some message => updateTableEntry p4Info message updateType constraints
  | none => ⟨constraints, none⟩

end P4Runtime

namespace BfRuntime

/-- `BfRuntime::updateTableEntry` on a table configuration. A delete message without an action
deletes all entries. -/
def updateTable {tableName : String} (p4Info : P4Info) (p4Table : P4Info.Table)
    (message : TableEntryMessage) (updateType : UpdateType) (t : TableConfiguration tableName) :
    Updated (TableConfiguration tableName) :=
  match t.updateDefaultAction p4Info message with
  | ⟨t, none⟩ => ⟨t, none⟩
  | ⟨t, some symbolSet⟩ =>
    if p4Table.isConstTable then ⟨t, none⟩
    else if updateType = .delete ∧ message.action.isNone then ⟨t.clearTableEntries, some symbolSet⟩
    else t.updateEntry p4Info p4Table.id message 0 updateType symbolSet

/-- `BfRuntime::updateTableEntry` on the constraints. -/
def updateTableEntry (p4Info : P4Info) (p4Table : P4Info.Table) (message : TableEntryMessage)
    (updateType : UpdateType) (constraints : ControlPlaneConstraints) :
    Updated ControlPlaneConstraints :=
  match constraints.find p4Table.name with
  | some (.tableConfiguration t) =>
    if p4Table.implementationId ≠ 0 then ⟨constraints, some []⟩
    else
      let updated := updateTable p4Info p4Table message updateType t
      ⟨constraints.assign p4Table.name (.tableConfiguration updated.state), updated.symbolSet⟩
  | _ => ⟨constraints, none⟩

def getActionProfileName (p4Info : P4Info) (message : TableEntryMessage) : Option String :=
  match p4Info.actionProfiles.find? fun profile => profile.id == message.tableId with
  | some profile => some profile.name
  | none =>
    (p4Info.actionProfileExtern.bind fun instances =>
      (instances.filter fun profile => profile.id == message.tableId).getLast?).map (·.name)

def getActionSelectorName (p4Info : P4Info) (message : TableEntryMessage) : Option String :=
  (p4Info.actionSelectorExtern.bind fun instances =>
    (instances.filter fun selector => selector.id == message.tableId).getLast?).map (·.name)

/-- `configureActionProfile`: the tables of the profile take the entry in turn, up to the first that
rejects it. -/
def configureActionProfile (p4Info : P4Info) (message : TableEntryMessage)
    (updateType : UpdateType) : List String → ControlPlaneConstraints → SymbolSet →
      Updated ControlPlaneConstraints
  | [], constraints, symbolSet => ⟨constraints, some symbolSet⟩
  | associatedTable :: associatedTables, constraints, symbolSet =>
    match constraints.find associatedTable with
    | some (.tableConfiguration t) =>
      match p4Info.findP4RuntimeTableByName associatedTable with
      | none => ⟨constraints, none⟩
      | some p4InfoTable =>
        let updated := updateTable p4Info p4InfoTable message updateType t
        let constraints := constraints.assign associatedTable (.tableConfiguration updated.state)
        match updated.symbolSet with
        | none => ⟨constraints, none⟩
        | some used =>
          configureActionProfile p4Info message updateType associatedTables constraints
            (symbolSet ++ used)
    | _ => ⟨constraints, none⟩

/-- An entity configures a table, or the tables of an action profile, or an action selector, which
has no effect. -/
def updateControlPlaneConstraintsWithEntityMessage (p4Info : P4Info)
    (entity : Option TableEntryMessage) (updateType : UpdateType)
    (constraints : ControlPlaneConstraints) : Updated ControlPlaneConstraints :=
  match entity with
  | none => ⟨constraints, none⟩
  | some message =>
    match p4Info.findP4RuntimeTable message.tableId with
    | some p4Table => updateTableEntry p4Info p4Table message updateType constraints
    | none =>
      match getActionProfileName p4Info message with
      | some name =>
        match constraints.find name with
        | some (.actionProfile associatedTables) =>
          configureActionProfile p4Info message updateType associatedTables constraints []
        | _ => ⟨constraints, none⟩
      | none =>
        match getActionSelectorName p4Info message with
        | some name =>
          match constraints.find name with
          | some .actionSelector => ⟨constraints, some []⟩
          | _ => ⟨constraints, none⟩
        | none => ⟨constraints, none⟩

end BfRuntime

section KeyMatch

variable {tableName : String} {p4Info : P4Info} {message : TableEntryMessage}
  {t : TableConfiguration tableName} {updateType : UpdateType}

namespace TableConfiguration

theorem updateDefaultAction_tableKeyMatch (p4Info : P4Info) (message : TableEntryMessage)
    (t : TableConfiguration tableName) :
    (t.updateDefaultAction p4Info message).state.tableKeyMatch = t.tableKeyMatch := by
  unfold updateDefaultAction
  dsimp only
  split
  · split
    · rfl
    · split <;> rfl
  · rfl

theorem updateEntry_tableKeyMatch {tableId : Nat} {priority : Int} {symbolSet : SymbolSet} :
    (t.updateEntry p4Info tableId message priority updateType symbolSet).state.tableKeyMatch =
      t.tableKeyMatch := by
  unfold updateEntry
  cases produceTableEntry p4Info tableName tableId message priority with
  | none => rfl
  | some made => cases updateType <;> rfl

end TableConfiguration

open TableConfiguration

/-- A message does not change the key match of its table. -/
theorem P4Runtime.updateTable_tableKeyMatch (p4Table : P4Info.Table) :
    (P4Runtime.updateTable p4Info p4Table message updateType t).state.tableKeyMatch =
      t.tableKeyMatch := by
  have override := updateDefaultAction_tableKeyMatch p4Info message t
  unfold P4Runtime.updateTable
  split
  · simpa [*] using override
  · rename_i stored
    rw [stored] at override
    split
    · exact override
    · exact updateEntry_tableKeyMatch.trans override

theorem BfRuntime.updateTable_tableKeyMatch (p4Table : P4Info.Table) :
    (BfRuntime.updateTable p4Info p4Table message updateType t).state.tableKeyMatch =
      t.tableKeyMatch := by
  have override := updateDefaultAction_tableKeyMatch p4Info message t
  unfold BfRuntime.updateTable
  split
  · simpa [*] using override
  · rename_i stored
    rw [stored] at override
    split
    · exact override
    · split
      · exact override
      · exact updateEntry_tableKeyMatch.trans override

end KeyMatch

section Steps

variable {tableName : String} {p4Info : P4Info} {message : TableEntryMessage}
  {t t' : TableConfiguration tableName} {symbolSet : SymbolSet}

/-- The override that the message asks for, when it is marked as one. -/
inductive DefaultStep (p4Info : P4Info) (message : TableEntryMessage)
    (t : TableConfiguration tableName) : TableConfiguration tableName → SymbolSet → Prop
  | keep (unmarked : message.isDefaultAction = false) : DefaultStep p4Info message t t []
  | override {p4Action : P4Info.Action} {converted : LiteralAssignmentSet × SymbolSet}
      (marked : message.isDefaultAction = true)
      (found : p4Info.findP4RuntimeAction (message.action.getD ⟨0, []⟩).actionId = some p4Action)
      (convert : convertTableAction (message.action.getD ⟨0, []⟩) tableName p4Action true =
        some converted) :
      DefaultStep p4Info message t (t.setDefaultTableAction ⟨converted.1⟩) converted.2

/-- What an accepted message does to the configuration of a table. -/
inductive TableStep (p4Info : P4Info) (message : TableEntryMessage)
    (t : TableConfiguration tableName) : TableConfiguration tableName → SymbolSet → Prop
  | clear {t₁ : TableConfiguration tableName} {symbolSet : SymbolSet}
      (default : DefaultStep p4Info message t t₁ symbolSet) :
      TableStep p4Info message t t₁.clearTableEntries symbolSet
  | entry {t₁ t' : TableConfiguration tableName} {symbolSet used : SymbolSet} {tableId : Nat}
      {priority : Int} {e : TableMatchEntry tableName} {updateType : UpdateType}
      (default : DefaultStep p4Info message t t₁ symbolSet)
      (produced : produceTableEntry p4Info tableName tableId message priority = some (e, used))
      (applied : t₁.applyUpdate e updateType = (t', true)) :
      TableStep p4Info message t t' (symbolSet ++ used)

theorem defaultStep_of_updateDefaultAction
    (h : t.updateDefaultAction p4Info message = ⟨t', some symbolSet⟩) :
    DefaultStep p4Info message t t' symbolSet := by
  unfold TableConfiguration.updateDefaultAction at h
  split at h
  · rename_i marked
    dsimp only at h
    split at h
    · cases h
    · rename_i p4Action found
      split at h
      · cases h
      · rename_i converted convert
        cases h
        exact .override marked found convert
  · rename_i unmarked
    cases h
    exact .keep (by simpa using unmarked)

theorem tableStep_of_updateEntry {tableId : Nat} {priority : Int} {updateType : UpdateType}
    {t₁ : TableConfiguration tableName} {before : SymbolSet}
    (default : DefaultStep p4Info message t t₁ before)
    (h : t₁.updateEntry p4Info tableId message priority updateType before = ⟨t', some symbolSet⟩) :
    TableStep p4Info message t t' symbolSet := by
  unfold TableConfiguration.updateEntry at h
  split at h
  · cases h
  · rename_i e used produced
    simp only [Updated.mk.injEq, Option.ite_none_right_eq_some, Option.some.injEq] at h
    obtain ⟨rfl, accepted, rfl⟩ := h
    exact .entry default produced (Prod.ext rfl accepted)

theorem P4Runtime.tableStep {p4Table : P4Info.Table} {updateType : UpdateType}
    (h : P4Runtime.updateTable p4Info p4Table message updateType t = ⟨t', some symbolSet⟩) :
    TableStep p4Info message t t' symbolSet := by
  unfold P4Runtime.updateTable at h
  split at h
  · cases h
  · rename_i t₁ before override
    split at h
    · cases h
    · exact tableStep_of_updateEntry (defaultStep_of_updateDefaultAction override) h

theorem BfRuntime.tableStep {p4Table : P4Info.Table} {updateType : UpdateType}
    (h : BfRuntime.updateTable p4Info p4Table message updateType t = ⟨t', some symbolSet⟩) :
    TableStep p4Info message t t' symbolSet := by
  unfold BfRuntime.updateTable at h
  split at h
  · cases h
  · rename_i t₁ before override
    have default := defaultStep_of_updateDefaultAction override
    split at h
    · cases h
    · split at h
      · cases h
        exact .clear default
      · exact tableStep_of_updateEntry default h

end Steps

/-- A control-plane update of either kind. -/
inductive ControlPlaneUpdate
  | p4Runtime (entity : Option TableEntryMessage) (updateType : UpdateType)
  | bfRuntime (entity : Option TableEntryMessage) (updateType : UpdateType)

/-- `PartialEvaluation::convertControlPlaneUpdate`. -/
def convertControlPlaneUpdate (p4Info : P4Info) (constraints : ControlPlaneConstraints) :
    ControlPlaneUpdate → Updated ControlPlaneConstraints
  | .p4Runtime entity updateType =>
    P4Runtime.updateControlPlaneConstraintsWithEntityMessage p4Info entity updateType constraints
  | .bfRuntime entity updateType =>
    BfRuntime.updateControlPlaneConstraintsWithEntityMessage p4Info entity updateType constraints

end Flay
