import Flay.ControlPlane.UpdateOrder

/-! The key match of a table against the updates of its entries. The analysis of the data plane sets
the key matches after the configuration file has been read and before updates arrive; the updates do
the same ahead of it as after it. -/

namespace Flay

open Container

variable [Z3] [IrOrder]

namespace TableConfiguration

variable {tableName : String} (t : TableConfiguration tableName) (tableKeyMap : List TableMatchKey)

theorem eq_of_parts {t t' : TableConfiguration tableName}
    (defaultTableAction : t.defaultTableAction = t'.defaultTableAction)
    (tableEntries : t.tableEntries = t'.tableEntries) (tableKeyMatch : t.tableKeyMatch = t'.tableKeyMatch) :
    t = t' := by
  cases t
  cases t'
  subst defaultTableAction tableEntries tableKeyMatch
  rfl

section Entries

variable (entries : TableEntrySet tableName) (e : TableMatchEntry tableName)
  (condition : Z3.Term .boolean)

/-- The entries with the condition. Their order is that of their matches, which it leaves alone. -/
def withCondition : TableEntrySet tableName :=
  entries.map (TableMatchEntry.setZ3Condition condition) fun _ _ => rfl

theorem withCondition_erase :
    withCondition (entries.erase e) condition = (withCondition entries condition).erase e :=
  SortedSet.map_erase (f := TableMatchEntry.setZ3Condition condition) (fun _ _ => rfl) entries e

theorem withCondition_insert (condition' : Z3.Term .boolean) :
    withCondition (entries.insert (e.setZ3Condition condition')) condition =
      (withCondition entries condition).insert (e.setZ3Condition condition) :=
  SortedSet.map_insert (f := TableMatchEntry.setZ3Condition condition) (fun _ _ => rfl) entries
    (e.setZ3Condition condition')

theorem contains_withCondition : (withCondition entries condition).contains e = entries.contains e :=
  SortedSet.contains_map (f := TableMatchEntry.setZ3Condition condition) (fun _ _ => rfl) entries e

end Entries

theorem setTableKeyMatch_addTableEntry (e : TableMatchEntry tableName) (replace : Bool) :
    (t.setTableKeyMatch tableKeyMap).addTableEntry e replace =
      ((t.addTableEntry e replace).1.setTableKeyMatch tableKeyMap, (t.addTableEntry e replace).2) := by
  let condition := Z3.set (t.setTableKeyMatch tableKeyMap).tableKeyMatch
  have entries : (if replace then (t.setTableKeyMatch tableKeyMap).tableEntries.erase e
        else (t.setTableKeyMatch tableKeyMap).tableEntries) =
      withCondition (if replace then t.tableEntries.erase e else t.tableEntries) condition := by
    cases replace with
    | false => rfl
    | true => exact (withCondition_erase t.tableEntries e condition).symm
  refine Prod.ext (eq_of_parts rfl ?_ rfl) (congrArg Bool.not ?_)
  · dsimp only [addTableEntry]
    rw [entries]
    exact (withCondition_insert _ e condition _).symm
  · rw [entries]
    exact contains_withCondition _ e condition

theorem setTableKeyMatch_deleteTableEntry (e : TableMatchEntry tableName) :
    (t.setTableKeyMatch tableKeyMap).deleteTableEntry e =
      ((t.deleteTableEntry e).1.setTableKeyMatch tableKeyMap, (t.deleteTableEntry e).2) :=
  Prod.ext (eq_of_parts rfl (withCondition_erase t.tableEntries e _).symm rfl)
    (contains_withCondition t.tableEntries e _)

theorem setTableKeyMatch_applyUpdate (e : TableMatchEntry tableName) (updateType : UpdateType) :
    (t.setTableKeyMatch tableKeyMap).applyUpdate e updateType =
      ((t.applyUpdate e updateType).1.setTableKeyMatch tableKeyMap,
        (t.applyUpdate e updateType).2) := by
  cases updateType with
  | modify =>
    have added := congrArg Prod.fst (t.setTableKeyMatch_addTableEntry tableKeyMap e true)
    exact Prod.ext added rfl
  | insert => exact t.setTableKeyMatch_addTableEntry tableKeyMap e false
  | delete => exact t.setTableKeyMatch_deleteTableEntry tableKeyMap e
  | unspecified => rfl

variable (p4Info : P4Info) (message : TableEntryMessage)

theorem updateDefaultAction_setTableKeyMatch :
    (t.setTableKeyMatch tableKeyMap).updateDefaultAction p4Info message =
      (t.updateDefaultAction p4Info message).map (·.setTableKeyMatch tableKeyMap) := by
  unfold updateDefaultAction
  dsimp only
  split
  · cases p4Info.findP4RuntimeAction (message.action.getD ⟨0, []⟩).actionId with
    | none => rfl
    | some p4Action =>
      dsimp only
      cases convertTableAction (message.action.getD ⟨0, []⟩) tableName p4Action true <;> rfl
  · rfl

theorem updateEntry_setTableKeyMatch (tableId : Nat) (priority : Int) (updateType : UpdateType)
    (symbolSet : SymbolSet) :
    (t.setTableKeyMatch tableKeyMap).updateEntry p4Info tableId message priority updateType symbolSet =
      (t.updateEntry p4Info tableId message priority updateType symbolSet).map
        (·.setTableKeyMatch tableKeyMap) := by
  unfold updateEntry
  cases produceTableEntry p4Info tableName tableId message priority with
  | none => rfl
  | some produced =>
    dsimp only
    rw [setTableKeyMatch_applyUpdate]
    rfl

end TableConfiguration

open TableConfiguration in
theorem respects_setTableKeyMatch (p4Info : P4Info) {tableName : String}
    (tableKeyMap : List TableMatchKey) :
    Respects p4Info fun t : TableConfiguration tableName => t.setTableKeyMatch tableKeyMap := by
  constructor
  · intro p4Table message updateType t
    unfold P4Runtime.updateTable
    rw [updateDefaultAction_setTableKeyMatch]
    rcases t.updateDefaultAction p4Info message with ⟨t, _ | symbolSet⟩
    · rfl
    · dsimp only [Updated.map]
      split
      · rfl
      · rw [updateEntry_setTableKeyMatch]
        rfl
  · intro p4Table message updateType t
    unfold BfRuntime.updateTable
    rw [updateDefaultAction_setTableKeyMatch]
    rcases t.updateDefaultAction p4Info message with ⟨t, _ | symbolSet⟩
    · rfl
    · dsimp only [Updated.map]
      split
      · rfl
      · split
        · rfl
        · rw [updateEntry_setTableKeyMatch]
          rfl

namespace ControlPlaneConstraints

/-- What `TableExecutor::processTable` does to the configuration of the table, if there is one. -/
def setTableKeyMatch (constraints : ControlPlaneConstraints) (tableName : String)
    (tableKeyMap : List TableMatchKey) : ControlPlaneConstraints :=
  match constraints.find tableName with
  | some (.tableConfiguration t) =>
    constraints.assign tableName (.tableConfiguration (t.setTableKeyMatch tableKeyMap))
  | _ => constraints

/-- The key matches of the tables in the order in which the analysis comes to them. -/
def setTableKeyMatches (constraints : ControlPlaneConstraints)
    (tableKeyMatches : List (String × List TableMatchKey)) : ControlPlaneConstraints :=
  tableKeyMatches.foldl (fun constraints keys => constraints.setTableKeyMatch keys.1 keys.2) constraints

/-- The change of tables that a key match makes. -/
def keyMatchOf (tableName : String) (tableKeyMap : List TableMatchKey) : TableMap :=
  Function.update (fun _ t => t) tableName fun t => t.setTableKeyMatch tableKeyMap

theorem setTableKeyMatch_eq_mapTables (constraints : ControlPlaneConstraints) (tableName : String)
    (tableKeyMap : List TableMatchKey) :
    constraints.setTableKeyMatch tableName tableKeyMap =
      constraints.mapTables (keyMatchOf tableName tableKeyMap) := by
  have other : ∀ name ≠ tableName, keyMatchOf tableName tableKeyMap name = id :=
    fun name h => Function.update_of_ne h _ _
  unfold setTableKeyMatch
  split
  · rename_i t found
    rw [assign_eq_mapTables found]
    refine OrderedMap.mapValues_congr fun name item known => ?_
    by_cases same : name = tableName
    · subst same
      obtain rfl := Option.some.inj (known.symm.trans found)
      simp [ControlPlaneItem.mapTable, only, keyMatchOf]
    · rw [only_ne _ same, other name same]
  · rename_i absent
    refine mapTables_id.symm.trans (OrderedMap.mapValues_congr fun name item known => ?_)
    by_cases same : name = tableName
    · subst same
      cases item with
      | tableConfiguration t => exact absurd known (absent t)
      | _ => rfl
    · rw [other name same]
      rfl

end ControlPlaneConstraints

variable (p4Info : P4Info)

/-- An update and a key match commute. -/
theorem convert_setTableKeyMatch (constraints : ControlPlaneConstraints) (tableName : String)
    (tableKeyMap : List TableMatchKey) (update : ControlPlaneUpdate) :
    convertControlPlaneUpdate p4Info (constraints.setTableKeyMatch tableName tableKeyMap) update =
      (convertControlPlaneUpdate p4Info constraints update).map
        (·.setTableKeyMatch tableName tableKeyMap) := by
  simp only [ControlPlaneConstraints.setTableKeyMatch_eq_mapTables]
  refine convertControlPlaneUpdate_mapTables update fun name _ => ?_
  by_cases same : name = tableName
  · subst same
    rw [ControlPlaneConstraints.keyMatchOf, Function.update_self]
    exact respects_setTableKeyMatch p4Info tableKeyMap
  · rw [ControlPlaneConstraints.keyMatchOf, Function.update_of_ne same]
    exact respects_id p4Info

theorem convert_setTableKeyMatches (constraints : ControlPlaneConstraints)
    (tableKeyMatches : List (String × List TableMatchKey)) (update : ControlPlaneUpdate) :
    convertControlPlaneUpdate p4Info (constraints.setTableKeyMatches tableKeyMatches) update =
      (convertControlPlaneUpdate p4Info constraints update).map
        (·.setTableKeyMatches tableKeyMatches) := by
  induction tableKeyMatches generalizing constraints with
  | nil => rfl
  | cons keys tableKeyMatches ih =>
    refine (ih (constraints.setTableKeyMatch keys.1 keys.2)).trans ?_
    rw [convert_setTableKeyMatch]
    rfl

end Flay
