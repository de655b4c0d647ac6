import Flay.ControlPlane.Update
import Flay.Lib.Interleaving

/-! Updates against changes of the tables. An update reaches the tables that it names, and what it
does there goes through a change of the tables that the operations on a table go through. Updates of
different tables then do the same in every order. -/

namespace Flay

open Container

variable [Z3] [IrOrder]

/-- A change of each table. -/
abbrev TableMap : Type :=
  (name : String) → TableConfiguration name → TableConfiguration name

def ControlPlaneItem.mapTable {name : String}
    (f : TableConfiguration name → TableConfiguration name) :
    ControlPlaneItem name → ControlPlaneItem name
  | .tableConfiguration t => .tableConfiguration (f t)
  | item => item

namespace Updated

variable {σ τ : Type}

/-- What the update leaves, with the state changed. -/
def map (f : σ → τ) (updated : Updated σ) : Updated τ := ⟨f updated.state, updated.symbolSet⟩

end Updated

namespace ControlPlaneConstraints

def mapTables (f : TableMap) (constraints : ControlPlaneConstraints) : ControlPlaneConstraints :=
  constraints.mapValues fun name item => item.mapTable (f name)

variable {constraints : ControlPlaneConstraints} {f g : TableMap} {name : String}

@[simp] theorem find_mapTables : (constraints.mapTables f).find name =
    (constraints.find name).map (ControlPlaneItem.mapTable (f name)) :=
  OrderedMap.find_mapValues _ _ _

theorem find_mapTables_eq_some {t' : TableConfiguration name}
    (found : (constraints.mapTables f).find name = some (.tableConfiguration t')) :
    ∃ t, constraints.find name = some (.tableConfiguration t) ∧ f name t = t' := by
  rw [find_mapTables, Option.map_eq_some_iff] at found
  obtain ⟨item, known, same⟩ := found
  cases item with
  | tableConfiguration t =>
    cases same
    exact ⟨t, known, rfl⟩
  | parserValueSet | actionProfile | actionSelector => cases same

theorem mapTables_mapTables :
    (constraints.mapTables f).mapTables g = constraints.mapTables fun name t => g name (f name t) := by
  refine (OrderedMap.mapValues_mapValues _ _ _).trans (OrderedMap.mapValues_congr fun name item _ => ?_)
  cases item <;> rfl

theorem mapTables_id : constraints.mapTables (fun _ t => t) = constraints := by
  refine (OrderedMap.mapValues_congr fun name item _ => ?_).trans (OrderedMap.mapValues_id _)
  cases item <;> rfl

theorem mapTables_assign (t : TableConfiguration name) :
    mapTables f (constraints.assign name (.tableConfiguration t)) =
      (constraints.mapTables f).assign name (.tableConfiguration (f name t)) := by
  refine (OrderedMap.mapValues_mapValues _ _ _).trans (Eq.trans ?_
    (OrderedMap.mapValues_mapValues _ _ _).symm)
  refine OrderedMap.mapValues_congr fun other item _ => ?_
  by_cases same : other = name
  · subst same
    simp [ControlPlaneItem.mapTable]
  · simp [same]

/-- The change of one table, and of no other. -/
def only (name : String) (t : TableConfiguration name) : TableMap :=
  Function.update (fun _ t => t) name fun _ => t

theorem only_ne {other : String} (t : TableConfiguration name) (h : other ≠ name) :
    only name t other = id :=
  Function.update_of_ne h _ _

/-- A table that is assigned anew is a change of that table. -/
theorem assign_eq_mapTables {t t' : TableConfiguration name}
    (found : constraints.find name = some (.tableConfiguration t)) :
    constraints.assign name (.tableConfiguration t') = constraints.mapTables (only name t') := by
  refine OrderedMap.mapValues_congr fun other item known => ?_
  by_cases same : other = name
  · subst same
    obtain rfl := Option.some.inj (known.symm.trans found)
    simp [ControlPlaneItem.mapTable, only]
  · rw [dif_neg same, only_ne t' same]
    cases item <;> rfl

end ControlPlaneConstraints

/-- The updates of a table do the same before and after the change. -/
structure Respects (p4Info : P4Info) {tableName : String}
    (f : TableConfiguration tableName → TableConfiguration tableName) : Prop where
  p4Runtime : ∀ p4Table message updateType t,
    P4Runtime.updateTable p4Info p4Table message updateType (f t) =
      (P4Runtime.updateTable p4Info p4Table message updateType t).map f
  bfRuntime : ∀ p4Table message updateType t,
    BfRuntime.updateTable p4Info p4Table message updateType (f t) =
      (BfRuntime.updateTable p4Info p4Table message updateType t).map f

theorem respects_id (p4Info : P4Info) {tableName : String} :
    Respects p4Info (id : TableConfiguration tableName → TableConfiguration tableName) :=
  ⟨fun _ _ _ _ => rfl, fun _ _ _ _ => rfl⟩

/-- The tables that the update may change. -/
def ControlPlaneUpdate.tables (p4Info : P4Info) (constraints : ControlPlaneConstraints) :
    ControlPlaneUpdate → List String
  | .p4Runtime none _ => []
  | .bfRuntime none _ => []
  | .p4Runtime (some message) _ =>
    ((p4Info.findP4RuntimeTable message.tableId).map P4Info.Table.name).toList
  | .bfRuntime (some message) _ =>
    match p4Info.findP4RuntimeTable message.tableId with
    | some p4Table => [p4Table.name]
    | none =>
      match BfRuntime.getActionProfileName p4Info message with
      | none => []
      | some name =>
        match constraints.find name with
        | some (.actionProfile associatedTables) => associatedTables
        | _ => []

section Conversion

variable {p4Info : P4Info} {constraints : ControlPlaneConstraints} {f : TableMap}

theorem P4Runtime.updateTableEntry_mapTables (message : TableEntryMessage) (updateType : UpdateType)
    (respects : ∀ p4Table, p4Info.findP4RuntimeTable message.tableId = some p4Table →
      Respects p4Info (f p4Table.name)) :
    P4Runtime.updateTableEntry p4Info message updateType (constraints.mapTables f) =
      (P4Runtime.updateTableEntry p4Info message updateType constraints).map
        (ControlPlaneConstraints.mapTables f) := by
  unfold P4Runtime.updateTableEntry
  cases known : p4Info.findP4RuntimeTable message.tableId with
  | none => rfl
  | some p4Table =>
    dsimp only
    rw [ControlPlaneConstraints.find_mapTables]
    cases constraints.find p4Table.name with
    | none => rfl
    | some item =>
      cases item with
      | tableConfiguration t =>
        simp only [Option.map_some, ControlPlaneItem.mapTable, (respects p4Table known).p4Runtime]
        rw [Updated.map, Updated.map, ControlPlaneConstraints.mapTables_assign]
      | parserValueSet | actionProfile | actionSelector => rfl

theorem BfRuntime.updateTableEntry_mapTables (p4Table : P4Info.Table) (message : TableEntryMessage)
    (updateType : UpdateType) (respects : Respects p4Info (f p4Table.name)) :
    BfRuntime.updateTableEntry p4Info p4Table message updateType (constraints.mapTables f) =
      (BfRuntime.updateTableEntry p4Info p4Table message updateType constraints).map
        (ControlPlaneConstraints.mapTables f) := by
  unfold BfRuntime.updateTableEntry
  rw [ControlPlaneConstraints.find_mapTables]
  cases constraints.find p4Table.name with
  | none => rfl
  | some item =>
    cases item with
    | tableConfiguration t =>
      simp only [Option.map_some, ControlPlaneItem.mapTable, respects.bfRuntime]
      split
      · rfl
      · rw [Updated.map, Updated.map, ControlPlaneConstraints.mapTables_assign]
    | parserValueSet | actionProfile | actionSelector => rfl

theorem BfRuntime.configureActionProfile_mapTables (message : TableEntryMessage)
    (updateType : UpdateType) (associatedTables : List String)
    (respects : ∀ name ∈ associatedTables, Respects p4Info (f name)) (symbolSet : SymbolSet) :
    BfRuntime.configureActionProfile p4Info message updateType associatedTables
        (constraints.mapTables f) symbolSet =
      (BfRuntime.configureActionProfile p4Info message updateType associatedTables constraints
        symbolSet).map (ControlPlaneConstraints.mapTables f) := by
  induction associatedTables generalizing constraints symbolSet with
  | nil => rfl
  | cons name associatedTables ih =>
    have here := respects name List.mem_cons_self
    unfold BfRuntime.configureActionProfile
    rw [ControlPlaneConstraints.find_mapTables]
    cases constraints.find name with
    | none => rfl
    | some item =>
      cases item with
      | tableConfiguration t =>
        simp only [Option.map_some, ControlPlaneItem.mapTable]
        cases p4Info.findP4RuntimeTableByName name with
        | none => rfl
        | some p4Table =>
          simp only [here.bfRuntime, Updated.map]
          rw [← ControlPlaneConstraints.mapTables_assign]
          split
          · rfl
          · exact ih (fun other mem => respects other (List.mem_cons_of_mem _ mem)) _
      | parserValueSet | actionProfile | actionSelector => rfl

/-- An update does the same before and after a change of the tables that the updates of the tables it
reaches go through. -/
theorem convertControlPlaneUpdate_mapTables (update : ControlPlaneUpdate)
    (respects : ∀ name ∈ update.tables p4Info constraints, Respects p4Info (f name)) :
    convertControlPlaneUpdate p4Info (constraints.mapTables f) update =
      (convertControlPlaneUpdate p4Info constraints update).map
        (ControlPlaneConstraints.mapTables f) := by
  cases update with
  | p4Runtime entity updateType =>
    cases entity with
    | none => rfl
    | some message =>
      refine P4Runtime.updateTableEntry_mapTables message updateType fun p4Table known => ?_
      exact respects _ (by simp [ControlPlaneUpdate.tables, known])
  | bfRuntime entity updateType =>
    cases entity with
    | none => rfl
    | some message =>
      simp only [convertControlPlaneUpdate,
        BfRuntime.updateControlPlaneConstraintsWithEntityMessage]
      cases known : p4Info.findP4RuntimeTable message.tableId with
      | some p4Table =>
        refine BfRuntime.updateTableEntry_mapTables p4Table message updateType (respects _ ?_)
        simp [ControlPlaneUpdate.tables, known]
      | none =>
        cases profile : BfRuntime.getActionProfileName p4Info message with
        | some name =>
          simp only [ControlPlaneConstraints.find_mapTables]
          cases found : constraints.find name with
          | none => rfl
          | some item =>
            cases item with
            | actionProfile associatedTables =>
              refine BfRuntime.configureActionProfile_mapTables message updateType associatedTables
                (fun other mem => respects other ?_) []
              simpa [ControlPlaneUpdate.tables, known, profile, found] using mem
            | tableConfiguration | parserValueSet | actionSelector => rfl
        | none =>
          cases BfRuntime.getActionSelectorName p4Info message with
          | none => rfl
          | some name =>
            simp only [ControlPlaneConstraints.find_mapTables]
            cases constraints.find name with
            | none => rfl
            | some item => cases item <;> rfl

/-- What an update does to the constraints is a change of the tables that it reaches, which keep their
key matches. -/
structure Changes (names : List String) (constraints constraints' : ControlPlaneConstraints)
    (f : TableMap) : Prop where
  state : constraints' = constraints.mapTables f
  elsewhere : ∀ name ∉ names, f name = id
  keyMatch : ∀ name t, constraints.find name = some (.tableConfiguration t) →
    (f name t).tableKeyMatch = t.tableKeyMatch

theorem Changes.refl (names : List String) (constraints : ControlPlaneConstraints) :
    Changes names constraints constraints fun _ t => t :=
  ⟨ControlPlaneConstraints.mapTables_id.symm, fun _ _ => rfl, fun _ _ _ => rfl⟩

theorem Changes.assign {name : String} {t t' : TableConfiguration name} {names : List String}
    (found : constraints.find name = some (.tableConfiguration t)) (mem : name ∈ names)
    (keyMatch : t'.tableKeyMatch = t.tableKeyMatch) :
    Changes names constraints (constraints.assign name (.tableConfiguration t'))
      (ControlPlaneConstraints.only name t') where
  state := ControlPlaneConstraints.assign_eq_mapTables found
  elsewhere := by
    rintro other absent
    refine ControlPlaneConstraints.only_ne t' fun same => absent (same ▸ mem)
  keyMatch := by
    intro other d known
    by_cases same : other = name
    · subst same
      cases known.symm.trans found
      rw [ControlPlaneConstraints.only, Function.update_self, keyMatch]
    · rw [ControlPlaneConstraints.only_ne t' same]
      rfl

theorem Changes.trans {names : List String}
    {constraints constraints' constraints'' : ControlPlaneConstraints} {f g : TableMap}
    (h : Changes names constraints constraints' f) (h' : Changes names constraints' constraints'' g) :
    Changes names constraints constraints'' fun name t => g name (f name t) where
  state := by rw [h'.state, h.state, ControlPlaneConstraints.mapTables_mapTables]
  elsewhere := by
    intro name absent
    funext t
    rw [h.elsewhere name absent, h'.elsewhere name absent]
    rfl
  keyMatch := by
    intro name t found
    have changed : constraints'.find name = some (.tableConfiguration (f name t)) := by
      rw [h.state, ControlPlaneConstraints.find_mapTables, found]
      rfl
    exact (h'.keyMatch name _ changed).trans (h.keyMatch name t found)

theorem Changes.mono {names names' : List String} {constraints constraints' : ControlPlaneConstraints}
    {f : TableMap} (h : Changes names constraints constraints' f) (subset : names ⊆ names') :
    Changes names' constraints constraints' f :=
  ⟨h.state, fun name absent => h.elsewhere name fun mem => absent (subset mem), h.keyMatch⟩

theorem BfRuntime.exists_changes_configureActionProfile (message : TableEntryMessage)
    (updateType : UpdateType) {names : List String} (associatedTables : List String)
    (subset : associatedTables ⊆ names) (symbolSet : SymbolSet) :
    ∃ f, Changes names constraints (BfRuntime.configureActionProfile p4Info message updateType
      associatedTables constraints symbolSet).state f := by
  induction associatedTables generalizing constraints symbolSet with
  | nil => exact ⟨_, .refl names constraints⟩
  | cons name associatedTables ih =>
    obtain ⟨here, subset⟩ := List.cons_subset.mp subset
    unfold BfRuntime.configureActionProfile
    cases found : constraints.find name with
    | none => exact ⟨_, .refl names constraints⟩
    | some item =>
      cases item with
      | tableConfiguration t =>
        dsimp only
        cases p4Info.findP4RuntimeTableByName name with
        | none => exact ⟨_, .refl names constraints⟩
        | some p4Table =>
          dsimp only
          let t' := (BfRuntime.updateTable p4Info p4Table message updateType t).state
          have changes : Changes names constraints
              (constraints.assign name (.tableConfiguration t')) _ :=
            .assign found here (BfRuntime.updateTable_tableKeyMatch p4Table)
          split
          · exact ⟨_, changes⟩
          · obtain ⟨f, rest⟩ := ih subset _
            exact ⟨_, changes.trans rest⟩
      | parserValueSet | actionProfile | actionSelector => exact ⟨_, .refl names constraints⟩

variable (p4Info constraints) in
theorem exists_changes_convertControlPlaneUpdate (update : ControlPlaneUpdate) :
    ∃ f, Changes (update.tables p4Info constraints) constraints
      (convertControlPlaneUpdate p4Info constraints update).state f := by
  have refl := fun names : List String => Changes.refl names constraints
  cases update with
  | p4Runtime entity updateType =>
    cases entity with
    | none => exact ⟨_, refl _⟩
    | some message =>
      simp only [convertControlPlaneUpdate,
        P4Runtime.updateControlPlaneConstraintsWithEntityMessage, P4Runtime.updateTableEntry,
        ControlPlaneUpdate.tables]
      cases p4Info.findP4RuntimeTable message.tableId with
      | none => exact ⟨_, refl _⟩
      | some p4Table =>
        dsimp only
        cases found : constraints.find p4Table.name with
        | none => exact ⟨_, refl _⟩
        | some item =>
          cases item with
          | tableConfiguration t =>
            exact ⟨_, .assign found List.mem_cons_self (P4Runtime.updateTable_tableKeyMatch p4Table)⟩
          | parserValueSet | actionProfile | actionSelector => exact ⟨_, refl _⟩
  | bfRuntime entity updateType =>
    cases entity with
    | none => exact ⟨_, refl _⟩
    | some message =>
      simp only [convertControlPlaneUpdate,
        BfRuntime.updateControlPlaneConstraintsWithEntityMessage, BfRuntime.updateTableEntry,
        ControlPlaneUpdate.tables]
      cases p4Info.findP4RuntimeTable message.tableId with
      | some p4Table =>
        dsimp only
        cases found : constraints.find p4Table.name with
        | none => exact ⟨_, refl _⟩
        | some item =>
          cases item with
          | tableConfiguration t =>
            dsimp only
            split
            · exact ⟨_, refl _⟩
            · exact ⟨_, .assign found List.mem_cons_self
                (BfRuntime.updateTable_tableKeyMatch p4Table)⟩
          | parserValueSet | actionProfile | actionSelector => exact ⟨_, refl _⟩
      | none =>
        dsimp only
        cases BfRuntime.getActionProfileName p4Info message with
        | some name =>
          dsimp only
          cases constraints.find name with
          | none => exact ⟨_, refl _⟩
          | some item =>
            cases item with
            | actionProfile associatedTables =>
              exact BfRuntime.exists_changes_configureActionProfile message updateType
                associatedTables (List.Subset.refl _) []
            | tableConfiguration | parserValueSet | actionSelector => exact ⟨_, refl _⟩
        | none =>
          dsimp only
          cases BfRuntime.getActionSelectorName p4Info message with
          | none => exact ⟨_, refl _⟩
          | some name =>
            dsimp only
            cases constraints.find name with
            | none => exact ⟨_, refl _⟩
            | some item => cases item <;> exact ⟨_, refl _⟩

/-- A change of the tables leaves the tables that an update reaches. -/
theorem ControlPlaneUpdate.tables_mapTables (update : ControlPlaneUpdate) :
    update.tables p4Info (constraints.mapTables f) = update.tables p4Info constraints := by
  cases update with
  | p4Runtime entity => cases entity <;> rfl
  | bfRuntime entity =>
    cases entity with
    | none => rfl
    | some message =>
      simp only [tables, ControlPlaneConstraints.find_mapTables]
      cases p4Info.findP4RuntimeTable message.tableId with
      | some p4Table => rfl
      | none =>
        cases BfRuntime.getActionProfileName p4Info message with
        | none => rfl
        | some name =>
          dsimp only
          cases constraints.find name with
          | none => rfl
          | some item => cases item <;> rfl

end Conversion

section Order

variable {p4Info : P4Info} {constraints : ControlPlaneConstraints}

/-- No table is reached by both updates. -/
def ControlPlaneUpdate.Apart (p4Info : P4Info) (constraints : ControlPlaneConstraints)
    (update update' : ControlPlaneUpdate) : Prop :=
  (update.tables p4Info constraints).Disjoint (update'.tables p4Info constraints)

theorem ControlPlaneUpdate.Apart.symm {update update' : ControlPlaneUpdate}
    (apart : update.Apart p4Info constraints update') : update'.Apart p4Info constraints update :=
  List.disjoint_symm apart

/-- One update, with what it reports. -/
def convertStep (p4Info : P4Info) (constraints : ControlPlaneConstraints)
    (update : ControlPlaneUpdate) : ControlPlaneConstraints × Option SymbolSet :=
  let updated := convertControlPlaneUpdate p4Info constraints update
  (updated.state, updated.symbolSet)

/-- An update that reaches none of the changed tables sees the constraints ahead of the change. -/
theorem convert_of_changes {names : List String} {constraints' : ControlPlaneConstraints}
    {f : TableMap} (changes : Changes names constraints constraints' f) {update : ControlPlaneUpdate}
    (apart : List.Disjoint names (update.tables p4Info constraints)) :
    convertControlPlaneUpdate p4Info constraints' update =
      (convertControlPlaneUpdate p4Info constraints update).map
        (ControlPlaneConstraints.mapTables f) := by
  rw [changes.state]
  refine convertControlPlaneUpdate_mapTables update fun name mem => ?_
  rw [changes.elsewhere name fun reached => apart reached mem]
  exact respects_id p4Info

/-- Updates that are apart commute, in what they leave and in what they report. -/
theorem convert_comm {update update' : ControlPlaneUpdate}
    (apart : update.Apart p4Info constraints update') :
    (convertControlPlaneUpdate p4Info
          (convertControlPlaneUpdate p4Info constraints update).state update').state =
        (convertControlPlaneUpdate p4Info
          (convertControlPlaneUpdate p4Info constraints update').state update).state ∧
      (convertControlPlaneUpdate p4Info
          (convertControlPlaneUpdate p4Info constraints update).state update').symbolSet =
        (convertControlPlaneUpdate p4Info constraints update').symbolSet := by
  obtain ⟨f, changes⟩ := exists_changes_convertControlPlaneUpdate p4Info constraints update
  obtain ⟨f', changes'⟩ := exists_changes_convertControlPlaneUpdate p4Info constraints update'
  rw [convert_of_changes changes apart, convert_of_changes changes' apart.symm]
  refine ⟨?_, rfl⟩
  rw [Updated.map, Updated.map, changes.state, changes'.state,
    ControlPlaneConstraints.mapTables_mapTables, ControlPlaneConstraints.mapTables_mapTables]
  have comm : (fun name t => f name (f' name t)) = fun name t => f' name (f name t) := by
    funext name t
    by_cases mem : name ∈ update.tables p4Info constraints
    · rw [changes'.elsewhere name (apart mem)]
      rfl
    · rw [changes.elsewhere name mem]
      rfl
  exact congrArg (fun f : TableMap => constraints.mapTables f) comm

theorem ControlPlaneUpdate.apart_convert (update : ControlPlaneUpdate) :
    ControlPlaneUpdate.Apart p4Info (convertControlPlaneUpdate p4Info constraints update).state =
      ControlPlaneUpdate.Apart p4Info constraints := by
  obtain ⟨f, changes⟩ := exists_changes_convertControlPlaneUpdate p4Info constraints update
  funext u v
  rw [Apart, Apart, changes.state, tables_mapTables, tables_mapTables]

/-- As long as the tables stay what they are, updates that are apart commute. -/
theorem commute_convertStep (p4Info : P4Info) (constraints : ControlPlaneConstraints) :
    Interleaving.Commute (convertStep p4Info)
      (fun constraints' => ControlPlaneUpdate.Apart p4Info constraints' =
        ControlPlaneUpdate.Apart p4Info constraints)
      (ControlPlaneUpdate.Apart p4Info constraints) where
  keeps holds update := (ControlPlaneUpdate.apart_convert update).trans holds
  state holds apart := (convert_comm (holds ▸ apart)).1
  yields holds apart := by
    rw [← holds] at apart
    exact ⟨(convert_comm apart).2, (convert_comm apart.symm).2⟩

end Order

end Flay
