import Flay.ControlPlane.Fallback
import Flay.ControlPlane.Rejection

/-! What an accepted update of a default action changes besides the default action: the handler goes
on with the message as with one for an entry. -/

namespace Flay

open Container ControlPlaneStateInitializer

theorem convertedAction_of_requestedDefault {tableName : String} {p4Info : P4Info}
    {message : TableEntryMessage} {actionAssignment : LiteralAssignmentSet}
    (requested : message.requestedDefault p4Info tableName = some actionAssignment) :
    ∃ p4Action used, ConvertedAction tableName p4Action true (actionAssignment, used) := by
  unfold TableEntryMessage.requestedDefault at requested
  split at requested
  · obtain ⟨p4Action, -, converted⟩ := Option.bind_eq_some_iff.mp requested
    obtain ⟨⟨_, used⟩, convert, rfl⟩ := Option.map_eq_some_iff.mp converted
    exact ⟨p4Action, used, convertedAction_of_convertTableAction convert⟩
  · cases requested

section Overriding

variable [Z3] [IrOrder]

namespace TableConfiguration

variable {tableName : String} (t : TableConfiguration tableName) (x : SymbolicVariable)

/-- The value that the assignments of the table give the variable. -/
def value? (ρ : Valuation) : Option x.type.Val :=
  (t.computeControlPlaneAssignments.find x).map (Expr.eval ρ)

/-- What the first entry that assigns the variable assigns to it. -/
def firstValue : Option x.type.Val :=
  (t.tableEntries.list.filterMap fun e => e.actionAssignment.find x).head?

/-- A default action that assigns `after` to the variable can take the place of one that assigns
`before`, and the variable keeps its value for every packet: both say the same where no entry decides
it, or some entry always does. Too many entries are not looked at. -/
def KeepsValue (before after : Option x.type.Val) : Prop :=
  if t.tableEntries.size > kMaxEntriesPerTable then before.isSome = after.isSome
  else before.or (t.firstValue x) = after.or (t.firstValue x) ∨
    ∀ ρ, ∃ e ∈ t.tableEntries, t.applies ρ e = true ∧ x ∈ e.actionAssignment.keys

variable {t x}

theorem head_alternatives (ρ : Valuation) :
    (t.alternatives ρ x t.tableEntries.list).head?.map Prod.snd = t.firstValue x := by
  rw [firstValue, ← List.head?_map, alternatives, List.map_filterMap]
  congr 2
  funext e
  cases e.actionAssignment.find x <;> rfl

theorem some_alternative_iff (ρ : Valuation) :
    (∃ g ∈ t.alternatives ρ x t.tableEntries.list, g.1 = true) ↔
      ∃ e ∈ t.tableEntries, t.applies ρ e = true ∧ x ∈ e.actionAssignment.keys := by
  constructor
  · rintro ⟨g, hg, applies⟩
    obtain ⟨e, he, assigned⟩ := List.mem_filterMap.mp hg
    obtain ⟨v, found, rfl⟩ := Option.map_eq_some_iff.mp assigned
    exact ⟨e, he, applies, OrderedMap.mem_keys_of_find found⟩
  · rintro ⟨e, he, applies, assigned⟩
    obtain ⟨v, found⟩ := OrderedMap.exists_find_of_mem assigned
    refine ⟨(true, v), List.mem_filterMap.mpr ⟨e, he, ?_⟩, rfl⟩
    rw [found, applies]
    rfl

theorem chains_eq_iff {before after : Option x.type.Val} :
    (∀ ρ, Choice.chain after (t.alternatives ρ x t.tableEntries.list) =
        Choice.chain before (t.alternatives ρ x t.tableEntries.list)) ↔
      before.or (t.firstValue x) = after.or (t.firstValue x) ∨
        ∀ ρ, ∃ e ∈ t.tableEntries, t.applies ρ e = true ∧ x ∈ e.actionAssignment.keys := by
  have missed : ∀ {ρ} (default : Option x.type.Val),
      (¬∃ g ∈ t.alternatives ρ x t.tableEntries.list, g.1 = true) →
        Choice.chain default (t.alternatives ρ x t.tableEntries.list) =
          default.or (t.firstValue x) := by
    intro ρ default none
    rw [Choice.chain_of_none fun g hg => by simpa using fun applies => none ⟨g, hg, applies⟩,
      head_alternatives]
  constructor
  · intro same
    by_cases decided : ∀ ρ, ∃ e ∈ t.tableEntries, t.applies ρ e = true ∧ x ∈ e.actionAssignment.keys
    · exact .inr decided
    · obtain ⟨ρ, undecided⟩ := not_forall.mp decided
      rw [← some_alternative_iff] at undecided
      left
      rw [← missed before undecided, ← missed after undecided, same]
  · intro keeps ρ
    by_cases applies : ∃ g ∈ t.alternatives ρ x t.tableEntries.list, g.1 = true
    · exact Choice.chain_eq_of_some applies
    · rw [missed before applies, missed after applies]
      refine (keeps.resolve_right fun decided => applies ?_).symm
      exact (some_alternative_iff ρ).mpr (decided ρ)

/-- Two configurations with the same entries give a variable the same values exactly when the
assignments of their default actions do. -/
theorem value?_eq_iff {t' : TableConfiguration tableName}
    (entries : t'.tableEntries = t.tableEntries) (keyMatch : t'.tableKeyMatch = t.tableKeyMatch) :
    (∀ ρ, t'.value? x ρ = t.value? x ρ) ↔
      t.KeepsValue x (t.missAssignments.find x) (t'.missAssignments.find x) := by
  unfold KeepsValue
  split
  · rename_i many
    have many' : t'.tableEntries.size > kMaxEntriesPerTable := entries ▸ many
    simp only [value?, find_fallback many, find_fallback many', ← OrderedMap.find_isSome]
    constructor
    · intro same
      have assigned := congrArg Option.isSome (same fun _ => default)
      revert assigned
      cases t.missAssignments.find x <;> cases t'.missAssignments.find x <;> simp
    · intro same ρ
      rw [same]
  · rename_i few
    have few' : ¬t'.tableEntries.size > kMaxEntriesPerTable := entries ▸ few
    rw [← chains_eq_iff]
    refine forall_congr' fun ρ => ?_
    have alternatives : t'.alternatives ρ x t.tableEntries.list =
        t.alternatives ρ x t.tableEntries.list := by
      simp only [TableConfiguration.alternatives, applies, keyMatch]
    rw [value?, value?, t.value_of_few ρ (by omega), t'.value_of_few ρ (by omega), entries,
      alternatives]

end TableConfiguration

section Tables

variable {tableName : String} {p4Info : P4Info} {message : TableEntryMessage}
  {t t' : TableConfiguration tableName} {updateType : UpdateType} {p4Table : P4Info.Table}

/-- The table has the default action of the message. Its entries are what they were, and so are the
values of its flag and of its action choice, for every packet. -/
structure ChangesOnlyDefault (p4Info : P4Info) (message : TableEntryMessage)
    (t t' : TableConfiguration tableName) : Prop where
  default : ∃ actionAssignment, message.requestedDefault p4Info tableName = some actionAssignment ∧
    t'.defaultTableAction = ⟨actionAssignment⟩
  entries : t'.tableEntries = t.tableEntries
  active : ∀ ρ, t'.value? (getTableActive tableName) ρ = t.value? (getTableActive tableName) ρ
  choice : ∀ ρ, t'.value? (getTableActionChoice tableName) ρ =
    t.value? (getTableActionChoice tableName) ρ

/-- A default action that a message asks for says nothing of the choice and of the flag of the
table. -/
structure TableConfiguration.KeepsChoice (t : TableConfiguration tableName) : Prop where
  active : t.KeepsValue (getTableActive tableName)
    (t.missAssignments.find (getTableActive tableName)) (some t.active)
  choice : t.KeepsValue (getTableActionChoice tableName)
    (t.defaultTableAction.actionAssignment.find (getTableActionChoice tableName)) none

/-- What an accepted message that is marked as one for the default action has done to a table: it has
stored the default action, and the entries are as they were where `kept` holds. -/
structure StoresDefault (p4Info : P4Info) (message : TableEntryMessage)
    (t t' : TableConfiguration tableName) (kept : Prop) : Prop where
  default : ∃ actionAssignment, message.requestedDefault p4Info tableName = some actionAssignment ∧
    t'.defaultTableAction = ⟨actionAssignment⟩
  keyMatch : t'.tableKeyMatch = t.tableKeyMatch
  entries : t'.tableEntries = t.tableEntries ↔ kept

theorem StoresDefault.changes_iff {kept : Prop}
    (stores : StoresDefault p4Info message t t' kept) :
    ChangesOnlyDefault p4Info message t t' ↔ kept ∧ t.KeepsChoice := by
  obtain ⟨actionAssignment, requested, stored⟩ := stores.default
  obtain ⟨p4Action, used, converted⟩ := convertedAction_of_requestedDefault requested
  have unchosen : t'.missAssignments.find (getTableActionChoice tableName) = none := by
    rw [TableConfiguration.missAssignments, stored, OrderedMap.find_emplace_ne _ _ (by simp),
      OrderedMap.find_eq_none]
    exact converted.not_mem (by simp) (by simp)
  have flagged : t'.missAssignments.find (getTableActive tableName) = some t'.active := by
    rw [TableConfiguration.missAssignments, stored, OrderedMap.find_emplace_self,
      OrderedMap.find_eq_none.mpr (converted.not_mem (by simp) (by simp))]
    rfl
  have chosen : t.missAssignments.find (getTableActionChoice tableName) =
      t.defaultTableAction.actionAssignment.find (getTableActionChoice tableName) :=
    OrderedMap.find_emplace_ne _ _ (by simp)
  constructor
  · intro changes
    have active := (TableConfiguration.value?_eq_iff changes.entries stores.keyMatch).mp
      changes.active
    have choice := (TableConfiguration.value?_eq_iff changes.entries stores.keyMatch).mp
      changes.choice
    have same : t'.active = t.active := by
      rw [TableConfiguration.active, changes.entries, TableConfiguration.active]
    rw [flagged, same] at active
    rw [unchosen, chosen] at choice
    exact ⟨stores.entries.mp changes.entries, active, choice⟩
  · rintro ⟨kept, keeps⟩
    have entries := stores.entries.mpr kept
    have same : t'.active = t.active := by
      rw [TableConfiguration.active, entries, TableConfiguration.active]
    refine ⟨stores.default, entries, ?_, ?_⟩
    · refine (TableConfiguration.value?_eq_iff entries stores.keyMatch).mpr ?_
      rw [flagged, same]
      exact keeps.active
    · refine (TableConfiguration.value?_eq_iff entries stores.keyMatch).mpr ?_
      rw [unchosen, chosen]
      exact keeps.choice

open TableConfiguration

theorem withRequestedDefault_of_accepted (marked : message.isDefaultAction = true)
    (converted : message.Convertible p4Info tableName) :
    ∃ actionAssignment, message.requestedDefault p4Info tableName = some actionAssignment ∧
      (t.withRequestedDefault p4Info message).defaultTableAction = ⟨actionAssignment⟩ := by
  obtain ⟨actionAssignment, requested⟩ := Option.isSome_iff_exists.mp (converted marked)
  refine ⟨actionAssignment, requested, ?_⟩
  rw [withRequestedDefault, requested]
  rfl

/-- The part of an accepted update that follows the override. -/
theorem storesDefault_updateEntry {tableId : Nat} {priority : Int} {symbolSet : SymbolSet}
    (marked : message.isDefaultAction = true) (converted : message.Convertible p4Info tableName)
    (accepted : ((t.withRequestedDefault p4Info message).updateEntry p4Info tableId message priority
      updateType symbolSet).symbolSet.isSome = true) :
    StoresDefault p4Info message t ((t.withRequestedDefault p4Info message).updateEntry p4Info
        tableId message priority updateType symbolSet).state
      (updateType = .modify ∧ message.Repeats p4Info tableId priority t) := by
  have takes := updateEntry_isSome.mp accepted
  have entries := updateEntry_entries_eq_iff symbolSet takes
  rw [withRequestedDefault_tableEntries, repeats_withRequestedDefault] at entries
  refine ⟨?_, updateEntry_tableKeyMatch.trans withRequestedDefault_tableKeyMatch, entries⟩
  rw [updateEntry_defaultTableAction]
  exact withRequestedDefault_of_accepted marked converted

theorem P4Runtime.storesDefault (marked : message.isDefaultAction = true)
    (accepted : (P4Runtime.updateTable p4Info p4Table message updateType t).symbolSet.isSome = true) :
    StoresDefault p4Info message t (P4Runtime.updateTable p4Info p4Table message updateType t).state
      (updateType = .modify ∧ message.Repeats p4Info message.tableId message.priority t) := by
  have converts := updateDefaultAction_isSome p4Info message t
  have state := updateDefaultAction_state p4Info message t
  unfold P4Runtime.updateTable at accepted ⊢
  split at accepted
  · cases accepted
  · rename_i t₁ symbolSet override
    rw [override] at converts state
    dsimp only at state
    subst state
    split at accepted
    · cases accepted
    · rename_i mutable
      rw [if_neg mutable]
      exact storesDefault_updateEntry marked (converts.mp rfl) accepted

theorem BfRuntime.storesDefault (marked : message.isDefaultAction = true)
    (accepted : (BfRuntime.updateTable p4Info p4Table message updateType t).symbolSet.isSome = true) :
    StoresDefault p4Info message t (BfRuntime.updateTable p4Info p4Table message updateType t).state
      (message.KeepsEntries p4Info p4Table t updateType) := by
  have takes := BfRuntime.updateTable_isSome.mp accepted
  have state := updateDefaultAction_state p4Info message t
  unfold BfRuntime.updateTable at accepted ⊢
  split at accepted
  · cases accepted
  · rename_i t₁ symbolSet override
    rw [override] at state
    dsimp only at state
    subst state
    split at accepted
    · cases accepted
    · rename_i mutable
      rw [if_neg mutable]
      split at accepted
      · rename_i wildcard
        rw [if_pos wildcard]
        refine ⟨withRequestedDefault_of_accepted marked takes.converts,
          withRequestedDefault_tableKeyMatch, ?_⟩
        obtain ⟨rfl, missing⟩ := wildcard
        rw [eq_comm]
        exact (and_iff_right missing).symm
      · rename_i wildcard
        rw [if_neg wildcard]
        rw [keepsEntries_iff_of_takesEntry (takes.entry.resolve_left wildcard)]
        exact storesDefault_updateEntry marked takes.converts accepted

end Tables

section Constraints

variable {p4Info : P4Info} {message : TableEntryMessage} {updateType : UpdateType}
  {p4Table : P4Info.Table}

/-- The message of an update. -/
def ControlPlaneUpdate.entity : ControlPlaneUpdate → Option TableEntryMessage
  | .p4Runtime entity _ | .bfRuntime entity _ => entity

/-- The update addresses the table, or an action profile of the table. -/
def ControlPlaneUpdate.Addresses (p4Info : P4Info) (constraints : ControlPlaneConstraints)
    (p4Table : P4Info.Table) : ControlPlaneUpdate → Prop
  | .p4Runtime (some message) _ => p4Info.findP4RuntimeTable message.tableId = some p4Table
  | .bfRuntime (some message) _ =>
    p4Info.findP4RuntimeTable message.tableId = some p4Table ∨
      p4Info.findP4RuntimeTable message.tableId = none ∧
        p4Info.findP4RuntimeTableByName p4Table.name = some p4Table ∧
          ∃ profile associatedTables, BfRuntime.getActionProfileName p4Info message = some profile ∧
            constraints.find profile = some (.actionProfile associatedTables) ∧
              p4Table.name ∈ associatedTables
  | _ => False

/-- BFRuntime accepts the message without effect: it is for a table with an implementation. -/
def TableEntryMessage.Ignored (p4Info : P4Info) (message : TableEntryMessage)
    (p4Table : P4Info.Table) : Prop :=
  p4Info.findP4RuntimeTable message.tableId = some p4Table ∧ p4Table.implementationId ≠ 0

/-- The message, taken as one for an entry, leaves the table as it is. -/
def ControlPlaneUpdate.KeepsRest (p4Info : P4Info) (p4Table : P4Info.Table)
    (message : TableEntryMessage) (t : TableConfiguration p4Table.name) : ControlPlaneUpdate → Prop
  | .p4Runtime _ updateType =>
    (updateType = .modify ∧ message.Repeats p4Info message.tableId message.priority t) ∧
      t.KeepsChoice
  | .bfRuntime _ updateType =>
    (message.Ignored p4Info p4Table ∧
      ∃ actionAssignment, message.requestedDefault p4Info p4Table.name = some actionAssignment ∧
        t.defaultTableAction = ⟨actionAssignment⟩) ∨
    (¬message.Ignored p4Info p4Table ∧
      message.KeepsEntries p4Info p4Table t updateType ∧ t.KeepsChoice)

theorem changesOnlyDefault_self_iff {tableName : String} {t : TableConfiguration tableName} :
    ChangesOnlyDefault p4Info message t t ↔
      ∃ actionAssignment, message.requestedDefault p4Info tableName = some actionAssignment ∧
        t.defaultTableAction = ⟨actionAssignment⟩ :=
  ⟨fun changes => changes.default, fun default => ⟨default, rfl, fun _ => rfl, fun _ => rfl⟩⟩

/-- Each table of a profile whose update is accepted takes the message. -/
theorem BfRuntime.accepted_configureActionProfile :
    ∀ {associatedTables : List String} {constraints : ControlPlaneConstraints}
      {symbolSet : SymbolSet}, associatedTables.Nodup →
      (BfRuntime.configureActionProfile p4Info message updateType associatedTables constraints
        symbolSet).symbolSet.isSome = true →
      p4Table.name ∈ associatedTables →
      p4Info.findP4RuntimeTableByName p4Table.name = some p4Table →
      ∀ {t : TableConfiguration p4Table.name},
      constraints.find p4Table.name = some (.tableConfiguration t) →
      (BfRuntime.updateTable p4Info p4Table message updateType t).symbolSet.isSome = true ∧
        (BfRuntime.configureActionProfile p4Info message updateType associatedTables constraints
          symbolSet).state.find p4Table.name = some (.tableConfiguration
            (BfRuntime.updateTable p4Info p4Table message updateType t).state) := by
  intro associatedTables
  induction associatedTables with
  | nil =>
    intro constraints symbolSet _ _ mem
    cases mem
  | cons associatedTable associatedTables ih =>
    intro constraints symbolSet distinct accepted mem named t found
    obtain ⟨outside, distinct⟩ := List.nodup_cons.mp distinct
    unfold BfRuntime.configureActionProfile at accepted ⊢
    rcases List.mem_cons.mp mem with rfl | mem
    · simp only [found, named] at accepted ⊢
      split at accepted
      · cases accepted
      · rename_i used taken
        refine ⟨Option.isSome_of_eq_some taken, ?_⟩
        rw [find_configureActionProfile outside]
        exact OrderedMap.find_assign_self _ (OrderedMap.mem_keys_of_find found)
    · split at accepted
      · split at accepted
        · cases accepted
        · dsimp only at accepted ⊢
          split at accepted
          · cases accepted
          · refine ih distinct accepted mem named ?_
            rw [OrderedMap.find_assign_ne _ _ (ne_of_mem_of_not_mem mem outside), found]
      · cases accepted

/-- An accepted update of a default action changes only the default action exactly when the message,
taken as one for an entry, leaves the table as it is, and the choice does not depend on what the
default action assigned to it. -/
theorem changesOnlyDefault_iff {constraints : ControlPlaneConstraints}
    (distinct : ∀ name associatedTables,
      constraints.find name = some (.actionProfile associatedTables) → associatedTables.Nodup)
    {update : ControlPlaneUpdate} (entity : update.entity = some message)
    (marked : message.isDefaultAction = true)
    (accepted : (convertControlPlaneUpdate p4Info constraints update).symbolSet.isSome = true)
    (addressed : update.Addresses p4Info constraints p4Table)
    {t : TableConfiguration p4Table.name}
    (found : constraints.find p4Table.name = some (.tableConfiguration t)) :
    ∃ t', (convertControlPlaneUpdate p4Info constraints update).state.find p4Table.name =
        some (.tableConfiguration t') ∧
      (ChangesOnlyDefault p4Info message t t' ↔ update.KeepsRest p4Info p4Table message t) := by
  have assigned : ∀ t₁ : TableConfiguration p4Table.name,
      (constraints.assign p4Table.name (.tableConfiguration t₁)).find p4Table.name =
        some (.tableConfiguration t₁) :=
    fun t₁ => OrderedMap.find_assign_self _ (OrderedMap.mem_keys_of_find found)
  cases update with
  | p4Runtime message' updateType =>
    cases entity
    have present : p4Info.findP4RuntimeTable message.tableId = some p4Table := addressed
    simp only [convertControlPlaneUpdate, P4Runtime.updateControlPlaneConstraintsWithEntityMessage,
      P4Runtime.updateTableEntry, present, found] at accepted ⊢
    exact ⟨_, assigned _, (P4Runtime.storesDefault marked accepted).changes_iff⟩
  | bfRuntime message' updateType =>
    cases entity
    rcases addressed with present | ⟨missing, named, profile, associatedTables, addressed, profiled, mem⟩
    · simp only [convertControlPlaneUpdate, BfRuntime.updateControlPlaneConstraintsWithEntityMessage,
        BfRuntime.updateTableEntry, present, found] at accepted ⊢
      by_cases implemented : p4Table.implementationId ≠ 0
      · have ignored : message.Ignored p4Info p4Table := ⟨present, implemented⟩
        simp only [if_pos implemented]
        refine ⟨t, found, changesOnlyDefault_self_iff.trans ?_⟩
        simp [ControlPlaneUpdate.KeepsRest, ignored]
      · have taken : ¬message.Ignored p4Info p4Table := fun ignored => implemented ignored.2
        simp only [if_neg implemented] at accepted ⊢
        refine ⟨_, assigned _,
          (BfRuntime.storesDefault marked accepted).changes_iff.trans ?_⟩
        simp [ControlPlaneUpdate.KeepsRest, taken]
    · have taken : ¬message.Ignored p4Info p4Table := by
        rintro ⟨present, -⟩
        rw [missing] at present
        cases present
      simp only [convertControlPlaneUpdate, BfRuntime.updateControlPlaneConstraintsWithEntityMessage,
        missing, addressed, profiled] at accepted ⊢
      obtain ⟨accepted, state⟩ := BfRuntime.accepted_configureActionProfile
        (distinct profile associatedTables profiled) accepted mem named found
      refine ⟨_, state, (BfRuntime.storesDefault marked accepted).changes_iff.trans ?_⟩
      simp [ControlPlaneUpdate.KeepsRest, taken]

end Constraints

end Overriding

section Override

attribute [local instance] exprSolver exprSolver.lawful IrOrder.literals

/-- The constraints of a table whose default action a message has set already. -/
def overriddenConstraints : ControlPlaneConstraints :=
  OrderedMap.empty.emplace "t" (.tableConfiguration missOverridden)

theorem find_overriddenConstraints :
    overriddenConstraints.find "t" = some (.tableConfiguration missOverridden) :=
  OrderedMap.find_emplace_self _ _ _

theorem distinct_overriddenConstraints (name : String) (associatedTables : List String)
    (found : overriddenConstraints.find name = some (.actionProfile associatedTables)) :
    associatedTables.Nodup := by
  have mem := OrderedMap.mem_keys_of_find found
  have same : name = "t" := by simpa [overriddenConstraints] using mem
  subst same
  rw [find_overriddenConstraints] at found
  cases found

theorem keepsChoice_missOverridden : missOverridden.KeepsChoice := by
  constructor
  · rw [TableConfiguration.KeepsValue, if_neg (by decide)]
    exact .inl (by decide)
  · rw [TableConfiguration.KeepsValue, if_neg (by decide)]
    exact .inl (by decide)

/-- The entry that forwards the key 1 is there already, and forwarding becomes the default. -/
theorem forward_changesOnlyDefault :
    ∃ t', (convertControlPlaneUpdate missP4Info overriddenConstraints
        (.p4Runtime (some (missMessage 2 1 true)) .modify)).state.find "t" =
          some (.tableConfiguration t') ∧
      ChangesOnlyDefault missP4Info (missMessage 2 1 true) missOverridden t' := by
  have addressed : (ControlPlaneUpdate.p4Runtime (some (missMessage 2 1 true)) .modify).Addresses
      missP4Info overriddenConstraints missP4Table := rfl
  obtain ⟨t', found, changes⟩ := changesOnlyDefault_iff distinct_overriddenConstraints rfl rfl rfl
    addressed find_overriddenConstraints
  refine ⟨t', found, changes.mpr ⟨⟨rfl, _, _, rfl, ?_⟩, keepsChoice_missOverridden⟩⟩
  exact List.mem_cons_self

/-- The table `t` without keys. -/
def keylessP4Info : P4Info := { missP4Info with tables := [⟨1, "t", [], false, 0⟩] }

def keylessConfiguration : TableConfiguration "t" :=
  (TableConfiguration.unconfigured
    ⟨computeDefaultActionConstraints "t" missTable.defaultAction⟩).setTableKeyMatch []

def keylessConstraints : ControlPlaneConstraints :=
  OrderedMap.empty.emplace "t" (.tableConfiguration keylessConfiguration)

/-- The message also inserts an entry. -/
theorem forwardByDefault_inserts :
    (convertControlPlaneUpdate keylessP4Info keylessConstraints
        (.p4Runtime (some forwardByDefault) .insert)).symbolSet.isSome = true ∧
      keylessConstraints.find "t" = some (.tableConfiguration keylessConfiguration) ∧
      ∀ t', (convertControlPlaneUpdate keylessP4Info keylessConstraints
          (.p4Runtime (some forwardByDefault) .insert)).state.find "t" =
            some (.tableConfiguration t') →
        ¬ChangesOnlyDefault keylessP4Info forwardByDefault keylessConfiguration t' := by
  refine ⟨rfl, rfl, ?_⟩
  rintro _ ⟨⟩ changes
  have sizes := congrArg SortedSet.size changes.entries
  exact absurd sizes (by decide)

end Override

end Flay
