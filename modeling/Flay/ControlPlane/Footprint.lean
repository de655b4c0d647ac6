import Flay.ControlPlane.Encodings
import Flay.ControlPlane.KeyMatchOrder
import Flay.ControlPlane.Miss

/-! Which variables an update may assign anew. What it brings to a table it collects. Where what it
takes away is collected, too, and the table stays as full as it was, no other variable changes. -/

namespace Flay

open Container

variable [Z3] [IrOrder]

namespace TableConfiguration

variable {tableName : String}

/-- How the assignments of a table are made: of its default action alone, of its entries, or with
all variables open. -/
inductive Regime
  | miss
  | entries
  | wildcards
deriving DecidableEq

def regime (t : TableConfiguration tableName) : Regime :=
  if t.tableEntries.size = 0 then .miss
  else if t.tableEntries.size > kMaxEntriesPerTable then .wildcards
  else .entries

theorem active_eq (t : TableConfiguration tableName) : t.active = decide (t.regime ≠ .miss) := by
  unfold active regime
  by_cases none : t.tableEntries.size = 0
  · simp [none]
  · simp only [if_neg none, Nat.pos_of_ne_zero none, decide_true]
    split <;> rfl

theorem computeZ3ControlPlaneAssignments_eq (t : TableConfiguration tableName) :
    t.computeZ3ControlPlaneAssignments =
      match t.regime with
      | .miss => t.missAssignments.toZ3
      | .entries => mergeZ3Entries t.missAssignments.toZ3 t.tableEntries.list
      | .wildcards => t.missAssignments.toZ3.mapValues fun x _ => Z3.set x.wildcard := by
  unfold computeZ3ControlPlaneAssignments regime
  dsimp only
  split
  · rfl
  · split <;> rfl

/-- What a change brings to a table is collected. -/
structure GainsCollected (t t' : TableConfiguration tableName) (symbolSet : SymbolSet) : Prop where
  cached : t.Cached → t'.Cached
  added : ∀ e ∈ t'.tableEntries, e ∈ t.tableEntries ∨ e.actionAssignment.keys ⊆ symbolSet
  configured : t'.defaultTableAction = t.defaultTableAction ∨
    t'.defaultTableAction.actionAssignment.keys ⊆ symbolSet

/-- What a change takes from a table is collected, and the assignments are made as before. -/
structure LossesCollected (t t' : TableConfiguration tableName) (symbolSet : SymbolSet) :
    Prop where
  regime : t'.regime = t.regime
  removed : ∀ e ∈ t.tableEntries, e ∈ t'.tableEntries ∨ e.actionAssignment.keys ⊆ symbolSet
  overridden : t'.defaultTableAction = t.defaultTableAction ∨
    t.defaultTableAction.actionAssignment.keys ⊆ symbolSet

variable {t t' t'' : TableConfiguration tableName} {symbolSet symbolSet' : SymbolSet}

theorem GainsCollected.refl (t : TableConfiguration tableName) (symbolSet : SymbolSet) :
    t.GainsCollected t symbolSet :=
  ⟨id, fun _ mem => .inl mem, .inl rfl⟩

theorem GainsCollected.mono (h : t.GainsCollected t' symbolSet) (subset : symbolSet ⊆ symbolSet') :
    t.GainsCollected t' symbolSet' where
  cached := h.cached
  added e mem := (h.added e mem).imp_right fun keys => List.Subset.trans keys subset
  configured := h.configured.imp_right fun keys => List.Subset.trans keys subset

theorem GainsCollected.trans (h : t.GainsCollected t' symbolSet)
    (h' : t'.GainsCollected t'' symbolSet) : t.GainsCollected t'' symbolSet where
  cached cached := h'.cached (h.cached cached)
  added e mem := (h'.added e mem).elim (h.added e) .inr
  configured := h'.configured.elim (fun same => same ▸ h.configured) .inr

section Find

variable {x : SymbolicVariable}

omit [IrOrder] in
/-- A variable takes its value from the entries that assign it. -/
theorem find_mergeZ3Entries {l : List (TableMatchEntry tableName)}
    (conditions : ∀ e ∈ l, e.condition.isSome) {s s' : Z3ControlPlaneAssignmentSet}
    (same : s.find x = s'.find x) :
    (mergeZ3Entries s l).find x =
      (mergeZ3Entries s' (l.filter fun e => decide (x ∈ e.actionAssignment.keys))).find x := by
  induction l generalizing s s' with
  | nil => exact same
  | cons e l ih =>
    have rest := fun d mem => conditions d (List.mem_cons_of_mem e mem)
    obtain ⟨condition, set⟩ := Option.isSome_iff_exists.mp (conditions e List.mem_cons_self)
    by_cases assigns : x ∈ e.actionAssignment.keys
    · simp only [List.filter_cons, assigns, decide_true, if_true, mergeZ3Entries, set]
      refine ih rest ?_
      rw [find_mergeConditionally, find_mergeConditionally, same]
    · simp only [List.filter_cons, assigns, decide_false, Bool.false_eq_true, if_false,
        mergeZ3Entries, set]
      refine ih rest ?_
      have unassigned : e.actionAssignment.toZ3.find x = none := by
        rw [LiteralAssignmentSet.find_toZ3, OrderedMap.find_eq_none.mpr assigns]
        rfl
      rw [find_mergeConditionally, unassigned, same]

theorem Cached.condition (cached : t.Cached) :
    ∀ e ∈ t.tableEntries.list, e.condition.isSome := by
  intro e mem
  rw [cached e mem]
  rfl

variable (gains : t.GainsCollected t' symbolSet) (losses : t.LossesCollected t' symbolSet)
  (absent : x ∉ symbolSet)

include gains losses absent

/-- The entries that assign a variable which is not collected are the same. -/
theorem filter_entries_of_collected :
    t'.tableEntries.list.filter (fun e => decide (x ∈ e.actionAssignment.keys)) =
      t.tableEntries.list.filter fun e => decide (x ∈ e.actionAssignment.keys) := by
  let assigning (s : TableEntrySet tableName) : TableEntrySet tableName :=
    ⟨s.list.filter fun e => decide (x ∈ e.actionAssignment.keys), s.sorted.filter _⟩
  have same : assigning t'.tableEntries = assigning t.tableEntries := by
    refine SortedSet.ext_mem fun e => ?_
    simp only [SortedSet.mem_def, assigning, List.mem_filter, decide_eq_true_eq]
    refine and_congr_left fun assigns => ⟨fun mem => ?_, fun mem => ?_⟩
    · exact (gains.added e mem).resolve_right fun keys => absent (keys assigns)
    · exact (losses.removed e mem).resolve_right fun keys => absent (keys assigns)
  exact congrArg SortedSet.list same

theorem find_missAssignments_of_collected :
    t'.missAssignments.find x = t.missAssignments.find x := by
  have default : t'.defaultTableAction.actionAssignment.find x =
      t.defaultTableAction.actionAssignment.find x := by
    obtain same | keys' := gains.configured
    · rw [same]
    · obtain same | keys := losses.overridden
      · rw [same]
      · rw [OrderedMap.find_eq_none.mpr fun mem => absent (keys mem),
          OrderedMap.find_eq_none.mpr fun mem => absent (keys' mem)]
  have active : t'.active = t.active := by rw [active_eq, active_eq, losses.regime]
  rw [missAssignments, missAssignments, active, OrderedMap.find_emplace, OrderedMap.find_emplace,
    default]

/-- A variable that is not collected is assigned as before, where the entries have their conditions. -/
theorem find_computeZ3ControlPlaneAssignments_of_collected (cached : t.Cached) :
    t'.computeZ3ControlPlaneAssignments.find x = t.computeZ3ControlPlaneAssignments.find x := by
  have miss := find_missAssignments_of_collected gains losses absent
  have missZ3 : t'.missAssignments.toZ3.find x = t.missAssignments.toZ3.find x := by
    rw [LiteralAssignmentSet.find_toZ3, LiteralAssignmentSet.find_toZ3, miss]
  rw [computeZ3ControlPlaneAssignments_eq, computeZ3ControlPlaneAssignments_eq, losses.regime]
  cases t.regime with
  | miss => exact missZ3
  | wildcards =>
    dsimp only
    rw [OrderedMap.find_mapValues, OrderedMap.find_mapValues, missZ3]
  | entries =>
    dsimp only
    rw [find_mergeZ3Entries (gains.cached cached).condition missZ3,
      find_mergeZ3Entries cached.condition rfl,
      filter_entries_of_collected gains losses absent]

end Find

end TableConfiguration

section Steps

variable {tableName : String} {p4Info : P4Info} {message : TableEntryMessage}
  {t t' : TableConfiguration tableName} {symbolSet : SymbolSet}

omit [IrOrder] in
/-- The symbols of a produced entry are those that its action assigns, and those of its match. -/
theorem collected_of_produceTableEntry {tableId : Nat} {priority : Int}
    {e : TableMatchEntry tableName} {used : SymbolSet}
    (h : produceTableEntry p4Info tableName tableId message priority = some (e, used)) :
    e.actionAssignment.keys ⊆ used := by
  simp only [produceTableEntry, bind, Option.bind_eq_some_iff] at h
  obtain ⟨tableAction, -, p4Action, -, h⟩ := h
  split at h
  · cases h
  · rename_i converted convert
    obtain ⟨p4InfoTable, -, h⟩ := Option.bind_eq_some_iff.mp h
    split at h
    · obtain ⟨produced, -, h⟩ := Option.bind_eq_some_iff.mp h
      cases h
      intro x mem
      have collected := (convertedAction_of_convertTableAction convert).collected x
      exact List.mem_append_left _ (collected.mpr mem)
    · cases h

theorem DefaultStep.gainsCollected (h : DefaultStep p4Info message t t' symbolSet) :
    t.GainsCollected t' symbolSet := by
  cases h with
  | keep => exact .refl t []
  | override _ _ convert =>
    have collected := (convertedAction_of_convertTableAction convert).collected
    exact ⟨id, fun _ mem => .inl mem, .inr fun x mem => (collected x).mpr mem⟩

theorem TableConfiguration.gainsCollected_applyUpdate {e : TableMatchEntry tableName}
    {updateType : UpdateType} (keys : e.actionAssignment.keys ⊆ symbolSet) :
    t.GainsCollected (t.applyUpdate e updateType).1 symbolSet where
  cached cached := by
    cases updateType with
    | unspecified => exact cached
    | insert => exact cached.addTableEntry e false
    | modify => exact cached.addTableEntry e true
    | delete => exact cached.deleteTableEntry e
  added d mem := by
    obtain same | mem := TableConfiguration.mem_applyUpdate mem
    · exact .inr (same ▸ keys)
    · exact .inl mem
  configured := .inl (t.defaultTableAction_applyUpdate e updateType)

/-- An entry that is inserted takes nothing from the table. -/
theorem TableConfiguration.lossesCollected_insert {e : TableMatchEntry tableName}
    (regime : (t.addTableEntry e false).1.regime = t.regime) (symbolSet : SymbolSet) :
    t.LossesCollected (t.addTableEntry e false).1 symbolSet :=
  ⟨regime, fun _ mem => .inl (SortedSet.mem_insertSorted_of_mem mem), .inl rfl⟩

/-- What an accepted message brings to a table is collected. -/
theorem TableStep.gainsCollected (h : TableStep p4Info message t t' symbolSet) :
    t.GainsCollected t' symbolSet := by
  cases h with
  | clear default =>
    refine default.gainsCollected.trans ⟨fun _ => ?_, fun e mem => ?_, .inl rfl⟩
    · exact TableConfiguration.cached_clearTableEntries _
    · exact (SortedSet.not_mem_empty e mem).elim
  | @entry t₁ _ _ used _ _ e updateType default produced applied =>
    have added : t₁.GainsCollected (t₁.applyUpdate e updateType).1 used :=
      TableConfiguration.gainsCollected_applyUpdate (collected_of_produceTableEntry produced)
    rw [applied] at added
    exact (default.gainsCollected.mono (List.subset_append_left _ _)).trans
      (added.mono (List.subset_append_right _ _))

end Steps

namespace ControlPlaneConstraints

/-- What a change of the tables brings to each of them is collected. -/
def GainsCollected (constraints constraints' : ControlPlaneConstraints) (symbolSet : SymbolSet) :
    Prop :=
  ∃ f : TableMap, constraints' = constraints.mapTables f ∧
    ∀ name t, constraints.find name = some (.tableConfiguration t) →
      t.GainsCollected (f name t) symbolSet

/-- What a change takes from each table that it changes is collected. -/
def LossesCollected (constraints constraints' : ControlPlaneConstraints) (symbolSet : SymbolSet) :
    Prop :=
  ∀ name t t', constraints.find name = some (.tableConfiguration t) →
    constraints'.find name = some (.tableConfiguration t') →
      t' = t ∨ t.LossesCollected t' symbolSet

variable {constraints constraints' constraints'' : ControlPlaneConstraints}
  {symbolSet symbolSet' : SymbolSet}

theorem GainsCollected.refl (constraints : ControlPlaneConstraints) (symbolSet : SymbolSet) :
    constraints.GainsCollected constraints symbolSet :=
  ⟨fun _ t => t, mapTables_id.symm, fun _ t _ => .refl t symbolSet⟩

theorem GainsCollected.mono (h : constraints.GainsCollected constraints' symbolSet)
    (subset : symbolSet ⊆ symbolSet') : constraints.GainsCollected constraints' symbolSet' := by
  obtain ⟨f, changed, gains⟩ := h
  exact ⟨f, changed, fun name t found => (gains name t found).mono subset⟩

theorem GainsCollected.trans (h : constraints.GainsCollected constraints' symbolSet)
    (h' : constraints'.GainsCollected constraints'' symbolSet) :
    constraints.GainsCollected constraints'' symbolSet := by
  obtain ⟨f, rfl, gains⟩ := h
  obtain ⟨g, rfl, gains'⟩ := h'
  refine ⟨_, mapTables_mapTables, fun name t found => (gains name t found).trans (gains' name _ ?_)⟩
  rw [find_mapTables, found]
  rfl

theorem GainsCollected.assign {name : String} {t t' : TableConfiguration name}
    (found : constraints.find name = some (.tableConfiguration t))
    (gains : t.GainsCollected t' symbolSet) :
    constraints.GainsCollected (constraints.assign name (.tableConfiguration t')) symbolSet := by
  refine ⟨only name t', assign_eq_mapTables found, fun other d known => ?_⟩
  by_cases same : other = name
  · subst same
    obtain rfl : d = t := by
      cases known.symm.trans found
      rfl
    rw [only, Function.update_self]
    exact gains
  · rw [only_ne t' same]
    exact .refl d symbolSet

theorem LossesCollected.assign {name : String} {t t' : TableConfiguration name}
    (found : constraints.find name = some (.tableConfiguration t))
    (losses : t.LossesCollected t' symbolSet) :
    constraints.LossesCollected (constraints.assign name (.tableConfiguration t')) symbolSet := by
  intro other d d' known known'
  by_cases same : other = name
  · subst same
    cases known.symm.trans found
    rw [OrderedMap.find_assign_self _ (OrderedMap.mem_keys_of_find found)] at known'
    cases known'
    exact .inr losses
  · rw [OrderedMap.find_assign_ne _ _ same] at known'
    cases known'.symm.trans known
    exact .inl rfl

/-- The entries of every table have the conditions that its key matches give them. -/
def Cached (constraints : ControlPlaneConstraints) : Prop :=
  ∀ name t, constraints.find name = some (.tableConfiguration t) → t.Cached

theorem Cached.of_gainsCollected (cached : constraints.Cached)
    (gains : constraints.GainsCollected constraints' symbolSet) : constraints'.Cached := by
  obtain ⟨f, rfl, gains⟩ := gains
  intro name t' found
  obtain ⟨t, known, rfl⟩ := find_mapTables_eq_some found
  exact (gains name t known).cached (cached name t known)

/-- Every table that has entries is given a key match. -/
def EntriesKeyed (constraints : ControlPlaneConstraints)
    (tableKeyMatches : List (String × List TableMatchKey)) : Prop :=
  ∀ name t, constraints.find name = some (.tableConfiguration t) →
    t.tableEntries.list = [] ∨ name ∈ tableKeyMatches.map Prod.fst

/-- A key match gives the entries of its table their conditions. -/
theorem cached_setTableKeyMatches {tableKeyMatches : List (String × List TableMatchKey)}
    (keyed : ∀ name t, constraints.find name = some (.tableConfiguration t) →
      t.Cached ∨ name ∈ tableKeyMatches.map Prod.fst) :
    (constraints.setTableKeyMatches tableKeyMatches).Cached := by
  induction tableKeyMatches generalizing constraints with
  | nil => exact fun name t found => (keyed name t found).resolve_right List.not_mem_nil
  | cons keys tableKeyMatches ih =>
    refine ih fun name t' found => ?_
    have found : (constraints.mapTables (keyMatchOf keys.1 keys.2)).find name =
        some (.tableConfiguration t') := setTableKeyMatch_eq_mapTables .. ▸ found
    obtain ⟨t, known, rfl⟩ := find_mapTables_eq_some found
    by_cases same : name = keys.1
    · subst same
      rw [keyMatchOf, Function.update_self]
      exact .inl (t.cached_setTableKeyMatch keys.2)
    · rw [keyMatchOf, Function.update_of_ne same]
      exact (keyed name t known).imp_right fun mem => (List.mem_cons.mp mem).resolve_left same

theorem EntriesKeyed.cached {tableKeyMatches : List (String × List TableMatchKey)}
    (keyed : constraints.EntriesKeyed tableKeyMatches) :
    (constraints.setTableKeyMatches tableKeyMatches).Cached := by
  refine cached_setTableKeyMatches fun name t found => (keyed name t found).imp_left fun none e mem => ?_
  rw [SortedSet.mem_def, none] at mem
  cases mem

/-- The first item that assigns a variable decides. -/
theorem find_assignmentSet (constraints : ControlPlaneConstraints) (x : SymbolicVariable) :
    constraints.assignmentSet.find x = constraints.entries.findSome? fun item =>
      item.2.computeZ3ControlPlaneAssignments.find x := by
  have loop : ∀ (l : List (Sigma ControlPlaneItem)) (s : Z3ControlPlaneAssignmentSet),
      (l.foldl (fun set item => set.insertAll item.2.computeZ3ControlPlaneAssignments.entries)
        s).find x = (s.find x).or (l.findSome? fun item =>
          item.2.computeZ3ControlPlaneAssignments.find x) := by
    intro l
    induction l with
    | nil => simp
    | cons item l ih =>
      intro s
      rw [List.foldl_cons, ih, OrderedMap.find_insertAll, List.findSome?_cons, Option.or_assoc]
      congr 1
      cases known : item.2.computeZ3ControlPlaneAssignments.find x with
      | none =>
        have absent : item.2.computeZ3ControlPlaneAssignments.entries.dlookup x = none := known
        rw [absent, Option.none_or]
      | some value =>
        have present : item.2.computeZ3ControlPlaneAssignments.entries.dlookup x = some value := known
        rw [present, Option.some_or]
  rw [assignmentSet, loop, OrderedMap.find_empty, Option.none_or]

/-- A variable is assigned as before when every table that changes assigns it as before. -/
theorem find_assignmentSet_mapTables {f : TableMap} {x : SymbolicVariable}
    (same : ∀ name t, constraints.find name = some (.tableConfiguration t) →
      (f name t).computeZ3ControlPlaneAssignments.find x =
        t.computeZ3ControlPlaneAssignments.find x) :
    (constraints.mapTables f).assignmentSet.find x = constraints.assignmentSet.find x := by
  rw [find_assignmentSet, find_assignmentSet, mapTables, OrderedMap.mapValues, List.findSome?_map,
    ← List.head?_filterMap, ← List.head?_filterMap]
  refine congrArg List.head? (List.filterMap_congr fun item mem => ?_)
  obtain ⟨name, item⟩ := item
  cases item with
  | tableConfiguration t => exact same name t (OrderedMap.find_eq_some.mpr mem)
  | parserValueSet | actionProfile | actionSelector => rfl

/-- A change assigns anew only what is collected. -/
theorem mem_of_collected (cached : constraints.Cached) (gains : constraints.GainsCollected constraints' symbolSet)
    (losses : constraints.LossesCollected constraints' symbolSet) {x : SymbolicVariable}
    (different : constraints.assignmentSet.find x ≠ constraints'.assignmentSet.find x) :
    x ∈ symbolSet := by
  by_contra absent
  obtain ⟨f, rfl, gains⟩ := gains
  refine different (find_assignmentSet_mapTables fun name t found => ?_).symm
  have found' : (constraints.mapTables f).find name = some (.tableConfiguration (f name t)) := by
    rw [find_mapTables, found]
    rfl
  obtain same | losses := losses name t (f name t) found found'
  · rw [same]
  · exact TableConfiguration.find_computeZ3ControlPlaneAssignments_of_collected
      (gains name t found) losses absent (cached name t found)

end ControlPlaneConstraints

section Conversion

omit [Z3] [IrOrder] in
theorem Updated.eq_mk {σ : Type} {updated : Updated σ} {symbolSet : SymbolSet}
    (collected : updated.symbolSet = some symbolSet) : updated = ⟨updated.state, some symbolSet⟩ := by
  rw [← collected]

variable {p4Info : P4Info} {constraints constraints' : ControlPlaneConstraints}
  {symbolSet : SymbolSet}

open ControlPlaneConstraints

theorem P4Runtime.gainsCollected_updateTableEntry {message : TableEntryMessage}
    {updateType : UpdateType}
    (accepted : P4Runtime.updateTableEntry p4Info message updateType constraints =
      ⟨constraints', some symbolSet⟩) : constraints.GainsCollected constraints' symbolSet := by
  unfold P4Runtime.updateTableEntry at accepted
  split at accepted
  · cases accepted
  · split at accepted
    · rename_i t found
      obtain ⟨rfl, collected⟩ := Updated.mk.inj accepted
      exact .assign found (P4Runtime.tableStep (Updated.eq_mk collected)).gainsCollected
    · cases accepted

theorem BfRuntime.gainsCollected_updateTableEntry {p4Table : P4Info.Table}
    {message : TableEntryMessage} {updateType : UpdateType}
    (accepted : BfRuntime.updateTableEntry p4Info p4Table message updateType constraints =
      ⟨constraints', some symbolSet⟩) : constraints.GainsCollected constraints' symbolSet := by
  unfold BfRuntime.updateTableEntry at accepted
  split at accepted
  · rename_i t found
    split at accepted
    · cases accepted
      exact .refl constraints []
    · obtain ⟨rfl, collected⟩ := Updated.mk.inj accepted
      exact .assign found (BfRuntime.tableStep (Updated.eq_mk collected)).gainsCollected
  · cases accepted

/-- The tables of a profile in turn, after the symbols used so far. -/
theorem BfRuntime.gainsCollected_configureActionProfile {message : TableEntryMessage}
    {updateType : UpdateType} {associatedTables : List String} {before : SymbolSet}
    (accepted : BfRuntime.configureActionProfile p4Info message updateType associatedTables
      constraints before = ⟨constraints', some symbolSet⟩) :
    before ⊆ symbolSet ∧ constraints.GainsCollected constraints' symbolSet := by
  induction associatedTables generalizing constraints before with
  | nil =>
    cases accepted
    exact ⟨List.Subset.refl _, .refl _ _⟩
  | cons associatedTable associatedTables ih =>
    unfold BfRuntime.configureActionProfile at accepted
    split at accepted
    · rename_i t found
      split at accepted
      · cases accepted
      · dsimp only at accepted
        split at accepted
        · cases accepted
        · rename_i used collected
          obtain ⟨subset, rest⟩ := ih accepted
          have step := GainsCollected.assign found
            (BfRuntime.tableStep (Updated.eq_mk collected)).gainsCollected
          exact ⟨List.Subset.trans (List.subset_append_left _ _) subset,
            (step.mono (List.Subset.trans (List.subset_append_right _ _) subset)).trans rest⟩
    · cases accepted

/-- What an accepted update brings to the tables is collected. -/
theorem gainsCollected_convertControlPlaneUpdate {update : ControlPlaneUpdate}
    (accepted : convertControlPlaneUpdate p4Info constraints update =
      ⟨constraints', some symbolSet⟩) : constraints.GainsCollected constraints' symbolSet := by
  cases update with
  | p4Runtime entity updateType =>
    cases entity with
    | none => cases accepted
    | some message => exact P4Runtime.gainsCollected_updateTableEntry accepted
  | bfRuntime entity updateType =>
    cases entity with
    | none => cases accepted
    | some message =>
      simp only [convertControlPlaneUpdate,
        BfRuntime.updateControlPlaneConstraintsWithEntityMessage] at accepted
      split at accepted
      · exact BfRuntime.gainsCollected_updateTableEntry accepted
      · split at accepted
        · split at accepted
          · exact (BfRuntime.gainsCollected_configureActionProfile accepted).2
          · cases accepted
        · split at accepted
          · split at accepted
            · cases accepted
              exact .refl constraints []
            · cases accepted
          · cases accepted

end Conversion

end Flay
