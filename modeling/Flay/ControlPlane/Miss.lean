import Flay.ControlPlane.ActionArguments
import Flay.ControlPlane.Semantics
import Flay.ControlPlane.Update

/-! What a table runs when no entry matches, in every configuration that accepted updates lead to. -/

namespace Flay

open Container ControlPlaneStateInitializer

section Reachable

variable [Z3] [IrOrder]

/-- The default action of a table: the declared one, until a message overrides it. -/
inductive CurrentDefault
  | declared
  | overridden (p4Action : P4Info.Action) (tableAction : TableAction)

/-- The default action after an accepted message. -/
def CurrentDefault.after (p4Info : P4Info) (message : TableEntryMessage)
    (current : CurrentDefault) : CurrentDefault :=
  if message.isDefaultAction then
    let defaultAction := message.action.getD ⟨0, []⟩
    match p4Info.findP4RuntimeAction defaultAction.actionId with
    | some p4Action => .overridden p4Action defaultAction
    | none => current
  else current

/-- The configurations of a table that accepted updates lead to, each with the default action most
recently configured. The analysis of the data plane may set the keys at any time. -/
inductive Reachable (p4Info : P4Info) (target : ComputeMatch) (table : P4Table) :
    TableConfiguration table.controlPlaneName → CurrentDefault → Prop
  | initial {t : TableConfiguration table.controlPlaneName}
      (h : initializeTable target table = some t) : Reachable p4Info target table t .declared
  | setTableKeyMatch {t : TableConfiguration table.controlPlaneName} {current : CurrentDefault}
      (before : Reachable p4Info target table t current) (tableKeyMap : List TableMatchKey) :
      Reachable p4Info target table (t.setTableKeyMatch tableKeyMap) current
  | p4Runtime {t t' : TableConfiguration table.controlPlaneName} {current : CurrentDefault}
      {p4Table : P4Info.Table} {message : TableEntryMessage} {updateType : UpdateType}
      {symbolSet : SymbolSet} (before : Reachable p4Info target table t current)
      (accepted : P4Runtime.updateTable p4Info p4Table message updateType t =
        ⟨t', some symbolSet⟩) :
      Reachable p4Info target table t' (current.after p4Info message)
  | bfRuntime {t t' : TableConfiguration table.controlPlaneName} {current : CurrentDefault}
      {p4Table : P4Info.Table} {message : TableEntryMessage} {updateType : UpdateType}
      {symbolSet : SymbolSet} (before : Reachable p4Info target table t current)
      (accepted : BfRuntime.updateTable p4Info p4Table message updateType t =
        ⟨t', some symbolSet⟩) :
      Reachable p4Info target table t' (current.after p4Info message)

namespace CurrentDefault

/-- The variables that the default action assigns have its values. The declared default action has
the name of no action, and its arguments. -/
def Configured (table : P4Table) (value : Valuation) : CurrentDefault → Prop
  | declared =>
    value (getDefaultActionVariable table.controlPlaneName) = noAction ∧
      ∀ a ∈ table.defaultAction.arguments,
        value (getTableActionArgument table.controlPlaneName
          table.defaultAction.action.controlPlaneName a.1.controlPlaneName a.1.type) = a.2
  | overridden p4Action tableAction =>
    ∃ converted, convertTableAction tableAction table.controlPlaneName p4Action true =
        some converted ∧
      ∀ x v, converted.1.find x = some v → value x = v

/-- The selected action is the default action, and it takes the arguments of the default action. The
declared one, which is selected by none, takes those of its declaration. -/
def Runs (table : P4Table) (value : Valuation) (selected : Option ActionListElement) :
    CurrentDefault → Prop
  | declared => selected = none
  | overridden p4Action tableAction =>
    ∃ action, selected = some action ∧ action.action.controlPlaneName = p4Action.name ∧
      tableAction.Passed table.controlPlaneName p4Action action.action value

/-- The assignments of the table carry the default action. -/
def Carried (table : P4Table) (assignment : LiteralAssignmentSet) : CurrentDefault → Prop
  | declared =>
    assignment = computeDefaultActionConstraints table.controlPlaneName table.defaultAction
  | overridden p4Action tableAction =>
    ∃ used, convertTableAction tableAction table.controlPlaneName p4Action true =
      some (assignment, used)

end CurrentDefault

/-- On a miss under the values, no entry is chosen, and the table runs its default action. -/
structure MissRunsDefault (table : P4Table) (current : CurrentDefault)
    (t : TableConfiguration table.controlPlaneName) (value : Valuation) : Prop where
  notChosen : ∀ e ∈ t.tableEntries, value (getTableActionChoice table.controlPlaneName) ≠ e.action
  configured : current.Configured table value
  runs : current.Runs table value (TableExecutor.selected table
    (value (getTableActive table.controlPlaneName))
    (value (getTableActionChoice table.controlPlaneName))
    (value (getDefaultActionVariable table.controlPlaneName)))

/-- Nothing has overridden the default action. Or the assignments are made of no entry, and the
action choice, which they then leave free, has a value by which the table selects the override, whose
arguments the message conveys. -/
def MissCondition (table : P4Table) (t : TableConfiguration table.controlPlaneName)
    (ρ : Valuation) (merged : List (TableMatchEntry table.controlPlaneName)) :
    CurrentDefault → Prop
  | .declared => True
  | .overridden p4Action tableAction =>
    merged = [] ∧
      (∀ e ∈ t.tableEntries, ρ (getTableActionChoice table.controlPlaneName) ≠ e.action) ∧
      ∃ action, TableExecutor.selected table t.active
          (ρ (getTableActionChoice table.controlPlaneName)) p4Action.name = some action ∧
        action.action.controlPlaneName = p4Action.name ∧
          tableAction.Conveyed table.controlPlaneName p4Action action.action ρ

/-- The program information is about the actions of the table. -/
def P4Info.DescribesActions (p4Info : P4Info) (table : P4Table) : Prop :=
  ∀ action ∈ table.actionList, ∀ p4Action ∈ p4Info.actions,
    p4Action.name = action.action.controlPlaneName → p4Action.Describes action.action

/-- The values of the variables under `computeControlPlaneAssignments`. -/
def TableConfiguration.values {tableName : String} (t : TableConfiguration tableName)
    (ρ : Valuation) : Valuation :=
  t.computeControlPlaneAssignments.bind ρ

/-- The values of the variables under `computeZ3ControlPlaneAssignments`. -/
def TableConfiguration.z3Values [Z3.Lawful] {tableName : String} (t : TableConfiguration tableName)
    (ρ : Valuation) : Valuation :=
  Z3.assigned (ρ := ρ) (Z3.Lawful.eval ρ) t.computeZ3ControlPlaneAssignments.entries

section Invariants

variable {p4Info : P4Info} {target : ComputeMatch} {table : P4Table} {message : TableEntryMessage}
  {t t' : TableConfiguration table.controlPlaneName} {current : CurrentDefault}
  {symbolSet : SymbolSet}

theorem TableConfiguration.defaultTableAction_applyUpdate {tableName : String}
    (t : TableConfiguration tableName) (e : TableMatchEntry tableName) (updateType : UpdateType) :
    (t.applyUpdate e updateType).1.defaultTableAction = t.defaultTableAction := by
  cases updateType <;> rfl

/-- An update adds no entry but the one it is given. -/
theorem TableConfiguration.mem_applyUpdate {tableName : String} {t : TableConfiguration tableName}
    {d e : TableMatchEntry tableName} {updateType : UpdateType}
    (h : d ∈ (t.applyUpdate e updateType).1.tableEntries) :
    d.actionAssignment = e.actionAssignment ∨ d ∈ t.tableEntries := by
  cases updateType with
  | unspecified => exact .inr h
  | delete => exact .inr (SortedSet.mem_erase.mp h).1
  | insert =>
    rcases SortedSet.mem_insert_imp h with rfl | h
    · exact .inl rfl
    · exact .inr h
  | modify =>
    rcases SortedSet.mem_insert_imp h with rfl | h
    · exact .inl rfl
    · exact .inr (SortedSet.mem_erase.mp h).1

theorem carried_of_defaultStep (carried : current.Carried table t.defaultTableAction.actionAssignment)
    (step : DefaultStep p4Info message t t' symbolSet) :
    (current.after p4Info message).Carried table t'.defaultTableAction.actionAssignment := by
  cases step with
  | keep unmarked => simpa [CurrentDefault.after, unmarked] using carried
  | override marked found convert =>
    simp only [CurrentDefault.after, marked, if_true, found]
    exact ⟨_, convert⟩

theorem carried_of_tableStep (carried : current.Carried table t.defaultTableAction.actionAssignment)
    (step : TableStep p4Info message t t' symbolSet) :
    (current.after p4Info message).Carried table t'.defaultTableAction.actionAssignment := by
  cases step with
  | clear default =>
    have kept := carried_of_defaultStep carried default
    exact kept
  | @entry t₁ _ _ _ _ _ e updateType default produced applied =>
    have same := t₁.defaultTableAction_applyUpdate e updateType
    rw [applied] at same
    rw [same]
    exact carried_of_defaultStep carried default

theorem named_of_tableStep (named : ∀ e ∈ t.tableEntries, e.action ≠ noAction)
    (step : TableStep p4Info message t t' symbolSet) :
    ∀ e ∈ t'.tableEntries, e.action ≠ noAction := by
  have kept : ∀ {t₁ : TableConfiguration table.controlPlaneName} {used : SymbolSet},
      DefaultStep p4Info message t t₁ used → t₁.tableEntries = t.tableEntries := by
    intro t₁ used default
    cases default <;> rfl
  cases step with
  | clear default => exact fun e he => absurd he (SortedSet.not_mem_empty e)
  | @entry t₁ _ _ _ _ _ e updateType default produced applied =>
    intro d hd
    have hd : d ∈ (t₁.applyUpdate e updateType).1.tableEntries := by rw [applied]; exact hd
    rcases TableConfiguration.mem_applyUpdate hd with same | old
    · have action : d.action = e.action := by rw [TableMatchEntry.action, same]; rfl
      rw [action]
      exact named_of_produceTableEntry produced
    · rw [kept default] at old
      exact named d old

/-- The assignments of a reachable configuration carry its default action. -/
theorem Reachable.carried (h : Reachable p4Info target table t current) :
    current.Carried table t.defaultTableAction.actionAssignment := by
  induction h with
  | initial h =>
    unfold initializeTable at h
    split at h
    · cases h
    · cases h; rfl
  | setTableKeyMatch before tableKeyMap ih => exact ih
  | p4Runtime before accepted ih => exact carried_of_tableStep ih (P4Runtime.tableStep accepted)
  | bfRuntime before accepted ih => exact carried_of_tableStep ih (BfRuntime.tableStep accepted)

/-- An overriding action is one of the program information. -/
def CurrentDefault.Known (p4Info : P4Info) : CurrentDefault → Prop
  | declared => True
  | overridden p4Action _ => p4Action ∈ p4Info.actions

omit [Z3] [IrOrder] in
theorem CurrentDefault.Known.after (known : current.Known p4Info) :
    (current.after p4Info message).Known p4Info := by
  rw [CurrentDefault.after]
  split
  · dsimp only
    split
    · rename_i p4Action found
      exact List.mem_of_find?_eq_some found
    · exact known
  · exact known

theorem Reachable.known (h : Reachable p4Info target table t current) : current.Known p4Info := by
  induction h with
  | initial h => trivial
  | setTableKeyMatch before tableKeyMap ih => exact ih
  | p4Runtime before accepted ih => exact ih.after
  | bfRuntime before accepted ih => exact ih.after

/-- The entries of a reachable configuration name actions. -/
theorem Reachable.named (h : Reachable p4Info target table t current) :
    ∀ e ∈ t.tableEntries, e.action ≠ noAction := by
  induction h with
  | initial h =>
    unfold initializeTable at h
    split at h
    · cases h
    · rename_i entries initialized
      cases h
      exact named_of_mem_initial initialized
  | setTableKeyMatch before tableKeyMap ih =>
    intro e he
    obtain ⟨d, old, same⟩ := TableConfiguration.exists_of_mem_setTableKeyMatch he
    rw [TableMatchEntry.action, same]
    exact ih d old
  | p4Runtime before accepted ih => exact named_of_tableStep ih (P4Runtime.tableStep accepted)
  | bfRuntime before accepted ih => exact named_of_tableStep ih (BfRuntime.tableStep accepted)

end Invariants

section Values

variable {table : P4Table} {t : TableConfiguration table.controlPlaneName} {ρ value : Valuation}
  {current : CurrentDefault}

/-- What the default action assigns, the table assigns on a miss. -/
theorem find_missAssignments {x : SymbolicVariable} {v : x.type.Val}
    (h : t.defaultTableAction.actionAssignment.find x = some v) :
    t.missAssignments.find x = some v := by
  rw [TableConfiguration.missAssignments, OrderedMap.find_emplace, h, Option.some_or]

/-- On a miss an argument has what the default action assigns to it. -/
theorem find_argument_missAssignments (actionName parameter : String) (type : Ty) :
    t.missAssignments.find (getTableActionArgument table.controlPlaneName actionName parameter
        type) =
      t.defaultTableAction.actionAssignment.find (getTableActionArgument table.controlPlaneName
        actionName parameter type) := by
  rw [TableConfiguration.missAssignments, OrderedMap.find_emplace_ne _ _ (by simp)]

section Converted

variable {p4Action : P4Info.Action} {used : SymbolSet}
  (converted : ConvertedAction table.controlPlaneName p4Action true
    (t.defaultTableAction.actionAssignment, used))

include converted

/-- An action that overrides the default one leaves the choice to the entries. -/
theorem find_choice_of_converted :
    t.missAssignments.find (getTableActionChoice table.controlPlaneName) = none := by
  rw [OrderedMap.find_eq_none, TableConfiguration.missAssignments, OrderedMap.mem_keys_emplace]
  rintro (bound | same)
  · exact converted.not_mem (by simp) (by simp) bound
  · simp at same

theorem find_active_of_converted :
    t.missAssignments.find (getTableActive table.controlPlaneName) = some t.active := by
  have unbound : getTableActive table.controlPlaneName ∉
      t.defaultTableAction.actionAssignment.keys := converted.not_mem (by simp) (by simp)
  rw [TableConfiguration.missAssignments, OrderedMap.find_emplace_self,
    OrderedMap.find_eq_none.mpr unbound]
  rfl

end Converted

section Run

variable (assigned : ∀ x v, t.defaultTableAction.actionAssignment.find x = some v → value x = v)

include assigned

/-- The declared default action runs on every miss, as it assigns all that the table reads. -/
theorem missRunsDefault_declared (named : ∀ e ∈ t.tableEntries, e.action ≠ noAction)
    (carried : t.defaultTableAction.actionAssignment =
      computeDefaultActionConstraints table.controlPlaneName table.defaultAction) :
    MissRunsDefault table .declared t value := by
  have choice : value (getTableActionChoice table.controlPlaneName) = noAction := by
    refine assigned _ _ ?_
    rw [carried]
    exact find_choice_computeDefaultActionConstraints _ _
  have default : value (getDefaultActionVariable table.controlPlaneName) = noAction := by
    refine assigned _ _ ?_
    rw [carried]
    exact find_default_computeDefaultActionConstraints _ _
  refine ⟨?_, ⟨default, ?_⟩, ?_⟩
  · intro e he
    rw [choice]
    exact (named e he).symm
  · intro a ha
    refine assigned _ _ ?_
    rw [carried]
    exact find_argument ha
  · rw [choice, default]
    exact TableExecutor.selected_noAction _

/-- Where the valuation decides the action choice, it decides whether an overriding action runs. -/
theorem missRunsDefault_overridden_iff {p4Info : P4Info} {p4Action : P4Info.Action}
    {tableAction : TableAction} {used : SymbolSet} (described : p4Info.DescribesActions table)
    (known : p4Action ∈ p4Info.actions)
    (convert : convertTableAction tableAction table.controlPlaneName p4Action true =
      some (t.defaultTableAction.actionAssignment, used))
    (free : ∀ x, value x = (t.missAssignments.find x).getD (ρ x)) :
    MissRunsDefault table (.overridden p4Action tableAction) t value ↔
      MissCondition table t ρ [] (.overridden p4Action tableAction) := by
  have converted := convertedAction_of_convertTableAction convert
  have default : value (getDefaultActionVariable table.controlPlaneName) = p4Action.name :=
    assigned _ _ converted.name
  have choice : value (getTableActionChoice table.controlPlaneName) =
      ρ (getTableActionChoice table.controlPlaneName) := by
    rw [free, find_choice_of_converted converted]
    rfl
  have active : value (getTableActive table.controlPlaneName) = t.active := by
    rw [free, find_active_of_converted converted]
    rfl
  have passed : ∀ action ∈ table.actionList, action.action.controlPlaneName = p4Action.name →
      (tableAction.Passed table.controlPlaneName p4Action action.action value ↔
        tableAction.Conveyed table.controlPlaneName p4Action action.action ρ) := by
    intro action mem name
    refine passed_iff_conveyed (described action mem p4Action known name.symm) convert ?_
    intro parameter type
    rw [free, find_argument_missAssignments]
  constructor
  · intro h
    obtain ⟨action, selected, name, arguments⟩ := h.runs
    rw [choice, active, default] at selected
    have mem := TableExecutor.mem_of_selected selected
    exact ⟨rfl, fun e he => choice ▸ h.notChosen e he, action, selected, name,
      (passed action mem name).mp arguments⟩
  · rintro ⟨-, notChosen, action, selected, name, arguments⟩
    have mem := TableExecutor.mem_of_selected selected
    refine ⟨fun e he => choice.symm ▸ notChosen e he, ⟨_, convert, assigned⟩, action, ?_, name,
      (passed action mem name).mpr arguments⟩
    rw [choice, active, default]
    exact selected

end Run

/-- The values of a table on a miss decide what it runs. -/
theorem missRunsDefault_iff_of_values {p4Info : P4Info}
    {merged : List (TableMatchEntry table.controlPlaneName)}
    (described : p4Info.DescribesActions table) (known : current.Known p4Info)
    (subset : ∀ e ∈ merged, e ∈ t.tableEntries)
    (carried : current.Carried table t.defaultTableAction.actionAssignment)
    (named : ∀ e ∈ t.tableEntries, e.action ≠ noAction)
    (values : ∀ x, value x = ((t.missAssignments.find x).or
      ((t.alternatives ρ x merged).head?.map Prod.snd)).getD (ρ x)) :
    MissRunsDefault table current t value ↔ MissCondition table t ρ merged current := by
  have assigned : ∀ x v, t.defaultTableAction.actionAssignment.find x = some v → value x = v := by
    intro x v found
    rw [values, find_missAssignments found]
    rfl
  cases current with
  | declared => exact iff_of_true (missRunsDefault_declared assigned named carried) trivial
  | overridden p4Action tableAction =>
    obtain ⟨used, convert⟩ := carried
    cases merged with
    | nil =>
      refine missRunsDefault_overridden_iff assigned described known convert fun x => ?_
      rw [values]
      exact congrArg (Option.getD · _) (Option.or_none ..)
    | cons e merged =>
      -- the choice, which the override leaves free, is bound to the first entry
      have choice : value (getTableActionChoice table.controlPlaneName) = e.action := by
        rw [values, find_choice_of_converted (convertedAction_of_convertTableAction convert),
          TableConfiguration.alternatives_choice]
        rfl
      refine iff_of_false ?_ ?_
      · intro h
        exact h.notChosen e (subset e List.mem_cons_self) choice
      · rintro ⟨empty, -⟩
        cases empty

/-- On a miss a variable has the value of the default action, or else of the first entry. -/
theorem chain_alternatives_of_miss (miss : ∀ e ∈ t.tableEntries, t.applies ρ e = false)
    {merged : List (TableMatchEntry table.controlPlaneName)}
    (subset : ∀ e ∈ merged, e ∈ t.tableEntries) (x : SymbolicVariable) :
    Choice.chain (t.missAssignments.find x) (t.alternatives ρ x merged) =
      (t.missAssignments.find x).or ((t.alternatives ρ x merged).head?.map Prod.snd) := by
  refine Choice.chain_of_none fun g hg => ?_
  obtain ⟨e, he, found⟩ := List.mem_filterMap.mp hg
  obtain ⟨v, -, rfl⟩ := Option.map_eq_some_iff.mp found
  exact miss e (subset e he)

theorem values_of_miss (few : t.tableEntries.size ≤ kMaxEntriesPerTable)
    (miss : ∀ e ∈ t.tableEntries, t.applies ρ e = false) (x : SymbolicVariable) :
    t.values ρ x = ((t.missAssignments.find x).or
      ((t.alternatives ρ x t.tableEntries.list).head?.map Prod.snd)).getD (ρ x) := by
  have value : (t.computeControlPlaneAssignments.find x).map (Expr.eval ρ) =
      Choice.chain (t.missAssignments.find x) (t.alternatives ρ x t.tableEntries.list) :=
    t.value_of_few ρ few x
  rw [← chain_alternatives_of_miss miss (fun e he => he), ← value]
  rfl

theorem z3Values_of_miss [Z3.Lawful] (few : t.tableEntries.size ≤ kMaxEntriesPerTable)
    (miss : ∀ e ∈ t.tableEntries, t.applies ρ e = false) (x : SymbolicVariable) :
    t.z3Values ρ x = ((t.missAssignments.find x).or
      ((t.alternatives ρ x t.z3Entries).head?.map Prod.snd)).getD (ρ x) := by
  have value : (t.computeZ3ControlPlaneAssignments.find x).map (Z3.Lawful.eval ρ) =
      Choice.chain (t.missAssignments.find x) (t.alternatives ρ x t.z3Entries) :=
    t.z3Value_of_few ρ few x
  have subset : ∀ e ∈ t.z3Entries, e ∈ t.tableEntries := fun e he => (List.takeWhile_prefix _).subset he
  rw [← chain_alternatives_of_miss miss subset, ← value]
  rfl

/-- After accepted updates a table runs its default action on a miss exactly when nothing has
overridden the default action, or its assignments are made of no entry, the valuation itself leads to
the override, and the message conveys its arguments. -/
theorem missRunsDefault_iff [Z3.Lawful] {p4Info : P4Info} {target : ComputeMatch}
    (described : p4Info.DescribesActions table)
    (reachable : Reachable p4Info target table t current)
    (few : t.tableEntries.size ≤ kMaxEntriesPerTable)
    (miss : ∀ e ∈ t.tableEntries, t.applies ρ e = false) :
    (MissRunsDefault table current t (t.values ρ) ↔
        MissCondition table t ρ t.tableEntries.list current) ∧
      (MissRunsDefault table current t (t.z3Values ρ) ↔
        MissCondition table t ρ t.z3Entries current) := by
  constructor
  · refine missRunsDefault_iff_of_values described reachable.known (fun e he => he)
      reachable.carried reachable.named ?_
    exact values_of_miss few miss
  · refine missRunsDefault_iff_of_values described reachable.known ?_ reachable.carried
      reachable.named ?_
    · exact fun e he => (List.takeWhile_prefix _).subset he
    · exact z3Values_of_miss few miss

end Values

end Reachable

section Override

def missP4Table : P4Info.Table := ⟨1, "t", [⟨1, "k", 8, .exact⟩], false, 0⟩

def missP4Info : P4Info where
  tables := [missP4Table]
  actions := [⟨1, "drop", [], by decide⟩, ⟨2, "forward", [], by decide⟩]
  actionProfiles := []
  actionProfileExtern := none
  actionSelectorExtern := none

def missAction (name : String) (named : name ≠ noAction) : P4Action :=
  ⟨name, [], [], named, List.nodup_nil⟩

/-- A table with the actions `drop` and `forward` that is declared to drop on a miss. -/
def missTable : P4Table where
  controlPlaneName := "t"
  key := [⟨"k", .exact, false, 8, .path 0 "h.k" (.bit 8)⟩]
  actionList :=
    [⟨1, "drop", missAction "drop" (by decide), false, false⟩,
      ⟨2, "forward", missAction "forward" (by decide), false, false⟩]
  defaultAction := ⟨"drop", missAction "drop" (by decide), [], ActionCall.complete_nil⟩
  entries := []
  isImmutable := false

def missMessage (action key : Nat) (isDefaultAction : Bool) : TableEntryMessage where
  tableId := 1
  fields := [⟨1, .exact key⟩]
  action := some ⟨action, []⟩
  priority := 0
  isDefaultAction := isDefaultAction

/-- A packet whose key is 3. -/
def keyIsThree : Valuation
  | ⟨_, .boolean⟩ => false
  | ⟨_, .bits _ _⟩ => 3
  | ⟨_, .string⟩ => ""

/-- The table once the analysis has seen it applied. -/
def missInitial [Z3] [IrOrder] : TableConfiguration "t" :=
  (TableConfiguration.unconfigured
    ⟨computeDefaultActionConstraints "t" missTable.defaultAction⟩).setTableKeyMatch
      [.exact "t" "k" (.var (.dataPlane "h.k") (.bit 8))]

def insertMessage [Z3] [IrOrder] (message : TableEntryMessage) (t : TableConfiguration "t") :
    TableConfiguration "t" :=
  (P4Runtime.updateTable missP4Info missP4Table message .insert t).state

attribute [local instance] exprSolver exprSolver.lawful IrOrder.literals

/-- The table after an entry that forwards the key 1. -/
def missForwarding : TableConfiguration "t" :=
  insertMessage (missMessage 2 1 false) missInitial

/-- The table after a message that makes `drop` its default action, with an entry for the key 2, and
one that forwards the key 1. -/
def missOverridden : TableConfiguration "t" :=
  insertMessage (missMessage 2 1 false) (insertMessage (missMessage 1 2 true) missInitial)

def missOverride : CurrentDefault := .overridden ⟨1, "drop", [], by decide⟩ ⟨1, []⟩

def egressAction : P4Action :=
  ⟨"forward", [⟨"port", "port", .bit 9⟩], [], forward_named, List.nodup_singleton _⟩

/-- A table with the action `forward`, declared to forward to the port 0 on a miss. -/
def egressTable : P4Table where
  controlPlaneName := "t"
  key := [⟨"k", .exact, false, 8, .path 0 "h.k" (.bit 8)⟩]
  actionList := [⟨1, "forward", egressAction, false, false⟩]
  defaultAction := ⟨"forward", egressAction, [⟨⟨"port", "port", .bit 9⟩, 0⟩], rfl⟩
  entries := []
  isImmutable := false

def egressMessage (isDefaultAction : Bool) : TableEntryMessage :=
  { forwardMessage [⟨1, some 7⟩] with isDefaultAction }

def egressUpdate [Z3] [IrOrder] (isDefaultAction : Bool) (updateType : UpdateType)
    (t : TableConfiguration "t") : TableConfiguration "t" :=
  (P4Runtime.updateTable forwardP4Info forwardP4Table (egressMessage isDefaultAction) updateType
    t).state

/-- The table after a message that makes forwarding to the port 7 its default action, and one that
deletes the entry that came with it. -/
def egressOverridden : TableConfiguration "t" :=
  egressUpdate false .delete (egressUpdate true .insert
    (.unconfigured ⟨computeDefaultActionConstraints "t" egressTable.defaultAction⟩))

theorem reachable_missInitial :
    Reachable missP4Info (fun _ _ => bmv2ComputeMatch) missTable missInitial .declared :=
  .setTableKeyMatch (.initial rfl) _

theorem missP4Info_describesActions : missP4Info.DescribesActions missTable := by
  intro action listed p4Action declared name
  simp only [missTable, missP4Info, List.mem_cons, List.not_mem_nil, or_false] at listed declared
  rcases listed with rfl | rfl <;> rcases declared with rfl | rfl
  all_goals first | exact ⟨rfl, rfl⟩ | exact absurd name (by decide)

theorem reachable_egressOverridden :
    Reachable forwardP4Info (fun _ _ => bmv2ComputeMatch) egressTable egressOverridden
      (.overridden forwardP4Action ⟨1, [⟨1, some 7⟩]⟩) := by
  have overriding : P4Runtime.updateTable forwardP4Info forwardP4Table (egressMessage true) .insert
      (.unconfigured ⟨computeDefaultActionConstraints "t" egressTable.defaultAction⟩) =
        ⟨egressUpdate true .insert
          (.unconfigured ⟨computeDefaultActionConstraints "t" egressTable.defaultAction⟩),
          some _⟩ := rfl
  have deleting : P4Runtime.updateTable forwardP4Info forwardP4Table (egressMessage false) .delete
      (egressUpdate true .insert
        (.unconfigured ⟨computeDefaultActionConstraints "t" egressTable.defaultAction⟩)) =
        ⟨egressOverridden, some _⟩ := rfl
  have initial : Reachable forwardP4Info (fun _ _ => bmv2ComputeMatch) egressTable
      (.unconfigured ⟨computeDefaultActionConstraints "t" egressTable.defaultAction⟩) .declared :=
    .initial rfl
  exact (initial.p4Runtime overriding).p4Runtime deleting

theorem forwardP4Info_describesActions : forwardP4Info.DescribesActions egressTable := by
  intro action listed p4Action declared name
  cases List.mem_singleton.mp listed
  cases List.mem_singleton.mp declared
  exact ⟨rfl, rfl⟩

theorem missRunsDefault_forwarding :
    MissRunsDefault missTable .declared missForwarding (missForwarding.values keyIsThree) ∧
      MissRunsDefault egressTable (.overridden forwardP4Action ⟨1, [⟨1, some 7⟩]⟩) egressOverridden
        (egressOverridden.values keyIsThree) := by
  have accepted : P4Runtime.updateTable missP4Info missP4Table (missMessage 2 1 false) .insert
      missInitial = ⟨missForwarding, some [getTableActionChoice "t", getTableKey "t" "k" (.bit 8)]⟩ :=
    rfl
  have reachable : Reachable missP4Info (fun _ _ => bmv2ComputeMatch) missTable missForwarding
      .declared := reachable_missInitial.p4Runtime accepted
  constructor
  · refine (missRunsDefault_iff missP4Info_describesActions reachable (by decide) ?_).1.mpr trivial
    intro e he
    rw [SortedSet.mem_def] at he
    cases he with
    | head => decide
    | tail _ he => cases he
  · have empty : ∀ e, e ∉ egressOverridden.tableEntries := by
      intro e he
      rw [SortedSet.mem_def] at he
      cases he
    refine (missRunsDefault_iff forwardP4Info_describesActions reachable_egressOverridden (by decide)
      (fun e he => absurd he (empty e))).1.mpr ⟨rfl, fun e he => absurd he (empty e), ?_⟩
    refine ⟨⟨1, "forward", egressAction, false, false⟩, rfl, rfl, fun p mem => ?_⟩
    cases List.mem_singleton.mp mem
    exact ⟨7, rfl, .inl ⟨rfl, by simp⟩⟩

/-- After the override the table forwards a key that no entry matches. -/
theorem overridden_miss_forwards :
    Reachable missP4Info (fun _ _ => bmv2ComputeMatch) missTable missOverridden missOverride ∧
      missOverridden.tableEntries.size ≤ kMaxEntriesPerTable ∧
      (∀ e ∈ missOverridden.tableEntries, missOverridden.applies keyIsThree e = false) ∧
      missOverridden.values keyIsThree (getTableActionChoice "t") = "forward" ∧
      ¬MissRunsDefault missTable missOverride missOverridden
        (missOverridden.values keyIsThree) := by
  have overriding : P4Runtime.updateTable missP4Info missP4Table (missMessage 1 2 true) .insert
      missInitial = ⟨insertMessage (missMessage 1 2 true) missInitial,
        some [getDefaultActionVariable "t", getTableActionChoice "t",
          getTableKey "t" "k" (.bit 8)]⟩ := rfl
  have inserting : P4Runtime.updateTable missP4Info missP4Table (missMessage 2 1 false) .insert
      (insertMessage (missMessage 1 2 true) missInitial) =
        ⟨missOverridden, some [getTableActionChoice "t", getTableKey "t" "k" (.bit 8)]⟩ := rfl
  have forwards : missOverridden.values keyIsThree (getTableActionChoice "t") = "forward" := by
    decide
  refine ⟨(reachable_missInitial.p4Runtime overriding).p4Runtime inserting, by decide, ?_,
    forwards, ?_⟩
  · intro e he
    rw [SortedSet.mem_def] at he
    cases he with
    | head => decide
    | tail _ he =>
      cases he with
      | head => decide
      | tail _ he => cases he
  · intro h
    obtain ⟨action, selected, name, -⟩ := h.runs
    have runs : (TableExecutor.selected missTable
        (missOverridden.values keyIsThree (getTableActive "t"))
        (missOverridden.values keyIsThree (getTableActionChoice "t"))
        (missOverridden.values keyIsThree (getDefaultActionVariable "t"))).map
          (·.action.controlPlaneName) = some "drop" :=
      (congrArg (Option.map _) selected).trans (congrArg some name)
    exact absurd runs (by decide)

end Override

end Flay
