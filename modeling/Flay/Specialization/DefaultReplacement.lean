import Flay.ControlPlane.Miss
import Flay.ControlPlane.Priority
import Flay.Interpreter.TableSimulation
import Flay.Specialization.ElimDeadCode

/-! When `ElimDeadCode` may replace the application of a table by its declared default action. -/

namespace Flay

open Container

/-- What an application of a table executes: its declared default action, or an action of its list
with arguments, or an action that it does not list. -/
inductive ExecutedAction
  | declared
  | listed (action : ActionListElement) (arguments : List (Sigma fun p : Parameter => p.type.Val))
  | unlisted (name : String)

namespace ExecutedAction

variable (table : P4Table)

/-- The action and the arguments. -/
def call : ExecutedAction → Option (P4Action × List (Sigma fun p : Parameter => p.type.Val))
  | declared => some (table.defaultAction.action, table.defaultAction.arguments)
  | listed action arguments => some (action.action, arguments)
  | unlisted _ => none

/-- It is the declared default action, with its declared arguments. -/
def IsDeclared (executed : ExecutedAction) : Prop := executed.call table = declared.call table

/-- It is the action of the list. -/
def Runs (action : ActionListElement) : ExecutedAction → Prop
  | declared => action.path = table.defaultAction.path
  | listed other _ => other = action
  | unlisted _ => False

/-- It is an action that the loop over the reachability of the actions does not look at, and not the
declared default action with its declared arguments. -/
inductive Overlooked : ExecutedAction → Prop
  | listed {action : ActionListElement}
      {arguments : List (Sigma fun p : Parameter => p.type.Val)}
      (skipped : action.defaultOnly = true ∨ action.path = table.defaultAction.path)
      (other : ¬(ExecutedAction.listed action arguments).IsDeclared table) :
      Overlooked (.listed action arguments)
  | unlisted (name : String) : Overlooked (.unlisted name)

/-- The action of the name, with the arguments that are assigned. Those that are not may be any. -/
inductive Named (name : String) (assignment : LiteralAssignmentSet) : ExecutedAction → Prop
  | listed {action : ActionListElement} (ρ : Valuation) (mem : action ∈ table.actionList)
      (named : action.action.controlPlaneName = name) :
      Named name assignment (.listed action (action.action.parameters.map fun p =>
        ⟨p, TableExecutor.controlPlaneValue (assignment.bind ρ) table.controlPlaneName name p⟩))
  | unlisted (missing : ∀ action ∈ table.actionList, action.action.controlPlaneName ≠ name) :
      Named name assignment (.unlisted name)

end ExecutedAction

/-- Before it replaces an application, the pass has seen that no action can run that is neither
`@defaultonly` nor named like the declared default action. -/
theorem unreachable_of_rewritten {reachability : Node → Option Bool} {table : P4Table}
    (rewritten : ElimDeadCode.preorderMethodCall reachability table ≠ .apply table)
    {action : ActionListElement} (mem : action ∈ table.actionList)
    (listed : action.defaultOnly = false) (other : action.path ≠ table.defaultAction.path) :
    reachability action.node = some false := by
  unfold ElimDeadCode.preorderMethodCall at rewritten
  split at rewritten
  · exact absurd rfl rewritten
  · split at rewritten
    · rename_i none
      have all := List.all_eq_true.mp none action (List.mem_filter.mpr ⟨mem, by simp [listed]⟩)
      simpa [other] using all
    · exact absurd rfl rewritten

section Configuration

variable [Z3] [IrOrder]

/-- Which of the entries that match a packet the target lets handle it. -/
structure EntryChoice {tableName : String} (t : TableConfiguration tableName) where
  handles : Valuation → TableMatchEntry tableName → Prop
  mem : ∀ packet e, handles packet e → e ∈ t.tableEntries
  applies : ∀ packet e, handles packet e → t.applies packet e = true

/-- The entries with the highest priority. -/
def TableConfiguration.highestPriority {tableName : String} (t : TableConfiguration tableName) :
    EntryChoice t where
  handles := t.HighestPriority
  mem _ _ h := h.mem
  applies _ _ h := h.applies

/-- What the table executes for a packet under the configuration: the action of the entry that handles
it, or on a miss the default action. -/
inductive Executes (table : P4Table) (t : TableConfiguration table.controlPlaneName)
    (choice : EntryChoice t) (packet : Valuation) : ExecutedAction → Prop
  | entry {e : TableMatchEntry table.controlPlaneName} {executed : ExecutedAction}
      (handled : choice.handles packet e)
      (named : executed.Named table e.action e.actionAssignment) :
      Executes table t choice packet executed
  | override {name : String} {executed : ExecutedAction}
      (miss : ∀ e ∈ t.tableEntries, t.applies packet e = false)
      (default : t.defaultTableAction.actionAssignment.find
        (getDefaultActionVariable table.controlPlaneName) = some name)
      (overridden : name ≠ noAction)
      (named : executed.Named table name t.defaultTableAction.actionAssignment) :
      Executes table t choice packet executed
  | declared (miss : ∀ e ∈ t.tableEntries, t.applies packet e = false)
      (default : t.defaultTableAction.actionAssignment.find
        (getDefaultActionVariable table.controlPlaneName) = some noAction) :
      Executes table t choice packet .declared

/-- The verdict of an action says that no packet, or that every packet, makes the table run it, when
that is so, and nothing otherwise. -/
structure ExactVerdicts (reachability : Node → Option Bool) (table : P4Table)
    (t : TableConfiguration table.controlPlaneName) (choice : EntryChoice t) : Prop where
  never : ∀ action ∈ table.actionList, reachability action.node = some false ↔
    ∀ packet executed, Executes table t choice packet executed → ¬executed.Runs table action
  always : ∀ action ∈ table.actionList, reachability action.node = some true ↔
    ∀ packet executed, Executes table t choice packet executed → executed.Runs table action

variable {reachability : Node → Option Bool} {table : P4Table}
  {t : TableConfiguration table.controlPlaneName} {choice : EntryChoice t}

theorem Executes.mem {packet : Valuation} {action : ActionListElement}
    {arguments : List (Sigma fun p : Parameter => p.type.Val)}
    (h : Executes table t choice packet (.listed action arguments)) :
    action ∈ table.actionList := by
  cases h with
  | entry _ named =>
    cases named
    assumption
  | override _ _ _ named =>
    cases named
    assumption

/-- Where the pass replaces an application by the declared default action, or removes it, the table
executes exactly that action, with its declared arguments, for every packet: unless a packet is
handled by an entry or an override that the pass has not looked for. -/
theorem replacement_sound_iff (exact : ExactVerdicts reachability table t choice)
    (rewritten : ElimDeadCode.preorderMethodCall reachability table ≠ .apply table) :
    (∀ packet executed, Executes table t choice packet executed → executed.IsDeclared table) ↔
      ∀ packet executed, Executes table t choice packet executed → ¬executed.Overlooked table := by
  constructor
  · intro sound packet executed h overlooked
    have isDeclared := sound packet executed h
    cases overlooked with
    | listed _ other => exact other isDeclared
    | unlisted name => cases isDeclared
  · intro noticed packet executed h
    have noticed := noticed packet executed h
    cases executed with
    | declared => rfl
    | unlisted name => exact absurd (.unlisted name) noticed
    | listed action arguments =>
      by_contra other
      have skipped : ¬(action.defaultOnly = true ∨ action.path = table.defaultAction.path) :=
        fun skipped => noticed (.listed skipped other)
      obtain ⟨listed, path⟩ := not_or.mp skipped
      have unreachable := unreachable_of_rewritten rewritten h.mem (by simpa using listed) path
      exact (exact.never action h.mem).mp unreachable packet _ h rfl

end Configuration

section Replaced

theorem portCall_complete (port : BitVec 8) :
    [(⟨⟨"port", "port", .bit 8⟩, port⟩ : Sigma fun p : Parameter => p.type.Val)].map Sigma.fst =
      [(⟨"port", "port", .bit 8⟩ : Parameter)] := rfl

def setPort : P4Action where
  controlPlaneName := "set_port"
  parameters := [⟨"port", "port", .bit 8⟩]
  body := [.assignment (t := .bit 8) "egress_port" (.path 3 "port" (.bit 8))]
  named := by decide
  distinct := by decide

/-- A table that sets the port 1 on a miss, and whose only action sets a port. -/
def portTable : P4Table where
  controlPlaneName := "t"
  key := [⟨"k", .exact, false, 8, .path 0 "h.k" (.bit 8)⟩]
  actionList := [⟨1, "set_port", setPort, false, false⟩]
  defaultAction := ⟨"set_port", setPort, [⟨⟨"port", "port", .bit 8⟩, (1 : BitVec 8)⟩],
    portCall_complete 1⟩
  entries := []
  isImmutable := false

open ControlPlaneStateInitializer

attribute [local instance] exprSolver exprSolver.lawful IrOrder.literals

/-- The entry that sets the port 2 for the key 1. -/
def portEntry : TableMatchEntry "t" :=
  .create ((OrderedMap.empty.emplace (getTableActionChoice "t") "set_port").emplace
      (getTableActionArgument "t" "set_port" "port" (.bit 8)) (2 : BitVec 8)) 0
    (OrderedMap.empty.emplace (getTableKey "t" "k" (.bit 8)) (1 : BitVec 8))
    (OrderedMap.mem_keys_emplace.mpr (.inl (OrderedMap.mem_keys_emplace.mpr (.inr rfl))))

def portConfiguration : TableConfiguration "t" :=
  let t := (TableConfiguration.unconfigured
    ⟨computeDefaultActionConstraints "t" portTable.defaultAction⟩).setTableKeyMatch
      [.exact "t" "k" (.var (.dataPlane "h.k") (.bit 8))]
  (t.addTableEntry portEntry false).1

theorem portConfiguration_entries :
    portConfiguration.tableEntries.list =
      [portEntry.setZ3Condition (Z3.set portConfiguration.tableKeyMatch)] := rfl

theorem portConfiguration_default :
    portConfiguration.defaultTableAction.actionAssignment.find (getDefaultActionVariable "t") =
      some noAction := rfl

/-- The only action of `portTable` runs for every packet, from the entry or by default. -/
theorem runs_of_executes_portTable {packet : Valuation} {executed : ExecutedAction}
    {action : ActionListElement} (mem : action ∈ portTable.actionList)
    (h : Executes portTable portConfiguration portConfiguration.highestPriority packet executed) :
    executed.Runs portTable action := by
  cases List.mem_singleton.mp mem
  cases h with
  | @entry e _ handled named =>
    have known : e = portEntry.setZ3Condition (Z3.set portConfiguration.tableKeyMatch) :=
      List.mem_singleton.mp (portConfiguration.highestPriority.mem packet e handled)
    subst known
    cases named with
    | listed _ mem' _ => exact List.mem_singleton.mp mem'
    | unlisted missing => exact absurd rfl (missing _ List.mem_cons_self)
  | override _ default overridden _ =>
    have same := portConfiguration_default.symm.trans default
    exact absurd (Option.some.inj same).symm overridden
  | declared _ _ => rfl

theorem miss_portConfiguration (e : TableMatchEntry "t") (mem : e ∈ portConfiguration.tableEntries) :
    portConfiguration.applies keyIsThree e = false := by
  rw [SortedSet.mem_def, portConfiguration_entries, List.mem_singleton] at mem
  subst mem
  decide

theorem exactVerdicts_portTable :
    ExactVerdicts (fun _ => some true) portTable portConfiguration
      portConfiguration.highestPriority := by
  refine ⟨fun action mem => ?_, fun action mem => ?_⟩
  · refine iff_of_false (by decide) fun never => ?_
    have missed : Executes portTable portConfiguration portConfiguration.highestPriority keyIsThree
        .declared := .declared miss_portConfiguration portConfiguration_default
    exact never keyIsThree .declared missed (runs_of_executes_portTable mem missed)
  · exact iff_of_true rfl fun packet executed h => runs_of_executes_portTable mem h

/-- The entry makes the table run its action with the port 2. -/
theorem executes_portEntry :
    Executes portTable portConfiguration portConfiguration.highestPriority keyIsOne
      (.listed ⟨1, "set_port", setPort, false, false⟩
        [⟨⟨"port", "port", .bit 8⟩, (2 : BitVec 8)⟩]) := by
  have handled : portConfiguration.HighestPriority keyIsOne
      (portEntry.setZ3Condition (Z3.set portConfiguration.tableKeyMatch)) := by
    refine ⟨List.mem_singleton.mpr rfl, by decide, fun d hd _ => ?_⟩
    rw [SortedSet.mem_def, portConfiguration_entries, List.mem_singleton] at hd
    subst hd
    exact Int.le_refl 0
  exact .entry handled (.listed keyIsOne List.mem_cons_self rfl)

/-- The application is replaced by `set_port(1)`, though for the key 1 an entry sets the port 2. -/
theorem replacement_ignores_entry :
    ExactVerdicts (fun _ => some true) portTable portConfiguration
        portConfiguration.highestPriority ∧
      ElimDeadCode.preorderMethodCall (fun _ => some true) portTable =
        .call portTable.defaultAction ∧
      ¬∀ packet executed, Executes portTable portConfiguration portConfiguration.highestPriority
        packet executed → executed.IsDeclared portTable := by
  refine ⟨exactVerdicts_portTable, rfl, fun sound => ?_⟩
  have isDeclared := sound keyIsOne _ executes_portEntry
  have arguments := congrArg Prod.snd (Option.some.inj isDeclared)
  have ports : (2 : BitVec 8) = 1 := eq_of_heq (Sigma.mk.inj (List.cons.inj arguments).1).2
  exact absurd ports (by decide)

/-- The configuration of `missTable` with an entry that drops the key 1. -/
def missDropping : TableConfiguration "t" := insertMessage (missMessage 1 1 false) missInitial

theorem drop_named : "drop" ≠ noAction := by decide

def dropElement : ActionListElement := ⟨1, "drop", missAction "drop" drop_named, false, false⟩

/-- The entry drops a packet as the declared default action does. -/
theorem executes_missDropping {packet : Valuation} {executed : ExecutedAction}
    (h : Executes missTable missDropping missDropping.highestPriority packet executed) :
    executed = .declared ∨ executed = .listed dropElement [] := by
  cases h with
  | @entry e _ handled named =>
    have mem : e ∈ missDropping.tableEntries.list :=
      missDropping.highestPriority.mem packet e handled
    cases mem with
    | tail _ none => cases none
    | head =>
      cases named with
      | unlisted missing => exact absurd rfl (missing dropElement List.mem_cons_self)
      | listed _ listed name =>
        rcases List.mem_pair.mp listed with rfl | rfl
        · exact .inr rfl
        · exact absurd name (by decide)
  | override _ default overridden _ => exact absurd (Option.some.inj default).symm overridden
  | declared _ _ => exact .inl rfl

theorem runs_missDropping {packet : Valuation} {executed : ExecutedAction} {action : ActionListElement}
    (mem : action ∈ missTable.actionList)
    (h : Executes missTable missDropping missDropping.highestPriority packet executed) :
    executed.Runs missTable action ↔ action = dropElement := by
  have paths : "forward" ≠ "drop" := by decide
  have nodes : 2 ≠ 1 := by decide
  rcases executes_missDropping h with rfl | rfl
  · rcases List.mem_pair.mp mem with rfl | rfl
    · exact iff_of_true rfl rfl
    · exact iff_of_false paths fun same => nodes (congrArg ActionListElement.node same)
  · exact eq_comm

theorem exactVerdicts_missDropping :
    ExactVerdicts (fun node => some (node == 1)) missTable missDropping
      missDropping.highestPriority := by
  have missed : Executes missTable missDropping missDropping.highestPriority keyIsThree .declared := by
    refine .declared (fun e mem => ?_) rfl
    rw [SortedSet.mem_def] at mem
    cases mem with
    | head => decide
    | tail _ none => cases none
  have verdicts : ∀ action ∈ missTable.actionList, (action.node == 1) = true ↔
      action = dropElement := by
    intro action mem
    have nodes : 2 ≠ 1 := by decide
    rcases List.mem_pair.mp mem with rfl | rfl
    · exact iff_of_true rfl rfl
    · exact iff_of_false (by decide) fun same => nodes (congrArg ActionListElement.node same)
  refine ⟨fun action mem => ?_, fun action mem => ?_⟩
  · rw [Option.some.injEq, ← Bool.not_eq_true, verdicts action mem]
    constructor
    · intro other packet executed h runs
      exact other ((runs_missDropping mem h).mp runs)
    · intro never same
      exact never keyIsThree .declared missed ((runs_missDropping mem missed).mpr same)
  · rw [Option.some.injEq, verdicts action mem]
    constructor
    · intro same packet executed h
      exact (runs_missDropping mem h).mpr same
    · intro always
      exact (runs_missDropping mem missed).mp (always keyIsThree .declared missed)

/-- The application of `missTable` goes away, and its declared default action is what every packet
runs, also one that the entry handles. -/
theorem replacement_sound_missTable :
    ElimDeadCode.preorderMethodCall (fun node => some (node == 1)) missTable = .empty ∧
      missDropping.tableEntries.size = 1 ∧
      ∀ packet executed,
        Executes missTable missDropping missDropping.highestPriority packet executed →
          executed.IsDeclared missTable := by
  refine ⟨rfl, rfl, (replacement_sound_iff exactVerdicts_missDropping ?_).mpr ?_⟩
  · intro kept
    have replaced : ElimDeadCode.preorderMethodCall (fun node => some (node == 1)) missTable =
      .empty := rfl
    rw [replaced] at kept
    cases kept
  · intro packet executed h overlooked
    rcases executes_missDropping h with rfl | rfl
    · cases overlooked
    · cases overlooked with
      | listed _ other => exact other rfl

end Replaced

end Flay
