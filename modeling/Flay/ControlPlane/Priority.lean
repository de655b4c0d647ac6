import Flay.ControlPlane.Initializer
import Flay.ControlPlane.Semantics

/-! Which of several matching entries decides the action that a table chooses and the arguments of
this action. -/

namespace Flay

open Container

namespace TableConfiguration

variable [Z3] [IrOrder] {tableName : String} (t : TableConfiguration tableName) (ρ : Valuation)

/-- The value of the action choice under `computeControlPlaneAssignments`. -/
def choice : Option String :=
  (t.computeControlPlaneAssignments.find (getTableActionChoice tableName)).map (Expr.eval ρ)

/-- The value of the action choice under `computeZ3ControlPlaneAssignments`. -/
def z3Choice [Z3.Lawful] : Option String :=
  (t.computeZ3ControlPlaneAssignments.find (getTableActionChoice tableName)).map (Z3.Lawful.eval ρ)

/-- The entry matches, and no matching entry comes after it in the order of the entry set, which is
the one of the match values. -/
structure LastMatch (e : TableMatchEntry tableName) : Prop where
  mem : e ∈ t.tableEntries
  applies : t.applies ρ e = true
  last : ∀ d ∈ t.tableEntries, t.applies ρ d = true → TableMatchEntry.order.less e d = false

/-- The entry matches, and no matching entry has a higher priority. -/
structure HighestPriority (e : TableMatchEntry tableName) : Prop where
  mem : e ∈ t.tableEntries
  applies : t.applies ρ e = true
  highest : ∀ d ∈ t.tableEntries, t.applies ρ d = true → d.priority ≤ e.priority

/-- The entry is the first of the program's entries that matches. -/
def FirstMatch (program : List (TableMatchEntry tableName)) (e : TableMatchEntry tableName) :
    Prop :=
  ∃ before after, program = before ++ e :: after ∧ t.applies ρ e = true ∧
    ∀ d ∈ before, t.applies ρ d = false

theorem exists_lastMatch (matched : ∃ e ∈ t.tableEntries, t.applies ρ e = true) :
    ∃ before e after, t.tableEntries.list = before ++ e :: after ∧ t.LastMatch ρ e ∧
      ∀ d ∈ after, t.applies ρ d = false := by
  obtain ⟨before, e, after, split, applies, later⟩ := Choice.exists_last matched
  have sorted := t.tableEntries.sorted
  rw [split, List.pairwise_append] at sorted
  obtain ⟨-, tail, across⟩ := sorted
  refine ⟨before, e, after, split, ⟨?_, applies, fun d hd matching => ?_⟩, fun d hd => ?_⟩
  · exact SortedSet.mem_def.mpr (split ▸ List.mem_append_right _ List.mem_cons_self)
  · rw [SortedSet.mem_def, split, List.mem_append, List.mem_cons] at hd
    rcases hd with hd | rfl | hd
    · exact TableMatchEntry.order.asymm (across d hd e List.mem_cons_self)
    · exact TableMatchEntry.order.irrefl d
    · exact absurd matching (later d hd)
  · simpa using later d hd

theorem LastMatch.unique {d e : TableMatchEntry tableName} (hd : t.LastMatch ρ d)
    (he : t.LastMatch ρ e) : d = e := by
  refine SortedSet.eq_of_equiv hd.mem he.mem ?_
  exact (WeakOrder.equiv_iff _).mpr ⟨hd.last e he.mem he.applies, he.last d hd.mem hd.applies⟩

/-- The last matching entry, in the order of the match values, decides every variable that it
assigns. -/
theorem value_of_lastMatch [Z3.Lawful] (few : t.tableEntries.size ≤ kMaxEntriesPerTable)
    {e : TableMatchEntry tableName} (h : t.LastMatch ρ e) {x : SymbolicVariable} {v : x.type.Val}
    (assigns : e.actionAssignment.find x = some v) :
    (t.computeControlPlaneAssignments.find x).map (Expr.eval ρ) = some v ∧
      (t.computeZ3ControlPlaneAssignments.find x).map (Z3.Lawful.eval ρ) = some v := by
  obtain ⟨before, d, after, split, last, later⟩ := t.exists_lastMatch ρ ⟨e, h.mem, h.applies⟩
  cases LastMatch.unique t ρ h last
  have own : t.alternatives ρ x (e :: after) = (true, v) :: t.alternatives ρ x after := by
    rw [alternatives_cons, assigns, h.applies]
    rfl
  have decided : Choice.chain (t.missAssignments.find x)
      (t.alternatives ρ x t.tableEntries.list) = some v := by
    rw [split, alternatives_append, own]
    exact Choice.chain_of_last (t.alternatives_of_none ρ x later)
  refine ⟨(t.value_of_few ρ few x).trans decided, ?_⟩
  rw [t.z3Value_of_few ρ few, t.z3Entries_of_applies ρ h.applies]
  exact decided

theorem choice_of_lastMatch [Z3.Lawful] (few : t.tableEntries.size ≤ kMaxEntriesPerTable)
    {e : TableMatchEntry tableName} (h : t.LastMatch ρ e) :
    t.choice ρ = some e.action ∧ t.z3Choice ρ = some e.action :=
  t.value_of_lastMatch ρ few h e.find_choice

/-- The action chosen is the one of an entry that `preferred` picks. -/
def Wins (preferred : TableMatchEntry tableName → Prop) (value : Option String) : Prop :=
  ∃ e, preferred e ∧ value = some e.action

/-- The last matching entry has the action of an entry that `preferred` picks. -/
def LastMatchAgrees (preferred : TableMatchEntry tableName → Prop) : Prop :=
  ∃ d e, t.LastMatch ρ d ∧ preferred e ∧ d.action = e.action

theorem wins_iff_lastMatchAgrees [Z3.Lawful] (few : t.tableEntries.size ≤ kMaxEntriesPerTable)
    (matched : ∃ e ∈ t.tableEntries, t.applies ρ e = true)
    (preferred : TableMatchEntry tableName → Prop) :
    (Wins preferred (t.choice ρ) ↔ t.LastMatchAgrees ρ preferred) ∧
      (Wins preferred (t.z3Choice ρ) ↔ t.LastMatchAgrees ρ preferred) := by
  obtain ⟨before, d, after, -, last, -⟩ := t.exists_lastMatch ρ matched
  have agrees : t.LastMatchAgrees ρ preferred ↔ ∃ e, preferred e ∧ some d.action = some e.action := by
    constructor
    · rintro ⟨d', e, last', he, same⟩
      cases LastMatch.unique t ρ last last'
      exact ⟨e, he, congrArg some same⟩
    · rintro ⟨e, he, same⟩
      exact ⟨d, e, last, he, Option.some.inj same⟩
  obtain ⟨chosen, z3Chosen⟩ := t.choice_of_lastMatch ρ few last
  rw [agrees, Wins, Wins, chosen, z3Chosen]
  exact ⟨Iff.rfl, Iff.rfl⟩

/-- The highest priority wins, or for the entries of a program the first of them, exactly when the
last matching entry in the order of the match values has that action. -/
theorem highestPriority_wins_iff [Z3.Lawful] (few : t.tableEntries.size ≤ kMaxEntriesPerTable)
    (matched : ∃ e ∈ t.tableEntries, t.applies ρ e = true) :
    ((Wins (t.HighestPriority ρ) (t.choice ρ) ↔ t.LastMatchAgrees ρ (t.HighestPriority ρ)) ∧
      (Wins (t.HighestPriority ρ) (t.z3Choice ρ) ↔ t.LastMatchAgrees ρ (t.HighestPriority ρ))) ∧
    ∀ program : List (TableMatchEntry tableName),
      (Wins (t.FirstMatch ρ program) (t.choice ρ) ↔
        t.LastMatchAgrees ρ (t.FirstMatch ρ program)) ∧
      (Wins (t.FirstMatch ρ program) (t.z3Choice ρ) ↔
        t.LastMatchAgrees ρ (t.FirstMatch ρ program)) :=
  ⟨t.wins_iff_lastMatchAgrees ρ few matched _,
    fun program => t.wins_iff_lastMatchAgrees ρ few matched (t.FirstMatch ρ program)⟩

/-- The variable has the value that the entry assigns to it, in both forms of the assignments. -/
structure TakesFrom [Z3.Lawful] (e : TableMatchEntry tableName) (x : SymbolicVariable) : Prop where
  assigned : x ∈ e.actionAssignment.keys
  value : (t.computeControlPlaneAssignments.find x).map (Expr.eval ρ) = e.actionAssignment.find x
  z3Value : (t.computeZ3ControlPlaneAssignments.find x).map (Z3.Lawful.eval ρ) =
    e.actionAssignment.find x

theorem takesFrom_lastMatch [Z3.Lawful] (few : t.tableEntries.size ≤ kMaxEntriesPerTable)
    {e : TableMatchEntry tableName} (last : t.LastMatch ρ e) {x : SymbolicVariable}
    (assigned : x ∈ e.actionAssignment.keys) : t.TakesFrom ρ e x := by
  obtain ⟨v, assigns⟩ := OrderedMap.exists_find_of_mem assigned
  obtain ⟨value, z3Value⟩ := t.value_of_lastMatch ρ few last assigns
  exact ⟨assigned, value.trans assigns.symm, z3Value.trans assigns.symm⟩

/-- The action that a table chooses and all arguments of this action come from one entry. -/
theorem exists_takesFrom [Z3.Lawful] (few : t.tableEntries.size ≤ kMaxEntriesPerTable)
    (parameters : String → List (String × Ty))
    (complete : ∀ e ∈ t.tableEntries, ∀ parameter ∈ parameters e.action,
      getTableActionArgument tableName e.action parameter.1 parameter.2 ∈ e.actionAssignment.keys)
    (matched : ∃ e ∈ t.tableEntries, t.applies ρ e = true) :
    ∃ e ∈ t.tableEntries, t.applies ρ e = true ∧
      t.choice ρ = some e.action ∧ t.z3Choice ρ = some e.action ∧
        ∀ parameter ∈ parameters e.action,
          t.TakesFrom ρ e
            (getTableActionArgument tableName e.action parameter.1 parameter.2) := by
  obtain ⟨-, e, -, -, last, -⟩ := t.exists_lastMatch ρ matched
  obtain ⟨choice, z3Choice⟩ := t.choice_of_lastMatch ρ few last
  refine ⟨e, last.mem, last.applies, choice, z3Choice, fun parameter declared => ?_⟩
  exact t.takesFrom_lastMatch ρ few last (complete e last.mem parameter declared)

end TableConfiguration

section Overlap

/-- An entry of the table `t` that matches its key `k` on the bits of the mask. -/
def ternaryEntry [Z3] (action : String) (priority : Int) (value mask : BitVec 8) :
    TableMatchEntry "t" :=
  .create (OrderedMap.empty.emplace (getTableActionChoice "t") action) priority
    ((OrderedMap.empty.emplace (getTableKey "t" "k" (.bit 8)) value).emplace
      (getTableTernaryMask "t" "k" (.bit 8)) mask)
    (OrderedMap.mem_keys_emplace.mpr (.inr rfl))

/-- The table `t` with an entry for all keys and one for the key 1. -/
def overlapping [Z3] [IrOrder] (allKeys keyOne : Int) : TableConfiguration "t" :=
  let t := TableConfiguration.unconfigured ⟨OrderedMap.empty⟩
  let t := t.setTableKeyMatch [.ternary "t" "k" (.var (.dataPlane "h.k") (.bit 8))]
  let t := (t.addTableEntry (ternaryEntry "all_keys" allKeys 0 0) false).1
  (t.addTableEntry (ternaryEntry "key_one" keyOne 1 255) false).1

/-- A packet whose key is 1. -/
def keyIsOne : Valuation
  | ⟨_, .boolean⟩ => false
  | ⟨_, .bits _ _⟩ => 1
  | ⟨_, .string⟩ => ""

attribute [local instance] exprSolver exprSolver.lawful IrOrder.literals

theorem overlapping_entries (allKeys keyOne : Int) :
    (overlapping allKeys keyOne).tableEntries.list =
      [(ternaryEntry "all_keys" allKeys 0 0).setZ3Condition
          (Z3.set (overlapping allKeys keyOne).tableKeyMatch),
        (ternaryEntry "key_one" keyOne 1 255).setZ3Condition
          (Z3.set (overlapping allKeys keyOne).tableKeyMatch)] :=
  rfl

theorem highestPriority_wins_overlapping :
    TableConfiguration.Wins ((overlapping 1 10).HighestPriority keyIsOne)
      ((overlapping 1 10).choice keyIsOne) := by
  refine (((overlapping 1 10).highestPriority_wins_iff keyIsOne (by decide) ?_).1.1).mpr ?_
  · exact ⟨_, List.mem_cons_self, by decide⟩
  · refine ⟨_, _, ⟨List.mem_cons_of_mem _ List.mem_cons_self, by decide, ?_⟩,
      ⟨List.mem_cons_of_mem _ List.mem_cons_self, by decide, ?_⟩, rfl⟩ <;>
      intro d hd _ <;>
      rw [SortedSet.mem_def, overlapping_entries, List.mem_pair] at hd <;>
      rcases hd with rfl | rfl <;> decide

/-- The entry for the key 1 is chosen over one for all keys that has a higher priority. -/
theorem lowerPriority_wins_overlapping :
    (overlapping 10 1).tableEntries.size ≤ kMaxEntriesPerTable ∧
      (∃ e ∈ (overlapping 10 1).tableEntries, (overlapping 10 1).applies keyIsOne e = true) ∧
      ¬TableConfiguration.Wins ((overlapping 10 1).HighestPriority keyIsOne)
        ((overlapping 10 1).choice keyIsOne) := by
  have chosen : (overlapping 10 1).choice keyIsOne = some "key_one" := by decide
  refine ⟨by decide, ⟨_, List.mem_cons_self, by decide⟩, ?_⟩
  rintro ⟨e, highest, same⟩
  have mem := highest.mem
  rw [SortedSet.mem_def, overlapping_entries, List.mem_pair] at mem
  rcases mem with rfl | rfl
  · rw [chosen] at same
    exact absurd same (by decide)
  · have := highest.highest _ List.mem_cons_self (by decide)
    exact absurd this (by decide)

/-- An entry that matches its key `k` on the bits of the mask and forwards to the port. -/
def maskedEntry [Z3] (port : BitVec 9) (value mask : BitVec 8) : TableMatchEntry "t" :=
  .create
    ((OrderedMap.empty.emplace (getTableActionChoice "t") "forward").emplace
      (getTableActionArgument "t" "forward" "port" (.bit 9)) port)
    0
    ((OrderedMap.empty.emplace (getTableKey "t" "k" (.bit 8)) value).emplace
      (getTableTernaryMask "t" "k" (.bit 8)) mask)
    (OrderedMap.mem_keys_emplace.mpr (.inl (OrderedMap.mem_keys_emplace.mpr (.inr rfl))))

/-- A table that forwards to port 0 by default, all keys to port 1 and the key 1 to port 2. -/
def forwardPorts [Z3] [IrOrder] : TableConfiguration "t" :=
  let t := TableConfiguration.unconfigured
    ⟨OrderedMap.empty.emplace (getTableActionArgument "t" "forward" "port" (.bit 9)) 0⟩
  let t := t.setTableKeyMatch [.ternary "t" "k" (.var (.dataPlane "h.k") (.bit 8))]
  let t := (t.addTableEntry (maskedEntry 1 0 0) false).1
  (t.addTableEntry (maskedEntry 2 1 255) false).1

theorem forwardPorts_entries :
    forwardPorts.tableEntries.list =
      [(maskedEntry 1 0 0).setZ3Condition (Z3.set forwardPorts.tableKeyMatch),
        (maskedEntry 2 1 255).setZ3Condition (Z3.set forwardPorts.tableKeyMatch)] :=
  rfl

theorem exists_takesFrom_forwardPorts :
    ∃ e ∈ forwardPorts.tableEntries, forwardPorts.applies keyIsOne e = true ∧
      forwardPorts.choice keyIsOne = some e.action ∧ forwardPorts.z3Choice keyIsOne = some e.action ∧
        ∀ parameter ∈ [("port", Ty.bit 9)],
          forwardPorts.TakesFrom keyIsOne e
            (getTableActionArgument "t" e.action parameter.1 parameter.2) := by
  refine forwardPorts.exists_takesFrom keyIsOne (by decide) (fun _ => [("port", .bit 9)]) ?_
    ⟨_, List.mem_cons_self, by decide⟩
  intro e he parameter declared
  cases List.mem_singleton.mp declared
  rw [SortedSet.mem_def, forwardPorts_entries, List.mem_pair] at he
  rcases he with rfl | rfl <;> decide

end Overlap

end Flay
