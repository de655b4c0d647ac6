import Flay.ControlPlane.Objects
import Flay.Program.Syntax

/-! `ControlPlaneStateInitializer`: the configuration that a table has before the control plane has
sent anything, from its default action and the entries that the program gives it. -/

namespace Flay

open Container

namespace ControlPlaneStateInitializer

/-- `IR::getMaxValueConstant`: the largest value of the type. -/
def getMaxValueConstant (isSigned : Bool) (width : Nat) : BitVec width :=
  if isSigned then BitVec.intMax width else BitVec.allOnes width

/-- `ControlPlaneStateInitializer::computeMatch`. -/
def computeMatch {s : Bool} {w : Nat} (entryKey : EntryKey (.bits s w))
    (tableName fieldName : String) (matchType : MatchKind) (keySet : LiteralAssignmentSet) :
    Option LiteralAssignmentSet :=
  let keySymbol := getTableKey tableName fieldName (.bits s w)
  match matchType, entryKey with
  | .exact, .literal value => some (keySet.emplace keySymbol value)
  | .lpm, .default =>
    some ((keySet.emplace keySymbol 0#w).emplace
      (getTableMatchLpmPrefix tableName fieldName (.bits s w)) 0#w)
  | .lpm, .mask left right =>
    some ((keySet.emplace keySymbol left).emplace
      (getTableMatchLpmPrefix tableName fieldName (.bits s w)) right)
  | .lpm, .literal value =>
    some ((keySet.emplace keySymbol value).emplace
      (getTableMatchLpmPrefix tableName fieldName (.bits s w)) (BitVec.ofNat w w))
  | .ternary, .default =>
    some ((keySet.emplace keySymbol 0#w).emplace
      (getTableTernaryMask tableName fieldName (.bits s w)) 0#w)
  | .ternary, .mask left right =>
    some ((keySet.emplace keySymbol left).emplace
      (getTableTernaryMask tableName fieldName (.bits s w)) right)
  | .ternary, .literal value =>
    some ((keySet.emplace keySymbol value).emplace
      (getTableTernaryMask tableName fieldName (.bits s w)) (getMaxValueConstant s w))
  | _, _ => none

/-- `Bmv2ControlPlaneInitializer::computeMatch`, which adds ranges and optional matches. -/
def bmv2ComputeMatch {s : Bool} {w : Nat} (entryKey : EntryKey (.bits s w))
    (tableName fieldName : String) (matchType : MatchKind) (keySet : LiteralAssignmentSet) :
    Option LiteralAssignmentSet :=
  let keySymbol := getTableKey tableName fieldName (.bits s w)
  let range := getTableRange tableName fieldName (.bits s w)
  match matchType, entryKey with
  | .range, .default =>
    some ((keySet.emplace range.1 0#w).emplace range.2 (getMaxValueConstant s w))
  | .range, .range left right => some ((keySet.emplace range.1 left).emplace range.2 right)
  | .range, .literal value => some ((keySet.emplace range.1 value).emplace range.2 value)
  | .optional, .default =>
    some ((keySet.emplace keySymbol 0#w).emplace
      (getTableTernaryMask tableName fieldName (.bits s w)) 0#w)
  | .optional, .literal value => some (keySet.emplace keySymbol value)
  | _, _ => computeMatch entryKey tableName fieldName matchType keySet

/-- `TofinoControlPlaneInitializer::computeMatch`: an optional match on anything assigns nothing. -/
def tofinoComputeMatch {s : Bool} {w : Nat} (entryKey : EntryKey (.bits s w))
    (tableName fieldName : String) (matchType : MatchKind) (keySet : LiteralAssignmentSet) :
    Option LiteralAssignmentSet :=
  let keySymbol := getTableKey tableName fieldName (.bits s w)
  let range := getTableRange tableName fieldName (.bits s w)
  match matchType, entryKey with
  | .range, .default =>
    some ((keySet.emplace range.1 0#w).emplace range.2 (getMaxValueConstant s w))
  | .range, .range left right => some ((keySet.emplace range.1 left).emplace range.2 right)
  | .range, .literal value => some ((keySet.emplace range.1 value).emplace range.2 value)
  | .optional, .default => some keySet
  | .optional, .literal value => some (keySet.emplace keySymbol value)
  | _, _ => computeMatch entryKey tableName fieldName matchType keySet

/-- The match of a target: `computeMatch` is virtual. -/
abbrev ComputeMatch : Type :=
  ⦃s : Bool⦄ → ⦃w : Nat⦄ → EntryKey (.bits s w) → String → String → MatchKind →
    LiteralAssignmentSet → Option LiteralAssignmentSet

def computeEntryKeySet (target : ComputeMatch) (table : P4Table) (entry : Entry table.key) :
    Option LiteralAssignmentSet :=
  entry.components.foldlM (fun keySet c =>
    target c.2 table.controlPlaneName c.1.name c.1.matchType keySet) OrderedMap.empty

/-- The assignments of the arguments of a call to the variables of the table for its action. -/
def argumentAssignments (tableName : String) (call : ActionCall) :
    List (Sigma fun x : SymbolicVariable => x.type.Val) :=
  call.arguments.map fun a =>
    ⟨getTableActionArgument tableName call.action.controlPlaneName a.1.controlPlaneName a.1.type, a.2⟩

def computeEntryAction (tableName : String) (call : ActionCall) : LiteralAssignmentSet :=
  OrderedMap.insertAll
    (OrderedMap.empty.emplace (getTableActionChoice tableName) call.action.controlPlaneName)
    (argumentAssignments tableName call)

def computeDefaultActionConstraints (tableName : String) (defaultAction : ActionCall) :
    LiteralAssignmentSet :=
  OrderedMap.insertAll
    ((OrderedMap.empty.emplace (getTableActionChoice tableName) noAction).emplace
      (getDefaultActionVariable tableName) noAction)
    (argumentAssignments tableName defaultAction)

theorem mem_keys_computeEntryAction (tableName : String) (call : ActionCall) :
    getTableActionChoice tableName ∈ (computeEntryAction tableName call).keys :=
  OrderedMap.mem_keys_insertAll.mpr (.inl (OrderedMap.mem_keys_emplace.mpr (.inr rfl)))

theorem find_computeEntryAction (tableName : String) (call : ActionCall) :
    (computeEntryAction tableName call).find (getTableActionChoice tableName) =
      some call.action.controlPlaneName := by
  rw [computeEntryAction, OrderedMap.find_insertAll, OrderedMap.find_emplace_self]
  rfl

theorem find_choice_computeDefaultActionConstraints (tableName : String) (call : ActionCall) :
    (computeDefaultActionConstraints tableName call).find (getTableActionChoice tableName) =
      some noAction := by
  rw [computeDefaultActionConstraints, OrderedMap.find_insertAll,
    OrderedMap.find_emplace_ne _ _ (by simp), OrderedMap.find_emplace_self]
  rfl

theorem find_default_computeDefaultActionConstraints (tableName : String) (call : ActionCall) :
    (computeDefaultActionConstraints tableName call).find (getDefaultActionVariable tableName) =
      some noAction := by
  rw [computeDefaultActionConstraints, OrderedMap.find_insertAll, OrderedMap.find_emplace_self,
    OrderedMap.find_emplace_ne _ _ (by simp)]
  rfl

theorem find_argument {tableName : String} {call : ActionCall}
    {a : Sigma fun p : Parameter => p.type.Val} (h : a ∈ call.arguments) :
    (computeDefaultActionConstraints tableName call).find (getTableActionArgument tableName
      call.action.controlPlaneName a.1.controlPlaneName a.1.type) = some a.2 := by
  have distinct : (argumentAssignments tableName call).NodupKeys := by
    have names := call.action.distinct
    rw [← call.complete, List.map_map] at names
    rw [List.NodupKeys, List.keys, argumentAssignments, List.map_map]
    refine List.Nodup.of_map (fun x : SymbolicVariable => x.label) ?_
    rw [List.map_map]
    refine List.Nodup.of_map (fun label => match label with
      | .tableActionArgument _ _ parameter => parameter
      | _ => "") ?_
    rw [List.map_map]
    exact names
  have listed : ⟨getTableActionArgument tableName call.action.controlPlaneName
      a.1.controlPlaneName a.1.type, a.2⟩ ∈ argumentAssignments tableName call :=
    List.mem_map.mpr ⟨a, h, rfl⟩
  have found := (List.mem_dlookup_iff distinct).mpr listed
  rw [computeDefaultActionConstraints, OrderedMap.find_insertAll]
  rw [OrderedMap.find_emplace_ne _ _ (by simp), OrderedMap.find_emplace_ne _ _ (by simp)]
  exact found

theorem exists_of_mem_mapM {α β : Type} {f : α → Option β} {l : List α} {m : List β}
    (h : l.mapM f = some m) {b : β} (hb : b ∈ m) : ∃ a ∈ l, f a = some b := by
  induction l generalizing m with
  | nil =>
    cases h
    cases hb
  | cons a l ih =>
    simp only [List.mapM_cons, bind, pure, Option.bind_eq_some_iff, Option.some.injEq] at h
    obtain ⟨c, hc, cs, hcs, rfl⟩ := h
    rcases List.mem_cons.mp hb with rfl | hb
    · exact ⟨a, List.mem_cons_self, hc⟩
    · obtain ⟨a', ha', hb⟩ := ih hcs hb
      exact ⟨a', List.mem_cons_of_mem a ha', hb⟩

variable [Z3] [IrOrder]

/-- The entry for one that the program gives the table. Without a priority it has the lowest. -/
def initializeTableEntry (target : ComputeMatch) (table : P4Table) (entry : Entry table.key) :
    Option (TableMatchEntry table.controlPlaneName) := do
  let keySet ← computeEntryKeySet target table entry
  some (TableMatchEntry.create (computeEntryAction table.controlPlaneName entry.action)
    (entry.priority.getD 0) keySet (mem_keys_computeEntryAction _ _))

def initializeTableEntries (target : ComputeMatch) (table : P4Table) :
    Option (TableEntrySet table.controlPlaneName) := do
  let entries ← table.entries.mapM (initializeTableEntry target table)
  some (entries.foldl SortedSet.insert SortedSet.empty)

theorem mem_foldl_insert {tableName : String} {l : List (TableMatchEntry tableName)}
    {s : TableEntrySet tableName} {e : TableMatchEntry tableName}
    (h : e ∈ l.foldl SortedSet.insert s) : e ∈ s ∨ e ∈ l := by
  induction l generalizing s with
  | nil => exact .inl h
  | cons d l ih =>
    rcases ih h with h | h
    · rcases SortedSet.mem_insert_imp h with rfl | h
      · exact .inr List.mem_cons_self
      · exact .inl h
    · exact .inr (List.mem_cons_of_mem d h)

/-- An initial entry is one of the program's. -/
theorem exists_of_mem_initial {target : ComputeMatch} {table : P4Table}
    {entries : TableEntrySet table.controlPlaneName}
    (h : initializeTableEntries target table = some entries)
    {e : TableMatchEntry table.controlPlaneName} (he : e ∈ entries) :
    ∃ entry ∈ table.entries, initializeTableEntry target table entry = some e := by
  simp only [initializeTableEntries, bind, Option.bind_eq_some_iff, Option.some.injEq] at h
  obtain ⟨list, hlist, rfl⟩ := h
  rcases mem_foldl_insert he with he | he
  · exact absurd he (SortedSet.not_mem_empty e)
  · exact exists_of_mem_mapM hlist he

theorem condition_of_mem_initial {target : ComputeMatch} {table : P4Table}
    {entries : TableEntrySet table.controlPlaneName}
    (h : initializeTableEntries target table = some entries) :
    ∀ e ∈ entries, e.condition = none := by
  intro e he
  obtain ⟨entry, -, made⟩ := exists_of_mem_initial h he
  simp only [initializeTableEntry, bind, Option.bind_eq_some_iff, Option.some.injEq] at made
  obtain ⟨keySet, -, rfl⟩ := made
  rfl

theorem named_of_mem_initial {target : ComputeMatch} {table : P4Table}
    {entries : TableEntrySet table.controlPlaneName}
    (h : initializeTableEntries target table = some entries) :
    ∀ e ∈ entries, e.action ≠ noAction := by
  intro e he
  obtain ⟨entry, -, made⟩ := exists_of_mem_initial h he
  simp only [initializeTableEntry, bind, Option.bind_eq_some_iff, Option.some.injEq] at made
  obtain ⟨keySet, -, rfl⟩ := made
  have chosen := find_computeEntryAction table.controlPlaneName entry.action
  have action : (TableMatchEntry.create (computeEntryAction table.controlPlaneName entry.action)
      (entry.priority.getD 0) keySet (mem_keys_computeEntryAction _ _)).action =
        entry.action.action.controlPlaneName := by
    rw [TableMatchEntry.action, TableMatchEntry.create, chosen]
    rfl
  rw [action]
  exact entry.action.action.named

/-- `preorder(P4Table)`: the initial configuration of the table. -/
def initializeTable (target : ComputeMatch) (table : P4Table) :
    Option (TableConfiguration table.controlPlaneName) :=
  match h : initializeTableEntries target table with
  | none => none
  | some entries =>
    some (TableConfiguration.create
      ⟨computeDefaultActionConstraints table.controlPlaneName table.defaultAction⟩ entries
      (condition_of_mem_initial h))

end ControlPlaneStateInitializer

end Flay
