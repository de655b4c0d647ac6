import Flay.ControlPlane.Objects
import Mathlib.Data.Finmap
import Mathlib.Data.List.Sort
import Mathlib.Logic.Equiv.List
import Mathlib.Tactic.DeriveEncodable

/-! The entries of a table as a finite map from match sets to what the entries say, and that the
operations on entries are the operations of that map. -/

namespace Flay

open Container

namespace IrOrder

/-- The order tells any two variables apart, and any two literals of a type. -/
structure Total [IrOrder] : Prop where
  symbol : ∀ x y : SymbolicVariable, order.equiv ⟨_, x.expr⟩ ⟨_, y.expr⟩ = true → x = y
  literal : ∀ {t : Ty} (v w : t.Val), order.equiv ⟨t, .lit v⟩ ⟨t, .lit w⟩ = true → v = w

/-- Sets of literals that `compare` ranks alike are the same. -/
theorem eq_of_setOrder_equiv [IrOrder] (total : Total) {s s' : LiteralAssignmentSet}
    (h : setOrder.equiv s.expressions s'.expressions = true) : s = s' := by
  have loop : ∀ l m : List (Sigma fun x : SymbolicVariable => x.type.Val),
      (order.prod order).list.equiv (l.map fun e => nodes ⟨e.1, .lit e.2⟩)
        (m.map fun e => nodes ⟨e.1, .lit e.2⟩) = true → l = m := by
    intro l
    induction l with
    | nil =>
      intro m h
      cases m with
      | nil => rfl
      | cons b m => simp [WeakOrder.equiv, WeakOrder.list, WeakOrder.listLess] at h
    | cons a l ih =>
      intro m h
      cases m with
      | nil => simp [WeakOrder.equiv, WeakOrder.list, WeakOrder.listLess] at h
      | cons b m =>
        obtain ⟨head, tail⟩ := (WeakOrder.equiv_list_cons _).mp h
        obtain ⟨symbol, value⟩ := (WeakOrder.equiv_prod _).mp head
        obtain ⟨x, v⟩ := a
        obtain ⟨y, w⟩ := b
        obtain rfl : x = y := total.symbol x y symbol
        have same : v = w := total.literal v w value
        rw [same, ih m tail]
  refine OrderedMap.ext (loop s.entries s'.entries ?_)
  have entries : ∀ s : LiteralAssignmentSet,
      s.expressions.entries.map nodes = s.entries.map fun e => nodes ⟨e.1, .lit e.2⟩ := by
    intro s
    rw [LiteralAssignmentSet.expressions, OrderedMap.mapValues, List.map_map]
    rfl
  rw [setOrder_eq] at h
  rw [← entries, ← entries]
  exact h

end IrOrder

/-- What an entry says for its match set. -/
structure StoredAction where
  actionAssignment : LiteralAssignmentSet
  priority : Int

/-- The store of entries as a map from match sets. -/
abbrev EntryMap : Type := Finmap fun _ : LiteralAssignmentSet => StoredAction

/-- An operation on the entries of a table. -/
inductive EntryOperation [Z3] (tableName : String)
  | addTableEntry (e : TableMatchEntry tableName) (replace : Bool)
  | deleteTableEntry (e : TableMatchEntry tableName)
  | clearTableEntries

/-- What an operation returns: whether it succeeded, or the number of entries that it removed. -/
inductive EntryReport
  | added (success : Bool)
  | deleted (count : Nat)
  | cleared
deriving DecidableEq

section Store

variable [Z3] [IrOrder] {tableName : String}

def TableMatchEntry.stored (e : TableMatchEntry tableName) : StoredAction :=
  ⟨e.actionAssignment, e.priority⟩

namespace EntryOperation

/-- The operation on the finite map: adds that replace are upserts, and the others insert. -/
def denote (m : EntryMap) : EntryOperation tableName → EntryMap × EntryReport
  | .addTableEntry e true => (m.insert e.matchSet e.stored, .added true)
  | .addTableEntry e false =>
    if e.matchSet ∈ m then (m, .added false) else (m.insert e.matchSet e.stored, .added true)
  | .deleteTableEntry e => (m.erase e.matchSet, .deleted (if e.matchSet ∈ m then 1 else 0))
  | .clearTableEntries => (∅, .cleared)

def denoteAll (m : EntryMap) : List (EntryOperation tableName) → EntryMap × List EntryReport
  | [] => (m, [])
  | operation :: l =>
    let (m, report) := operation.denote m
    let (m, reports) := denoteAll m l
    (m, report :: reports)

/-- The operation on the table. -/
def run (t : TableConfiguration tableName) :
    EntryOperation tableName → TableConfiguration tableName × EntryReport
  | .addTableEntry e replace =>
    ((t.addTableEntry e replace).1, .added (t.addTableEntry e replace).2)
  | .deleteTableEntry e =>
    ((t.deleteTableEntry e).1, .deleted (t.deleteTableEntry e).2.toNat)
  | .clearTableEntries => (t.clearTableEntries, .cleared)

def runAll (t : TableConfiguration tableName) :
    List (EntryOperation tableName) → TableConfiguration tableName × List EntryReport
  | [] => (t, [])
  | operation :: l =>
    let (t, report) := operation.run t
    let (t, reports) := runAll t l
    (t, report :: reports)

end EntryOperation

namespace TableEntrySet

/-- The map that a set of entries makes. -/
def entryMap (s : TableEntrySet tableName) : EntryMap :=
  (s.list.map fun e => ⟨e.matchSet, e.stored⟩).toFinmap

/-- The set's comparison of entries is equality of their match sets. -/
theorem equiv_iff (total : IrOrder.Total) {e d : TableMatchEntry tableName} :
    TableMatchEntry.order.equiv e d = true ↔ e.matchSet = d.matchSet := by
  constructor
  · exact IrOrder.eq_of_setOrder_equiv total
  · intro h
    have same : e.computeControlPlaneAssignments = d.computeControlPlaneAssignments :=
      congrArg LiteralAssignmentSet.expressions h
    have comapped : TableMatchEntry.order.equiv e d = IrOrder.setOrder.equiv
        e.computeControlPlaneAssignments d.computeControlPlaneAssignments := rfl
    rw [comapped, ← same]
    exact IrOrder.setOrder.equiv_refl _

/-- A match set belongs to one entry at most. -/
theorem lookup_entryMap (total : IrOrder.Total) {s : TableEntrySet tableName}
    {k : LiteralAssignmentSet} {a : StoredAction} :
    s.entryMap.lookup k = some a ↔ ∃ e ∈ s, e.matchSet = k ∧ e.stored = a := by
  have distinct : (s.list.map fun e : TableMatchEntry tableName =>
      (⟨e.matchSet, e.stored⟩ : Sigma fun _ : LiteralAssignmentSet => StoredAction)).NodupKeys := by
    rw [List.NodupKeys, List.keys, List.map_map]
    refine List.pairwise_map.mpr (s.sorted.imp fun {e d} less same => ?_)
    have equal := (TableMatchEntry.order.equiv_iff).mp ((equiv_iff total).mpr same)
    simp [equal.1] at less
  rw [entryMap, Finmap.dlookup_list_toFinmap]
  refine (List.mem_dlookup_iff distinct).trans ?_
  constructor
  · intro mem
    obtain ⟨e, he, same⟩ := List.mem_map.mp mem
    cases same
    exact ⟨e, he, rfl, rfl⟩
  · rintro ⟨e, he, rfl, rfl⟩
    exact List.mem_map_of_mem he

theorem contains_iff (total : IrOrder.Total) {s : TableEntrySet tableName}
    {e : TableMatchEntry tableName} : s.contains e = true ↔ e.matchSet ∈ s.entryMap := by
  rw [SortedSet.contains_iff, Finmap.mem_iff]
  constructor
  · rintro ⟨d, hd, same⟩
    exact ⟨d.stored, (lookup_entryMap total).mpr ⟨d, hd, ((equiv_iff total).mp same).symm, rfl⟩⟩
  · rintro ⟨a, found⟩
    obtain ⟨d, hd, same, -⟩ := (lookup_entryMap total).mp found
    exact ⟨d, hd, (equiv_iff total).mpr same.symm⟩

theorem entryMap_insert (total : IrOrder.Total) {s : TableEntrySet tableName}
    {e : TableMatchEntry tableName} (absent : s.contains e = false) :
    entryMap (s.insert e) = s.entryMap.insert e.matchSet e.stored := by
  refine Finmap.ext_lookup fun k => Option.ext fun a => ?_
  refine (lookup_entryMap total).trans ?_
  simp only [SortedSet.mem_insert absent]
  by_cases same : k = e.matchSet
  · subst same
    rw [Finmap.lookup_insert]
    constructor
    · rintro ⟨d, rfl | hd, matched, rfl⟩
      · rfl
      · have present := SortedSet.contains_iff.mpr ⟨d, hd, (equiv_iff total).mpr matched.symm⟩
        simp [absent] at present
    · rintro ⟨⟩
      exact ⟨e, .inl rfl, rfl, rfl⟩
  · rw [Finmap.lookup_insert_of_ne _ same, lookup_entryMap total]
    constructor
    · rintro ⟨d, rfl | hd, matched, found⟩
      · exact absurd matched.symm same
      · exact ⟨d, hd, matched, found⟩
    · rintro ⟨d, hd, found⟩
      exact ⟨d, .inr hd, found⟩

theorem entryMap_erase (total : IrOrder.Total) (s : TableEntrySet tableName)
    (e : TableMatchEntry tableName) : entryMap (s.erase e) = s.entryMap.erase e.matchSet := by
  refine Finmap.ext_lookup fun k => Option.ext fun a => ?_
  refine (lookup_entryMap total).trans ?_
  simp only [SortedSet.mem_erase]
  by_cases same : k = e.matchSet
  · subst same
    rw [Finmap.lookup_erase]
    constructor
    · rintro ⟨d, ⟨-, apart⟩, matched, -⟩
      simp [(equiv_iff total).mpr matched.symm] at apart
    · rintro ⟨⟩
  · rw [Finmap.lookup_erase_ne same, lookup_entryMap total]
    constructor
    · rintro ⟨d, ⟨hd, -⟩, found⟩
      exact ⟨d, hd, found⟩
    · rintro ⟨d, hd, matched, found⟩
      refine ⟨d, ⟨hd, ?_⟩, matched, found⟩
      rw [Bool.eq_false_iff, ne_eq, equiv_iff total]
      exact fun equal => same (matched.symm.trans equal.symm)

/-- Sets that make the same map have the same match sets and actions, in the same order. -/
theorem list_eq_of_entryMap_eq (total : IrOrder.Total) {s s' : TableEntrySet tableName}
    (same : s.entryMap = s'.entryMap) :
    (s.list.map fun e => (e.matchSet, e.stored)) = s'.list.map fun e => (e.matchSet, e.stored) := by
  let before : LiteralAssignmentSet × StoredAction → LiteralAssignmentSet × StoredAction → Prop :=
    fun a b => IrOrder.setOrder.less a.1.expressions b.1.expressions = true
  have irrefl : Std.Irrefl before := ⟨fun a h => by
    simp only [before, IrOrder.setOrder.irrefl, Bool.false_eq_true] at h⟩
  have antisymm : Std.Antisymm before := ⟨fun a b h h' => by
    simp only [before] at h h'
    simp [IrOrder.setOrder.asymm h] at h'⟩
  have sorted : ∀ s : TableEntrySet tableName,
      (s.list.map fun e => (e.matchSet, e.stored)).Pairwise before :=
    fun s => List.pairwise_map.mpr s.sorted
  have mem : ∀ (s : TableEntrySet tableName) (a : LiteralAssignmentSet × StoredAction),
      a ∈ (s.list.map fun e => (e.matchSet, e.stored)) ↔ s.entryMap.lookup a.1 = some a.2 := by
    intro s a
    rw [lookup_entryMap total, List.mem_map]
    simp only [Prod.ext_iff, SortedSet.mem_def]
  refine List.Pairwise.eq_of_mem_iff (sorted s) (sorted s') fun a => ?_
  rw [mem s, mem s', same]

end TableEntrySet

namespace EntryOperation

/-- One operation on the table is the operation on its map. -/
theorem entryMap_run (total : IrOrder.Total) (t : TableConfiguration tableName)
    (operation : EntryOperation tableName) :
    (operation.run t).1.tableEntries.entryMap = (operation.denote t.tableEntries.entryMap).1 ∧
      (operation.run t).2 = (operation.denote t.tableEntries.entryMap).2 := by
  cases operation with
  | addTableEntry e replace =>
    let added := e.setZ3Condition (Z3.set t.tableKeyMatch)
    cases replace with
    | true =>
      have absent : (t.tableEntries.erase e).contains added = false :=
        SortedSet.contains_erase t.tableEntries e
      refine ⟨?_, congrArg EntryReport.added (congrArg Bool.not absent)⟩
      refine (TableEntrySet.entryMap_insert total absent).trans ?_
      rw [TableEntrySet.entryMap_erase total]
      refine Finmap.ext_lookup fun k => ?_
      show _ = (t.tableEntries.entryMap.insert e.matchSet e.stored).lookup k
      by_cases same : k = e.matchSet
      · subst same
        rw [Finmap.lookup_insert]
        exact Finmap.lookup_insert _
      · rw [Finmap.lookup_insert_of_ne _ same]
        exact (Finmap.lookup_insert_of_ne _ same).trans (Finmap.lookup_erase_ne same)
    | false =>
      cases present : t.tableEntries.contains e with
      | true =>
        have known : e.matchSet ∈ t.tableEntries.entryMap :=
          (TableEntrySet.contains_iff total).mp present
        have kept : t.tableEntries.insert added = t.tableEntries :=
          SortedSet.insert_of_contains present
        rw [denote, if_pos known]
        exact ⟨congrArg TableEntrySet.entryMap kept,
          congrArg EntryReport.added (congrArg Bool.not present)⟩
      | false =>
        have unknown : ¬e.matchSet ∈ t.tableEntries.entryMap := fun known => by
          simp [(TableEntrySet.contains_iff total).mpr known] at present
        rw [denote, if_neg unknown]
        exact ⟨TableEntrySet.entryMap_insert total (e := added) present,
          congrArg EntryReport.added (congrArg Bool.not present)⟩
  | deleteTableEntry e =>
    refine ⟨TableEntrySet.entryMap_erase total _ _, congrArg EntryReport.deleted ?_⟩
    show (t.tableEntries.contains e).toNat = _
    cases present : t.tableEntries.contains e with
    | true => rw [if_pos ((TableEntrySet.contains_iff total).mp present)]; rfl
    | false =>
      rw [if_neg fun known => by simp [(TableEntrySet.contains_iff total).mpr known] at present]
      rfl
  | clearTableEntries => exact ⟨Finmap.toFinmap_nil, rfl⟩

/-- The operations leave the default action and the key match of the table alone. -/
theorem kept_run (t : TableConfiguration tableName) (operation : EntryOperation tableName) :
    (operation.run t).1.defaultTableAction = t.defaultTableAction ∧
      (operation.run t).1.tableKeyMatch = t.tableKeyMatch := by
  cases operation <;> exact ⟨rfl, rfl⟩

theorem entryMap_runAll (total : IrOrder.Total) (t : TableConfiguration tableName)
    (l : List (EntryOperation tableName)) :
    (runAll t l).1.tableEntries.entryMap = (denoteAll t.tableEntries.entryMap l).1 ∧
      (runAll t l).2 = (denoteAll t.tableEntries.entryMap l).2 := by
  induction l generalizing t with
  | nil => exact ⟨rfl, rfl⟩
  | cons operation l ih =>
    obtain ⟨entries, report⟩ := entryMap_run total t operation
    obtain ⟨rest, reports⟩ := ih (operation.run t).1
    rw [entries] at rest reports
    exact ⟨rest, congrArg₂ List.cons report reports⟩

theorem kept_runAll (t : TableConfiguration tableName) (l : List (EntryOperation tableName)) :
    (runAll t l).1.defaultTableAction = t.defaultTableAction ∧
      (runAll t l).1.tableKeyMatch = t.tableKeyMatch := by
  induction l generalizing t with
  | nil => exact ⟨rfl, rfl⟩
  | cons operation l ih =>
    obtain ⟨defaultAction, keyMatch⟩ := kept_run t operation
    obtain ⟨defaultActions, keyMatches⟩ := ih (operation.run t).1
    exact ⟨defaultActions.trans defaultAction, keyMatches.trans keyMatch⟩

end EntryOperation

/-- The assignments of a table depend on its default action, its key match and the map of its
entries, and not on how the entries came about. -/
theorem TableConfiguration.computeControlPlaneAssignments_congr (total : IrOrder.Total)
    {t t' : TableConfiguration tableName} (defaultAction : t.defaultTableAction = t'.defaultTableAction)
    (keyMatch : t.tableKeyMatch = t'.tableKeyMatch)
    (entries : t.tableEntries.entryMap = t'.tableEntries.entryMap) :
    t.computeControlPlaneAssignments = t'.computeControlPlaneAssignments := by
  have list := TableEntrySet.list_eq_of_entryMap_eq total entries
  have size : t.tableEntries.size = t'.tableEntries.size := by
    have length := congrArg List.length list
    rwa [List.length_map, List.length_map] at length
  have miss : t.missAssignments = t'.missAssignments := by
    rw [missAssignments, missAssignments, active, active, defaultAction, size]
  let step (assignments : ControlPlaneAssignmentSet) (a : LiteralAssignmentSet × StoredAction) :
      ControlPlaneAssignmentSet :=
    mergeConditionally (fun _ assignment value =>
      .mux (ControlPlaneAssignmentSet.substitute a.1.expressions t.tableKeyMatch) assignment value)
      assignments a.2.actionAssignment.expressions.entries
  have loop : ∀ (s : TableEntrySet tableName) (assignments : ControlPlaneAssignmentSet),
      s.list.foldl (fun assignments e => step assignments (e.matchSet, e.stored)) assignments =
        (s.list.map fun e => (e.matchSet, e.stored)).foldl step assignments :=
    fun s assignments => List.foldl_map.symm
  have entriesMerged := (loop t.tableEntries t.missAssignments.expressions).trans
    ((congrArg (List.foldl step _) list).trans (loop t'.tableEntries _).symm)
  rw [computeControlPlaneAssignments, computeControlPlaneAssignments, ← size, ← miss, ← keyMatch]
  exact congrArg (fun merged => if t.tableEntries.size = 0 then _
    else if t.tableEntries.size > kMaxEntriesPerTable then _ else merged) entriesMerged

/-- The store is the finite map from match sets to entries, for every sequence of operations: it
stores and reports what the map does, and the assignments are a function of the map. -/
theorem entryStore_refines (total : IrOrder.Total) (t : TableConfiguration tableName)
    (l : List (EntryOperation tableName)) :
    (EntryOperation.runAll t l).1.tableEntries.entryMap =
        (EntryOperation.denoteAll t.tableEntries.entryMap l).1 ∧
      (EntryOperation.runAll t l).2 = (EntryOperation.denoteAll t.tableEntries.entryMap l).2 ∧
      ∀ l' : List (EntryOperation tableName),
        (EntryOperation.denoteAll t.tableEntries.entryMap l').1 =
            (EntryOperation.denoteAll t.tableEntries.entryMap l).1 →
          (EntryOperation.runAll t l').1.computeControlPlaneAssignments =
            (EntryOperation.runAll t l).1.computeControlPlaneAssignments := by
  obtain ⟨entries, reports⟩ := EntryOperation.entryMap_runAll total t l
  obtain ⟨defaultAction, keyMatch⟩ := EntryOperation.kept_runAll t l
  refine ⟨entries, reports, fun l' same => ?_⟩
  obtain ⟨entries', -⟩ := EntryOperation.entryMap_runAll total t l'
  obtain ⟨defaultAction', keyMatch'⟩ := EntryOperation.kept_runAll t l'
  exact TableConfiguration.computeControlPlaneAssignments_congr total
    (defaultAction'.trans defaultAction.symm) (keyMatch'.trans keyMatch.symm)
    (entries'.trans (same.trans entries.symm))

end Store

instance encodableChar : Encodable Char := Encodable.ofLeftInverse Char.toNat Char.ofNat Char.ofNat_toNat

instance encodableString : Encodable String :=
  Encodable.ofLeftInverse String.toList String.ofList fun _ => String.ofList_toList

deriving instance Encodable for Ty
deriving instance Encodable for SymbolLabel

/-- The code of a literal among those of its type. -/
def Ty.encode : {t : Ty} → t.Val → Nat
  | .boolean, (value : Bool) => value.toNat
  | .bits _ _, (value : BitVec _) => value.toNat
  | .string, (value : String) => Encodable.encode value

theorem Ty.encode_injective : {t : Ty} → Function.Injective (Ty.encode (t := t))
  | .boolean => fun a b h => by cases a <;> cases b <;> simp_all [encode]
  | .bits _ _ => fun _ _ h => BitVec.eq_of_toNat_eq h
  | .string => Encodable.encode_injective

/-- Variables by their labels and types, and literals by their values. -/
def IrOrder.code : Sigma Expr → List Nat
  | ⟨_, .lit value⟩ => [0, Ty.encode value]
  | ⟨_, .var label t⟩ => [1, Encodable.encode label, Encodable.encode t]
  | _ => [2]

/-- An order in which no two variables and no two literals of a type are alike. -/
@[reducible] def IrOrder.encoded : IrOrder where
  order := ((WeakOrder.ofRank id).list).comap IrOrder.code

theorem IrOrder.encoded_total : @IrOrder.Total IrOrder.encoded := by
  let _ := IrOrder.encoded
  have equal : ∀ {a b : Sigma Expr}, IrOrder.order.equiv a b = true → code a = code b := by
    intro a b h
    refine WeakOrder.eq_of_list_equiv _ (fun m n same => ?_) h
    simp only [WeakOrder.equiv_iff, WeakOrder.ofRank, decide_eq_false_iff_not, id] at same
    omega
  refine ⟨fun x y h => ?_, fun v w h => ?_⟩
  · have codes := equal h
    simp only [code, SymbolicVariable.expr, List.cons.injEq, Encodable.encode_inj] at codes
    exact congrArg₂ SymbolicVariable.mk codes.2.1 codes.2.2.1
  · have codes := equal h
    simp only [code, List.cons.injEq] at codes
    exact Ty.encode_injective codes.2.1

section Upsert

attribute [local instance] exprSolver IrOrder.encoded

/-- An entry of the table `t` that forwards the key. -/
def forwardEntry (key : BitVec 8) : TableMatchEntry "t" :=
  .create (OrderedMap.empty.emplace (getTableActionChoice "t") "forward") 0
    (OrderedMap.empty.emplace (getTableKey "t" "k" (.bit 8)) key)
    (OrderedMap.mem_keys_emplace.mpr (.inr rfl))

def forwardTable : TableConfiguration "t" :=
  .unconfigured ⟨OrderedMap.empty⟩

theorem entryStore_refines_forwardEntry :
    (EntryOperation.runAll forwardTable [.addTableEntry (forwardEntry 1) false,
        .addTableEntry (forwardEntry 1) false]).1.computeControlPlaneAssignments =
      (EntryOperation.runAll forwardTable
        [.addTableEntry (forwardEntry 1) true]).1.computeControlPlaneAssignments := by
  refine (entryStore_refines IrOrder.encoded_total forwardTable _).2.2 _ ?_
  have known : (forwardEntry 1).matchSet ∈ forwardTable.tableEntries.entryMap.insert
      (forwardEntry 1).matchSet (forwardEntry 1).stored := Finmap.mem_insert.mpr (.inl rfl)
  have unknown : ¬(forwardEntry 1).matchSet ∈ forwardTable.tableEntries.entryMap := by decide
  simp only [EntryOperation.denoteAll, EntryOperation.denote, if_neg unknown, if_pos known]

end Upsert

end Flay
