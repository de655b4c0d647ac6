import Flay.ControlPlane.Priority

/-! The assignments of a table with more entries than are spelled out: the starred variables in
place of the values of the entries. -/

namespace Flay

open Container

/-- The variable that `SymbolicVariable.wildcard` reads. -/
def SymbolicVariable.starred (x : SymbolicVariable) : SymbolicVariable := ⟨.wildcard x.label, x.type⟩

namespace Valuation

/-- The valuation with the values of the variables also as those of their starred ones. -/
def star (ρ : Valuation) (scope : List SymbolicVariable) : Valuation := fun x =>
  match x with
  | ⟨.wildcard label, type⟩ =>
    if (⟨label, type⟩ : SymbolicVariable) ∈ scope then ρ ⟨label, type⟩
    else ρ ⟨.wildcard label, type⟩
  | x => ρ x

variable {ρ : Valuation} {scope : List SymbolicVariable} {x : SymbolicVariable}

theorem star_starred (mem : x ∈ scope) : ρ.star scope x.starred = ρ x :=
  if_pos mem

theorem star_of_ne (other : ∀ y ∈ scope, x ≠ y.starred) : ρ.star scope x = ρ x := by
  obtain ⟨label, type⟩ := x
  cases label with
  | wildcard label =>
    refine if_neg fun mem => ?_
    exact other _ mem rfl
  | _ => rfl

end Valuation

/-- An expression that is constant with starred variables in place of some others is constant. -/
theorem Expr.eval_eq_of_starred {t : Ty} {e : Expr t} {c : t.Val}
    {scope : List SymbolicVariable} {σ : (x : SymbolicVariable) → Option (Expr x.type)}
    (starred : ∀ x, σ x = if x ∈ scope then some x.wildcard else none)
    (fresh : ∀ x ∈ scope, x.starred ∉ e.symbols)
    (constant : ∀ ρ, e.eval (Expr.assigned σ ρ) = c) (ρ : Valuation) : e.eval ρ = c := by
  rw [← constant (ρ.star scope)]
  refine Expr.eval_congr fun x occurs => ?_
  rw [Expr.assigned, starred x]
  split
  · rename_i mem
    rw [Option.map_some, Option.getD_some, SymbolicVariable.wildcard, Expr.eval_var]
    exact (Valuation.star_starred mem).symm
  · rw [Option.map_none, Option.getD_none]
    refine (Valuation.star_of_ne fun y mem same => ?_).symm
    exact fresh y mem (same ▸ occurs)

namespace TableConfiguration

variable [Z3] [IrOrder] {tableName : String} (t : TableConfiguration tableName)

/-- The variables of the table have the values that its entries, spelled out, give them. -/
def TakesExactValues (ρ : Valuation) : Prop :=
  ∀ x v, t.exactAssignments.find x = some v → ρ x = v.eval ρ

def TakesExactZ3Values [Z3.Lawful] (ρ : Valuation) : Prop :=
  ∀ x v, t.exactZ3Assignments.find x = some v → ρ x = Z3.Lawful.eval ρ v

variable {t} (many : t.tableEntries.size > kMaxEntriesPerTable)

include many

/-- The fallback stars the variables of the default action and the flag of the table. -/
theorem find_fallback (x : SymbolicVariable) : t.computeControlPlaneAssignments.find x =
    if x ∈ t.missAssignments.keys then some x.wildcard else none := by
  have some_entry : t.tableEntries.size ≠ 0 := by omega
  simp only [computeControlPlaneAssignments, if_neg some_entry, if_pos many,
    OrderedMap.find_mapValues, LiteralAssignmentSet.find_expressions]
  split
  · rename_i assigned
    obtain ⟨v, found⟩ := OrderedMap.exists_find_of_mem assigned
    simp [found]
  · rename_i free
    simp [OrderedMap.find_eq_none.mpr free]

theorem find_z3Fallback (x : SymbolicVariable) : t.computeZ3ControlPlaneAssignments.find x =
    if x ∈ t.missAssignments.keys then some (Z3.set x.wildcard) else none := by
  have some_entry : t.tableEntries.size ≠ 0 := by omega
  simp only [computeZ3ControlPlaneAssignments, if_neg some_entry, if_pos many,
    OrderedMap.find_mapValues, LiteralAssignmentSet.find_toZ3]
  split
  · rename_i assigned
    obtain ⟨v, found⟩ := OrderedMap.exists_find_of_mem assigned
    simp [found]
  · rename_i free
    simp [OrderedMap.find_eq_none.mpr free]

variable {s : Ty} {e : Expr s} {c : s.Val}
  (fresh : ∀ x ∈ t.missAssignments.keys, x.starred ∉ e.symbols)

include fresh

theorem eval_of_fallback
    (constant : ∀ ρ, (t.computeControlPlaneAssignments.substitute e).eval ρ = c) (ρ : Valuation) :
    e.eval ρ = c := by
  refine Expr.eval_eq_of_starred (find_fallback many) fresh (fun ρ => ?_) ρ
  rw [← Expr.eval_substitute]
  exact constant ρ

theorem eval_of_z3Fallback [Z3.Lawful]
    (constant : ∀ ρ, Z3.Lawful.eval ρ
      (t.computeZ3ControlPlaneAssignments.substitute (Z3.set e)) = c) (ρ : Valuation) :
    e.eval ρ = c := by
  refine Expr.eval_eq_of_starred (find_fallback many) fresh (fun ρ => ?_) ρ
  refine Eq.trans ?_ (constant ρ)
  rw [Z3ControlPlaneAssignmentSet.substitute, Z3.Lawful.eval_simplify, Z3.Lawful.eval_substitute,
    Z3.Lawful.eval_set]
  congr 1
  funext x
  have found := find_z3Fallback many x
  rw [Z3.assigned, ← OrderedMap.find, found, Expr.assigned, find_fallback many]
  split <;> simp

/-- What the fallback makes constant has this value also with all entries spelled out. -/
theorem fallback_sound [Z3.Lawful] :
    ((∀ ρ, (t.computeControlPlaneAssignments.substitute e).eval ρ = c) →
      ∀ ρ, (t.exactAssignments.substitute e).eval ρ = c ∧
        (t.TakesExactValues ρ → e.eval ρ = c)) ∧
    ((∀ ρ, Z3.Lawful.eval ρ
        (t.computeZ3ControlPlaneAssignments.substitute (Z3.set e)) = c) →
      ∀ ρ, Z3.Lawful.eval ρ (t.exactZ3Assignments.substitute (Z3.set e)) = c ∧
        (t.TakesExactZ3Values ρ → e.eval ρ = c)) := by
  constructor
  · intro constant ρ
    refine ⟨?_, fun _ => eval_of_fallback many fresh constant ρ⟩
    rw [ControlPlaneAssignmentSet.eval_substitute]
    exact eval_of_fallback many fresh constant _
  · intro constant ρ
    refine ⟨?_, fun _ => eval_of_z3Fallback many fresh constant ρ⟩
    rw [Z3ControlPlaneAssignmentSet.substitute, Z3.Lawful.eval_simplify, Z3.Lawful.eval_substitute,
      Z3.Lawful.eval_set]
    exact eval_of_z3Fallback many fresh constant _

end TableConfiguration

section Crowded

attribute [local instance] exprSolver exprSolver.lawful IrOrder.literals

theorem maskedEntry_less {port port' : BitVec 9} {value value' mask : BitVec 8}
    (h : value.toNat < value'.toNat) :
    TableMatchEntry.order.less (maskedEntry port value mask) (maskedEntry port' value' mask) =
      true := by
  have value_less : IrOrder.order.less ⟨.bit 8, .lit value⟩ ⟨.bit 8, .lit value'⟩ = true :=
    decide_eq_true h
  simp only [TableMatchEntry.order, IrOrder.setOrder_eq, IrOrder.entriesOrder, WeakOrder.comap,
    WeakOrder.list]
  change WeakOrder.listLess _ [_, _] [_, _] = true
  simp [WeakOrder.listLess, WeakOrder.prod, IrOrder.nodes, WeakOrder.equiv_refl, value_less]

/-- A table that forwards each of 51 keys to a port of its own. -/
def crowded : TableConfiguration "t" :=
  TableConfiguration.create
    ⟨OrderedMap.empty.emplace (getTableActionArgument "t" "forward" "port" (.bit 9)) 0⟩
    ⟨(List.range 51).map fun key => maskedEntry (.ofNat 9 key) (.ofNat 8 key) 255, by
      rw [List.pairwise_map]
      refine List.Pairwise.imp_of_mem ?_ List.pairwise_lt_range
      intro i j hi hj less
      rw [List.mem_range] at hi hj
      exact maskedEntry_less (by simp; omega)⟩
    (by
      intro e he
      obtain ⟨key, -, rfl⟩ := List.mem_map.mp he
      rfl)

theorem crowded_entries : crowded.tableEntries.list =
    (List.range 51).map fun key => maskedEntry (.ofNat 9 key) (.ofNat 8 key) 255 :=
  rfl

/-- The flag of the table, or else its negation. -/
def activeOrNot : Expr .boolean :=
  .lOr (getTableActive "t").expr (.lNot (getTableActive "t").expr)

theorem fallback_sound_crowded :
    (crowded.exactAssignments.substitute activeOrNot).eval keyIsOne = true := by
  have many : crowded.tableEntries.size > kMaxEntriesPerTable := by
    rw [SortedSet.size, crowded_entries, List.length_map, List.length_range]
    decide
  refine ((TableConfiguration.fallback_sound many ?_).1 (fun ρ => ?_) keyIsOne).1
  · intro x _ occurs
    rcases List.mem_pair.mp occurs with same | same <;> cases same
  · rw [ControlPlaneAssignmentSet.eval_substitute]
    simp [activeOrNot]

end Crowded

end Flay
