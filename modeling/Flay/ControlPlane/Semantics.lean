import Flay.ControlPlane.Objects
import Mathlib.Data.List.TakeWhile

/-! The values of the control-plane variables of a table under the assignments computed for its
configuration: a chain of the entries that match, over the default action. -/

namespace Flay

open Container

namespace LiteralAssignmentSet

@[simp] theorem find_expressions (s : LiteralAssignmentSet) (x : SymbolicVariable) :
    s.expressions.find x = (s.find x).map .lit := by
  simp [expressions]

@[simp] theorem find_toZ3 [Z3] (s : LiteralAssignmentSet) (x : SymbolicVariable) :
    s.toZ3.find x = (s.find x).map fun v => Z3.set (.lit v) := by
  simp [toZ3]

theorem eval_substitute_expressions (s : LiteralAssignmentSet) {t : Ty} (e : Expr t)
    (ρ : Valuation) :
    (ControlPlaneAssignmentSet.substitute s.expressions e).eval ρ = e.eval (s.bind ρ) := by
  rw [ControlPlaneAssignmentSet.eval_substitute]
  congr 1
  funext x
  simp only [ControlPlaneAssignmentSet.bind, Expr.assigned, find_expressions, bind]
  cases s.find x <;> simp

theorem eval_substitute_toZ3 [Z3] [Z3.Lawful] (s : LiteralAssignmentSet) {t : Ty} (e : Z3.Term t)
    (ρ : Valuation) : Z3.Lawful.eval ρ (Z3ControlPlaneAssignmentSet.substitute s.toZ3 e) =
      Z3.Lawful.eval (s.bind ρ) e := by
  rw [Z3ControlPlaneAssignmentSet.substitute, Z3.Lawful.eval_simplify, Z3.Lawful.eval_substitute]
  congr 1
  funext x
  have found : s.toZ3.entries.dlookup x = (s.find x).map fun v => Z3.set (.lit v) :=
    find_toZ3 s x
  simp only [Z3.assigned, found, bind]
  cases s.find x <;> simp

/-- A set has no second say once it has been bound. -/
@[simp] theorem bind_bind (s : LiteralAssignmentSet) (ρ : Valuation) :
    s.bind (s.bind ρ) = s.bind ρ := by
  funext x
  simp only [bind]
  cases s.find x <;> rfl

end LiteralAssignmentSet

namespace TableConfiguration

section KeyMatch

variable (ρ : Valuation)

/-- The keys of a table match when each of them does. -/
theorem eval_buildKeyMatches {keyMap : List TableMatchKey} (some_key : keyMap ≠ []) :
    (buildKeyMatches keyMap).eval ρ =
      keyMap.all fun key => key.computeControlPlaneConstraint.eval ρ := by
  have loop : ∀ (l : List TableMatchKey) (hitCondition : Expr .boolean),
      (l.foldl (fun hitCondition key => .lAnd hitCondition key.computeControlPlaneConstraint)
        hitCondition).eval ρ =
        (hitCondition.eval ρ && l.all fun key => key.computeControlPlaneConstraint.eval ρ) := by
    intro l
    induction l with
    | nil =>
      intro hitCondition
      rw [List.foldl_nil, List.all_nil, Bool.and_true]
    | cons key l ih =>
      intro hitCondition
      rw [List.foldl_cons, ih, Expr.eval_lAnd, List.all_cons, Bool.and_assoc]
  cases keyMap with
  | nil => exact absurd rfl some_key
  | cons key keyMap => exact loop keyMap _

theorem eval_setTableKeyMatch [Z3] [IrOrder] {tableName : String}
    (t : TableConfiguration tableName) {tableKeyMap : List TableMatchKey} (some_key : tableKeyMap ≠ []) :
    (t.setTableKeyMatch tableKeyMap).tableKeyMatch.eval ρ =
      tableKeyMap.all fun key => key.computeControlPlaneConstraint.eval ρ := by
  rw [setTableKeyMatch, SimplifyExpression.eval_simplify, eval_buildKeyMatches ρ some_key]

end KeyMatch

variable [Z3] [IrOrder] {tableName : String} (t : TableConfiguration tableName) (ρ : Valuation)

/-- The entry matches the keys of the table under the valuation. -/
def applies (e : TableMatchEntry tableName) : Bool := t.tableKeyMatch.eval (e.matchSet.bind ρ)

/-- What the entries assign to a variable, each with whether it matches. -/
def alternatives (x : SymbolicVariable) (l : List (TableMatchEntry tableName)) :
    List (Bool × x.type.Val) :=
  l.filterMap fun e => (e.actionAssignment.find x).map fun v => (t.applies ρ e, v)

theorem alternatives_cons (x : SymbolicVariable) (e : TableMatchEntry tableName)
    (l : List (TableMatchEntry tableName)) :
    t.alternatives ρ x (e :: l) =
      (((e.actionAssignment.find x).map fun v => (t.applies ρ e, v)).toList ++
        t.alternatives ρ x l) := by
  cases h : e.actionAssignment.find x <;> simp [alternatives, h]

theorem alternatives_choice (l : List (TableMatchEntry tableName)) :
    t.alternatives ρ (getTableActionChoice tableName) l =
      l.map fun e => (t.applies ρ e, e.action) := by
  induction l with
  | nil => rfl
  | cons e l ih => rw [alternatives_cons, ih, e.find_choice]; rfl

theorem alternatives_append (x : SymbolicVariable) (before after : List (TableMatchEntry tableName)) :
    t.alternatives ρ x (before ++ after) = t.alternatives ρ x before ++ t.alternatives ρ x after :=
  List.filterMap_append

/-- Entries that do not match offer nothing that applies. -/
theorem alternatives_of_none (x : SymbolicVariable) {l : List (TableMatchEntry tableName)}
    (h : ∀ e ∈ l, t.applies ρ e = false) : ∀ g ∈ t.alternatives ρ x l, g.1 = false := by
  intro g hg
  obtain ⟨e, he, assigned⟩ := List.mem_filterMap.mp hg
  obtain ⟨v, -, rfl⟩ := Option.map_eq_some_iff.mp assigned
  exact h e he

/-- One entry extends the chain of every variable that it assigns. -/
theorem chain_alternatives_cons (x : SymbolicVariable) (e : TableMatchEntry tableName)
    (l : List (TableMatchEntry tableName)) (current : Option x.type.Val) :
    Choice.chain current (t.alternatives ρ x (e :: l)) =
      Choice.chain (match e.actionAssignment.find x with
        | none => current
        | some v => some ((current.map fun value => if t.applies ρ e then v else value).getD v))
        (t.alternatives ρ x l) := by
  rw [alternatives_cons, Choice.chain_append]
  congr 1
  cases e.actionAssignment.find x <;> cases current <;> rfl

/-- `computeControlPlaneAssignments` with all entries spelled out. -/
def exactAssignments : ControlPlaneAssignmentSet :=
  t.tableEntries.list.foldl (fun assignments e =>
    let constraint := e.computeControlPlaneAssignments.substitute t.tableKeyMatch
    mergeConditionally (fun _ assignment value => .mux constraint assignment value) assignments
      e.actionAssignment.expressions.entries) t.missAssignments.expressions

/-- `computeZ3ControlPlaneAssignments` with all entries spelled out. -/
def exactZ3Assignments : Z3ControlPlaneAssignmentSet :=
  mergeZ3Entries t.missAssignments.toZ3 t.tableEntries.list

theorem exactAssignments_of_few (few : t.tableEntries.size ≤ kMaxEntriesPerTable) :
    t.computeControlPlaneAssignments = t.exactAssignments := by
  rw [computeControlPlaneAssignments, exactAssignments]
  by_cases none : t.tableEntries.size = 0
  · rw [if_pos none, List.eq_nil_of_length_eq_zero none, List.foldl_nil]
  · rw [if_neg none, if_neg (Nat.not_lt.mpr few)]

theorem exactZ3Assignments_of_few (few : t.tableEntries.size ≤ kMaxEntriesPerTable) :
    t.computeZ3ControlPlaneAssignments = t.exactZ3Assignments := by
  rw [computeZ3ControlPlaneAssignments, exactZ3Assignments]
  by_cases none : t.tableEntries.size = 0
  · rw [if_pos none, List.eq_nil_of_length_eq_zero none, mergeZ3Entries]
  · rw [if_neg none, if_neg (Nat.not_lt.mpr few)]

/-- A variable has the value of the last matching entry that assigns it. Where there is none, it has
the value that the default action gives it, or else the one of the first entry. -/
theorem value_exactAssignments (x : SymbolicVariable) :
    (t.exactAssignments.find x).map (Expr.eval ρ) =
      Choice.chain (t.missAssignments.find x) (t.alternatives ρ x t.tableEntries.list) := by
  have loop : ∀ (l : List (TableMatchEntry tableName)) (s : ControlPlaneAssignmentSet),
      ((l.foldl (fun assignments e => mergeConditionally
          (fun _ assignment value =>
            .mux (e.computeControlPlaneAssignments.substitute t.tableKeyMatch) assignment value)
          assignments e.actionAssignment.expressions.entries) s).find x).map (Expr.eval ρ) =
        Choice.chain ((s.find x).map (Expr.eval ρ)) (t.alternatives ρ x l) := by
    intro l
    induction l with
    | nil => exact fun s => rfl
    | cons e l ih =>
      intro s
      rw [List.foldl_cons, ih, chain_alternatives_cons, find_mergeConditionally]
      congr 1
      have guard : (e.computeControlPlaneAssignments.substitute t.tableKeyMatch).eval ρ =
          t.applies ρ e := LiteralAssignmentSet.eval_substitute_expressions e.matchSet _ ρ
      rw [LiteralAssignmentSet.find_expressions]
      cases e.actionAssignment.find x <;> cases s.find x <;> simp [guard]
  rw [exactAssignments, loop, LiteralAssignmentSet.find_expressions]
  cases t.missAssignments.find x <;> simp

/-- The entries that the loop of `computeZ3ControlPlaneAssignments` gets to. -/
def z3Entries : List (TableMatchEntry tableName) :=
  t.tableEntries.list.takeWhile fun e => e.condition.isSome

/-- The Z3 form has the same values, over the entries up to the first without a condition. -/
theorem value_exactZ3Assignments [Z3.Lawful] (x : SymbolicVariable) :
    (t.exactZ3Assignments.find x).map (Z3.Lawful.eval ρ) =
      Choice.chain (t.missAssignments.find x) (t.alternatives ρ x t.z3Entries) := by
  have loop : ∀ (l : List (TableMatchEntry tableName)),
      (∀ e ∈ l, e.Conditioned t.tableKeyMatch) → ∀ s : Z3ControlPlaneAssignmentSet,
      ((mergeZ3Entries s l).find x).map (Z3.Lawful.eval ρ) =
        Choice.chain ((s.find x).map (Z3.Lawful.eval ρ))
          (t.alternatives ρ x (l.takeWhile fun e => e.condition.isSome)) := by
    intro l
    induction l with
    | nil => exact fun _ s => rfl
    | cons e l ih =>
      intro conditioned s
      have rest := ih fun d hd => conditioned d (List.mem_cons_of_mem e hd)
      rw [mergeZ3Entries]
      rcases conditioned e List.mem_cons_self with set | ⟨unset, -⟩
      · rw [set, List.takeWhile_cons_of_pos (by simp [set]), chain_alternatives_cons]
        simp only
        rw [rest, find_mergeConditionally]
        congr 1
        have guard : Z3.Lawful.eval ρ (e.computeZ3ControlPlaneAssignments.substitute
            (e.conditionFor (Z3.set t.tableKeyMatch))) = t.applies ρ e := by
          refine (LiteralAssignmentSet.eval_substitute_toZ3 e.matchSet _ ρ).trans ?_
          refine (LiteralAssignmentSet.eval_substitute_toZ3 e.matchSet _ _).trans ?_
          rw [LiteralAssignmentSet.bind_bind, Z3.Lawful.eval_set]
          rfl
        rw [LiteralAssignmentSet.find_toZ3]
        cases e.actionAssignment.find x <;> cases s.find x <;> simp [guard]
      · rw [unset, List.takeWhile_cons_of_neg (by simp [unset])]
        rfl
  rw [exactZ3Assignments, loop _ t.conditioned, LiteralAssignmentSet.find_toZ3]
  cases t.missAssignments.find x <;> simp [z3Entries]

/-- The values of the variables with the table's entries spelled out, also where it has none. -/
theorem value_of_few (few : t.tableEntries.size ≤ kMaxEntriesPerTable) (x : SymbolicVariable) :
    (t.computeControlPlaneAssignments.find x).map (Expr.eval ρ) =
      Choice.chain (t.missAssignments.find x) (t.alternatives ρ x t.tableEntries.list) := by
  rw [t.exactAssignments_of_few few, value_exactAssignments]

theorem z3Value_of_few [Z3.Lawful] (few : t.tableEntries.size ≤ kMaxEntriesPerTable)
    (x : SymbolicVariable) :
    (t.computeZ3ControlPlaneAssignments.find x).map (Z3.Lawful.eval ρ) =
      Choice.chain (t.missAssignments.find x) (t.alternatives ρ x t.z3Entries) := by
  rw [t.exactZ3Assignments_of_few few, value_exactZ3Assignments]

/-- When some entry matches, the analysis has seen the table, and every entry has its condition. -/
theorem z3Entries_of_applies {e : TableMatchEntry tableName} (h : t.applies ρ e = true) :
    t.z3Entries = t.tableEntries.list := by
  refine List.takeWhile_eq_self_iff.mpr fun d hd => ?_
  rcases t.conditioned d hd with set | ⟨-, off⟩
  · simp [set]
  · simp [applies, off] at h

end TableConfiguration

end Flay
