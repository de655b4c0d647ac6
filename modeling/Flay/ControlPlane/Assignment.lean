import Flay.Ir.Z3
import Flay.Lib.Choice
import Flay.Lib.SortedSet

/-! Assignments of expressions to the symbolic variables of the control plane, in the form of the
intermediate representation and in the form of Z3. -/

namespace Flay

open Container

/-- `IR::Node::isSemanticallyLess`, which the build generates for the nodes of the IR. -/
class IrOrder where
  order : WeakOrder (Sigma Expr)

/-- `ControlPlaneAssignmentSet`. -/
abbrev ControlPlaneAssignmentSet : Type := OrderedMap fun x : SymbolicVariable => Expr x.type

/-- `Z3ControlPlaneAssignmentSet`. -/
abbrev Z3ControlPlaneAssignmentSet [Z3] : Type :=
  OrderedMap fun x : SymbolicVariable => Z3.Term x.type

/-- The symbols that a conversion has used; only membership counts. -/
abbrev SymbolSet : Type := List SymbolicVariable

namespace IrOrder

/-- An order that ranks literals by their values and tells no other expressions apart. -/
@[reducible] def literals : IrOrder where
  order := WeakOrder.ofRank fun e =>
    match e with
    | ⟨.bits _ _, .lit value⟩ => value.toNat
    | _ => 0

theorem lexicographic (p q p' q' rest : Bool) :
    (if p then true else if q then false else if p' then true else if q' then false else rest) =
      ((p || (!p && !q && p')) || (!(p || (!p && !q && p')) && !(q || (!q && !p && q')) && rest)) := by
  cases p <;> cases q <;> cases p' <;> cases q' <;> simp

variable [IrOrder]

def isSemanticallyLess {s t : Ty} (a : Expr s) (b : Expr t) : Bool := order.less ⟨s, a⟩ ⟨t, b⟩

/-- The loop of `compare` over the entries of two sets. -/
def compareEntries : List (Sigma fun x : SymbolicVariable => Expr x.type) →
    List (Sigma fun x : SymbolicVariable => Expr x.type) → Bool
  | [], [] => false
  | [], _ :: _ => true
  | _ :: _, [] => false
  | el :: s1, it :: s2 =>
    if isSemanticallyLess el.1.expr it.1.expr then true
    else if isSemanticallyLess it.1.expr el.1.expr then false
    else if isSemanticallyLess el.2 it.2 then true
    else if isSemanticallyLess it.2 el.2 then false
    else compareEntries s1 s2

/-- Whether the first set comes before the second. -/
def compare (s1 s2 : ControlPlaneAssignmentSet) : Bool := compareEntries s1.entries s2.entries

/-- An entry as the two nodes that `compare` looks at. -/
def nodes (s : Sigma fun x : SymbolicVariable => Expr x.type) : Sigma Expr × Sigma Expr :=
  (⟨_, s.1.expr⟩, ⟨_, s.2⟩)

/-- The order of assignment sets: entry by entry, the variable before the value. -/
def entriesOrder : WeakOrder ControlPlaneAssignmentSet :=
  ((order.prod order).list).comap fun s => s.entries.map nodes

theorem compare_eq_less (s1 s2 : ControlPlaneAssignmentSet) :
    compare s1 s2 = entriesOrder.less s1 s2 := by
  have loop : ∀ l m : List (Sigma fun x : SymbolicVariable => Expr x.type),
      compareEntries l m = (order.prod order).listLess (l.map nodes) (m.map nodes) := by
    intro l
    induction l with
    | nil =>
      intro m
      cases m <;> rfl
    | cons a l ih =>
      intro m
      cases m with
      | nil => rfl
      | cons b m =>
        have step : (order.prod order).listLess ((a :: l).map nodes) ((b :: m).map nodes) =
            ((order.prod order).less (nodes a) (nodes b) ||
              ((order.prod order).equiv (nodes a) (nodes b) && compareEntries l m)) := by
          rw [ih]
          rfl
        rw [step]
        exact lexicographic _ _ _ _ _
  exact loop s1.entries s2.entries

/-- `compare` is a strict weak order, as `std::set` asks of it. -/
def setOrder : WeakOrder ControlPlaneAssignmentSet :=
  entriesOrder.withLess compare (funext₂ compare_eq_less)

theorem setOrder_eq : setOrder = entriesOrder := by
  have same : compare = entriesOrder.less := funext₂ compare_eq_less
  simp only [setOrder, WeakOrder.withLess, same]

end IrOrder

/-- `SubstituteSymbolicVariable` with the assignments of the set. -/
def ControlPlaneAssignmentSet.substitute (s : ControlPlaneAssignmentSet) {t : Ty} (e : Expr t) :
    Expr t :=
  e.substitute s.find

/-- The valuation in which the variables of the set have the values assigned to them. -/
def ControlPlaneAssignmentSet.bind (s : ControlPlaneAssignmentSet) (ρ : Valuation) : Valuation :=
  Expr.assigned s.find ρ

theorem ControlPlaneAssignmentSet.eval_substitute (s : ControlPlaneAssignmentSet) {t : Ty}
    (e : Expr t) (ρ : Valuation) : (s.substitute e).eval ρ = e.eval (s.bind ρ) :=
  Expr.eval_substitute s.find e

section MergeConditionally

variable {β : SymbolicVariable → Type}

/-- `assignment` in place of the value of `x` where `select` says so, or as its first value. -/
def addConditionally (select : (x : SymbolicVariable) → β x → β x → β x) (s : OrderedMap β)
    (x : SymbolicVariable) (assignment : β x) : OrderedMap β :=
  match s.find x with
  | none => s.emplace x assignment
  | some value => s.assign x (select x assignment value)

def mergeConditionally (select : (x : SymbolicVariable) → β x → β x → β x) (s : OrderedMap β)
    (l : List (Sigma β)) : OrderedMap β :=
  l.foldl (fun s a => addConditionally select s a.1 a.2) s

variable {select : (x : SymbolicVariable) → β x → β x → β x}

theorem find_addConditionally_self (s : OrderedMap β) (x : SymbolicVariable) (a : β x) :
    (addConditionally select s x a).find x =
      some (((s.find x).map fun value => select x a value).getD a) := by
  unfold addConditionally
  split
  · rename_i none
    simp [OrderedMap.find_emplace_self, none]
  · rename_i value found
    simp [OrderedMap.find_assign_self _ (OrderedMap.mem_keys_of_find found), found]

theorem find_addConditionally_ne (s : OrderedMap β) {x y : SymbolicVariable} (a : β x)
    (h : y ≠ x) : (addConditionally select s x a).find y = s.find y := by
  unfold addConditionally
  split
  · exact OrderedMap.find_emplace_ne s a h
  · exact OrderedMap.find_assign_ne s _ h

/-- A merge changes each variable once, by what the other set assigns to it. -/
theorem find_mergeConditionally (s : OrderedMap β) (m : OrderedMap β) (x : SymbolicVariable) :
    (mergeConditionally select s m.entries).find x =
      match m.find x with
      | none => s.find x
      | some a => some (((s.find x).map fun value => select x a value).getD a) := by
  have loop : ∀ (l : List (Sigma β)), l.NodupKeys → ∀ s : OrderedMap β,
      (mergeConditionally select s l).find x = match l.dlookup x with
        | none => s.find x
        | some a => some (((s.find x).map fun value => select x a value).getD a) := by
    intro l
    induction l with
    | nil => exact fun _ s => rfl
    | cons e l ih =>
      intro nodup s
      obtain ⟨y, a⟩ := e
      obtain ⟨fresh, nodup⟩ := List.nodupKeys_cons.mp nodup
      have step : mergeConditionally select s (⟨y, a⟩ :: l) =
          mergeConditionally select (addConditionally select s y a) l := rfl
      rw [step, ih nodup]
      by_cases h : x = y
      · subst h
        rw [List.dlookup_eq_none.mpr fresh, List.dlookup_cons_eq, find_addConditionally_self]
      · rw [List.dlookup_cons_ne _ ⟨y, a⟩ h, find_addConditionally_ne s a h]
  exact loop m.entries m.nodupKeys s

end MergeConditionally

end Flay
