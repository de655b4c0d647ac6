import Flay.ControlPlane.Assignment
import Flay.Ir.Simplify

/-! The objects of the control plane: match keys, table entries, default actions, table
configurations and the other items that constrain a program. -/

namespace Flay

open Container

/-- `ToolsVariables::getSymbolicVariable(var.type, var.label + "*")`. -/
def SymbolicVariable.wildcard (x : SymbolicVariable) : Expr x.type :=
  .var (.wildcard x.label) x.type

section Symbols

abbrev getTableActive (tableName : String) : SymbolicVariable := ⟨.tableActive tableName, .boolean⟩

abbrev getTableActionChoice (tableName : String) : SymbolicVariable :=
  ⟨.tableActionChoice tableName, .string⟩

abbrev getDefaultActionVariable (tableName : String) : SymbolicVariable :=
  ⟨.defaultAction tableName, .string⟩

abbrev getTableActionArgument (tableName actionName parameterName : String) (type : Ty) :
    SymbolicVariable :=
  ⟨.tableActionArgument tableName actionName parameterName, type⟩

abbrev getTableKey (tableName fieldName : String) (type : Ty) : SymbolicVariable :=
  ⟨.tableKey tableName fieldName, type⟩

abbrev getTableTernaryMask (tableName fieldName : String) (type : Ty) : SymbolicVariable :=
  ⟨.tableTernaryMask tableName fieldName, type⟩

abbrev getTableMatchLpmPrefix (tableName fieldName : String) (type : Ty) : SymbolicVariable :=
  ⟨.tableMatchLpmPrefix tableName fieldName, type⟩

abbrev getTableRange (tableName fieldName : String) (type : Ty) :
    SymbolicVariable × SymbolicVariable :=
  (⟨.tableRangeMin tableName fieldName, type⟩, ⟨.tableRangeMax tableName fieldName, type⟩)

abbrev getParserValueSetConfigured (name : String) : SymbolicVariable :=
  ⟨.parserValueSetConfigured name, .boolean⟩

end Symbols

/-- A key of a table: its name, how it matches, and the expression that the program matches on. -/
inductive TableMatchKey
  | exact (tableName name : String) {s : Bool} {w : Nat} (keyExpression : Expr (.bits s w))
  | ternary (tableName name : String) {s : Bool} {w : Nat} (keyExpression : Expr (.bits s w))
  | lpm (tableName name : String) {s : Bool} {w : Nat} (keyExpression : Expr (.bits s w))
  | optional (tableName name : String) {s : Bool} {w : Nat} (keyExpression : Expr (.bits s w))
  | range (tableName name : String) {s : Bool} {w : Nat} (keyExpression : Expr (.bits s w))
  | selector (tableName name : String) {s : Bool} {w : Nat} (keyExpression : Expr (.bits s w))

def createTernaryKey {s : Bool} {w : Nat} (keySymbol mask keyExpression : Expr (.bits s w)) :
    Expr .boolean :=
  .equ (.binary .bAnd keyExpression mask) (.binary .bAnd keySymbol mask)

/-- The mask is the largest value of the type, shifted by the prefix. -/
def createLpmKey {s : Bool} {w : Nat} (keySymbol prefixVar keyExpression : Expr (.bits s w)) :
    Expr .boolean :=
  let lpmMask := .binary .shl (.lit (BitVec.allOnes w)) prefixVar
  .equ (.binary .bAnd keyExpression lpmMask) (.binary .bAnd keySymbol lpmMask)

def createRangeKey {s : Bool} {w : Nat} (minKey maxKey keyExpression : Expr (.bits s w)) :
    Expr .boolean :=
  .lAnd (.lAnd (.binary .lss minKey maxKey) (.binary .leq minKey keyExpression))
    (.binary .leq keyExpression maxKey)

/-- The condition that the control plane puts on a key, over the variables of its match. -/
def TableMatchKey.computeControlPlaneConstraint : TableMatchKey → Expr .boolean
  | .exact tableName name (s := s) (w := w) keyExpression =>
    .equ (getTableKey tableName name (.bits s w)).expr keyExpression
  | .ternary tableName name (s := s) (w := w) keyExpression =>
    createTernaryKey (getTableKey tableName name (.bits s w)).expr
      (getTableTernaryMask tableName name (.bits s w)).expr keyExpression
  | .lpm tableName name (s := s) (w := w) keyExpression =>
    createLpmKey (getTableKey tableName name (.bits s w)).expr
      (getTableMatchLpmPrefix tableName name (.bits s w)).expr keyExpression
  | .optional tableName name (s := s) (w := w) keyExpression =>
    .equ (getTableKey tableName name (.bits s w)).expr keyExpression
  | .range tableName name (s := s) (w := w) keyExpression =>
    createRangeKey (getTableRange tableName name (.bits s w)).1.expr
      (getTableRange tableName name (.bits s w)).2.expr keyExpression
  | .selector tableName name (s := s) (w := w) keyExpression =>
    .equ (getTableKey tableName name (.bits s w)).expr keyExpression

/-- `Z3ControlPlaneAssignmentSet::substitute`. -/
def Z3ControlPlaneAssignmentSet.substitute [Z3] (s : Z3ControlPlaneAssignmentSet) {t : Ty}
    (toSubstitute : Z3.Term t) : Z3.Term t :=
  Z3.simplify (Z3.substitute toSubstitute s.entries)

/-- A `ControlPlaneAssignmentSet` whose expressions are literals, as every producer of an action
assignment or of a match makes them. -/
abbrev LiteralAssignmentSet : Type := OrderedMap fun x : SymbolicVariable => x.type.Val

namespace LiteralAssignmentSet

def expressions (s : LiteralAssignmentSet) : ControlPlaneAssignmentSet :=
  s.mapValues fun _ v => .lit v

/-- The assignments in Z3 form. -/
def toZ3 [Z3] (s : LiteralAssignmentSet) : Z3ControlPlaneAssignmentSet :=
  s.mapValues fun _ v => Z3.set (.lit v)

/-- The valuation in which the variables of the set have the values assigned to them. -/
def bind (s : LiteralAssignmentSet) (ρ : Valuation) : Valuation := fun x => (s.find x).getD (ρ x)

end LiteralAssignmentSet

/-- An entry of the table. It assigns the action choice of the table, whatever its action. -/
structure TableMatchEntry [Z3] (tableName : String) where
  actionAssignment : LiteralAssignmentSet
  priority : Int
  matchSet : LiteralAssignmentSet
  condition : Option (Z3.Term .boolean)
  chooses : getTableActionChoice tableName ∈ actionAssignment.keys

namespace TableMatchEntry

variable [Z3] {tableName : String}

/-- The constructor; the table that takes the entry sets its condition. -/
def create (actionAssignment : LiteralAssignmentSet) (priority : Int)
    (matchSet : LiteralAssignmentSet)
    (chooses : getTableActionChoice tableName ∈ actionAssignment.keys) :
    TableMatchEntry tableName :=
  ⟨actionAssignment, priority, matchSet, none, chooses⟩

/-- The name of the action that the entry executes. -/
def action (e : TableMatchEntry tableName) : String :=
  (e.actionAssignment.find (getTableActionChoice tableName)).getD default

theorem find_choice (e : TableMatchEntry tableName) :
    e.actionAssignment.find (getTableActionChoice tableName) = some e.action := by
  obtain ⟨v, hv⟩ := OrderedMap.exists_find_of_mem e.chooses
  rw [action, hv]
  rfl

def computeControlPlaneAssignments (e : TableMatchEntry tableName) : ControlPlaneAssignmentSet :=
  e.matchSet.expressions

def computeZ3ControlPlaneAssignments (e : TableMatchEntry tableName) :
    Z3ControlPlaneAssignmentSet :=
  e.matchSet.toZ3

/-- The condition under which the entry matches, given the one of the table's keys. -/
def conditionFor (e : TableMatchEntry tableName) (condition : Z3.Term .boolean) :
    Z3.Term .boolean :=
  e.computeZ3ControlPlaneAssignments.substitute condition

def setZ3Condition (condition : Z3.Term .boolean) (e : TableMatchEntry tableName) :
    TableMatchEntry tableName :=
  { e with condition := some (e.conditionFor condition) }

/-- `operator<`: entries are compared by their matches alone. -/
def order [IrOrder] : WeakOrder (TableMatchEntry tableName) :=
  IrOrder.setOrder.comap computeControlPlaneAssignments

/-- The condition of the entry is the one that the keys of its table give it. Before the analysis
has seen the table applied, it may not have one. -/
def Conditioned (tableKeyMatch : Expr .boolean) (e : TableMatchEntry tableName) : Prop :=
  e.condition = some (e.conditionFor (Z3.set tableKeyMatch)) ∨
    e.condition = none ∧ tableKeyMatch = .false

end TableMatchEntry

/-- `TableEntrySet`. -/
abbrev TableEntrySet [Z3] [IrOrder] (tableName : String) : Type :=
  SortedSet (@TableMatchEntry.order _ tableName _)

structure TableDefaultAction where
  actionAssignment : LiteralAssignmentSet

/-- The largest number of entries that a table's assignments spell out. -/
def kMaxEntriesPerTable : Nat := 50

structure TableConfiguration [Z3] [IrOrder] (tableName : String) where
  defaultTableAction : TableDefaultAction
  tableEntries : TableEntrySet tableName
  tableKeyMatch : Expr .boolean
  conditioned : ∀ e ∈ tableEntries, e.Conditioned tableKeyMatch

namespace TableConfiguration

variable [Z3] [IrOrder] {tableName : String}

/-- The constructor, for entries that have no condition yet. -/
def create (defaultTableAction : TableDefaultAction) (tableEntries : TableEntrySet tableName)
    (fresh : ∀ e ∈ tableEntries, e.condition = none) : TableConfiguration tableName :=
  ⟨defaultTableAction, tableEntries, .false, fun e he => .inr ⟨fresh e he, rfl⟩⟩

/-- A table without entries. -/
def unconfigured (defaultTableAction : TableDefaultAction) : TableConfiguration tableName :=
  create defaultTableAction SortedSet.empty fun e he => absurd he (SortedSet.not_mem_empty e)

def buildKeyMatches : List TableMatchKey → Expr .boolean
  | [] => .false
  | key :: keyMap =>
    keyMap.foldl (fun hitCondition key => .lAnd hitCondition key.computeControlPlaneConstraint)
      key.computeControlPlaneConstraint

def setTableKeyMatch (t : TableConfiguration tableName) (tableKeyMap : List TableMatchKey) :
    TableConfiguration tableName where
  defaultTableAction := t.defaultTableAction
  tableEntries :=
    t.tableEntries.map (TableMatchEntry.setZ3Condition
      (Z3.set (SimplifyExpression.simplify (buildKeyMatches tableKeyMap)))) fun _ _ => rfl
  tableKeyMatch := SimplifyExpression.simplify (buildKeyMatches tableKeyMap)
  conditioned := by
    intro e he
    obtain ⟨e, -, rfl⟩ := SortedSet.mem_map.mp he
    exact .inl rfl

theorem exists_of_mem_setTableKeyMatch {t : TableConfiguration tableName}
    {tableKeyMap : List TableMatchKey} {e : TableMatchEntry tableName}
    (h : e ∈ (t.setTableKeyMatch tableKeyMap).tableEntries) :
    ∃ d ∈ t.tableEntries, e.actionAssignment = d.actionAssignment := by
  obtain ⟨d, hd, rfl⟩ := List.mem_map.mp h
  exact ⟨d, hd, rfl⟩

/-- The configuration with the entry, and whether the entry is a new one. -/
def addTableEntry (t : TableConfiguration tableName) (e : TableMatchEntry tableName)
    (replace : Bool) : TableConfiguration tableName × Bool :=
  let tableEntries := if replace then t.tableEntries.erase e else t.tableEntries
  ({ t with
      tableEntries := tableEntries.insert (e.setZ3Condition (Z3.set t.tableKeyMatch))
      conditioned := by
        intro d hd
        rcases SortedSet.mem_insert_imp hd with rfl | hd
        · exact .inl rfl
        · refine t.conditioned d ?_
          dsimp only [tableEntries] at hd
          split at hd
          · exact (SortedSet.mem_erase.mp hd).1
          · exact hd },
    !tableEntries.contains e)

/-- The configuration without the entry, and whether it had it. -/
def deleteTableEntry (t : TableConfiguration tableName) (e : TableMatchEntry tableName) :
    TableConfiguration tableName × Bool :=
  ({ t with
      tableEntries := t.tableEntries.erase e
      conditioned := fun d hd => t.conditioned d (SortedSet.mem_erase.mp hd).1 },
    t.tableEntries.contains e)

def clearTableEntries (t : TableConfiguration tableName) : TableConfiguration tableName :=
  { t with
    tableEntries := SortedSet.empty
    conditioned := fun d hd => absurd hd (SortedSet.not_mem_empty d) }

def setDefaultTableAction (t : TableConfiguration tableName)
    (defaultTableAction : TableDefaultAction) : TableConfiguration tableName :=
  { t with defaultTableAction }

def active (t : TableConfiguration tableName) : Bool := decide (0 < t.tableEntries.size)

/-- The assignments of the default action, and whether the table has entries. -/
def missAssignments (t : TableConfiguration tableName) : LiteralAssignmentSet :=
  t.defaultTableAction.actionAssignment.emplace (getTableActive tableName) t.active

def computeControlPlaneAssignments (t : TableConfiguration tableName) :
    ControlPlaneAssignmentSet :=
  let assignments := t.missAssignments.expressions
  if t.tableEntries.size = 0 then assignments
  else if t.tableEntries.size > kMaxEntriesPerTable then
    assignments.mapValues fun x _ => x.wildcard
  else
    t.tableEntries.list.foldl (fun assignments e =>
      let constraint := e.computeControlPlaneAssignments.substitute t.tableKeyMatch
      mergeConditionally (fun _ assignment value => .mux constraint assignment value) assignments
        e.actionAssignment.expressions.entries) assignments

/-- The loop over the entries, which stops at one whose condition is not set. -/
def mergeZ3Entries (assignments : Z3ControlPlaneAssignmentSet) :
    List (TableMatchEntry tableName) → Z3ControlPlaneAssignmentSet
  | [] => assignments
  | e :: entries =>
    match e.condition with
    | none => assignments
    | some condition =>
      let constraint := e.computeZ3ControlPlaneAssignments.substitute condition
      mergeZ3Entries
        (mergeConditionally (fun _ assignment value => Z3.simplify (Z3.ite constraint assignment value))
          assignments e.actionAssignment.toZ3.entries)
        entries

def computeZ3ControlPlaneAssignments (t : TableConfiguration tableName) :
    Z3ControlPlaneAssignmentSet :=
  let assignments := t.missAssignments.toZ3
  if t.tableEntries.size = 0 then assignments
  else if t.tableEntries.size > kMaxEntriesPerTable then
    assignments.mapValues fun x _ => Z3.set x.wildcard
  else mergeZ3Entries assignments t.tableEntries.list

end TableConfiguration

/-- The items of the control plane that `ControlPlaneConstraints` refers to, by their names. -/
inductive ControlPlaneItem [Z3] [IrOrder] (name : String)
  | tableConfiguration (t : TableConfiguration name)
  | parserValueSet
  | actionProfile (associatedTables : List String)
  | actionSelector

def ControlPlaneItem.computeZ3ControlPlaneAssignments [Z3] [IrOrder] {name : String} :
    ControlPlaneItem name → Z3ControlPlaneAssignmentSet
  | .tableConfiguration t => t.computeZ3ControlPlaneAssignments
  | .parserValueSet =>
    OrderedMap.empty.emplace (getParserValueSetConfigured name) (Z3.set Expr.false)
  | .actionProfile _ => OrderedMap.empty
  | .actionSelector => OrderedMap.empty

/-- `ControlPlaneConstraints`. -/
abbrev ControlPlaneConstraints [Z3] [IrOrder] : Type := OrderedMap ControlPlaneItem

/-- The assignments of all items, merged as the analysis maps merge them. -/
def ControlPlaneConstraints.assignmentSet [Z3] [IrOrder] (constraints : ControlPlaneConstraints) :
    Z3ControlPlaneAssignmentSet :=
  constraints.entries.foldl (fun set item =>
    set.insertAll item.2.computeZ3ControlPlaneAssignments.entries) OrderedMap.empty

end Flay
