import Flay.Interpreter.InterpreterRun

/-! The order in which tables decide: the keys that the interpreter records for a table read the data
plane and the variables of the tables that it has recorded before. -/

namespace Flay

open Container

/-- The data plane gives the variable its value, or one of the tables does. -/
def SymbolLabel.Settled (tables : List String) : SymbolLabel → Prop
  | .dataPlane _ | .parserValueSetConfigured _ => True
  | .tableActive table | .tableActionChoice table | .defaultAction table
  | .tableActionArgument table _ _ => table ∈ tables
  | _ => False

/-- All variables of the expression are settled. -/
def Expr.Settled (tables : List String) {t : Ty} (e : Expr t) : Prop :=
  ∀ x ∈ e.symbols, x.label.Settled tables

variable {tables tables' : List String}

theorem SymbolLabel.Settled.mono {label : SymbolLabel} (h : label.Settled tables)
    (subset : tables ⊆ tables') : label.Settled tables' := by
  cases label with
  | dataPlane | parserValueSetConfigured => trivial
  | tableActive | tableActionChoice | defaultAction | tableActionArgument => exact subset h
  | tableKey | tableTernaryMask | tableMatchLpmPrefix | tableRangeMin | tableRangeMax
  | wildcard => exact h.elim

namespace Expr

variable {t : Ty}

theorem Settled.mono {e : Expr t} (h : e.Settled tables) (subset : tables ⊆ tables') :
    e.Settled tables' :=
  fun x mem => (h x mem).mono subset

theorem Settled.of_subset {s : Ty} {e : Expr t} {e' : Expr s} (h : e.Settled tables)
    (subset : e'.symbols ⊆ e.symbols) : e'.Settled tables :=
  fun x mem => h x (subset mem)

theorem settled_lit (value : t.Val) : (Expr.lit value).Settled tables :=
  fun _ mem => absurd mem List.not_mem_nil

theorem settled_var {label : SymbolLabel} (h : label.Settled tables) :
    (Expr.var label t).Settled tables :=
  fun _ mem => List.mem_singleton.mp mem ▸ h

/-- An expression with two operands is settled where both are. -/
theorem settled_append {s u : Ty} {e : Expr u} {left : Expr s} {right : Expr t}
    (operands : e.symbols = left.symbols ++ right.symbols) (hl : left.Settled tables)
    (hr : right.Settled tables) : e.Settled tables := by
  intro x mem
  rw [operands] at mem
  exact (List.mem_append.mp mem).elim (hl x) (hr x)

theorem settled_mux {cond : Expr .boolean} {e1 e2 : Expr t} (h0 : cond.Settled tables)
    (h1 : e1.Settled tables) (h2 : e2.Settled tables) : (Expr.mux cond e1 e2).Settled tables := by
  intro x mem
  obtain mem | mem := List.mem_append.mp mem
  · exact h0 x mem
  · exact (List.mem_append.mp mem).elim (h1 x) (h2 x)

theorem settled_produceSimplifiedMux {cond : Expr .boolean} {e1 e2 : Expr t}
    (h0 : cond.Settled tables) (h1 : e1.Settled tables) (h2 : e2.Settled tables) :
    (SimplifyExpression.produceSimplifiedMux cond e1 e2).Settled tables :=
  (settled_mux h0 h1 h2).of_subset (SimplifyExpression.symbols_simplify _)

end Expr

/-- The values of a state and the condition of its path are settled. -/
structure ExecutionState.Settled (tables : List String) (s : ExecutionState) : Prop where
  env : ∀ x e, s.env.find x = some e → e.Settled tables
  condition : s.getExecutionCondition.Settled tables

namespace ExecutionState

variable {s s' : ExecutionState}

theorem Settled.mono (h : s.Settled tables) (subset : tables ⊆ tables') : s.Settled tables' where
  env x e found := (h.env x e found).mono subset
  condition := h.condition.mono subset

theorem Settled.set (h : s.Settled tables) {x : StateVariable} {value : Expr x.type}
    (settled : value.Settled tables) : (s.set x value).Settled tables where
  env y e found := by
    by_cases same : y = x
    · subst same
      have new := (OrderedMap.find_set_self s.env y value).symm.trans found
      exact Option.some.inj new ▸ settled
    · exact h.env y e ((OrderedMap.find_set_ne s.env value same).symm.trans found)
  condition := h.condition

theorem Settled.push (h : s.Settled tables) {cond : Expr .boolean} (settled : cond.Settled tables) :
    (s.pushExecutionCondition cond).Settled tables where
  env := h.env
  condition := by
    have before := h.condition
    unfold getExecutionCondition at before
    unfold pushExecutionCondition getExecutionCondition
    cases known : s.executionCondition with
    | none => exact settled
    | some executionCondition =>
      rw [known] at before
      exact (Expr.settled_append rfl before settled).of_subset
        (SimplifyExpression.symbols_simplify _)

/-- A merge chooses between the values of the two states by the condition of the other one. -/
theorem Settled.merge (h : s.Settled tables) (h' : s'.Settled tables) :
    (s.merge s').Settled tables where
  env x e found := by
    have cond := h'.condition.of_subset (SimplifyExpression.symbols_simplify _)
    unfold ExecutionState.merge mergeEnv at found
    dsimp only at found
    split at found
    · rw [OrderedMap.find_update _ _ s'.env.nodupKeys, Option.map_eq_some_iff] at found
      obtain ⟨current, known, rfl⟩ := found
      cases looked : s'.env.entries.dlookup x with
      | none => exact h.env x current known
      | some new => exact h'.env x new looked
    · exact h.env x e found
    · rw [OrderedMap.find_update _ _ s'.env.nodupKeys, Option.map_eq_some_iff] at found
      obtain ⟨current, known, rfl⟩ := found
      cases looked : s'.env.entries.dlookup x with
      | none => exact h.env x current known
      | some new =>
        rw [Option.map_some, Option.getD_some]
        split
        · exact h.env x current known
        · exact Expr.settled_produceSimplifiedMux cond (h'.env x new looked) (h.env x current known)
  condition := h.condition

theorem Settled.mergeAll {states : List ExecutionState} (h : s.Settled tables)
    (all : ∀ s' ∈ states, s'.Settled tables) : (states.foldl ExecutionState.merge s).Settled tables := by
  induction states generalizing s with
  | nil => exact h
  | cons s' states ih =>
    exact ih (h.merge (all s' List.mem_cons_self)) fun s'' mem => all s'' (List.mem_cons_of_mem _ mem)

theorem Settled.of_same (h : s.Settled tables) (env : s'.env = s.env)
    (condition : s'.executionCondition = s.executionCondition) : s'.Settled tables where
  env x e found := h.env x e (env ▸ found)
  condition := by
    have settled := h.condition
    rw [getExecutionCondition, ← condition] at settled
    exact settled

theorem Settled.addExpressionMapping (h : s.Settled tables) (node : Node) {t : Ty} (value : Expr t) :
    (s.addExpressionMapping node value).Settled tables := by
  cases t <;> exact h.of_same rfl rfl

end ExecutionState

/-- The variables of the expression that the program matches on. -/
def TableMatchKey.read : TableMatchKey → List SymbolicVariable
  | .exact _ _ keyExpression | .ternary _ _ keyExpression | .lpm _ _ keyExpression
  | .optional _ _ keyExpression | .range _ _ keyExpression | .selector _ _ keyExpression =>
    keyExpression.symbols

def TableMatchKey.table : TableMatchKey → String
  | .exact tableName .. | .ternary tableName .. | .lpm tableName .. | .optional tableName ..
  | .range tableName .. | .selector tableName .. => tableName

/-- The keys of each table are its own, and read the data plane and the tables ahead of it alone. -/
def KeysInOrder (tables : List String) : List (String × List TableMatchKey) → Prop
  | [] => True
  | (table, keys) :: later =>
    (∀ key ∈ keys, key.table = table ∧ ∀ x ∈ key.read, x.label.Settled tables) ∧
      KeysInOrder (tables ++ [table]) later

theorem keysInOrder_append {l l' : List (String × List TableMatchKey)} :
    KeysInOrder tables (l ++ l') ↔
      KeysInOrder tables l ∧ KeysInOrder (tables ++ l.map Prod.fst) l' := by
  induction l generalizing tables with
  | nil => simp [KeysInOrder]
  | cons record l ih =>
    obtain ⟨table, keys⟩ := record
    rw [List.cons_append, KeysInOrder, KeysInOrder, ih, and_assoc, List.map_cons,
      List.append_assoc, List.singleton_append]

/-- The table that gives the variable its value. -/
def SymbolLabel.decider? : SymbolLabel → Option String
  | .tableActive table | .tableActionChoice table | .defaultAction table
  | .tableActionArgument table _ _ => some table
  | _ => none

theorem SymbolLabel.Settled.mem {label : SymbolLabel} (h : label.Settled tables) {table : String}
    (decided : label.decider? = some table) : table ∈ tables := by
  cases label <;> cases decided <;> exact h

/-- A key that is recorded for the table reads a variable of the other one. -/
def Reads (record : List (String × List TableMatchKey)) (table other : String) : Prop :=
  ∃ keys, (table, keys) ∈ record ∧ ∃ key ∈ keys, ∃ x ∈ key.read, x.label.decider? = some other

/-- Where each table is recorded once, it stands behind the tables that it reads. -/
theorem KeysInOrder.idxOf_lt {record : List (String × List TableMatchKey)}
    (inOrder : KeysInOrder tables record) (once : (tables ++ record.map Prod.fst).Nodup)
    {table other : String} (reads : Reads record table other) :
    (tables ++ record.map Prod.fst).idxOf other < (tables ++ record.map Prod.fst).idxOf table := by
  induction record generalizing tables with
  | nil =>
    obtain ⟨keys, mem, -⟩ := reads
    cases mem
  | cons head record ih =>
    obtain ⟨name, own⟩ := head
    obtain ⟨keys, mem, key, listed, x, occurs, decided⟩ := reads
    obtain first | later := List.mem_cons.mp mem
    · cases first
      have known : other ∈ tables := ((inOrder.1 key listed).2 x occurs).mem decided
      have new : table ∉ tables := fun old =>
        List.disjoint_of_nodup_append once old List.mem_cons_self
      rw [List.idxOf_append_of_mem known, List.idxOf_append_of_notMem new]
      exact Nat.lt_of_lt_of_le (List.idxOf_lt_length_of_mem known) (Nat.le_add_right _ _)
    · have shifted : tables ++ List.map Prod.fst ((name, own) :: record) =
          (tables ++ [name]) ++ record.map Prod.fst := by simp
      rw [shifted] at once ⊢
      exact ih inOrder.2 once ⟨keys, later, key, listed, x, occurs, decided⟩

/-- No table reads itself, not even through others. -/
theorem KeysInOrder.acyclic {record : List (String × List TableMatchKey)}
    (inOrder : KeysInOrder [] record) (once : (record.map Prod.fst).Nodup) (table : String) :
    ¬Relation.TransGen (Reads record) table table := by
  intro cycle
  have descends : ∀ other, Relation.TransGen (Reads record) table other →
      (record.map Prod.fst).idxOf other < (record.map Prod.fst).idxOf table := by
    intro other path
    induction path with
    | single reads => exact inOrder.idxOf_lt once reads
    | tail _ reads before => exact Nat.lt_trans (inOrder.idxOf_lt once reads) before
  exact lt_irrefl _ (descends table cycle)

namespace Interpretation

/-- The tables that have been recorded. -/
def recorded (i : Interpretation) : List String := i.tableKeyMatches.map Prod.fst

/-- The record is in order, and the state reads the recorded tables and those that are opened. -/
structure InOrder (opened : List String) (i : Interpretation) : Prop where
  settled : i.state.Settled (i.recorded ++ opened)
  keys : KeysInOrder [] i.tableKeyMatches

/-- What the interpreter gets to is in order, and its record has grown. -/
structure Advances (opened : List String) (i i' : Interpretation) : Prop where
  inOrder : i'.InOrder opened
  grows : i.tableKeyMatches <+: i'.tableKeyMatches

variable {opened : List String} {i j k : Interpretation}

theorem InOrder.advances (h : i.InOrder opened) : i.Advances opened i := ⟨h, List.prefix_rfl⟩

theorem Advances.trans (h : i.Advances opened j) (h' : j.Advances opened k) : i.Advances opened k :=
  ⟨h'.inOrder, h.grows.trans h'.grows⟩

theorem Advances.recorded (h : i.Advances opened j) : i.recorded ++ opened ⊆ j.recorded ++ opened :=
  append_subset_append (h.grows.map Prod.fst).subset (List.Subset.refl _)

theorem Advances.resume (h : i.Advances opened j) {s : ExecutionState}
    (settled : s.Settled (j.recorded ++ opened)) : i.Advances opened (j.resume s) :=
  ⟨⟨settled, h.inOrder.keys⟩, h.grows⟩

theorem Advances.addReachabilityMapping (h : i.Advances opened j) (node : Node)
    (cond : Expr .boolean) : i.Advances opened (j.addReachabilityMapping node cond) :=
  ⟨⟨h.inOrder.settled.of_same rfl rfl, h.inOrder.keys⟩, h.grows⟩

/-- The interpreter has been at work on a clone under a condition, and goes on with its own state. -/
theorem Advances.fork (h : i.Advances opened j) {c : Interpretation} {cond : Expr .boolean}
    (h' : (j.resume (j.state.pushExecutionCondition cond)).Advances opened c) :
    i.Advances opened (c.resume j.state) :=
  ⟨⟨h.inOrder.settled.mono h'.recorded, h'.inOrder.keys⟩, h.grows.trans h'.grows⟩

theorem InOrder.push (h : i.InOrder opened) {cond : Expr .boolean}
    (settled : cond.Settled (i.recorded ++ opened)) :
    (i.resume (i.state.pushExecutionCondition cond)).InOrder opened :=
  ⟨h.settled.push settled, h.keys⟩

end Interpretation

/-- The application of a table and the call of an action keep the record in order. -/
structure SymbolicHandlers.KeepOrder {τ α : Type} (h : SymbolicHandlers τ α) (opened : List String) :
    Prop where
  processTable : ∀ table i result i', i.InOrder opened →
    h.processTable table i = some (result, i') → i.Advances opened i' ∧
      result.hit.Settled (i'.recorded ++ opened) ∧ result.actionRun.Settled (i'.recorded ++ opened)
  callAction : ∀ action i i', i.InOrder opened → h.callAction action i = some i' →
    i.Advances opened i'

section Statements

variable {τ α : Type} {h : SymbolicHandlers τ α} {opened : List String}

open FlayStepper ExpressionResolver

/-- The expression computes in order: what it results in is settled. -/
def OrderlyResult (h : SymbolicHandlers τ α) (opened : List String) {t : Ty} (e : ProgramExpr τ t) :
    Prop :=
  ∀ i r i', i.InOrder opened → computeResult h e i = some (r, i') →
    i.Advances opened i' ∧ r.Settled (i'.recorded ++ opened)

theorem orderlyResult_binary {s t : Ty} {left : ProgramExpr τ s} {right : ProgramExpr τ t}
    (ihLeft : OrderlyResult h opened left) (ihRight : OrderlyResult h opened right)
    {i i' : Interpretation} (inOrder : i.InOrder opened) {u : Ty} {f : Expr s → Expr t → Expr u}
    (operands : ∀ left right, (f left right).symbols = left.symbols ++ right.symbols) {r : Expr u}
    (ran : (do
      let (left, i) ← computeResult h left i
      let (right, i) ← computeResult h right i
      some (f left right, i)) = some (r, i')) :
    i.Advances opened i' ∧ r.Settled (i'.recorded ++ opened) := by
  simp only [bind, Option.bind_eq_some_iff, Option.some.injEq, Prod.mk.injEq] at ran
  obtain ⟨⟨l, j⟩, ranLeft, ⟨r', k⟩, ranRight, rfl, rfl⟩ := ran
  obtain ⟨advancesLeft, settledLeft⟩ := ihLeft i l j inOrder ranLeft
  obtain ⟨advancesRight, settledRight⟩ := ihRight j r' k advancesLeft.inOrder ranRight
  exact ⟨advancesLeft.trans advancesRight,
    Expr.settled_append (operands l r') (settledLeft.mono advancesRight.recorded) settledRight⟩

theorem computeResult_inOrder (keeps : h.KeepOrder opened) {t : Ty} (e : ProgramExpr τ t) :
    OrderlyResult h opened e := by
  induction e with
  | lit value =>
    intro i r i' inOrder ran
    cases ran
    exact ⟨inOrder.advances, Expr.settled_lit value⟩
  | path node name t =>
    intro i r i' inOrder ran
    obtain ⟨value, found, ran⟩ := Option.bind_eq_some_iff.mp ran
    cases ran
    exact ⟨inOrder.advances.resume (inOrder.settled.addExpressionMapping node r),
      inOrder.settled.env _ _ found⟩
  | hit node table =>
    intro i r i' inOrder ran
    obtain ⟨⟨result, j⟩, ranTable, ran⟩ := Option.bind_eq_some_iff.mp ran
    cases ran
    obtain ⟨advances, hit, -⟩ := keeps.processTable table i result j inOrder ranTable
    exact ⟨advances.addReachabilityMapping node result.hit, hit⟩
  | miss node table =>
    intro i r i' inOrder ran
    obtain ⟨⟨result, j⟩, ranTable, ran⟩ := Option.bind_eq_some_iff.mp ran
    cases ran
    obtain ⟨advances, hit, -⟩ := keeps.processTable table i result j inOrder ranTable
    exact ⟨advances.addReachabilityMapping node (.lNot result.hit), hit⟩
  | actionRun table =>
    intro i r i' inOrder ran
    obtain ⟨⟨result, j⟩, ranTable, ran⟩ := Option.bind_eq_some_iff.mp ran
    cases ran
    obtain ⟨advances, -, actionRun⟩ := keeps.processTable table i result _ inOrder ranTable
    exact ⟨advances, actionRun⟩
  | lNot e ih | unary op e ih =>
    intro i r i' inOrder ran
    obtain ⟨⟨operand, j⟩, ranOperand, ran⟩ := Option.bind_eq_some_iff.mp ran
    cases ran
    exact ih i operand _ inOrder ranOperand
  | lAnd left right ihLeft ihRight | lOr left right ihLeft ihRight | equ left right ihLeft ihRight
  | binary op left right ihLeft ihRight =>
    intro i r i' inOrder ran
    exact orderlyResult_binary ihLeft ihRight inOrder (fun _ _ => rfl) ran
  | neq left right ihLeft ihRight =>
    intro i r i' inOrder ran
    exact orderlyResult_binary (f := fun left right => .lNot (.equ left right)) ihLeft ihRight inOrder
      (fun _ _ => rfl) ran
  | mux e0 e1 e2 ih0 ih1 ih2 =>
    intro i r i' inOrder ran
    simp only [computeResult, bind, Option.bind_eq_some_iff, Option.some.injEq,
      Prod.mk.injEq] at ran
    obtain ⟨⟨cond, j⟩, ranCondition, ⟨elseExpr, k⟩, ranElse, ⟨ifExpr, c⟩, ranIf, rfl, rfl⟩ := ran
    obtain ⟨advancesCondition, settledCondition⟩ := ih0 i cond j inOrder ranCondition
    obtain ⟨advancesElse, settledElse⟩ := ih2 j elseExpr k advancesCondition.inOrder ranElse
    have condition := settledCondition.mono advancesElse.recorded
    obtain ⟨advancesIf, settledIf⟩ := ih1 _ ifExpr c (advancesElse.inOrder.push condition) ranIf
    have rest := (advancesCondition.trans advancesElse).fork advancesIf
    exact ⟨rest.resume (rest.inOrder.settled.merge advancesIf.inOrder.settled),
      Expr.settled_mux (condition.mono advancesIf.recorded) settledIf
        (settledElse.mono advancesIf.recorded)⟩

mutual

theorem statement_inOrder (keeps : h.KeepOrder opened) : (s : Statement τ α) →
    {i i' : Interpretation} → i.InOrder opened → statement h s i = some i' → i.Advances opened i'
  | .empty, i, i', inOrder, ran => by
    cases ran
    exact inOrder.advances
  | .assignment left right, i, i', inOrder, ran => by
    obtain ⟨⟨r, j⟩, ranRight, ran⟩ := Option.bind_eq_some_iff.mp ran
    cases ran
    obtain ⟨advances, settled⟩ := computeResult_inOrder keeps right i r j inOrder ranRight
    exact advances.resume (advances.inOrder.settled.set settled)
  | .declaration _ _, _, _, _, ran => by cases ran
  | .block components, i, i', inOrder, ran => statements_inOrder keeps components inOrder ran
  | .ifStatement node condition ifTrue ifFalse, i, i', inOrder, ran => by
    simp only [statement, bind, Option.bind_eq_some_iff, Option.some.injEq] at ran
    obtain ⟨⟨cond, j⟩, ranCondition, t, ranTrue, e, ranFalse, rfl⟩ := ran
    obtain ⟨advances, settled⟩ :=
      computeResult_inOrder keeps condition i cond j inOrder ranCondition
    have mapped := advances.addReachabilityMapping node cond
    have ifTrue := statement_inOrder keeps ifTrue (mapped.inOrder.push settled) ranTrue
    have branch := mapped.fork ifTrue
    have ifFalse := optionalStatement_inOrder keeps ifFalse branch.inOrder ranFalse
    exact (branch.trans ifFalse).resume
      (ifFalse.inOrder.settled.merge (ifTrue.inOrder.settled.mono ifFalse.recorded))
  | .switchStatement expression cases, i, i', inOrder, ran => by
    simp only [statement, bind, Option.bind_eq_some_iff, Option.some.injEq] at ran
    obtain ⟨⟨switchExpr, j⟩, ranExpression, ⟨k, states⟩, ranCases, d, ranDefault, rfl⟩ := ran
    obtain ⟨advances, settled⟩ :=
      computeResult_inOrder keeps expression i switchExpr j inOrder ranExpression
    obtain ⟨blocks, all⟩ := switchCases_inOrder keeps cases advances.inOrder settled
      (fun _ same => by cases same) ranCases
    have default := defaultCase_inOrder keeps cases blocks.inOrder ranDefault
    exact ((advances.trans blocks).trans default).resume
      (default.inOrder.settled.mergeAll fun s mem => (all s mem).mono default.recorded)
  | .apply table, i, i', inOrder, ran => by
    obtain ⟨⟨result, j⟩, ranTable, rfl⟩ := Option.map_eq_some_iff.mp ran
    exact (keeps.processTable table i result j inOrder ranTable).1
  | .call action, i, i', inOrder, ran => keeps.callAction action i i' inOrder ran

theorem statements_inOrder (keeps : h.KeepOrder opened) : (l : List (Statement τ α)) →
    {i i' : Interpretation} → i.InOrder opened → statements h l i = some i' → i.Advances opened i'
  | [], i, i', inOrder, ran => by
    cases ran
    exact inOrder.advances
  | s :: l, i, i', inOrder, ran => by
    obtain ⟨j, ranFirst, ran⟩ := Option.bind_eq_some_iff.mp ran
    have first := statement_inOrder keeps s inOrder ranFirst
    exact first.trans (statements_inOrder keeps l first.inOrder ran)

theorem optionalStatement_inOrder (keeps : h.KeepOrder opened) : (s : Option (Statement τ α)) →
    {i i' : Interpretation} → i.InOrder opened → optionalStatement h s i = some i' →
      i.Advances opened i'
  | none, i, i', inOrder, ran => by
    cases ran
    exact inOrder.advances
  | some s, i, i', inOrder, ran => statement_inOrder keeps s inOrder ran

theorem switchCases_inOrder (keeps : h.KeepOrder opened) {t : Ty} {switchExpr : Expr t} :
    (cases : List (SwitchCase τ α)) → {cond : Option (Expr .boolean)} → {i i' : Interpretation} →
      {states : List ExecutionState} → i.InOrder opened →
      switchExpr.Settled (i.recorded ++ opened) →
      (∀ e, cond = some e → e.Settled (i.recorded ++ opened)) →
      switchCases h switchExpr cond cases i = some (i', states) →
        i.Advances opened i' ∧ ∀ s ∈ states, s.Settled (i'.recorded ++ opened)
  | [], _, i, i', states, inOrder, _, _, ran => by
    cases ran
    exact ⟨inOrder.advances, fun s mem => by cases mem⟩
  | .mk node label body :: cases, cond, i, i', states, inOrder, switched, before, ran => by
    rw [switchCases] at ran
    split at ran
    · cases ran
      exact ⟨inOrder.advances, fun s mem => by cases mem⟩
    · split at ran
      · cases ran
      · rename_i constant _
        have equality : (Expr.equ switchExpr (.lit constant)).Settled (i.recorded ++ opened) :=
          Expr.settled_append rfl switched (Expr.settled_lit constant)
        have condition : ((cond.map fun cond => Expr.lOr cond
            (.equ switchExpr (.lit constant))).getD (.equ switchExpr (.lit constant))).Settled
              (i.recorded ++ opened) := by
          cases cond with
          | none => exact equality
          | some cond => exact Expr.settled_append rfl (before cond rfl) equality
        have mapped := inOrder.advances.addReachabilityMapping node (.equ switchExpr (.lit constant))
        cases body with
        | none =>
          obtain ⟨rest, all⟩ := switchCases_inOrder keeps cases mapped.inOrder switched
            (fun e same => Option.some.inj same ▸ condition) ran
          exact ⟨mapped.trans rest, all⟩
        | some body =>
          simp only [caseBody, bind, Option.bind_eq_some_iff, Option.some.injEq,
            Prod.mk.injEq] at ran
          obtain ⟨c, ranBody, ⟨k, later⟩, ranLater, rfl, rfl⟩ := ran
          have simplified := condition.of_subset (SimplifyExpression.symbols_simplify _)
          have block := statements_inOrder keeps body (mapped.inOrder.push simplified) ranBody
          have branch := mapped.fork block
          obtain ⟨rest, all⟩ := switchCases_inOrder keeps cases branch.inOrder
            (switched.mono branch.recorded) (fun _ same => by cases same) ranLater
          refine ⟨branch.trans rest, fun s mem => ?_⟩
          obtain rfl | mem := List.mem_cons.mp mem
          · exact block.inOrder.settled.mono rest.recorded
          · exact all s mem

theorem defaultCase_inOrder (keeps : h.KeepOrder opened) : (cases : List (SwitchCase τ α)) →
    {i i' : Interpretation} → i.InOrder opened → defaultCase h cases i = some i' →
      i.Advances opened i'
  | [], i, i', inOrder, ran => by
    cases ran
    exact inOrder.advances
  | .mk _ label body :: cases, i, i', inOrder, ran => by
    rw [defaultCase] at ran
    split at ran
    · cases body with
      | none => cases ran
      | some body => exact statements_inOrder keeps body inOrder ran
    · exact defaultCase_inOrder keeps cases inOrder ran

end

end Statements

theorem keepOrder_none (opened : List String) : SymbolicHandlers.none.KeepOrder opened :=
  ⟨fun table => table.elim, fun action => action.elim⟩

namespace TableExecutor

variable {opened : List String}

theorem settled_setArguments {s : ExecutionState} (h : s.Settled tables) {arguments : Arguments}
    (settled : ∀ a ∈ arguments, a.2.Settled tables) : (setArguments s arguments).Settled tables := by
  induction arguments generalizing s with
  | nil => exact h
  | cons a arguments ih =>
    exact ih (h.set (settled a List.mem_cons_self)) fun b mem => settled b (List.mem_cons_of_mem a mem)

theorem callAction_inOrder {i i' : Interpretation} (inOrder : i.InOrder opened) {action : P4Action}
    {arguments : Arguments} (settled : ∀ a ∈ arguments, a.2.Settled (i.recorded ++ opened))
    (ran : callAction i action arguments = some i') : i.Advances opened i' := by
  have set : i.Advances opened (i.resume (setArguments i.state arguments)) :=
    inOrder.advances.resume (settled_setArguments inOrder.settled settled)
  exact set.trans (statements_inOrder (keepOrder_none opened) action.body set.inOrder ran)

theorem settled_literalArguments (call : ActionCall) :
    ∀ a ∈ literalArguments call, a.2.Settled tables := by
  intro a mem
  obtain ⟨argument, -, rfl⟩ := List.mem_map.mp mem
  exact Expr.settled_lit _

section Table

variable {table : P4Table} (opens : table.controlPlaneName ∈ tables)

include opens

theorem settled_chosen (action : ActionListElement) : (chosen table action).Settled tables :=
  Expr.settled_append rfl (Expr.settled_var opens) (Expr.settled_lit _)

theorem settled_totalHitCondition : (totalHitCondition table).Settled tables := by
  have loop : ∀ (l : List ActionListElement) (condition : Expr .boolean),
      condition.Settled tables →
        (l.foldl (fun condition action =>
          if action.defaultOnly then condition else .lOr condition (chosen table action))
            condition).Settled tables := by
    intro l
    induction l with
    | nil => exact fun _ settled => settled
    | cons action l ih =>
      intro condition settled
      rw [List.foldl_cons]
      refine ih _ ?_
      split
      · exact settled
      · exact Expr.settled_append rfl settled (settled_chosen opens action)
  exact Expr.settled_append rfl (loop table.actionList .false (Expr.settled_lit _))
    (Expr.settled_var opens)

theorem settled_actionHitCondition (action : ActionListElement) :
    (actionHitCondition table action).Settled tables := by
  have condition : (if action.defaultOnly then .false else chosen table action).Settled tables := by
    split
    · exact Expr.settled_lit _
    · exact settled_chosen opens action
  have default : (Expr.equ (getDefaultActionVariable table.controlPlaneName).expr
      (.lit action.action.controlPlaneName)).Settled tables :=
    Expr.settled_append rfl (Expr.settled_var opens) (Expr.settled_lit _)
  have missed : (Expr.lNot (totalHitCondition table)).Settled tables :=
    settled_totalHitCondition opens
  unfold actionHitCondition
  dsimp only
  split
  · exact condition
  · exact Expr.settled_append rfl condition (Expr.settled_append rfl missed default)

theorem settled_createActionCallArguments (actionName : String) (parameters : List Parameter) :
    ∀ a ∈ createActionCallArguments table.controlPlaneName actionName parameters,
      a.2.Settled tables := by
  intro a mem
  obtain ⟨⟨name, controlPlaneName, type⟩, -, rfl⟩ := List.mem_map.mp mem
  cases type with
  | boolean => exact Expr.settled_append rfl (Expr.settled_var opens) (Expr.settled_lit _)
  | bits | string => exact Expr.settled_var opens

end Table

/-- The loop over the actions reads the variables of the table, which is opened. -/
theorem processActionOptions_inOrder {table : P4Table} (opens : table.controlPlaneName ∈ opened)
    {referenceState : ExecutionState} {actionList : List ActionListElement} {i i' : Interpretation}
    {actionRun result : Expr .string} (inOrder : i.InOrder opened)
    (reference : referenceState.Settled (i.recorded ++ opened))
    (settled : actionRun.Settled (i.recorded ++ opened))
    (ran : processActionOptions table referenceState actionList i actionRun = some (i', result)) :
    i.Advances opened i' ∧ result.Settled (i'.recorded ++ opened) := by
  induction actionList generalizing i actionRun with
  | nil =>
    cases ran
    exact ⟨inOrder.advances, settled⟩
  | cons action actionList ih =>
    obtain ⟨c, ranAction, ran⟩ := Option.bind_eq_some_iff.mp ran
    have opens' : table.controlPlaneName ∈ i.recorded ++ opened := List.mem_append_right _ opens
    have condition := settled_actionHitCondition opens' action
    have mapped :=
      inOrder.advances.addReachabilityMapping action.node (actionHitCondition table action)
    have clone := mapped.resume (reference.push condition)
    have called := callAction_inOrder clone.inOrder (settled_createActionCallArguments opens' _ _)
      ranAction
    have merged := (clone.trans called).resume
      ((mapped.inOrder.settled.mono called.recorded).merge called.inOrder.settled)
    obtain ⟨rest, path⟩ := ih merged.inOrder (reference.mono merged.recorded)
      (Expr.settled_produceSimplifiedMux (condition.mono merged.recorded) (Expr.settled_lit _)
        (settled.mono merged.recorded)) ran
    exact ⟨merged.trans rest, path⟩

variable {symbolicValue? : SymbolicValue}

/-- What each key that is resolved reads is settled. -/
theorem resolveKeyFields_inOrder {key : List KeyElement} {i i' : Interpretation}
    {resolved : List (Sigma fun key : KeyElement => Expr key.type)} (inOrder : i.InOrder opened)
    (ran : resolveKeyFields symbolicValue? key i = some (resolved, i')) :
    i.Advances opened i' ∧ ∀ keyField ∈ resolved, keyField.2.Settled (i'.recorded ++ opened) := by
  induction key generalizing i resolved with
  | nil =>
    cases ran
    exact ⟨inOrder.advances, fun _ mem => by cases mem⟩
  | cons keyField key ih =>
    rw [resolveKeyFields] at ran
    split at ran
    · exact ih inOrder ran
    · simp only [bind, Option.bind_eq_some_iff, Option.some.injEq, Prod.mk.injEq] at ran
      obtain ⟨⟨expr, j⟩, computed, ⟨rest, k⟩, ran, rfl, rfl⟩ := ran
      obtain ⟨advances, settled⟩ := computeResult_inOrder (keepOrder_none opened)
        keyField.expression i expr j inOrder computed
      obtain ⟨advances', all⟩ := ih advances.inOrder ran
      refine ⟨advances.trans advances', fun field mem => ?_⟩
      obtain rfl | mem := List.mem_cons.mp mem
      · exact settled.mono advances'.recorded
      · exact all field mem

/-- The expressions that need no resolution read the data plane alone. -/
def SymbolicValue.Settled (symbolicValue? : SymbolicValue) : Prop :=
  ∀ {t : Ty} (e : ProgramExpr Empty t) (expr : Expr t), symbolicValue? e = some expr →
    expr.Settled []

theorem resolveKey_inOrder (values : SymbolicValue.Settled symbolicValue?) {key : List KeyElement}
    {i i' : Interpretation} {resolved : List (Sigma fun key : KeyElement => Expr key.type)}
    (inOrder : i.InOrder opened) (ran : resolveKey symbolicValue? key i = some (resolved, i')) :
    i.Advances opened i' ∧ ∀ keyField ∈ resolved, keyField.2.Settled (i'.recorded ++ opened) := by
  simp only [resolveKey, bind, Option.bind_eq_some_iff] at ran
  obtain ⟨⟨fields, j⟩, ranFields, ran⟩ := ran
  obtain ⟨advances, settled⟩ := resolveKeyFields_inOrder inOrder ranFields
  dsimp only at ran
  split at ran
  · cases ran
    refine ⟨advances, fun keyField mem => ?_⟩
    obtain ⟨element, -, known⟩ := List.mem_filterMap.mp mem
    obtain ⟨expr, symbolic, rfl⟩ := Option.map_eq_some_iff.mp known
    exact (values element.expression expr symbolic).mono (List.nil_subset _)
  · cases ran
    exact ⟨advances, settled⟩

theorem keys_computeHitCondition {tableName : String}
    {key : List (Sigma fun key : KeyElement => Expr key.type)}
    (settled : ∀ keyField ∈ key, keyField.2.Settled tables) :
    ∀ k ∈ computeHitCondition tableName key,
      k.table = tableName ∧ ∀ x ∈ k.read, x.label.Settled tables := by
  intro k mem
  obtain ⟨⟨⟨name, matchType, isSigned, width, expression⟩, expr⟩, among, rfl⟩ := List.mem_map.mp mem
  have reads := settled _ among
  cases matchType <;> exact ⟨rfl, reads⟩

/-- A table is recorded after the tables that its keys read, and is settled from then on. -/
theorem processTable_inOrder (values : SymbolicValue.Settled symbolicValue?) {table : P4Table}
    {i i' : Interpretation} {result : TableExpression} (inOrder : i.InOrder [])
    (ran : processTable symbolicValue? table i = some (result, i')) :
    i.Advances [] i' ∧ result.hit.Settled (i'.recorded ++ []) ∧
      result.actionRun.Settled (i'.recorded ++ []) := by
  simp only [processTable, bind, Option.bind_eq_some_iff, Option.some.injEq, Prod.mk.injEq] at ran
  obtain ⟨⟨key, j⟩, ranKey, d, ranDefault, ⟨k, actionRun⟩, ranOptions, rfl, rfl⟩ := ran
  obtain ⟨keys, reads⟩ := resolveKey_inOrder values inOrder ranKey
  have name : table.controlPlaneName ∈ [table.controlPlaneName] := List.mem_singleton_self _
  have opened : j.InOrder [table.controlPlaneName] :=
    ⟨keys.inOrder.settled.mono (by simp), keys.inOrder.keys⟩
  have default := callAction_inOrder opened (settled_literalArguments table.defaultAction) ranDefault
  obtain ⟨options, path⟩ := processActionOptions_inOrder name default.inOrder
    (opened.settled.mono default.recorded) (Expr.settled_lit _) ranOptions
  have grows := (keys.grows.trans default.grows).trans options.grows
  have recorded : (k.recorded ++ [table.controlPlaneName]) = Interpretation.recorded
      { k with tableKeyMatches := k.tableKeyMatches ++
        [(table.controlPlaneName, computeHitCondition table.controlPlaneName key)] } := by
    simp [Interpretation.recorded]
  have settled := options.inOrder.settled
  rw [recorded] at settled path
  refine ⟨⟨⟨settled.mono (by simp), ?_⟩, grows.trans (List.prefix_append _ _)⟩, ?_, ?_⟩
  · refine keysInOrder_append.mpr ⟨options.inOrder.keys, keys_computeHitCondition ?_, trivial⟩
    intro keyField mem
    have before : j.recorded ++ [] ⊆ [] ++ k.tableKeyMatches.map Prod.fst := by
      rw [List.append_nil, List.nil_append]
      exact ((default.grows.trans options.grows).map Prod.fst).subset
    exact (reads keyField mem).mono before
  · exact settled_totalHitCondition (by simp [Interpretation.recorded])
  · simpa using path

theorem handlers_keepOrder (values : SymbolicValue.Settled symbolicValue?) :
    (handlers symbolicValue?).KeepOrder [] :=
  ⟨fun _ _ _ _ inOrder ran => processTable_inOrder values inOrder ran,
    fun call _ _ inOrder ran => callAction_inOrder inOrder (settled_literalArguments call) ran⟩

end TableExecutor

/-- The environment reads the data plane alone. -/
def SymbolicEnv.Settled (env : SymbolicEnv) : Prop := ∀ x e, env.find x = some e → e.Settled []

theorem Interpretation.inOrder_initial {env : SymbolicEnv} (settled : env.Settled) :
    (initial env).InOrder [] :=
  ⟨⟨settled, Expr.settled_lit _⟩, trivial⟩

/-- Whatever blocks the interpreter has stepped through, the keys of each table read the data plane,
the value sets of the parser and the variables of tables that have been recorded before it. Where no
table has been applied twice, no variable of the tables depends on itself. -/
theorem FlayStepper.keys_inOrder {symbolicValue? : TableExecutor.SymbolicValue}
    (values : TableExecutor.SymbolicValue.Settled symbolicValue?) (blocks : List ControlStatement)
    {env : SymbolicEnv} (settled : env.Settled) {i : Interpretation}
    (ran : statements (TableExecutor.handlers symbolicValue?) blocks (.initial env) = some i) :
    KeysInOrder [] i.tableKeyMatches ∧
      (i.recorded.Nodup → ∀ table, ¬Relation.TransGen (Reads i.tableKeyMatches) table table) := by
  have inOrder := (statements_inOrder (TableExecutor.handlers_keepOrder values) blocks
    (Interpretation.inOrder_initial settled) ran).inOrder.keys
  exact ⟨inOrder, inOrder.acyclic⟩

section Examples

open TableExecutor

theorem settled_literalValue : SymbolicValue.Settled literalValue := by
  intro t e expr known
  cases e with
  | lit value =>
    cases known
    exact Expr.settled_lit value
  | path | hit | miss | actionRun | lNot | lAnd | lOr | equ | neq | unary | binary | mux => cases known

theorem settled_fieldState : fieldState.state.env.Settled := by
  intro x e found
  by_cases same : x = ⟨"field", .bit 8⟩
  · subst same
    cases found
    exact Expr.settled_var trivial
  · rw [fieldState, OrderedMap.find_set_ne _ _ same] at found
    cases found

theorem keysInOrder_storeBlocks :
    KeysInOrder [] storeRecord.tableKeyMatches ∧
      ∀ table, ¬Relation.TransGen (Reads storeRecord.tableKeyMatches) table table := by
  obtain ⟨inOrder, acyclic⟩ := FlayStepper.keys_inOrder settled_literalValue storeBlocks
    settled_fieldState (Option.some_get _).symm
  exact ⟨inOrder, acyclic (by decide)⟩

end Examples

end Flay
