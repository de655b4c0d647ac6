import Flay.Interpreter.StateRun

/-! The interpreter as a run of the operations on execution states: whatever it steps through, each
clone that it works on is merged back. -/

namespace Flay

open Container
open AnnotationOperation (Reaches MergedBack)

namespace StateOperation

theorem runAll_append (s : StateHeap) (l l' : List StateOperation) :
    runAll s (l ++ l') = runAll (runAll s l) l' :=
  List.foldl_append

theorem allAnnotations_append (s : StateHeap) (l l' : List StateOperation) :
    allAnnotations s (l ++ l') = allAnnotations s l ++ allAnnotations (runAll s l) l' := by
  induction l generalizing s with
  | nil => rfl
  | cons operation l ih => exact (congrArg _ (ih _)).trans (List.append_assoc ..).symm

end StateOperation

open StateOperation

/-- From a heap in which the interpreter works on the state of a handle, the operations lead to an
interpretation, and leave states that are still to be merged at handles of their own above the bound.
The other states below the bound stay, and their maps reach what they reached. -/
structure Realizes (s : StateHeap) (handle bound : Nat) (l : List StateOperation)
    (i' : Interpretation) (clones : List Nat) (bound' : Nat) (pending : List ExecutionState) :
    Prop where
  state : (runAll s l).states handle = i'.state
  objects : (runAll s l).objects = i'.objects
  others : ∀ other ≤ bound, other ≠ handle → (runAll s l).states other = s.states other
  grows : bound ≤ bound'
  fresh : ∀ clone ∈ clones, bound < clone ∧ clone ≤ bound'
  pending : clones.map (runAll s l).states = pending
  reaches : ∀ rest, ∀ other ≤ bound, Reaches rest other →
    Reaches (allAnnotations s l ++ rest) other
  merged : ∀ rest, Reaches rest handle → (∀ clone ∈ clones, Reaches rest clone) →
    MergedBack rest → MergedBack (allAnnotations s l ++ rest)

namespace Realizes

variable {s : StateHeap} {handle bound bound' bound'' : Nat} {l l' : List StateOperation}
  {i j k : Interpretation} {clones clones' : List Nat} {pending pending' : List ExecutionState}

theorem refl (s : StateHeap) (handle bound : Nat) (state : s.states handle = i.state)
    (objects : s.objects = i.objects) : Realizes s handle bound [] i [] bound [] where
  state := state
  objects := objects
  others _ _ _ := rfl
  grows := le_rfl
  fresh _ mem := absurd mem List.not_mem_nil
  pending := rfl
  reaches _ _ _ reached := reached
  merged _ _ _ merged := merged

theorem trans (h : Realizes s handle bound l i clones bound' pending)
    (h' : Realizes (runAll s l) handle bound' l' j clones' bound'' pending')
    (below : handle ≤ bound) :
    Realizes s handle bound (l ++ l') j (clones ++ clones') bound'' (pending ++ pending') where
  state := by rw [runAll_append, h'.state]
  objects := by rw [runAll_append, h'.objects]
  others other under different := by
    rw [runAll_append, h'.others other (le_trans under h.grows) different, h.others other under different]
  grows := le_trans h.grows h'.grows
  fresh clone mem := by
    obtain mem | mem := List.mem_append.mp mem
    · exact (h.fresh clone mem).imp_right fun under => le_trans under h'.grows
    · exact (h'.fresh clone mem).imp_left fun above => lt_of_le_of_lt h.grows above
  pending := by
    rw [runAll_append, List.map_append, h'.pending, ← h.pending]
    congr 1
    refine List.map_congr_left fun clone mem => ?_
    obtain ⟨above, under⟩ := h.fresh clone mem
    exact h'.others clone under (Nat.ne_of_gt (lt_of_le_of_lt below above))
  reaches rest other under reached := by
    rw [allAnnotations_append, List.append_assoc]
    exact h.reaches _ other under (h'.reaches rest other (le_trans under h.grows) reached)
  merged rest reached each merged := by
    rw [allAnnotations_append, List.append_assoc]
    refine h.merged _ (h'.reaches rest handle (le_trans below h.grows) reached) (fun clone mem => ?_)
      (h'.merged rest reached (fun clone mem => each clone (List.mem_append_right _ mem)) merged)
    exact h'.reaches rest clone (h.fresh clone mem).2 (each clone (List.mem_append_left _ mem))

/-- The heap with a clone of a state under a condition. -/
def branched (s : StateHeap) (source clone : Nat) (cond : Expr .boolean) : StateHeap :=
  runAll s [.clone source clone, .pushExecutionCondition clone cond]

theorem states_branched_self (s : StateHeap) (source clone : Nat) (cond : Expr .boolean) :
    (branched s source clone cond).states clone =
      (s.states source).pushExecutionCondition cond := by
  simp [branched, runAll, StateOperation.run, StateHeap.update]

theorem states_branched_of_ne (s : StateHeap) (source : Nat) {clone other : Nat}
    (cond : Expr .boolean) (different : other ≠ clone) :
    (branched s source clone cond).states other = s.states other := by
  simp [branched, runAll, StateOperation.run, StateHeap.update, different]

/-- The interpreter works on a clone of a state, under a condition, and goes on with its own state. The
clone is to be merged. -/
theorem fork {source : Nat} {cond : Expr .boolean} {c : Interpretation}
    (own : s.states handle = j.state) (below : handle ≤ bound)
    (h : Realizes (branched s source (bound + 1) cond) (bound + 1) (bound + 1) l c [] bound' []) :
    Realizes s handle bound
      (.clone source (bound + 1) :: .pushExecutionCondition (bound + 1) cond :: l)
      (c.resume j.state) [bound + 1] bound' [c.state] where
  state := by
    rw [Interpretation.resume, ← own, ← states_branched_of_ne s source cond
      (show handle ≠ bound + 1 by omega)]
    exact h.others handle (by omega) (by omega)
  objects := h.objects
  others other under different := by
    rw [← states_branched_of_ne s source cond (show other ≠ bound + 1 by omega)]
    exact h.others other (by omega) (by omega)
  grows := by
    have grows := h.grows
    omega
  fresh clone mem := by
    have grows := h.grows
    obtain rfl := List.mem_singleton.mp mem
    omega
  pending := congrArg (fun state => [state]) h.state
  reaches rest other under reached :=
    .inl ⟨by omega, h.reaches rest other (by omega) reached⟩
  merged rest reached each merged :=
    h.merged rest (each _ (List.mem_singleton_self _)) (fun _ mem => absurd mem List.not_mem_nil)
      merged

/-- The interpreter works beside a clone of its state that is not merged. -/
theorem beside
    (h : Realizes (runAll s [.clone handle (bound + 1)]) handle (bound + 1) l i [] bound' []) :
    Realizes s handle bound (.clone handle (bound + 1) :: l) i [] bound' [] where
  state := h.state
  objects := h.objects
  others other under different := by
    refine (h.others other (by omega) different).trans ?_
    exact Function.update_of_ne (by omega) _ _
  grows := by
    have grows := h.grows
    omega
  fresh _ mem := absurd mem List.not_mem_nil
  pending := rfl
  reaches rest other under reached :=
    .inl ⟨by omega, h.reaches rest other (by omega) reached⟩
  merged := h.merged

section Merge

variable {states : List Nat}

theorem runAll_merge (s : StateHeap) (apart : ∀ clone ∈ states, clone ≠ handle) :
    (runAll s (states.map (.merge handle))).states handle =
        (states.map s.states).foldl ExecutionState.merge (s.states handle) ∧
      (runAll s (states.map (.merge handle))).objects = s.objects ∧
      ∀ other, other ≠ handle →
        (runAll s (states.map (.merge handle))).states other = s.states other := by
  induction states generalizing s with
  | nil => exact ⟨rfl, rfl, fun _ _ => rfl⟩
  | cons clone states ih =>
    obtain ⟨state, objects, others⟩ :=
      ih (StateOperation.run s (.merge handle clone)) fun other mem =>
        apart other (List.mem_cons_of_mem _ mem)
    have kept : ∀ other, other ≠ handle →
        (StateOperation.run s (.merge handle clone)).states other = s.states other :=
      fun other different => Function.update_of_ne different _ _
    refine ⟨state.trans ?_, objects, fun other different =>
      (others other different).trans (kept other different)⟩
    rw [List.map_cons, List.foldl_cons]
    congr 1
    · exact Function.update_self ..
    · exact List.map_congr_left fun other mem => kept other (apart other (List.mem_cons_of_mem _ mem))

theorem allAnnotations_merge (s : StateHeap) :
    allAnnotations s (states.map (.merge handle)) = states.map (.mergeAnnotationMapping handle) := by
  induction states generalizing s with
  | nil => rfl
  | cons clone states ih => exact congrArg (List.cons _) (ih _)

theorem reaches_merges {rest : List AnnotationOperation} {other : Nat} (reached : Reaches rest other) :
    Reaches (states.map (.mergeAnnotationMapping handle) ++ rest) other := by
  induction states with
  | nil => exact reached
  | cons clone states ih => exact .inl ih

theorem reaches_of_merged {rest : List AnnotationOperation} (reached : Reaches rest handle)
    {clone : Nat} (mem : clone ∈ states) :
    Reaches (states.map (.mergeAnnotationMapping handle) ++ rest) clone := by
  induction states with
  | nil => cases mem
  | cons first states ih =>
    obtain rfl | mem := List.mem_cons.mp mem
    · exact .inr ⟨rfl, reaches_merges reached⟩
    · exact .inl (ih mem)

theorem mergedBack_merges {rest : List AnnotationOperation} (merged : MergedBack rest) :
    MergedBack (states.map (.mergeAnnotationMapping handle) ++ rest) := by
  induction states with
  | nil => exact merged
  | cons clone states ih => exact ih

/-- All states that are pending are merged. -/
theorem mergeAll (h : Realizes s handle bound l i clones bound' pending) (below : handle ≤ bound) :
    Realizes s handle bound (l ++ clones.map (.merge handle))
      (i.resume (pending.foldl ExecutionState.merge i.state)) [] bound' [] := by
  have apart : ∀ clone ∈ clones, clone ≠ handle := fun clone mem => by
    have above := (h.fresh clone mem).1
    omega
  obtain ⟨state, objects, others⟩ := runAll_merge (runAll s l) apart
  refine ⟨?_, ?_, fun other under different => ?_, h.grows, fun _ mem => absurd mem List.not_mem_nil,
    rfl, fun rest other under reached => ?_, fun rest reached _ merged => ?_⟩
  · rw [runAll_append, state, h.pending, h.state]
    rfl
  · rw [runAll_append, objects, h.objects]
    rfl
  · rw [runAll_append, others other different, h.others other under different]
  · rw [allAnnotations_append, allAnnotations_merge, List.append_assoc]
    exact h.reaches _ other under (reaches_merges reached)
  · rw [allAnnotations_append, allAnnotations_merge, List.append_assoc]
    exact h.merged _ (reaches_merges reached) (fun clone mem => reaches_of_merged reached mem)
      (mergedBack_merges merged)

end Merge

end Realizes

/-- Wherever the interpreter works on its state, it makes a run of the operations. -/
def Interpretation.RunsTo (i i' : Interpretation) (pending : List ExecutionState) : Prop :=
  ∀ (s : StateHeap) (handle bound : Nat), handle ≤ bound → s.states handle = i.state →
    s.objects = i.objects → ∃ l clones bound', Realizes s handle bound l i' clones bound' pending

namespace Interpretation

variable {i j k : Interpretation} {pending pending' : List ExecutionState}

theorem runsTo_refl (i : Interpretation) : i.RunsTo i [] :=
  fun s handle bound _ state objects => ⟨[], [], bound, .refl s handle bound state objects⟩

theorem RunsTo.trans (h : i.RunsTo j pending) (h' : j.RunsTo k pending') :
    i.RunsTo k (pending ++ pending') := by
  intro s handle bound below state objects
  obtain ⟨l, clones, bound', realizes⟩ := h s handle bound below state objects
  obtain ⟨l', clones', bound'', realizes'⟩ :=
    h' _ handle bound' (le_trans below realizes.grows) realizes.state realizes.objects
  exact ⟨_, _, _, realizes.trans realizes' below⟩

/-- The keys of the tables are no part of a run. -/
theorem RunsTo.congr (h : i.RunsTo j pending) (state : k.state = j.state)
    (objects : k.objects = j.objects) : i.RunsTo k pending := by
  intro s handle bound below own shared
  obtain ⟨l, clones, bound', realizes⟩ := h s handle bound below own shared
  exact ⟨l, clones, bound', { realizes with
    state := realizes.state.trans state.symm
    objects := realizes.objects.trans objects.symm }⟩

theorem RunsTo.mergeAll (h : i.RunsTo j pending) :
    i.RunsTo (j.resume (pending.foldl ExecutionState.merge j.state)) [] := by
  intro s handle bound below state objects
  obtain ⟨l, clones, bound', realizes⟩ := h s handle bound below state objects
  exact ⟨_, _, _, realizes.mergeAll below⟩

/-- The run on a clone of a state leaves the clone to be merged. -/
theorem exists_fork {c : Interpretation} {source : ExecutionState} {cond : Expr .boolean}
    (h : (j.resume (source.pushExecutionCondition cond)).RunsTo c []) {s : StateHeap}
    {handle bound from_ : Nat} (below : handle ≤ bound) (own : s.states handle = j.state)
    (objects : s.objects = j.objects) (cloned : s.states from_ = source) :
    ∃ l bound', Realizes s handle bound l (c.resume j.state) [bound + 1] bound' [c.state] := by
  have clone := Realizes.states_branched_self s from_ (bound + 1) cond
  rw [cloned] at clone
  obtain ⟨l, clones, bound', realizes⟩ :=
    h (Realizes.branched s from_ (bound + 1) cond) (bound + 1) (bound + 1) le_rfl clone objects
  obtain rfl := List.map_eq_nil_iff.mp realizes.pending
  exact ⟨_, _, realizes.fork own below⟩

theorem runsTo_fork {c : Interpretation} {cond : Expr .boolean}
    (h : (j.resume (j.state.pushExecutionCondition cond)).RunsTo c []) :
    j.RunsTo (c.resume j.state) [c.state] := by
  intro s handle bound below own objects
  obtain ⟨l, bound', realizes⟩ := exists_fork h below own objects own
  exact ⟨l, _, bound', realizes⟩

theorem RunsTo.fork {c : Interpretation} {cond : Expr .boolean} (h : i.RunsTo j [])
    (h' : (j.resume (j.state.pushExecutionCondition cond)).RunsTo c []) :
    i.RunsTo (c.resume j.state) [c.state] :=
  h.trans (runsTo_fork h')

/-- One operation on the state of the interpreter. -/
theorem runsTo_operation (operation : Nat → StateOperation)
    (ran : ∀ (s : StateHeap) (handle : Nat), s.states handle = i.state → s.objects = i.objects →
      (operation handle).run s = { s.update handle j.state with objects := j.objects })
    (kept : ∀ s handle rest other, AnnotationOperation.Reaches rest other →
      AnnotationOperation.Reaches ((operation handle).annotations s ++ rest) other)
    (merged : ∀ s handle rest, AnnotationOperation.Reaches rest handle → MergedBack rest →
      MergedBack ((operation handle).annotations s ++ rest)) : i.RunsTo j [] := by
  intro s handle bound below own objects
  have after : runAll s [operation handle] =
    { s.update handle j.state with objects := j.objects } := ran s handle own objects
  refine ⟨[operation handle], [], bound, ?_, ?_, fun other _ different => ?_, le_rfl,
    fun _ mem => absurd mem List.not_mem_nil, rfl, fun rest other _ reached => ?_,
    fun rest reached _ back => ?_⟩
  · rw [after]
    exact Function.update_self ..
  · rw [after]
  · rw [after]
    exact Function.update_of_ne different _ _
  · rw [allAnnotations, allAnnotations, List.append_nil]
    exact kept s handle rest other reached
  · rw [allAnnotations, allAnnotations, List.append_nil]
    exact merged s handle rest reached back

theorem runsTo_set (i : Interpretation) (x : StateVariable) (value : Expr x.type) :
    i.RunsTo (i.resume (i.state.set x value)) [] := by
  refine runsTo_operation (fun handle => .set handle x value) (fun s handle own objects => ?_)
    (fun _ _ _ _ reached => reached) fun _ _ _ _ merged => merged
  rw [StateOperation.run, own]
  exact congrArg (StateHeap.mk _) objects

theorem runsTo_addExpressionMapping (i : Interpretation) (node : Node) {t : Ty} (value : Expr t) :
    i.RunsTo (i.resume (i.state.addExpressionMapping node value)) [] := by
  refine runsTo_operation (fun handle => .addExpressionMapping handle node value)
    (fun s handle own objects => ?_) (fun s handle rest other reached => ?_)
    fun s handle rest reached merged => ?_
  · rw [StateOperation.run, own]
    exact congrArg (StateHeap.mk _) objects
  · cases t <;> exact reached
  · cases t with
    | bits isSigned width => exact ⟨reached, merged⟩
    | boolean | string => exact merged

theorem runsTo_addReachabilityMapping (i : Interpretation) (node : Node) (cond : Expr .boolean) :
    i.RunsTo (i.addReachabilityMapping node cond) [] := by
  refine runsTo_operation (fun handle => .addReachabilityMapping handle node cond)
    (fun s handle own objects => ?_) (fun s handle rest other reached => reached)
    fun s handle rest reached merged => ⟨reached, merged⟩
  have same : s.interpretation handle = ⟨i.state, i.objects, []⟩ := by
    rw [StateHeap.interpretation, own, objects]
  rw [StateOperation.run, same]
  rfl

end Interpretation

/-- The application of a table and the call of an action are runs of the operations. -/
structure SymbolicHandlers.RunOperations {τ α : Type} (h : SymbolicHandlers τ α) : Prop where
  processTable : ∀ table i result i', h.processTable table i = some (result, i') →
    i.RunsTo i' []
  callAction : ∀ action i i', h.callAction action i = some i' → i.RunsTo i' []

section Statements

variable {τ α : Type} {h : SymbolicHandlers τ α}

open FlayStepper ExpressionResolver

theorem runsTo_binary {s t : Ty} {left : ProgramExpr τ s} {right : ProgramExpr τ t}
    (ihLeft : ∀ i r i', computeResult h left i = some (r, i') → i.RunsTo i' [])
    (ihRight : ∀ i r i', computeResult h right i = some (r, i') → i.RunsTo i' [])
    {i i' : Interpretation} {u : Ty} {f : Expr s → Expr t → Expr u} {r : Expr u}
    (ran : (do
      let (left, i) ← computeResult h left i
      let (right, i) ← computeResult h right i
      some (f left right, i)) = some (r, i')) : i.RunsTo i' [] := by
  simp only [bind, Option.bind_eq_some_iff, Option.some.injEq, Prod.mk.injEq] at ran
  obtain ⟨⟨l, j⟩, ranLeft, ⟨r', k⟩, ranRight, -, rfl⟩ := ran
  exact (ihLeft i l j ranLeft).trans (ihRight j r' k ranRight)

theorem computeResult_runsTo (runs : h.RunOperations) {t : Ty} (e : ProgramExpr τ t) :
    ∀ i r i', computeResult h e i = some (r, i') → i.RunsTo i' [] := by
  induction e with
  | lit value =>
    intro i r i' ran
    cases ran
    exact i.runsTo_refl
  | path node name t =>
    intro i r i' ran
    obtain ⟨value, found, ran⟩ := Option.bind_eq_some_iff.mp ran
    cases ran
    exact i.runsTo_addExpressionMapping node r
  | hit node table =>
    intro i r i' ran
    obtain ⟨⟨result, j⟩, ranTable, ran⟩ := Option.bind_eq_some_iff.mp ran
    cases ran
    exact (runs.processTable table i result j ranTable).trans
      (j.runsTo_addReachabilityMapping node result.hit)
  | miss node table =>
    intro i r i' ran
    obtain ⟨⟨result, j⟩, ranTable, ran⟩ := Option.bind_eq_some_iff.mp ran
    cases ran
    exact (runs.processTable table i result j ranTable).trans
      (j.runsTo_addReachabilityMapping node (.lNot result.hit))
  | actionRun table =>
    intro i r i' ran
    obtain ⟨⟨result, j⟩, ranTable, ran⟩ := Option.bind_eq_some_iff.mp ran
    cases ran
    exact runs.processTable table i result _ ranTable
  | lNot e ih | unary op e ih =>
    intro i r i' ran
    obtain ⟨⟨operand, j⟩, ranOperand, ran⟩ := Option.bind_eq_some_iff.mp ran
    cases ran
    exact ih i operand _ ranOperand
  | lAnd left right ihLeft ihRight | lOr left right ihLeft ihRight | equ left right ihLeft ihRight
  | binary op left right ihLeft ihRight =>
    intro i r i' ran
    exact runsTo_binary ihLeft ihRight ran
  | neq left right ihLeft ihRight =>
    intro i r i' ran
    exact runsTo_binary (f := fun left right => .lNot (.equ left right)) ihLeft ihRight ran
  | mux e0 e1 e2 ih0 ih1 ih2 =>
    intro i r i' ran
    simp only [computeResult, bind, Option.bind_eq_some_iff, Option.some.injEq,
      Prod.mk.injEq] at ran
    obtain ⟨⟨cond, j⟩, ranCondition, ⟨elseExpr, k⟩, ranElse, ⟨ifExpr, c⟩, ranIf, -, rfl⟩ := ran
    have operands := (ih0 i cond j ranCondition).trans (ih2 j elseExpr k ranElse)
    exact (operands.fork (ih1 _ ifExpr c ranIf)).mergeAll

mutual

theorem statement_runsTo (runs : h.RunOperations) : (s : Statement τ α) → (i i' : Interpretation) →
    statement h s i = some i' → i.RunsTo i' []
  | .empty, i, i', ran => by
    cases ran
    exact i.runsTo_refl
  | .assignment left right, i, i', ran => by
    obtain ⟨⟨r, j⟩, ranRight, ran⟩ := Option.bind_eq_some_iff.mp ran
    cases ran
    exact (computeResult_runsTo runs right i r j ranRight).trans (j.runsTo_set ⟨left, _⟩ r)
  | .declaration _ _, _, _, ran => by cases ran
  | .block components, i, i', ran => statements_runsTo runs components i i' ran
  | .ifStatement node condition ifTrue ifFalse, i, i', ran => by
    simp only [statement, bind, Option.bind_eq_some_iff, Option.some.injEq] at ran
    obtain ⟨⟨cond, j⟩, ranCondition, t, ranTrue, e, ranFalse, rfl⟩ := ran
    have mapped := (computeResult_runsTo runs condition i cond j ranCondition).trans
      (j.runsTo_addReachabilityMapping node cond)
    have branch := mapped.fork (statement_runsTo runs ifTrue _ t ranTrue)
    exact (branch.trans (optionalStatement_runsTo runs ifFalse _ e ranFalse)).mergeAll
  | .switchStatement expression cases, i, i', ran => by
    simp only [statement, bind, Option.bind_eq_some_iff, Option.some.injEq] at ran
    obtain ⟨⟨switchExpr, j⟩, ranExpression, ⟨k, states⟩, ranCases, d, ranDefault, rfl⟩ := ran
    have blocks := (computeResult_runsTo runs expression i switchExpr j ranExpression).trans
      (switchCases_runsTo runs switchExpr cases none j k states ranCases)
    have all := blocks.trans (defaultCase_runsTo runs cases k d ranDefault)
    rw [List.nil_append, List.append_nil] at all
    exact all.mergeAll
  | .apply table, i, i', ran => by
    obtain ⟨⟨result, j⟩, ranTable, rfl⟩ := Option.map_eq_some_iff.mp ran
    exact runs.processTable table i result _ ranTable
  | .call action, i, i', ran => runs.callAction action i i' ran

theorem statements_runsTo (runs : h.RunOperations) : (l : List (Statement τ α)) →
    (i i' : Interpretation) → statements h l i = some i' → i.RunsTo i' []
  | [], i, i', ran => by
    cases ran
    exact i.runsTo_refl
  | s :: l, i, i', ran => by
    obtain ⟨j, ranFirst, ran⟩ := Option.bind_eq_some_iff.mp ran
    exact (statement_runsTo runs s i j ranFirst).trans
      (statements_runsTo runs l j i' ran)

theorem optionalStatement_runsTo (runs : h.RunOperations) : (s : Option (Statement τ α)) →
    (i i' : Interpretation) → optionalStatement h s i = some i' → i.RunsTo i' []
  | none, i, i', ran => by
    cases ran
    exact i.runsTo_refl
  | some s, i, i', ran => statement_runsTo runs s i i' ran

theorem switchCases_runsTo (runs : h.RunOperations) {t : Ty} (switchExpr : Expr t) :
    (cases : List (SwitchCase τ α)) → (cond : Option (Expr .boolean)) → (i i' : Interpretation) →
      (states : List ExecutionState) → switchCases h switchExpr cond cases i = some (i', states) →
        i.RunsTo i' states
  | [], _, i, i', states, ran => by
    cases ran
    exact i.runsTo_refl
  | .mk node label body :: cases, cond, i, i', states, ran => by
    rw [switchCases] at ran
    split at ran
    · cases ran
      exact i.runsTo_refl
    · split at ran
      · cases ran
      · rename_i constant _
        have mapped := i.runsTo_addReachabilityMapping node (.equ switchExpr (.lit constant))
        cases body with
        | none => exact mapped.trans (switchCases_runsTo runs switchExpr cases _ _ i' states ran)
        | some body =>
          simp only [caseBody, bind, Option.bind_eq_some_iff, Option.some.injEq,
            Prod.mk.injEq] at ran
          obtain ⟨c, ranBody, ⟨k, later⟩, ranLater, rfl, rfl⟩ := ran
          have block := mapped.fork (statements_runsTo runs body _ c ranBody)
          have all := block.trans
            (switchCases_runsTo runs switchExpr cases none _ k later ranLater)
          exact all

theorem defaultCase_runsTo (runs : h.RunOperations) : (cases : List (SwitchCase τ α)) →
    (i i' : Interpretation) → defaultCase h cases i = some i' → i.RunsTo i' []
  | [], i, i', ran => by
    cases ran
    exact i.runsTo_refl
  | .mk _ label body :: cases, i, i', ran => by
    rw [defaultCase] at ran
    split at ran
    · cases body with
      | none => cases ran
      | some body => exact statements_runsTo runs body i i' ran
    · exact defaultCase_runsTo runs cases i i' ran

end

end Statements

theorem runOperations_none : SymbolicHandlers.none.RunOperations :=
  ⟨fun table => table.elim, fun action => action.elim⟩

namespace TableExecutor

theorem runsTo_setArguments (i : Interpretation) (arguments : Arguments) :
    i.RunsTo (i.resume (setArguments i.state arguments)) [] := by
  induction arguments generalizing i with
  | nil => exact i.runsTo_refl
  | cons a arguments ih => exact (i.runsTo_set a.1.reference a.2).trans (ih _)

theorem callAction_runsTo {i i' : Interpretation} {action : P4Action} {arguments : Arguments}
    (ran : callAction i action arguments = some i') : i.RunsTo i' [] := by
  have set := runsTo_setArguments i arguments
  exact set.trans (statements_runsTo runOperations_none action.body _ i' ran)

/-- The loop over the actions, each of which starts from a clone of the state ahead of the table that
is kept beside. -/
theorem processActionOptions_realizes {table : P4Table} {referenceState : ExecutionState}
    {actionList : List ActionListElement} {i i' : Interpretation} {actionRun result : Expr .string}
    (ran : processActionOptions table referenceState actionList i actionRun = some (i', result))
    {s : StateHeap} {handle bound reference : Nat} (below : handle ≤ bound)
    (own : s.states handle = i.state) (objects : s.objects = i.objects)
    (under : reference ≤ bound) (different : reference ≠ handle)
    (kept : s.states reference = referenceState) :
    ∃ l bound', Realizes s handle bound l i' [] bound' [] := by
  induction actionList generalizing i actionRun s bound with
  | nil =>
    cases ran
    exact ⟨[], bound, .refl s handle bound own objects⟩
  | cons action actionList ih =>
    obtain ⟨c, ranAction, ran⟩ := Option.bind_eq_some_iff.mp ran
    obtain ⟨l₁, clones₁, bound₁, mapped⟩ := i.runsTo_addReachabilityMapping action.node
      (actionHitCondition table action) s handle bound below own objects
    obtain rfl := List.map_eq_nil_iff.mp mapped.pending
    have below₁ := le_trans below mapped.grows
    have kept₁ := (mapped.others reference under different).trans kept
    obtain ⟨l₂, bound₂, called⟩ := Interpretation.exists_fork (callAction_runsTo ranAction) below₁
      mapped.state mapped.objects kept₁
    have merged := (mapped.trans called below).mergeAll below
    have kept₂ := (merged.others reference under different).trans kept
    obtain ⟨l₃, bound₃, rest⟩ := ih ran (le_trans below merged.grows) merged.state merged.objects
      (le_trans under merged.grows) kept₂
    exact ⟨_, bound₃, merged.trans rest below⟩

variable {symbolicValue? : SymbolicValue}

theorem resolveKeyFields_runsTo {key : List KeyElement} {i i' : Interpretation}
    {resolved : List (Sigma fun key : KeyElement => Expr key.type)}
    (ran : resolveKeyFields symbolicValue? key i = some (resolved, i')) : i.RunsTo i' [] := by
  induction key generalizing i resolved with
  | nil =>
    cases ran
    exact Interpretation.runsTo_refl _
  | cons keyField key ih =>
    rw [resolveKeyFields] at ran
    split at ran
    · exact ih ran
    · simp only [bind, Option.bind_eq_some_iff, Option.some.injEq, Prod.mk.injEq] at ran
      obtain ⟨⟨expr, j⟩, computed, ⟨rest, k⟩, ran, -, rfl⟩ := ran
      exact (computeResult_runsTo runOperations_none keyField.expression i expr j computed).trans
        (ih ran)

theorem resolveKey_runsTo {key : List KeyElement} {i i' : Interpretation}
    {resolved : List (Sigma fun key : KeyElement => Expr key.type)}
    (ran : resolveKey symbolicValue? key i = some (resolved, i')) : i.RunsTo i' [] := by
  simp only [resolveKey, bind, Option.bind_eq_some_iff] at ran
  obtain ⟨⟨fields, j⟩, ranFields, ran⟩ := ran
  have runs := resolveKeyFields_runsTo ranFields
  dsimp only at ran
  split at ran <;> cases ran <;> exact runs

theorem processTable_runsTo {table : P4Table} {i i' : Interpretation} {result : TableExpression}
    (ran : processTable symbolicValue? table i = some (result, i')) : i.RunsTo i' [] := by
  simp only [processTable, bind, Option.bind_eq_some_iff, Option.some.injEq, Prod.mk.injEq] at ran
  obtain ⟨⟨key, j⟩, ranKey, d, ranDefault, ⟨k, actionRun⟩, ranOptions, -, rfl⟩ := ran
  have table : j.RunsTo k [] := by
    intro s handle bound below own objects
    -- The state ahead of the table is kept in the handle after the bound.
    let s₁ := runAll s [.clone handle (bound + 1)]
    have own₁ : s₁.states handle = j.state :=
      (Function.update_of_ne (by omega) _ _).trans own
    have kept : s₁.states (bound + 1) = j.state := (Function.update_self ..).trans own
    obtain ⟨l, clones, bound₁, default⟩ :=
      callAction_runsTo ranDefault s₁ handle (bound + 1) (by omega) own₁ objects
    obtain rfl := List.map_eq_nil_iff.mp default.pending
    have grows := default.grows
    have kept₁ := (default.others (bound + 1) le_rfl (by omega)).trans kept
    obtain ⟨l', bound₂, options⟩ := processActionOptions_realizes ranOptions (by omega)
      default.state default.objects grows (by omega) kept₁
    exact ⟨_, _, _, (default.trans options (by omega)).beside⟩
  exact ((resolveKey_runsTo ranKey).trans table).congr rfl rfl

theorem handlers_runOperations : (handlers symbolicValue?).RunOperations :=
  ⟨fun _ _ _ _ ran => processTable_runsTo ran, fun _ _ _ ran => callAction_runsTo ran⟩

end TableExecutor

/-- The annotation maps of the states. -/
def StateHeap.annotationHeap (s : StateHeap) : AnnotationHeap :=
  ⟨fun handle => (s.states handle).nodeAnnotationMap, s.objects⟩

theorem StateHeap.annotationHeap_update (s : StateHeap) (handle : Nat) (state : ExecutionState)
    (objects : ReachabilityExpressions) :
    annotationHeap { s.update handle state with objects := objects } =
      ⟨Function.update s.annotationHeap.maps handle state.nodeAnnotationMap, objects⟩ :=
  congrArg (AnnotationHeap.mk · objects)
    (Function.comp_update ExecutionState.nodeAnnotationMap s.states handle state)

/-- A state with the map that it had. -/
theorem StateHeap.annotationHeap_update_of_map (s : StateHeap) (handle : Nat)
    {state : ExecutionState}
    (same : state.nodeAnnotationMap = (s.states handle).nodeAnnotationMap) :
    (s.update handle state).annotationHeap = s.annotationHeap := by
  refine (s.annotationHeap_update handle state s.objects).trans ?_
  rw [same]
  exact congrArg (AnnotationHeap.mk · s.objects) (Function.update_eq_self handle _)

theorem StateOperation.annotationHeap_run (s : StateHeap) (operation : StateOperation) :
    (operation.run s).annotationHeap =
      AnnotationOperation.runAll s.annotationHeap (operation.annotations s) := by
  cases operation with
  | clone source target => exact s.annotationHeap_update target (s.states source) s.objects
  | set handle x value => exact s.annotationHeap_update_of_map handle rfl
  | pushExecutionCondition handle cond => exact s.annotationHeap_update_of_map handle rfl
  | addReachabilityMapping handle node cond => exact s.annotationHeap_update handle _ _
  | @addExpressionMapping handle node t value =>
    cases t with
    | bits isSigned width => exact s.annotationHeap_update handle _ s.objects
    | boolean | string => exact s.annotationHeap_update_of_map handle rfl
  | merge handle other => exact s.annotationHeap_update handle _ s.objects

theorem StateOperation.annotationHeap_runAll (s : StateHeap) (l : List StateOperation) :
    (runAll s l).annotationHeap =
      AnnotationOperation.runAll s.annotationHeap (allAnnotations s l) := by
  induction l generalizing s with
  | nil => rfl
  | cons operation l ih =>
    rw [allAnnotations, AnnotationOperation.runAll, List.foldl_append]
    change (runAll (operation.run s) l).annotationHeap = _
    rw [ih, annotationHeap_run]
    rfl

namespace Interpretation

/-- The interpreter before the first block, with an environment. -/
def initial (env : SymbolicEnv) : Interpretation := ⟨⟨env, none, .empty⟩, [], []⟩

variable {env : SymbolicEnv} {i : Interpretation}

/-- What the interpreter makes of a program is what a run of the operations, in which every clone is
merged back, leaves. -/
theorem RunsTo.exists_run (h : (initial env).RunsTo i []) :
    ∃ l, (runAll (.initial env) l).states 0 = i.state ∧
      (runAll (.initial env) l).objects = i.objects ∧
        MergedBack (allAnnotations (.initial env) l) := by
  obtain ⟨l, clones, bound, realizes⟩ := h (.initial env) 0 0 le_rfl rfl rfl
  obtain rfl := List.map_eq_nil_iff.mp realizes.pending
  have merged := realizes.merged [] rfl (fun _ mem => absurd mem List.not_mem_nil) trivial
  rw [List.append_nil] at merged
  exact ⟨l, realizes.state, realizes.objects, merged⟩

/-- Each condition that the interpreter leaves belongs to one node, and its symbols lead there. -/
theorem RunsTo.exists_valid (h : (initial env).RunsTo i []) :
    ∃ owner, AnnotationHeap.Valid ⟨fun _ => i.state.nodeAnnotationMap, i.objects⟩ [] owner := by
  obtain ⟨l, state, objects, merged⟩ := h.exists_run
  obtain ⟨owner, valid⟩ := (AnnotationHeap.Valid.empty _).runAll merged
  have left : AnnotationOperation.runAll .empty (allAnnotations (.initial env) l) =
    (runAll (.initial env) l).annotationHeap := (annotationHeap_runAll (.initial env) l).symm
  rw [left] at valid
  have maps : (runAll (.initial env) l).annotationHeap.maps 0 = i.state.nodeAnnotationMap :=
    congrArg ExecutionState.nodeAnnotationMap state
  have shared : (runAll (.initial env) l).annotationHeap.objects = i.objects := objects
  refine ⟨owner, fun _ => maps ▸ valid.indexed 0, fun _ => ?_, fun a cond found x mem => ?_⟩
  · rw [← maps, ← shared]
    exact valid.owned 0
  · rw [← shared] at found
    obtain ⟨handle, led, rfl⟩ := valid.symbols a cond found x mem
    exact ⟨0, maps ▸ led, rfl⟩

end Interpretation

/-- Whatever blocks the interpreter has stepped through, recomputing the nodes that depend on the
symbols whose assignments differ is a full recomputation of its record. -/
theorem FlayStepper.recomputation_complete [Z3] [IrOrder] [Z3.Local]
    (symbolicValue? : TableExecutor.SymbolicValue) (blocks : List ControlStatement)
    (env : SymbolicEnv) {i : Interpretation}
    (ran : statements (TableExecutor.handlers symbolicValue?) blocks (.initial env) = some i)
    (K K' : ControlPlaneConstraints) (symbolSet : SymbolSet)
    (differing : ∀ x, K.assignmentSet.find x ≠ K'.assignmentSet.find x → x ∈ symbolSet) :
    TargetedIsFull (.createReachabilityMap i.state.nodeAnnotationMap i.objects)
        (i.state.nodeAnnotationMap.reachabilityConditions i.objects) symbolSet K K' ∧
      TargetedIsFull (.createSubstitutionMap i.state.nodeAnnotationMap)
        i.state.nodeAnnotationMap.originalExpressions symbolSet K K' := by
  obtain ⟨owner, valid⟩ :=
    (statements_runsTo TableExecutor.handlers_runOperations blocks _ i ran).exists_valid
  exact ⟨targetedIsFull_create valid.reachability differing,
    targetedIsFull_create valid.substitution differing⟩

section Examples

attribute [local instance] exprSolver exprSolver.local IrOrder.literals

/-- A block that stores a field again where the table hits. -/
def storeBlocks : List ControlStatement :=
  [.ifStatement 20 (.hit 21 storeTable)
    (.assignment (t := .bit 8) "field" (.path 22 "field" (.bit 8))) none]

def storeRecord : Interpretation :=
  (FlayStepper.statements (TableExecutor.handlers literalValue) storeBlocks
    (.initial fieldState.state.env)).get rfl

theorem recomputation_storeBlocks :
    TargetedIsFull (.createReachabilityMap storeRecord.state.nodeAnnotationMap storeRecord.objects)
      (storeRecord.state.nodeAnnotationMap.reachabilityConditions storeRecord.objects)
      inactiveTable.assignmentSet.keys OrderedMap.empty inactiveTable := by
  have ran : FlayStepper.statements (TableExecutor.handlers literalValue) storeBlocks
      (.initial fieldState.state.env) = some storeRecord := (Option.some_get _).symm
  refine (FlayStepper.recomputation_complete literalValue storeBlocks fieldState.state.env ran
    OrderedMap.empty inactiveTable inactiveTable.assignmentSet.keys fun x different => ?_).1
  by_contra absent
  exact different (OrderedMap.find_eq_none.mpr absent).symm

end Examples

end Flay
