import Flay.Program.Semantics
import Flay.Specialization.ElimDeadCode

/-! Which block a switch runs after `ElimDeadCode` has filtered its cases. -/

namespace Flay.ElimDeadCode

variable {τ α : Type} {t : Ty} {reachability : Node → Option Bool}

/-- The statement runs the block, if any, when the switch expression has the value. -/
inductive Executes (v : t.Val) : Statement τ α → Option (List (Statement τ α)) → Prop
  | empty : Executes v .empty none
  | block (body : List (Statement τ α)) : Executes v (.block body) (some body)
  | switchStatement (e : ProgramExpr τ t) (cases : List (SwitchCase τ α)) :
      Executes v (.switchStatement e cases) (selectBlock v cases)

theorem Executes.unique {v : t.Val} {s : Statement τ α} {b b' : Option (List (Statement τ α))}
    (h : Executes v s b) (h' : Executes v s b') : b = b' := by
  cases h <;> cases h' <;> rfl

/-- Only the last case is labelled `default`. -/
def DefaultLast : List (SwitchCase τ α) → Prop
  | [] => True
  | c :: cases => (c.label = .default → cases = []) ∧ DefaultLast cases

/-- The value is one that the verdicts of the cases allow. -/
def Consistent (reachability : Node → Option Bool) (v : t.Val) (cases : List (SwitchCase τ α)) :
    Prop :=
  ∀ c ∈ cases, c.label ≠ .default → ∀ verdict, reachability c.node = some verdict →
    c.label.accepts v = verdict

/-- The case goes away. -/
def Dropped (reachability : Node → Option Bool) (c : SwitchCase τ α) : Prop :=
  c.label ≠ .default ∧ reachability c.node = some false

instance (c : SwitchCase τ α) : Decidable (Dropped reachability c) := by
  unfold Dropped
  infer_instance

/-- What the cases that go away next put in place of the statement of the last kept case. -/
def clobbering (reachability : Node → Option Bool) (previousFallThrough : Bool) :
    List (SwitchCase τ α) → Option (List (Statement τ α))
  | [] => none
  | c :: cases =>
    if Dropped reachability c then
      (clobbering reachability c.statement.isNone cases).or
        (if previousFallThrough then c.statement else none)
    else none

/-- The case with another statement, when there is one. -/
def overridden (c : SwitchCase τ α) : Option (List (Statement τ α)) → SwitchCase τ α
  | none => c
  | some body => c.withStatement body

/-- The cases that the loop keeps, with the statements it leaves them. -/
def kept (reachability : Node → Option Bool) : List (SwitchCase τ α) → List (SwitchCase τ α)
  | [] => []
  | c :: cases =>
    if Dropped reachability c then kept reachability cases
    else if c.label = .default ∨ (reachability c.node = some true ∧ c.statement.isSome) then [c]
    else overridden c (clobbering reachability c.statement.isNone cases) ::
      kept reachability cases

@[simp] theorem mergeInto_nil (o : Option (List (Statement τ α))) :
    mergeInto ([] : List (SwitchCase τ α)) o = [] := by
  cases o <;> rfl

@[simp] theorem mergeInto_none (filtered : List (SwitchCase τ α)) :
    mergeInto filtered none = filtered := by
  unfold mergeInto
  split <;> simp_all

@[simp] theorem mergeInto_concat (filtered : List (SwitchCase τ α)) (c : SwitchCase τ α)
    (o : Option (List (Statement τ α))) :
    mergeInto (filtered ++ [c]) o = filtered ++ [overridden c o] := by
  cases o <;> simp [mergeInto, overridden]

theorem mergeInto_mergeInto (filtered : List (SwitchCase τ α)) (body : List (Statement τ α))
    (o : Option (List (Statement τ α))) :
    mergeInto (mergeInto filtered (some body)) o = mergeInto filtered (o.or (some body)) := by
  rcases List.eq_nil_or_concat filtered with rfl | ⟨l, c, rfl⟩
  · simp
  · cases o <;> simp [overridden, SwitchCase.withStatement, SwitchCase.node, SwitchCase.label]

/-- The loop leaves the cases kept before as they are, apart from the last one's statement. -/
theorem filterCases_eq (filtered : List (SwitchCase τ α)) (previousFallThrough : Bool)
    (cases : List (SwitchCase τ α)) :
    filterCases reachability filtered previousFallThrough cases =
      mergeInto filtered (clobbering reachability previousFallThrough cases) ++
        kept reachability cases := by
  induction cases generalizing filtered previousFallThrough with
  | nil => simp [filterCases, clobbering, kept]
  | cons c cases ih =>
    by_cases default : c.label = .default
    · simp [filterCases, clobbering, kept, Dropped, default]
    rw [filterCases, if_neg default]
    cases verdict : reachability c.node with
    | none =>
      simp [clobbering, kept, Dropped, default, verdict, ih]
    | some reachable =>
      cases reachable with
      | true =>
        cases body : c.statement <;>
          simp [clobbering, kept, Dropped, default, verdict, ih, body]
      | false =>
        cases body : c.statement with
        | none => simp [clobbering, kept, Dropped, default, verdict, ih, body]
        | some b =>
          cases previousFallThrough <;>
            simp [clobbering, kept, Dropped, default, verdict, ih, body, mergeInto_mergeInto]

@[simp] theorem label_overridden (c : SwitchCase τ α) (o : Option (List (Statement τ α))) :
    (overridden c o).label = c.label := by
  cases o <;> rfl

@[simp] theorem statement_overridden (c : SwitchCase τ α) (o : Option (List (Statement τ α))) :
    (overridden c o).statement = o.or c.statement := by
  cases o <;> rfl

/-- The block that the filtered switch has where the original one has the statement of `c`, with
the cases in `rest` after it. -/
def remaining (reachability : Node → Option Bool) (c : SwitchCase τ α)
    (rest : List (SwitchCase τ α)) : Option (List (Statement τ α)) :=
  if c.label = .default ∨ reachability c.node = some true then c.statement
  else (clobbering reachability false rest).or c.statement

/-- Below a kept label without a statement, the filtered switch runs what is left of the block that
the original one runs. -/
theorem landing_kept {cases : List (SwitchCase τ α)} (last : DefaultLast cases) :
    (clobbering reachability true cases).or (landingBlock (kept reachability cases)) =
      (landing cases).bind fun selected => remaining reachability selected.1 selected.2 := by
  induction cases with
  | nil => rfl
  | cons c cases ih =>
    obtain ⟨final, last⟩ := last
    have ih := ih last
    by_cases default : c.label = .default
    · cases final default
      cases body : c.statement <;>
        simp [clobbering, kept, Dropped, default, landing, body, remaining]
    by_cases dropped : reachability c.node = some false
    · cases body : c.statement <;>
        simp_all [clobbering, kept, Dropped, landing, remaining]
    have alive : ¬Dropped reachability c := fun h => dropped h.2
    rw [clobbering, if_neg alive, kept, if_neg alive, Option.none_or]
    cases body : c.statement with
    | none =>
      rw [if_neg (by simp [default]), landingBlock_cons, statement_overridden, body,
        Option.or_none, Option.isNone_none, ih]
      simp [landing, body]
    | some b =>
      by_cases always : reachability c.node = some true <;>
        simp [default, always, body, landing, remaining]

/-- The filtered switch runs what is left of the block that the original one selects. -/
theorem selectBlock_kept {v : t.Val} {cases : List (SwitchCase τ α)} (last : DefaultLast cases)
    (consistent : Consistent reachability v cases) :
    selectBlock v (kept reachability cases) =
      (selectCase v cases).bind fun selected => remaining reachability selected.1 selected.2 := by
  induction cases with
  | nil => rfl
  | cons c cases ih =>
    have below : (clobbering reachability true (c :: cases)).or _ = _ := landing_kept last
    have ih := ih last.2 fun d hd => consistent d (List.mem_cons_of_mem c hd)
    have verdict := consistent c List.mem_cons_self
    by_cases default : c.label = .default
    · cases last.1 default
      cases body : c.statement <;>
        simp [kept, Dropped, default, selectBlock, selectCase, landing, body, remaining,
          SwitchLabel.accepts]
    have verdict := verdict default
    by_cases accepted : c.label.accepts v = true
    · have alive : ¬Dropped reachability c := fun h => by simp [verdict _ h.2] at accepted
      rw [clobbering, if_neg alive, Option.none_or] at below
      rw [selectCase, if_pos accepted, ← below, kept, if_neg alive]
      split <;> rw [selectBlock_cons] <;> simp [accepted]
    · have notAlways : reachability c.node ≠ some true := fun h => accepted (verdict _ h)
      rw [selectCase, if_neg accepted, ← ih, kept]
      split
      · rfl
      · rw [if_neg (by simp [default, notAlways]), selectBlock_cons, label_overridden,
          if_neg accepted]

/-- The block that the value selects is not one whose case, or the label it merges into, takes the
statement of a dropped case that follows a dropped label without one. -/
def Undisturbed (reachability : Node → Option Bool) (v : t.Val) (cases : List (SwitchCase τ α)) :
    Prop :=
  ∀ c rest, selectCase v cases = some (c, rest) → c.label ≠ .default →
    reachability c.node ≠ some true → ∀ body, clobbering reachability false rest = some body →
      c.statement = some body

theorem executes_preorderSwitch (e : ProgramExpr τ t) (v : t.Val) (cases : List (SwitchCase τ α)) :
    Executes v (preorderSwitch reachability e cases)
      (selectBlock v (kept reachability cases)) := by
  have filtered := @filterCases_eq _ _ reachability [] false cases
  rw [mergeInto_nil, List.nil_append] at filtered
  rw [← filtered, preorderSwitch]
  split
  · rename_i none
    rw [none]
    exact .empty
  · rename_i node statement only
    rw [only, selectBlock_cons]
    cases statement with
    | none => exact .empty
    | some body => exact .block body
  · exact .switchStatement e _

/-- A switch statement after `preorder(SwitchStatement)` runs the block of the original one exactly
for the values whose block the loop leaves in place. -/
theorem executes_preorderSwitch_iff (e : ProgramExpr τ t) (v : t.Val)
    (cases : List (SwitchCase τ α)) (last : DefaultLast cases)
    (consistent : Consistent reachability v cases) :
    Executes v (preorderSwitch reachability e cases) (selectBlock v cases) ↔
      Undisturbed reachability v cases := by
  have executed := @executes_preorderSwitch _ _ _ reachability e v cases
  have same : Executes v (preorderSwitch reachability e cases) (selectBlock v cases) ↔
      selectBlock v (kept reachability cases) = selectBlock v cases :=
    ⟨fun h => executed.unique h, fun h => h ▸ executed⟩
  rw [same, selectBlock_kept last consistent, selectBlock]
  cases selected : selectCase v cases with
  | none => simp [Undisturbed, selected]
  | some found =>
    obtain ⟨c, rest⟩ := found
    have here : Undisturbed reachability v cases ↔ (c.label ≠ .default →
        reachability c.node ≠ some true → ∀ body, clobbering reachability false rest = some body →
          c.statement = some body) := by
      constructor
      · intro h
        exact h c rest selected
      · intro h d tail hd
        cases hd.symm.trans selected
        exact h
    rw [here, Option.bind_some, Option.bind_some, remaining]
    by_cases exempt : c.label = .default ∨ reachability c.node = some true
    · rw [if_pos exempt]
      refine ⟨fun _ hd ht => ?_, fun _ => rfl⟩
      exact (exempt.elim hd ht).elim
    · obtain ⟨notDefault, notAlways⟩ := not_or.mp exempt
      rw [if_neg exempt]
      cases clobbering reachability false rest with
      | none => simp
      | some body =>
        constructor
        · rintro h _ _ _ ⟨⟩
          exact h.symm
        · intro h
          exact (h notDefault notAlways body rfl).symm

/-- `x = value` in a block of its own. -/
def setX (value : Nat) : List (Statement Empty Empty) :=
  [.assignment (t := .bit 8) "x" (.lit (BitVec.ofNat 8 value))]

/-- Verdicts under which only the case of node 0 can run. -/
def firstOnly (node : Node) : Option Bool := if node = 0 then none else some false

/-- A dropped label without a statement ahead of a dropped block leaves no trace when the case
before it fell through. -/
theorem executes_preorderSwitch_fallThrough :
    Executes (t := .bit 8) 0#8
      (preorderSwitch firstOnly (.path 9 "y" (.bit 8))
        [.mk 0 (.constant 0) none, .mk 1 (.constant 1) none, .mk 2 (.constant 2) (some (setX 2))])
      (some (setX 2)) := by
  refine (executes_preorderSwitch_iff (t := .bit 8) (.path 9 "y" (.bit 8)) 0#8 _ ?_ ?_).mpr ?_
  · simp [DefaultLast, SwitchCase.label]
  · intro c hc
    simp only [List.mem_cons, List.not_mem_nil, or_false] at hc
    rcases hc with rfl | rfl | rfl <;>
      simp [firstOnly, SwitchCase.label, SwitchCase.node, SwitchLabel.accepts, SwitchLabel.literal]
  · rintro c rest ⟨⟩ _ _ body ⟨⟩

/-- The block of a kept case gives way to one that another value selects. -/
theorem preorderSwitch_runs_another_block :
    ∃ cases : List (SwitchCase Empty Empty), DefaultLast cases ∧
      Consistent (t := .bit 8) firstOnly 0#8 cases ∧
      ¬Executes (t := .bit 8) 0#8 (preorderSwitch firstOnly (.path 9 "y" (.bit 8)) cases)
        (selectBlock (t := .bit 8) 0#8 cases) := by
  refine ⟨[.mk 0 (.constant 0) (some (setX 1)), .mk 1 (.constant 1) none,
    .mk 2 (.constant 2) (some (setX 2))], ?_, ?_, ?_⟩
  · simp [DefaultLast, SwitchCase.label]
  · intro c hc
    simp only [List.mem_cons, List.not_mem_nil, or_false] at hc
    rcases hc with rfl | rfl | rfl <;>
      simp [firstOnly, SwitchCase.label, SwitchCase.node, SwitchLabel.accepts, SwitchLabel.literal]
  · intro h
    have same : some (setX 2) = some (setX 1) := (executes_preorderSwitch _ _ _).unique h
    simp [setX] at same

end Flay.ElimDeadCode
