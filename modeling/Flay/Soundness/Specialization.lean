import Flay.Soundness.Control
import Flay.Soundness.Rewriting

/-! A control that is specialized by verdicts and constants that are true of the execution of a packet leaves
the packet as the original control leaves it, where the passes do no harm. -/

namespace Flay

open Container TableExecutor

/-- The passes do no harm to what the statement itself evaluates: an application that they leave out has no
effect, a switch keeps the block that it selects, and a table that the declared default action replaces
applies no other action that the pass has overlooked. -/
def Statement.Safe (ρ : Valuation) (vars : List StateVariable) (reachability : Node → Option Bool)
    (s : ControlStatement) (w : World) : Prop :=
  ControlStatement.Unharmed (behavior ρ) reachability (fun w' => w' = w) s ∧
    match s with
    | .switchStatement expression cases =>
      ElimDeadCode.Undisturbed reachability (expression.eval (behavior ρ).handlers w).1 cases
    | .apply table =>
      ElimDeadCode.preorderMethodCall reachability table ≠ .apply table → table.Foreseen ρ vars
    | _ => True

/-- The passes do no harm to what the execution of the statement reaches. -/
abbrev Statement.Spared (ρ : Valuation) (vars : List StateVariable)
    (reachability : Node → Option Bool) : ControlStatement → World → Prop :=
  Statement.Throughout (behavior ρ).handlers (Statement.Safe ρ vars reachability)

section Statements

variable {ρ : Valuation} {own : Site → Prop} {vars : List StateVariable} {v : Verdicts}

/-- The applications of an expression that stays are harmless. -/
theorem harmless_of_unharmed {s : ControlStatement} {w : World} {t : Ty}
    {e : ProgramExpr P4Table t} (unharmed : s.Unharmed (behavior ρ) v.reachability fun w' => w' = w)
    (own : s.ownExpression = some ⟨t, e⟩) : ∀ a ∈ e.applications (behavior ρ) w,
      ElimDeadCode.Harmless v.reachability (behavior ρ) a := by
  intro a mem
  have here : a ∈ s.ownApplications (behavior ρ) w := by
    rwa [ControlStatement.ownApplications, own]
  exact (unharmed w rfl a here).imp_left And.right

/-- The blocks of both switches run alike. -/
theorem alike_execBlock {f : List ControlStatement → List ControlStatement}
    {block : Option (List ControlStatement)} {w w' : World} (alike : w'.Alike vars w)
    (runs : ∀ body, block = some body → (execAll (behavior ρ).handlers (f body) w').Alike vars
      (execAll (behavior ρ).handlers body w)) :
    (execBlock (behavior ρ).handlers (block.map f) w').Alike vars
      (execBlock (behavior ρ).handlers block w) := by
  cases block with
  | none => exact alike
  | some body => exact runs body rfl

/-- An expression that applies only tables without an effect has none. -/
theorem env_eval_of_noEffect {b : TableBehavior} {t : Ty} (e : ProgramExpr P4Table t) {w : World}
    (none : ∀ a ∈ e.applications b w, b.NoEffect a.table) : (e.eval b.handlers w).2.env = w.env := by
  induction e generalizing w with
  | lit | path => rfl
  | hit node table | miss node table | actionRun table => exact none _ List.mem_cons_self w.env
  | lNot e ih | unary op e ih => exact ih none
  | lAnd left right ihl ihr =>
    simp only [ProgramExpr.applications, List.mem_append] at none
    have first := ihl fun a mem => none a (.inl mem)
    rw [ProgramExpr.eval]
    split
    · rename_i taken
      exact (ihr fun a mem => none a (.inr (by simpa [taken] using mem))).trans first
    · exact first
  | lOr left right ihl ihr =>
    simp only [ProgramExpr.applications, List.mem_append] at none
    have first := ihl fun a mem => none a (.inl mem)
    rw [ProgramExpr.eval]
    split
    · exact first
    · rename_i taken
      exact (ihr fun a mem => none a (.inr (by simpa [taken] using mem))).trans first
  | equ left right ihl ihr | neq left right ihl ihr | binary op left right ihl ihr =>
    exact (ihr fun a mem => none a (List.mem_append_right _ mem)).trans
      (ihl fun a mem => none a (List.mem_append_left _ mem))
  | mux e0 e1 e2 ih0 ih1 ih2 =>
    simp only [ProgramExpr.applications, List.mem_append] at none
    have first := ih0 fun a mem => none a (.inl mem)
    rw [ProgramExpr.eval]
    split
    · rename_i taken
      exact (ih1 fun a mem => none a (.inr (by simpa [taken] using mem))).trans first
    · rename_i taken
      exact (ih2 fun a mem => none a (.inr (by simpa [taken] using mem))).trans first

/-- The switch statement without cases but the default one is its block. -/
theorem exec_preorderSwitch_of_forall {t : Ty} {cases : List (SwitchCase P4Table ActionCall)}
    {constants : Constants} (e : ProgramExpr P4Table t) (value : t.Val)
    (gone : ∀ c ∈ cases.takeWhile (fun c => c.label ≠ .default),
      v.reachability c.node = some false) (h : Handlers P4Table ActionCall) (w : World) :
    (SubstituteExpressions.statement constants id
        (ElimDeadCode.preorderSwitch v.reachability e cases)).exec h w =
      execBlock h ((selectBlock value (ElimDeadCode.kept v.reachability cases)).map
        (SubstituteExpressions.statements constants id)) w := by
  rw [ElimDeadCode.preorderSwitch, ElimDeadCode.filterCases_nil]
  obtain none | ⟨⟨node, label, body⟩, only, rfl⟩ := ElimDeadCode.kept_of_forall gone
  · rw [none]
    rfl
  · rw [only]
    cases body <;> rfl

/-- A switch that is specialized runs the specialized block. -/
theorem alike_switch {t : Ty} {e : ProgramExpr P4Table t} {cases : List (SwitchCase P4Table ActionCall)}
    (labels : SwitchLabels t cases) {w w' : World} (alike : w'.Alike vars w)
    (evaluated : EvalAlike ρ vars (specialized v e) e w' w)
    (consistent : ElimDeadCode.Consistent v.reachability (e.eval (behavior ρ).handlers w).1 cases)
    (safe : Statement.Safe ρ vars v.reachability (.switchStatement e cases) w)
    (blocks : ∀ w'', w''.Alike vars (e.eval (behavior ρ).handlers w).2 →
      (execBlock (behavior ρ).handlers
        ((selectBlock (e.eval (behavior ρ).handlers w).1 cases).map fun body =>
          SubstituteExpressions.statements v.constants id (ElimDeadCode.statements v.reachability
            (ElimDeadCode.preorderMethodCall v.reachability) body)) w'').Alike vars
      (execCases (behavior ρ).handlers (e.eval (behavior ρ).handlers w).1 false cases
        (e.eval (behavior ρ).handlers w).2)) :
    ((flaySpecializer v.reachability v.constants (.switchStatement e cases)).exec
      (behavior ρ).handlers w').Alike vars
      ((Statement.switchStatement e cases).exec (behavior ρ).handlers w) := by
  obtain ⟨unharmed, undisturbed⟩ := safe
  let methodCall := ElimDeadCode.preorderMethodCall v.reachability
  have block : selectBlock (e.eval (behavior ρ).handlers w).1
      (ElimDeadCode.kept v.reachability
        (ElimDeadCode.switchCases v.reachability methodCall cases)) =
      (selectBlock (e.eval (behavior ρ).handlers w).1 cases).map
        (ElimDeadCode.statements v.reachability methodCall) := by
    rw [ElimDeadCode.switchCases_eq_mapStatement, ElimDeadCode.kept_map, selectBlock_map,
      ElimDeadCode.selectBlock_kept_of_undisturbed labels.defaultLast consistent undisturbed]
  by_cases remains : ControlStatement.Remains v.reachability (.switchStatement e cases)
  · have stays := (ElimDeadCode.exists_switchCases methodCall).mpr remains
    have kept : flaySpecializer v.reachability v.constants (.switchStatement e cases) =
        .switchStatement (specialized v e) (SubstituteExpressions.switchCases v.constants id
          (ElimDeadCode.kept v.reachability
            (ElimDeadCode.switchCases v.reachability methodCall cases))) := by
      simp only [flaySpecializer, ElimDeadCode.controlStatement, ElimDeadCode.statement]
      rw [ElimDeadCode.preorderSwitch_of_exists stays]
      rfl
    rw [kept]
    simp only [Statement.exec]
    rw [evaluated.value, execCases_false, SubstituteExpressions.switchCases_eq_map, selectBlock_map,
      block, Option.map_map]
    exact blocks _ (evaluated.alike.of_env (env_takeLabel _ false _ _) rfl)
  · have gone : ∀ c ∈ (ElimDeadCode.switchCases v.reachability methodCall cases).takeWhile
        (fun c => c.label ≠ .default), v.reachability c.node = some false := by
      intro c mem
      by_contra alive
      exact remains ((ElimDeadCode.exists_switchCases methodCall).mp ⟨c, mem, alive⟩)
    have none : ∀ a ∈ e.applications (behavior ρ) w, (behavior ρ).NoEffect a.table := by
      intro a mem
      exact (unharmed w rfl a mem).resolve_left fun kept => remains kept.1
    simp only [flaySpecializer, ElimDeadCode.controlStatement, ElimDeadCode.statement]
    rw [exec_preorderSwitch_of_forall _ (e.eval (behavior ρ).handlers w).1 gone, block,
      Option.map_map]
    exact blocks w' (alike.of_env rfl (env_eval_of_noEffect e none))

/-- The statement without an alternative is the alternative, where there is none. -/
theorem exec_getD (constants : Constants) (h : Handlers P4Table ActionCall)
    (ifFalse : Option ControlStatement) (w : World) :
    (SubstituteExpressions.statement constants id (ifFalse.getD .empty)).exec h w =
      execOption h (SubstituteExpressions.optionalStatement constants id ifFalse) w := by
  cases ifFalse <;> rfl

/-- An if statement that is specialized goes the way of the original one. -/
theorem alike_ifStatement {node : Node} {condition : ProgramExpr P4Table .boolean}
    {ifTrue : ControlStatement} {ifFalse : Option ControlStatement} {w w' : World}
    (evaluated : EvalAlike ρ vars (specialized v condition) condition w' w)
    (decides : v.Decides node (condition.eval (behavior ρ).handlers w).1)
    (taken : (condition.eval (behavior ρ).handlers w).1 = true →
      ∀ w'', w''.Alike vars ((condition.eval (behavior ρ).handlers w).2.emit (.taken node)) →
        ((flaySpecializer v.reachability v.constants ifTrue).exec (behavior ρ).handlers w'').Alike vars
          (ifTrue.exec (behavior ρ).handlers
            ((condition.eval (behavior ρ).handlers w).2.emit (.taken node))))
    (skipped : (condition.eval (behavior ρ).handlers w).1 = false →
      ∀ w'', w''.Alike vars (condition.eval (behavior ρ).handlers w).2 →
        (execOption (behavior ρ).handlers
          (SubstituteExpressions.optionalStatement v.constants id
            (ElimDeadCode.optionalStatement v.reachability
              (ElimDeadCode.preorderMethodCall v.reachability) ifFalse)) w'').Alike vars
          (execOption (behavior ρ).handlers ifFalse (condition.eval (behavior ρ).handlers w).2)) :
    ((flaySpecializer v.reachability v.constants
      (.ifStatement node condition ifTrue ifFalse)).exec (behavior ρ).handlers w').Alike vars
      ((Statement.ifStatement node condition ifTrue ifFalse).exec (behavior ρ).handlers w) := by
  obtain ⟨same, after⟩ := evaluated
  simp only [specialized] at same after
  simp only [flaySpecializer, ElimDeadCode.controlStatement, ElimDeadCode.statement,
    ElimDeadCode.preorderIf]
  cases value : (condition.eval (behavior ρ).handlers w).1 with
  | true =>
    have branch := taken value _ (after.of_env (World.env_emit _ (.taken node))
      (World.env_emit _ (.taken node)))
    simp only [flaySpecializer, ElimDeadCode.controlStatement] at branch
    cases known : v.reachability node with
    | none => simpa [SubstituteExpressions.statement, Statement.exec, same, value] using branch
    | some verdict =>
      obtain rfl : true = verdict := value.symm.trans (decides verdict known)
      simpa [SubstituteExpressions.statement, Statement.exec, same, value] using branch
  | false =>
    cases known : v.reachability node with
    | none =>
      simpa [SubstituteExpressions.statement, Statement.exec, same, value] using skipped value _ after
    | some verdict =>
      obtain rfl : false = verdict := value.symm.trans (decides verdict known)
      have branch := skipped value _ (after.of_env (World.env_emit _ (.taken node)) rfl)
      rw [← exec_getD] at branch
      simpa [SubstituteExpressions.statement, SubstituteExpressions.expression, Statement.exec,
        ProgramExpr.eval, same, value] using branch

/-- The second pass has nothing to do where an application has been. -/
theorem statement_preorderMethodCall (constants : Constants) (reachability : Node → Option Bool)
    (table : P4Table) : SubstituteExpressions.statement constants id
        (ElimDeadCode.preorderMethodCall reachability table) =
      ElimDeadCode.preorderMethodCall reachability table := by
  obtain same | same | ⟨same, -⟩ := preorderMethodCall_cases reachability table <;> rw [same] <;> rfl

mutual

theorem statement_specialized (activates : Activates ρ) (s : ControlStatement)
    (analyzable : s.Analyzable own vars) {w w' : World} (alike : w'.Alike vars w)
    (truthful : s.Truthful ρ v w) (spared : s.Spared ρ vars v.reachability w) :
    ((flaySpecializer v.reachability v.constants s).exec (behavior ρ).handlers w').Alike vars
      (s.exec (behavior ρ).handlers w) := by
  match s with
  | .empty => exact alike
  | .assignment left right =>
    obtain ⟨value, after⟩ := evalAlike_specialized activates right analyzable alike truthful
      (harmless_of_unharmed spared.1 rfl)
    exact after.set value
  | .declaration name initializer => exact analyzable.elim
  | .block components => exact statements_specialized activates components analyzable alike truthful spared
  | .ifStatement node condition ifTrue ifFalse =>
    obtain ⟨analyzable, analyzableTrue, analyzableFalse⟩ := analyzable
    obtain ⟨⟨truthful, decides⟩, truthfulBranch⟩ := truthful
    obtain ⟨safe, sparedBranch⟩ := spared
    refine alike_ifStatement (evalAlike_specialized activates condition analyzable alike truthful
      (harmless_of_unharmed safe.1 rfl)) decides (fun value w'' alike => ?_) fun value w'' alike => ?_
    · rw [if_pos value] at truthfulBranch sparedBranch
      exact statement_specialized activates ifTrue analyzableTrue alike truthfulBranch sparedBranch
    · rw [if_neg (Bool.eq_false_iff.mp value)] at truthfulBranch sparedBranch
      exact optionalStatement_specialized activates ifFalse analyzableFalse alike truthfulBranch
        sparedBranch
  | .switchStatement expression cases =>
    obtain ⟨analyzable, labels, analyzableCases⟩ := analyzable
    obtain ⟨⟨truthful, consistent⟩, truthfulCases⟩ := truthful
    obtain ⟨safe, sparedCases⟩ := spared
    refine alike_switch labels alike (evalAlike_specialized activates expression analyzable alike truthful
      (harmless_of_unharmed safe.1 rfl)) consistent safe fun w'' after => ?_
    rw [execCases_false]
    refine alike_execBlock (f := fun body => SubstituteExpressions.statements v.constants id
        (ElimDeadCode.statements v.reachability
          (ElimDeadCode.preorderMethodCall v.reachability) body)) (after.of_env rfl
      (env_takeLabel _ false cases _)) fun body selected => ?_
    obtain ⟨c, mem, found⟩ := exists_of_selectBlock selected
    exact switchCases_specialized activates cases analyzableCases c mem body found
      (after.of_env rfl (env_takeLabel _ false cases _))
      (throughoutCases_iff.mp truthfulCases c mem body found selected)
      (throughoutCases_iff.mp sparedCases c mem body found selected)
  | .apply table =>
    have left := alike_preorderMethodCall activates analyzable truthful spared.2 alike
    rw [← statement_preorderMethodCall v.constants] at left
    exact left
  | .call call => exact alike_run analyzable alike

theorem statements_specialized (activates : Activates ρ) (l : List ControlStatement)
    (analyzable : AnalyzableAll own vars l) {w w' : World} (alike : w'.Alike vars w)
    (truthful : TruthfulAll ρ v l w)
    (spared : ThroughoutAll (behavior ρ).handlers (Statement.Safe ρ vars v.reachability) l w) :
    (execAll (behavior ρ).handlers (SubstituteExpressions.statements v.constants id
      (ElimDeadCode.statements v.reachability (ElimDeadCode.preorderMethodCall v.reachability) l))
      w').Alike vars (execAll (behavior ρ).handlers l w) := by
  match l with
  | [] => exact alike
  | s :: l =>
    have first := statement_specialized activates s analyzable.1 alike truthful.1 spared.1
    exact statements_specialized activates l analyzable.2 first truthful.2 spared.2

theorem optionalStatement_specialized (activates : Activates ρ) (s : Option ControlStatement)
    (analyzable : AnalyzableOption own vars s) {w w' : World} (alike : w'.Alike vars w)
    (truthful : ThroughoutOption (behavior ρ).handlers (Statement.Foretold ρ v) s w)
    (spared : ThroughoutOption (behavior ρ).handlers (Statement.Safe ρ vars v.reachability) s w) :
    (execOption (behavior ρ).handlers (SubstituteExpressions.optionalStatement v.constants id
      (ElimDeadCode.optionalStatement v.reachability
        (ElimDeadCode.preorderMethodCall v.reachability) s)) w').Alike vars
      (execOption (behavior ρ).handlers s w) := by
  match s with
  | none => exact alike
  | some s => exact statement_specialized activates s analyzable alike truthful spared

theorem switchCases_specialized (activates : Activates ρ)
    (cases : List (SwitchCase P4Table ActionCall)) (analyzable : AnalyzableCases own vars cases) :
    ∀ c ∈ cases, ∀ body, c.statement = some body → ∀ {w w' : World}, w'.Alike vars w →
      TruthfulAll ρ v body w →
      ThroughoutAll (behavior ρ).handlers (Statement.Safe ρ vars v.reachability) body w →
        (execAll (behavior ρ).handlers (SubstituteExpressions.statements v.constants id
          (ElimDeadCode.statements v.reachability
            (ElimDeadCode.preorderMethodCall v.reachability) body)) w').Alike vars
          (execAll (behavior ρ).handlers body w) := by
  match cases with
  | [] => exact fun _ mem => by cases mem
  | .mk node label body :: cases =>
    obtain ⟨analyzableBody, analyzable⟩ := analyzable
    intro c mem other found
    obtain rfl | mem := List.mem_cons.mp mem
    · match body, found with
      | some body, rfl =>
        intro w w' alike truthful spared
        exact statements_specialized activates body analyzableBody alike truthful spared
    · exact switchCases_specialized activates cases analyzable c mem other found

end

end Statements

section Examples

end Examples

end Flay
