import Flay.Soundness.Tables

/-! The interpretation of a whole control, with the tables that it applies, and what its record says about
the execution of a packet. -/

namespace Flay

open Container TableExecutor

namespace ProgramExpr

/-- The interpreter computes the expression: it reads variables of the list, applies tables that can be
analyzed, and applies none in the operands that the execution may leave out. -/
def Analyzable (own : Site → Prop) (vars : List StateVariable) :
    {t : Ty} → ProgramExpr P4Table t → Prop
  | _, .lit _ => True
  | t, .path _ name _ => (⟨name, t⟩ : StateVariable) ∈ vars
  | _, .hit _ table => table.Analyzable own vars
  | _, .miss _ table => table.Analyzable own vars
  | _, .actionRun table => table.Analyzable own vars
  | _, .lNot e => e.Analyzable own vars
  | _, .lAnd left right => left.Analyzable own vars ∧ right.Analyzable own vars ∧ right.sites = []
  | _, .lOr left right => left.Analyzable own vars ∧ right.Analyzable own vars ∧ right.sites = []
  | _, .equ left right => left.Analyzable own vars ∧ right.Analyzable own vars
  | _, .neq left right => left.Analyzable own vars ∧ right.Analyzable own vars
  | _, .unary _ e => e.Analyzable own vars
  | _, .binary _ left right => left.Analyzable own vars ∧ right.Analyzable own vars
  | _, .mux e0 e1 e2 => e0.Analyzable own vars ∧ (e1.Analyzable own vars ∧ e1.sites = []) ∧
    (e2.Analyzable own vars ∧ e2.sites = [])

/-- In the evaluation of the expression, the constants are the values that are read, and the verdicts on
applications are their results. -/
def Truthful (ρ : Valuation) (v : Verdicts) : {t : Ty} → ProgramExpr P4Table t → World → Prop
  | _, .lit _, _ => True
  | t, .path node name _, w => v.Reads node (w.env ⟨name, t⟩)
  | _, .hit node table, w => v.Decides node ((behavior ρ).handlers.applyTable table w).1.hit
  | _, .miss node table, w => v.Decides node (!((behavior ρ).handlers.applyTable table w).1.hit)
  | _, .actionRun _, _ => True
  | _, .lNot e, w => e.Truthful ρ v w
  | _, .lAnd left right, w =>
    let result := left.eval (behavior ρ).handlers w
    left.Truthful ρ v w ∧ (result.1 = true → right.Truthful ρ v result.2)
  | _, .lOr left right, w =>
    let result := left.eval (behavior ρ).handlers w
    left.Truthful ρ v w ∧ (result.1 = false → right.Truthful ρ v result.2)
  | _, .equ left right, w =>
    left.Truthful ρ v w ∧ right.Truthful ρ v (left.eval (behavior ρ).handlers w).2
  | _, .neq left right, w =>
    left.Truthful ρ v w ∧ right.Truthful ρ v (left.eval (behavior ρ).handlers w).2
  | _, .unary _ e, w => e.Truthful ρ v w
  | _, .binary _ left right, w =>
    left.Truthful ρ v w ∧ right.Truthful ρ v (left.eval (behavior ρ).handlers w).2
  | _, .mux e0 e1 e2, w =>
    let result := e0.eval (behavior ρ).handlers w
    e0.Truthful ρ v w ∧ (result.1 = true → e1.Truthful ρ v result.2) ∧
      (result.1 = false → e2.Truthful ρ v result.2)

end ProgramExpr

/-- An expression without applications has no effect but on the record of the run. -/
theorem env_eval_of_sites (b : TableBehavior) {t : Ty} (e : ProgramExpr P4Table t)
    (none : e.sites = []) (w : World) : (e.eval b.handlers w).2.env = w.env := by
  induction e generalizing w with
  | lit | path => rfl
  | hit | miss | actionRun => cases none
  | lNot e ih | unary _ e ih => exact ih none w
  | lAnd left right ihl ihr | lOr left right ihl ihr =>
    obtain ⟨noneLeft, noneRight⟩ := List.append_eq_nil_iff.mp none
    rw [ProgramExpr.eval]
    split <;> simp [ihl noneLeft, ihr noneRight]
  | equ left right ihl ihr | neq left right ihl ihr | binary _ left right ihl ihr =>
    obtain ⟨noneLeft, noneRight⟩ := List.append_eq_nil_iff.mp none
    exact (ihr noneRight _).trans (ihl noneLeft w)
  | mux e0 e1 e2 ih0 ih1 ih2 =>
    obtain ⟨none0, others⟩ := List.append_eq_nil_iff.mp none
    obtain ⟨none1, none2⟩ := List.append_eq_nil_iff.mp others
    rw [ProgramExpr.eval]
    split <;> simp [ih0 none0, ih1 none1, ih2 none2]

section Expressions

variable {ρ : Valuation} {own : Site → Prop} {vars : List StateVariable}
  (symbolicValue? : SymbolicValue)

open ExpressionResolver

/-- The application of a table by a member, whose node is recorded with the condition of the member. -/
theorem Explains.member {table : P4Table} {i j : Interpretation} {truth : Verdicts → World → Prop}
    (explains : Explains ρ own vars table.actionSites i j
      (fun w => ((behavior ρ).handlers.applyTable table w).2) truth)
    (node : Node) {cond : Expr .boolean} {value : Bool} (evaluated : cond.eval ρ = value) :
    Explains ρ own vars (table.actionSites ++ [.node node]) i (j.addReachabilityMapping node cond)
      (fun w => ((behavior ρ).handlers.applyTable table w).2) fun v _ => v.Decides node value := by
  have mapped : Explains ρ own vars [.node node] j (j.addReachabilityMapping node cond) id
      fun v _ => v.Decides node value := .addReachabilityMapping node fun _ _ _ => evaluated
  exact (explains.trans mapped).imp (fun _ _ _ => rfl) fun _ _ _ _ truth => truth.2

/-- Two expressions, of which the second one applies no table and is left out where the first one has
another value. -/
theorem Explains.operands {t : Ty} {left : ProgramExpr P4Table .boolean}
    {right : ProgramExpr P4Table t} {i j k : Interpretation} (none : right.sites = [])
    (needed : Bool)
    (explainsLeft : Explains ρ own vars (left.visited P4Table.actionSites) i j
      (fun w => (left.eval (behavior ρ).handlers w).2) fun v w => left.Truthful ρ v w)
    (explainsRight : Explains ρ own vars (right.visited P4Table.actionSites) j k
      (fun w => (right.eval (behavior ρ).handlers w).2) fun v w => right.Truthful ρ v w) :
    Explains ρ own vars
      (left.visited P4Table.actionSites ++ right.visited P4Table.actionSites) i k
      (fun w => (left.eval (behavior ρ).handlers w).2)
      fun v w => left.Truthful ρ v w ∧ ((left.eval (behavior ρ).handlers w).1 = needed →
        right.Truthful ρ v (left.eval (behavior ρ).handlers w).2) :=
  (explainsLeft.trans explainsRight).imp
    (fun _ _ _ => (env_eval_of_sites (behavior ρ) right none _).symm)
    fun _ _ _ _ truth => ⟨truth.1, fun _ => truth.2⟩

/-- The interpreter computes for an expression the value that it has in the execution, and the verdicts
that its record confirms are true. -/
theorem computeResult_explains {t : Ty} (e : ProgramExpr P4Table t)
    (analyzable : e.Analyzable own vars) (activates : Activates ρ) (i : Interpretation)
    (defined : vars ⊆ i.state.env.keys) :
    ∃ r i', computeResult (handlers symbolicValue?) e i = some (r, i') ∧
      Explains ρ own vars (e.visited P4Table.actionSites) i i'
        (fun w => (e.eval (behavior ρ).handlers w).2) (fun v w => e.Truthful ρ v w) ∧
      ∀ w, i.state.Holds ρ → Simulates ρ vars i.state w →
        r.eval ρ = (e.eval (behavior ρ).handlers w).1 := by
  induction e generalizing i with
  | lit value => exact ⟨.lit value, i, rfl, .refl i, fun _ _ _ => Expr.eval_lit value⟩
  | path node name t =>
    obtain ⟨r, found⟩ := OrderedMap.exists_find_of_mem (defined analyzable)
    have evaluated : ∀ w, i.state.Holds ρ → Simulates ρ vars i.state w →
        r.eval ρ = w.env ⟨name, t⟩ := by
      intro w _ simulates
      have value := simulates _ analyzable
      rw [ExecutionState.value, found] at value
      exact Option.some.inj value
    refine ⟨r, i.resume (i.state.addExpressionMapping node r), ?_, ?_, evaluated⟩
    · rw [computeResult, found]
      rfl
    · exact (Explains.addExpressionMapping node evaluated).imp (fun _ _ _ => rfl)
        fun _ _ _ _ truth => truth
  | hit node table =>
    obtain ⟨result, j, applied, explains, hit, -⟩ :=
      processTable_explains symbolicValue? analyzable activates i defined
    refine ⟨result.hit, j.addReachabilityMapping node result.hit, ?_, explains.member node hit,
      fun w _ _ => hit⟩
    simp [computeResult, handlers, applied]
  | miss node table =>
    obtain ⟨result, j, applied, explains, hit, -⟩ :=
      processTable_explains symbolicValue? analyzable activates i defined
    have miss : (Expr.lNot result.hit).eval ρ =
        !listed table (ρ (getTableActionChoice table.controlPlaneName)) := by
      rw [Expr.eval_lNot, hit]
    refine ⟨.lNot result.hit, j.addReachabilityMapping node (.lNot result.hit), ?_,
      explains.member node miss, fun w _ _ => miss⟩
    simp [computeResult, handlers, applied]
  | actionRun table =>
    obtain ⟨result, j, applied, explains, -, actionRun⟩ :=
      processTable_explains symbolicValue? analyzable activates i defined
    refine ⟨result.actionRun, j, by simp [computeResult, handlers, applied], ?_, actionRun⟩
    exact explains.imp (fun _ _ _ => rfl) fun _ _ _ _ _ => trivial
  | lNot e ih | unary _ e ih =>
    obtain ⟨r, j, computed, explains, value⟩ := ih analyzable i defined
    refine ⟨_, j, by rw [computeResult, computed]; rfl, explains, fun w holds simulates => ?_⟩
    simp [ProgramExpr.eval, value w holds simulates]
  | lAnd left right ihl ihr =>
    obtain ⟨analyzableLeft, analyzableRight, none⟩ := analyzable
    obtain ⟨l, j, computedLeft, explainsLeft, valueLeft⟩ := ihl analyzableLeft i defined
    obtain ⟨r, k, computedRight, explainsRight, valueRight⟩ :=
      ihr analyzableRight j (List.Subset.trans defined explainsLeft.keys)
    have env := env_eval_of_sites (behavior ρ) right none
    refine ⟨.lAnd l r, k, by simp [computeResult, computedLeft, computedRight],
      (explainsLeft.operands none true explainsRight).imp (fun w _ _ => ?_)
        fun _ _ _ _ truth => truth, fun w holds simulates => ?_⟩
    · simp only [ProgramExpr.eval]
      split <;> simp [env]
    · have after := valueRight _ (explainsLeft.holds.mpr holds)
        (explainsLeft.values w holds simulates)
      cases known : (left.eval (behavior ρ).handlers w).1 <;>
        simp [ProgramExpr.eval, valueLeft w holds simulates, after, known]
  | lOr left right ihl ihr =>
    obtain ⟨analyzableLeft, analyzableRight, none⟩ := analyzable
    obtain ⟨l, j, computedLeft, explainsLeft, valueLeft⟩ := ihl analyzableLeft i defined
    obtain ⟨r, k, computedRight, explainsRight, valueRight⟩ :=
      ihr analyzableRight j (List.Subset.trans defined explainsLeft.keys)
    have env := env_eval_of_sites (behavior ρ) right none
    refine ⟨.lOr l r, k, by simp [computeResult, computedLeft, computedRight],
      (explainsLeft.operands none false explainsRight).imp (fun w _ _ => ?_)
        fun _ _ _ _ truth => truth, fun w holds simulates => ?_⟩
    · simp only [ProgramExpr.eval]
      split <;> simp [env]
    · have after := valueRight _ (explainsLeft.holds.mpr holds)
        (explainsLeft.values w holds simulates)
      cases known : (left.eval (behavior ρ).handlers w).1 <;>
        simp [ProgramExpr.eval, valueLeft w holds simulates, after, known]
  | equ left right ihl ihr | neq left right ihl ihr | binary _ left right ihl ihr =>
    obtain ⟨analyzableLeft, analyzableRight⟩ := analyzable
    obtain ⟨l, j, computedLeft, explainsLeft, valueLeft⟩ := ihl analyzableLeft i defined
    obtain ⟨r, k, computedRight, explainsRight, valueRight⟩ :=
      ihr analyzableRight j (List.Subset.trans defined explainsLeft.keys)
    refine ⟨_, k, by simp [computeResult, computedLeft, computedRight]; rfl,
      explainsLeft.trans explainsRight, fun w holds simulates => ?_⟩
    have after := valueRight _ (explainsLeft.holds.mpr holds) (explainsLeft.values w holds simulates)
    simp [ProgramExpr.eval, valueLeft w holds simulates, after]
  | mux e0 e1 e2 ih0 ih1 ih2 =>
    obtain ⟨analyzable0, ⟨analyzable1, none1⟩, analyzable2, none2⟩ := analyzable
    obtain ⟨cond, j, computed0, explains0, value0⟩ := ih0 analyzable0 i defined
    have definedJ : vars ⊆ j.state.env.keys := List.Subset.trans defined explains0.keys
    obtain ⟨elseExpr, k, computed2, explains2, value2⟩ := ih2 analyzable2 j definedJ
    have definedK : vars ⊆ k.state.env.keys := List.Subset.trans definedJ explains2.keys
    obtain ⟨ifExpr, t, computed1, explains1, value1⟩ :=
      ih1 analyzable1 (k.resume (k.state.pushExecutionCondition cond)) definedK
    -- The alternative comes first, and leaves the values as they are.
    have alternative : Explains ρ own vars (e2.visited P4Table.actionSites) j k id
        fun v w => e2.Truthful ρ v w :=
      explains2.imp (fun w _ _ => (env_eval_of_sites (behavior ρ) e2 none2 w).symm)
        fun _ _ _ _ truth => truth
    have choice : Explains ρ own vars (e1.visited P4Table.actionSites ++ []) k
        (t.resume (k.state.merge t.state))
        (fun w => if cond.eval ρ then (e1.eval (behavior ρ).handlers w).2 else id w)
        fun v w => if cond.eval ρ then e1.Truthful ρ v w else True :=
      .branch definedK (fun _ _ _ => rfl) explains1 (.refl (t.resume k.state))
    have explains := explains0.trans (alternative.trans choice)
    rw [List.append_nil] at explains
    refine ⟨.mux cond ifExpr elseExpr, t.resume (k.state.merge t.state), ?_,
      explains.imp (fun w holds simulates => ?_) fun v w holds simulates truth => ?_,
      fun w holds simulates => ?_⟩
    · simp [computeResult, computed0, computed1, computed2]
    · rw [ProgramExpr.eval, value0 w holds simulates]
      dsimp only [id]
      split <;> simp [env_eval_of_sites (behavior ρ) e2 none2]
    · obtain ⟨truth0, truth2, truth1⟩ := truth
      rw [value0 w holds simulates] at truth1
      exact ⟨truth0, fun taken => by simpa [taken] using truth1, fun _ => truth2⟩
    · have holdsJ := explains0.holds.mpr holds
      have simulatesJ := explains0.values w holds simulates
      have known := value0 w holds simulates
      rw [Expr.eval_mux, ProgramExpr.eval, ← known]
      cases taken : cond.eval ρ with
      | true =>
        exact value1 _ (ExecutionState.holds_push.mpr ⟨alternative.holds.mpr holdsJ, taken⟩)
          (alternative.values _ holdsJ simulatesJ)
      | false => exact value2 _ holdsJ simulatesJ

end Expressions

mutual

/-- The interpreter gets through the statement: it declares nothing, its switches have proper labels, and
its expressions, tables and calls can be analyzed. -/
def Statement.Analyzable (own : Site → Prop) (vars : List StateVariable) :
    Statement P4Table ActionCall → Prop
  | .empty => True
  | .assignment _ right => right.Analyzable own vars
  | .declaration _ _ => False
  | .block components => AnalyzableAll own vars components
  | .ifStatement _ condition ifTrue ifFalse =>
    condition.Analyzable own vars ∧ ifTrue.Analyzable own vars ∧ AnalyzableOption own vars ifFalse
  | .switchStatement (t := t) expression cases =>
    expression.Analyzable own vars ∧ SwitchLabels t cases ∧ AnalyzableCases own vars cases
  | .apply table => table.Analyzable own vars
  | .call action => action.Analyzable own vars

def AnalyzableAll (own : Site → Prop) (vars : List StateVariable) :
    List (Statement P4Table ActionCall) → Prop
  | [] => True
  | s :: l => s.Analyzable own vars ∧ AnalyzableAll own vars l

def AnalyzableOption (own : Site → Prop) (vars : List StateVariable) :
    Option (Statement P4Table ActionCall) → Prop
  | none => True
  | some s => s.Analyzable own vars

def AnalyzableCases (own : Site → Prop) (vars : List StateVariable) :
    List (SwitchCase P4Table ActionCall) → Prop
  | [] => True
  | .mk _ _ body :: cases => AnalyzableBody own vars body ∧ AnalyzableCases own vars cases

def AnalyzableBody (own : Site → Prop) (vars : List StateVariable) :
    Option (List (Statement P4Table ActionCall)) → Prop
  | none => True
  | some body => AnalyzableAll own vars body

end

section Throughout

variable {τ α : Type} (h : Handlers τ α) (P : Statement τ α → World → Prop)

mutual

/-- The property holds of each statement that the execution reaches, apart from blocks, in the world that
is there. -/
def Statement.Throughout : Statement τ α → World → Prop
  | .empty, _ => True
  | .assignment left right, w => P (.assignment left right) w
  | .declaration name initializer, w => P (.declaration name initializer) w
  | .block components, w => ThroughoutAll components w
  | .ifStatement node condition ifTrue ifFalse, w =>
    let result := condition.eval h w
    P (.ifStatement node condition ifTrue ifFalse) w ∧
      if result.1 then ifTrue.Throughout (result.2.emit (.taken node))
      else ThroughoutOption ifFalse result.2
  | .switchStatement expression cases, w =>
    let result := expression.eval h w
    P (.switchStatement expression cases) w ∧
      ThroughoutCases (selectBlock result.1 cases) (takeCase result.1 cases result.2) cases
  | .apply table, w => P (.apply table) w
  | .call action, w => P (.call action) w

def ThroughoutAll : List (Statement τ α) → World → Prop
  | [], _ => True
  | s :: l, w => s.Throughout w ∧ ThroughoutAll l (s.exec h w)

def ThroughoutOption : Option (Statement τ α) → World → Prop
  | none, _ => True
  | some s, w => s.Throughout w

/-- The property holds throughout the selected block, if it is one of the cases. -/
def ThroughoutCases (selected : Option (List (Statement τ α))) (w : World) :
    List (SwitchCase τ α) → Prop
  | [] => True
  | .mk _ _ body :: cases => ThroughoutBody selected w body ∧ ThroughoutCases selected w cases

def ThroughoutBody (selected : Option (List (Statement τ α))) (w : World) :
    Option (List (Statement τ α)) → Prop
  | none => True
  | some body => selected = some body → ThroughoutAll body w

end

variable {h P}

theorem throughoutCases_iff {selected : Option (List (Statement τ α))} {w : World}
    {cases : List (SwitchCase τ α)} :
    ThroughoutCases h P selected w cases ↔
      ∀ c ∈ cases, ∀ body, c.statement = some body → selected = some body →
        ThroughoutAll h P body w := by
  induction cases with
  | nil => simp [ThroughoutCases]
  | cons c cases ih =>
    obtain ⟨node, label, body⟩ := c
    cases body <;> simp [ThroughoutCases, ThroughoutBody, SwitchCase.statement, ih]

end Throughout

/-- The verdicts and the constants are true of what the statement itself evaluates and decides. -/
def Statement.Foretold (ρ : Valuation) (v : Verdicts) : ControlStatement → World → Prop
  | .assignment _ right, w => right.Truthful ρ v w
  | .declaration _ initializer, w => initializer.Truthful ρ v w
  | .ifStatement node condition _ _, w =>
    condition.Truthful ρ v w ∧ v.Decides node (condition.eval (behavior ρ).handlers w).1
  | .switchStatement expression cases, w =>
    expression.Truthful ρ v w ∧
      ElimDeadCode.Consistent v.reachability (expression.eval (behavior ρ).handlers w).1 cases
  | .apply table, _ => table.Foretold ρ v
  | _, _ => True

/-- In the execution of the statement, the verdicts and the constants are true of what it reaches. -/
abbrev Statement.Truthful (ρ : Valuation) (v : Verdicts) : ControlStatement → World → Prop :=
  Statement.Throughout (behavior ρ).handlers (Statement.Foretold ρ v)

abbrev TruthfulAll (ρ : Valuation) (v : Verdicts) : List ControlStatement → World → Prop :=
  ThroughoutAll (behavior ρ).handlers (Statement.Foretold ρ v)

end Flay
