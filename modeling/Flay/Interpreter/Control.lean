import Flay.Interpreter.SwitchSimulation

/-! The symbolic execution of control statements simulates their concrete execution. -/

namespace Flay

open Container

mutual

/-- The statement declares nothing, its switches have proper labels, and it reads variables of the
list only. -/
def Statement.Supported {τ α : Type} (vars : List StateVariable) : Statement τ α → Prop
  | .empty => True
  | .assignment _ right => right.reads ⊆ vars
  | .declaration _ _ => False
  | .block components => SupportedAll vars components
  | .ifStatement _ condition ifTrue ifFalse =>
    condition.reads ⊆ vars ∧ ifTrue.Supported vars ∧ SupportedOption vars ifFalse
  | .switchStatement (t := t) expression cases =>
    expression.reads ⊆ vars ∧ SwitchLabels t cases ∧ SupportedCases vars cases
  | .apply _ => True
  | .call _ => True

def SupportedAll {τ α : Type} (vars : List StateVariable) : List (Statement τ α) → Prop
  | [] => True
  | s :: l => s.Supported vars ∧ SupportedAll vars l

def SupportedOption {τ α : Type} (vars : List StateVariable) : Option (Statement τ α) → Prop
  | none => True
  | some s => s.Supported vars

def SupportedCases {τ α : Type} (vars : List StateVariable) : List (SwitchCase τ α) → Prop
  | [] => True
  | .mk _ _ body :: cases => SupportedBody vars body ∧ SupportedCases vars cases

def SupportedBody {τ α : Type} (vars : List StateVariable) :
    Option (List (Statement τ α)) → Prop
  | none => True
  | some body => SupportedAll vars body

end

/-- The interpreter simulates the run and records the nodes that it takes. -/
structure Steps (vars : List StateVariable) (nodes : List Node) (i i' : Interpretation)
    (run : World → World) : Prop where
  simulation : Simulation vars i.state i'.state run
  recording : Recording vars nodes i i' run

namespace Steps

variable {vars : List StateVariable} {nodes nodes' : List Node} {i j k : Interpretation}
  {run run' : World → World}

theorem of_unchanged (h : i.Unchanged j) (env : ∀ w, (run w).env = w.env)
    (events : ∀ w node, .taken node ∈ (run w).events → .taken node ∈ w.events) :
    Steps vars [] i j run :=
  ⟨.of_unchanged h env, .of_unchanged h events⟩

theorem refl (i : Interpretation) : Steps vars [] i i id :=
  of_unchanged (.refl i) (fun _ => rfl) fun _ _ h => h

theorem trans (h : Steps vars nodes i j run) (h' : Steps vars nodes' j k run') :
    Steps vars (nodes ++ nodes') i k fun w => run' (run w) :=
  ⟨h.simulation.trans h'.simulation, h.recording.trans h.simulation h'.recording⟩

/-- An expression that is computed. -/
theorem computeResult {t : Ty} (e : ProgramExpr Empty t) (h : i.Unchanged j) :
    Steps vars [] i j fun w => (e.eval Handlers.none w).2 :=
  of_unchanged h (env_eval e) fun _ _ => taken_eval e

theorem set {x : StateVariable} {value : Expr x.type} {v : World → x.type.Val}
    (evaluated : ∀ ρ w, Simulates ρ vars i.state w → value.eval ρ = v w) :
    Steps vars [] i (i.resume (i.state.set x value)) fun w => w.set x (v w) :=
  ⟨.set evaluated, .of_address (fun _ => rfl) rfl fun _ _ h => h⟩

end Steps

theorem env_ite_emit (test : Bool) (w : World) (e : Event) :
    (if test then w.emit e else w).env = w.env := by
  cases test <;> rfl

section Statements

variable {vars : List StateVariable}

open FlayStepper

/-- The value that the interpreter has for an expression is the one in the world after it, too. -/
theorem evaluated_after {t : Ty} (e : ProgramExpr Empty t) {r : Expr t} {i i' : Interpretation}
    (unchanged : i.Unchanged i')
    (value : ∀ ρ w, Simulates ρ vars i.state w → r.eval ρ = (e.eval Handlers.none w).1) (ρ : Valuation)
    (w : World) (h : Simulates ρ vars i'.state w) : r.eval ρ = (e.eval Handlers.none w).1 :=
  value ρ w (h.of_value fun x _ => by rw [ExecutionState.value, ExecutionState.value, unchanged.find x])

/-- The condition of an if statement has its value still when the statement is recorded. -/
theorem ite_taken (condition : ProgramExpr Empty .boolean) (node : Node)
    (ifTrue ifFalse : World → World) (w : World) :
    (if (condition.eval Handlers.none w).1
      then ifTrue ((condition.eval Handlers.none w).2.emit (.taken node))
      else ifFalse (condition.eval Handlers.none w).2) =
    let test : World → Bool := fun w => (condition.eval Handlers.none w).1
    let after := (condition.eval Handlers.none w).2
    let taken := if test after then after.emit (.taken node) else after
    if test taken then ifTrue taken else ifFalse taken := by
  have same : ∀ w', w'.env = w.env →
      (condition.eval Handlers.none w').1 = (condition.eval Handlers.none w).1 :=
    fun _ h => fst_eval_congr condition h
  have after := same (condition.eval Handlers.none w).2 (env_eval condition w)
  have emitted := same ((condition.eval Handlers.none w).2.emit (.taken node))
    (env_eval condition w)
  cases tested : (condition.eval Handlers.none w).1 <;> simp [after, emitted, tested]

/-- The interpretation after the branches of an if statement. -/
theorem Steps.ifStatement {condition : ProgramExpr Empty .boolean} {node : Node}
    {ifTrue ifFalse : World → World} {nodes nodes' : List Node} {cond : Expr .boolean}
    {i i' t e : Interpretation} (defined : vars ⊆ i'.state.env.keys) (unchanged : i.Unchanged i')
    (value : ∀ ρ w, Simulates ρ vars i.state w → cond.eval ρ = (condition.eval Handlers.none w).1)
    (trueSteps : Steps vars nodes ((i'.addReachabilityMapping node cond).resume
      ((i'.addReachabilityMapping node cond).state.pushExecutionCondition cond)) t ifTrue)
    (falseSteps : Steps vars nodes' (t.resume (i'.addReachabilityMapping node cond).state) e ifFalse) :
    Steps vars (node :: (nodes ++ nodes')) i (e.resume (e.state.merge t.state)) fun w =>
      if (condition.eval Handlers.none w).1
        then ifTrue ((condition.eval Handlers.none w).2.emit (.taken node))
        else ifFalse (condition.eval Handlers.none w).2 := by
  let test : World → Bool := fun w => (condition.eval Handlers.none w).1
  have evaluated : ∀ ρ w, Simulates ρ vars i'.state w → cond.eval ρ = test w :=
    evaluated_after condition unchanged value
  have mapping : Steps vars [node] i' (i'.addReachabilityMapping node cond)
      fun w => if test w then w.emit (.taken node) else w :=
    { simulation :=
        { keys := fun _ h => h
          condition := rfl
          values := fun _ w _ h => h.of_env (env_ite_emit (test w) w _) }
      recording := .addReachabilityMapping evaluated node }
  have branches : Steps vars (nodes ++ nodes') (i'.addReachabilityMapping node cond)
      (e.resume (e.state.merge t.state)) fun w => if test w then ifTrue w else ifFalse w :=
    { simulation := .branch defined evaluated trueSteps.simulation falseSteps.simulation
      recording := .branch evaluated trueSteps.recording falseSteps.recording }
  have run := (Steps.computeResult condition unchanged).trans (mapping.trans branches)
  have same : (fun w => if (condition.eval Handlers.none w).1
      then ifTrue ((condition.eval Handlers.none w).2.emit (.taken node))
      else ifFalse (condition.eval Handlers.none w).2) = _ :=
    funext fun w => ite_taken condition node ifTrue ifFalse w
  rw [same]
  exact run

/-- The interpretation after the blocks of a switch statement. -/
theorem Steps.switchStatement {t : Ty} {expression : ProgramExpr Empty t} {switchExpr : Expr t}
    {cases : List (SwitchCase Empty Empty)} {i i' j d : Interpretation}
    {states : List ExecutionState} (defined : vars ⊆ i'.state.env.keys) (unchanged : i.Unchanged i')
    (value : ∀ ρ w, Simulates ρ vars i.state w →
      switchExpr.eval ρ = (expression.eval Handlers.none w).1) (labels : SwitchLabels t cases)
    (loop : CaseStates
      (fun body i c => Steps vars (nodesAll body) i c (execAll Handlers.none body))
      switchExpr none cases i' j states)
    (default : Steps vars (defaultNodes cases) j d
      (execBlock Handlers.none (defaultBlock cases))) :
    Steps vars (nodesCases cases) i (d.resume (states.foldl ExecutionState.merge d.state)) fun w =>
      execCases Handlers.none (expression.eval Handlers.none w).1 false cases
        (expression.eval Handlers.none w).2 := by
  have evaluated := evaluated_after expression unchanged value
  have run := (Steps.computeResult expression unchanged).trans
    { simulation := Simulation.switch loop (fun _ _ _ h => h.simulation) labels defined evaluated
        default.simulation
      recording := Recording.switch loop (fun _ _ _ h => h.recording) labels defined evaluated
        default.recording }
  have same : ∀ w, (expression.eval Handlers.none (expression.eval Handlers.none w).2).1 =
      (expression.eval Handlers.none w).1 := fun w => fst_eval_congr expression (env_eval expression w)
  simpa only [same, List.nil_append] using run

mutual

theorem statement_steps : (s : Statement Empty Empty) → s.Supported vars → (i : Interpretation) →
    vars ⊆ i.state.env.keys → ∃ i', statement SymbolicHandlers.none s i = some i' ∧
      Steps vars s.nodes i i' (s.exec Handlers.none)
  | .empty, _, i, _ => ⟨i, rfl, .refl i⟩
  | .assignment left right, supported, i, defined => by
    obtain ⟨r, i', computed, unchanged, value⟩ := computeResult_none right supported i defined
    refine ⟨_, by rw [statement, computed]; rfl, ?_⟩
    have evaluated := evaluated_after right unchanged value
    have run := (Steps.computeResult right unchanged).trans
      (.set (x := ⟨left, _⟩) (v := fun w => (right.eval Handlers.none w).1) evaluated)
    have same : ∀ w, (right.eval Handlers.none (right.eval Handlers.none w).2).1 =
        (right.eval Handlers.none w).1 := fun w => fst_eval_congr right (env_eval right w)
    simp only [same] at run
    exact run
  | .declaration _ _, supported, _, _ => supported.elim
  | .block components, supported, i, defined => statements_steps components supported i defined
  | .ifStatement node condition ifTrue ifFalse, supported, i, defined => by
    obtain ⟨supported, supportedTrue, supportedFalse⟩ := supported
    obtain ⟨cond, i', computed, unchanged, value⟩ := computeResult_none condition supported i defined
    have defined' : vars ⊆ i'.state.env.keys := fun _ h => unchanged.mem_keys.mpr (defined h)
    obtain ⟨t, ranTrue, trueSteps⟩ := statement_steps ifTrue supportedTrue
      ((i'.addReachabilityMapping node cond).resume
        ((i'.addReachabilityMapping node cond).state.pushExecutionCondition cond)) defined'
    obtain ⟨e, ranFalse, falseSteps⟩ := optionalStatement_steps ifFalse supportedFalse
      (t.resume (i'.addReachabilityMapping node cond).state) defined'
    refine ⟨e.resume (e.state.merge t.state), ?_, ?_⟩
    · rw [statement, computed]
      simp [ranTrue, ranFalse]
    · exact Steps.ifStatement defined' unchanged value trueSteps falseSteps
  | .switchStatement expression cases, supported, i, defined => by
    obtain ⟨supported, labels, supportedCases⟩ := supported
    obtain ⟨switchExpr, i', computed, unchanged, value⟩ :=
      computeResult_none expression supported i defined
    have defined' : vars ⊆ i'.state.env.keys := fun _ h => unchanged.mem_keys.mpr (defined h)
    obtain ⟨j, states, ranCases, loop⟩ :=
      switchCases_steps cases supportedCases labels switchExpr none i' defined'
    obtain ⟨d, ranDefault, default⟩ :=
      defaultCase_steps cases supportedCases labels j (loop.state.1 ▸ defined')
    refine ⟨d.resume (states.foldl ExecutionState.merge d.state), ?_, ?_⟩
    · rw [statement, computed]
      simp [ranCases, ranDefault]
    · exact Steps.switchStatement defined' unchanged value labels loop default

theorem statements_steps : (l : List (Statement Empty Empty)) → SupportedAll vars l →
    (i : Interpretation) → vars ⊆ i.state.env.keys →
      ∃ i', statements SymbolicHandlers.none l i = some i' ∧
        Steps vars (nodesAll l) i i' (execAll Handlers.none l)
  | [], _, i, _ => ⟨i, rfl, .refl i⟩
  | s :: l, supported, i, defined => by
    obtain ⟨j, ran, steps⟩ := statement_steps s supported.1 i defined
    obtain ⟨k, ran', steps'⟩ :=
      statements_steps l supported.2 j (List.Subset.trans defined steps.simulation.keys)
    exact ⟨k, by rw [statements, ran]; exact ran', steps.trans steps'⟩

theorem optionalStatement_steps : (s : Option (Statement Empty Empty)) → SupportedOption vars s →
    (i : Interpretation) → vars ⊆ i.state.env.keys →
      ∃ i', optionalStatement SymbolicHandlers.none s i = some i' ∧
        Steps vars (nodesOption s) i i' (execOption Handlers.none s)
  | none, _, i, _ => ⟨i, rfl, .refl i⟩
  | some s, supported, i, defined => statement_steps s supported i defined

theorem switchCases_steps {t : Ty} : (cases : List (SwitchCase Empty Empty)) →
    SupportedCases vars cases → SwitchLabels t cases → (switchExpr : Expr t) →
      (cond : Option (Expr .boolean)) → (i : Interpretation) → vars ⊆ i.state.env.keys →
        ∃ i' states,
          switchCases SymbolicHandlers.none switchExpr cond cases i = some (i', states) ∧
          CaseStates (fun body i c => Steps vars (nodesAll body) i c (execAll Handlers.none body))
            switchExpr cond cases i i' states
  | [], _, _, _, _, i, _ => ⟨i, [], rfl, .nil⟩
  | .mk node label body :: cases, supported, labels, switchExpr, cond, i, defined => by
    have bodySteps := body_steps body supported.1
    have caseSteps := switchCases_steps (t := t) cases supported.2
    cases constant : label.literal t with
    | none =>
      obtain ⟨rfl, -⟩ := labels.of_none constant
      exact ⟨i, [], by rw [switchCases, if_pos rfl], .default⟩
    | some u =>
      have named := ne_default_of_literal constant
      have rest := (labels.of_constant constant).1
      cases body with
      | none =>
        obtain ⟨i', states, ran, loop⟩ := caseSteps rest switchExpr
          (some (labelCondition switchExpr cond u))
          (i.addReachabilityMapping node (.equ switchExpr (.lit u))) defined
        refine ⟨i', states, ?_, .fallThrough constant loop⟩
        simp only [switchCases, if_neg named, constant, caseBody]
        exact ran
      | some body =>
        obtain ⟨c, ranBody, steps⟩ := bodySteps
          ((i.addReachabilityMapping node (.equ switchExpr (.lit u))).resume
            ((i.addReachabilityMapping node
              (.equ switchExpr (.lit u))).state.pushExecutionCondition
                (SimplifyExpression.simplify (labelCondition switchExpr cond u)))) defined body rfl
        obtain ⟨i', states, ran, loop⟩ := caseSteps rest switchExpr none
          (c.resume (i.addReachabilityMapping node (.equ switchExpr (.lit u))).state) defined
        refine ⟨i', c.state :: states, ?_, .block constant steps loop⟩
        simp only [switchCases, if_neg named, constant, caseBody]
        rw [labelCondition] at ranBody
        simp [ranBody, ran]

theorem defaultCase_steps {t : Ty} : (cases : List (SwitchCase Empty Empty)) →
    SupportedCases vars cases → SwitchLabels t cases → (i : Interpretation) →
      vars ⊆ i.state.env.keys →
        ∃ i', defaultCase SymbolicHandlers.none cases i = some i' ∧
          Steps vars (defaultNodes cases) i i' (execBlock Handlers.none (defaultBlock cases))
  | [], _, _, i, _ => ⟨i, rfl, .refl i⟩
  | .mk node label body :: cases, supported, labels, i, defined => by
    have bodySteps := body_steps body supported.1
    have caseSteps := defaultCase_steps (t := t) cases supported.2
    cases constant : label.literal t with
    | none =>
      obtain ⟨rfl, given, last⟩ := labels.of_none constant
      obtain ⟨block, found⟩ := Option.isSome_iff_exists.mp given
      obtain ⟨i', ran, steps⟩ := bodySteps i defined block found
      subst found last
      refine ⟨i', by rw [defaultCase, if_pos rfl]; exact ran, steps.simulation, ?_⟩
      refine steps.recording.mono ?_
      rw [defaultNodes, if_pos rfl, nodesCases, List.append_nil]
      exact List.sublist_cons_self node _
    | some u =>
      have named := ne_default_of_literal constant
      obtain ⟨i', ran, steps⟩ := caseSteps (labels.of_constant constant).1 i defined
      refine ⟨i', by rw [defaultCase, if_neg named]; exact ran, ?_⟩
      rw [defaultNodes, if_neg named, defaultBlock, if_neg named]
      exact steps

theorem body_steps : (body : Option (List (Statement Empty Empty))) → SupportedBody vars body →
    (i : Interpretation) → vars ⊆ i.state.env.keys → ∀ l, body = some l →
      ∃ i', statements SymbolicHandlers.none l i = some i' ∧
        Steps vars (nodesAll l) i i' (execAll Handlers.none l)
  | none, _, _, _, _, missing => by cases missing
  | some body, supported, i, defined, _, rfl => statements_steps body supported i defined

end

/-- The interpreter runs every supported statement. Under a valuation that makes the condition of
the path true, it leaves the values that the run leaves, and the conditions that it records for the
if statements and switch cases that are taken are true. -/
theorem FlayStepper.simulates (s : Statement Empty Empty) (i : Interpretation)
    (addressed : i.Addressed) (supported : s.Supported i.state.env.keys) :
    ∃ i', statement SymbolicHandlers.none s i = some i' ∧
      ∀ ρ w, i.state.Holds ρ → (∀ x ∈ i.state.env.keys, i.state.value ρ x = some (w.env x)) →
        (∀ x ∈ i.state.env.keys,
          i'.state.value ρ x = some ((s.exec Handlers.none w).env x)) ∧
        (s.nodes.Nodup → w.events = [] →
          ∀ node, .taken node ∈ (s.exec Handlers.none w).events → i'.Reaches ρ node) := by
  obtain ⟨i', ran, steps⟩ := statement_steps s supported i (List.Subset.refl _)
  refine ⟨i', ran, fun ρ w holds values => ⟨steps.simulation.values ρ w holds values, ?_⟩⟩
  intro nodup start
  obtain ⟨-, -, records⟩ := steps.recording nodup i.state.address
    ⟨fun _ _ mapped => mapped, addressed⟩ fun _ _ => rfl
  have recorded : i.Records ρ w := fun node taken => by simp [start] at taken
  exact records ρ w holds values recorded

end Statements

section Examples

/-- A state with one variable, which has the value of a symbolic variable. -/
def fieldState : Interpretation where
  state :=
    { env := OrderedMap.empty.set ⟨"field", .bit 8⟩ (.var (.dataPlane "field") (.bit 8))
      executionCondition := none
      nodeAnnotationMap := .empty }
  objects := []
  tableKeyMatches := []

def fieldStatement : Statement Empty Empty :=
  .ifStatement 1 (.equ (t := .bit 8) (.path 2 "field" (.bit 8)) (.lit 0))
    (.assignment (t := .bit 8) "field" (.lit 1)) none

theorem FlayStepper.simulates_fieldStatement :
    ∃ i', statement SymbolicHandlers.none fieldStatement fieldState = some i' ∧
      ∀ ρ w, fieldState.state.Holds ρ →
        (∀ x ∈ fieldState.state.env.keys, fieldState.state.value ρ x = some (w.env x)) →
        (∀ x ∈ fieldState.state.env.keys,
          i'.state.value ρ x = some ((fieldStatement.exec Handlers.none w).env x)) ∧
        (fieldStatement.nodes.Nodup → w.events = [] →
          ∀ node, .taken node ∈ (fieldStatement.exec Handlers.none w).events →
            i'.Reaches ρ node) :=
  FlayStepper.simulates fieldStatement fieldState (fun _ _ mapped => by cases mapped)
    ⟨by decide, List.nil_subset _, trivial⟩

def declaringStatement : Statement Empty Empty :=
  .block [.declaration (t := .bit 8) "local" (.lit 1),
    .assignment (t := .bit 8) "field" (.path 3 "local" (.bit 8))]

def zeroWorld : World := ⟨fun _ => default, []⟩

/-- The interpreter has no rule for a declaration among the statements of a block, which runs like
any other statement. -/
theorem FlayStepper.statement_declaration :
    fieldState.state.Holds (fun _ => default) ∧
      (∀ x ∈ fieldState.state.env.keys,
        fieldState.state.value (fun _ => default) x = some (zeroWorld.env x)) ∧
      (declaringStatement.exec Handlers.none zeroWorld).env ⟨"field", .bit 8⟩ = (1 : BitVec 8) ∧
      ¬∃ i', statement SymbolicHandlers.none declaringStatement fieldState = some i' ∧
        ∀ x ∈ fieldState.state.env.keys, i'.state.value (fun _ => default) x =
          some ((declaringStatement.exec Handlers.none zeroWorld).env x) := by
  refine ⟨rfl, ?_, rfl, ?_⟩
  · intro x mem
    have same : x = ⟨"field", .bit 8⟩ := by simpa [fieldState] using mem
    subst same
    rfl
  · rintro ⟨i', ran, -⟩
    cases ran

end Examples

end Flay
