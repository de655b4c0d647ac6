import Flay.Interpreter.ParserSimulation
import Flay.Program.Calls

/-! The namespaces that names are resolved in while a parser is interpreted: those that a visit of a
state leaves behind, and when the interpretation of a parser restores them. -/

namespace Flay

/-- A namespace that the interpreter enters. -/
inductive Namespace (ε : Type)
  | parser (parser : P4Parser ε)
  | parserState (state : ParserState ε)
  | other (name : String)

/-- The interpreter at work on a state, with the namespaces that this state has entered, the innermost
one first. -/
structure ScopedExecution (ε : Type) where
  execution : ParserExecution
  namespaces : List (Namespace ε)

namespace ScopedExecution

variable {ε : Type} (e : ScopedExecution ε)

def pushNamespace (namespace' : Namespace ε) : ScopedExecution ε :=
  { e with namespaces := namespace' :: e.namespaces }

def popNamespace : ScopedExecution ε := { e with namespaces := e.namespaces.tail }

/-- The interpreter goes on where another part of it has left. -/
def resume (i : Interpretation) : ScopedExecution ε :=
  { e with execution := { e.execution with interpretation := i } }

end ScopedExecution

/-- A parser as it is declared, with its parameters out of `π` and its local variables out of `δ`. -/
structure ParserDeclaration (ε π δ : Type) where
  parser : P4Parser ε
  applyParameters : List (Direction × π)
  parserLocals : List δ

/-- What the interpretation of parsers takes from the base class of states, which is not part of the
repository, and from the target. A name is resolved in the namespaces that have been entered. -/
structure ParserBase (ε π δ : Type) where
  findDecl : List (Namespace ε) → String → Option (ParserState ε)
  copyIn : List (Namespace ε) → Interpretation → π → Option Interpretation
  copyOut : List (Namespace ε) → Interpretation → π → Option Interpretation
  /-- The parameter is given a symbolic expression of its own. -/
  assignStructLike : List (Namespace ε) → Interpretation → π → Option Interpretation
  declareVariable : List (Namespace ε) → Interpretation → δ → Option Interpretation
  initializeParserState : List (Namespace ε) → Interpretation → Option Interpretation

namespace ParserStepper.Scoped

variable {ε π δ : Type} (base : ParserBase ε π δ)
  (externs : ε → Interpretation → Option Interpretation)

section Interpreter

variable [GenEq]

section Select

variable
  (step : ParserState ε → ScopedExecution ε → Except ParserFailure (ScopedExecution ε))

/-- The loop of `processSelectExpression`, with the states of the cases. A clone has namespaces of its
own. -/
def selectCases {types : List Ty} (selectKeyExpr : Components Expr types) :
    List (SelectCase types) → Option (Expr .boolean) → ScopedExecution ε →
      Except ParserFailure (ScopedExecution ε × List ExecutionState)
  | [], _, e => .ok (e, [])
  | ⟨.default, state⟩ :: _, _, e => do
    let decl ← implemented (base.findDecl e.namespaces state)
    let e ← step decl e
    .ok (e, [])
  | ⟨keyset, state⟩ :: cases, notCond, e => do
    let decl ← implemented (base.findDecl e.namespaces state)
    if e.execution.hasVisitedParserId decl.cloneId then .error (.alreadyVisited state)
    let (matchCond, i) ← implemented (matchCond selectKeyExpr keyset e.execution.interpretation)
    let selectState := i.resume (i.state.pushExecutionCondition (caseCond notCond matchCond))
    let selectState ← step decl
      { e with
        execution :=
          ParserExecution.addParserId ⟨selectState, e.execution.visitedParserIds⟩ decl.cloneId }
    let (e, accumulatedStates) ← selectCases selectKeyExpr cases
      (some (caseCond notCond (.lNot matchCond)))
      (e.resume (selectState.execution.interpretation.resume i.state))
    .ok (e, selectState.execution.interpretation.state :: accumulatedStates)

def processSelectExpression (selectExpr : SelectExpression) (e : ScopedExecution ε) :
    Except ParserFailure (ScopedExecution ε) := do
  let (selectKeyExpr, i) ←
    implemented (resolveComponents resolveExpression selectExpr.select e.execution.interpretation)
  let (e, accumulatedStates) ←
    selectCases base step selectKeyExpr selectExpr.selectCases none (e.resume i)
  .ok (e.resume (e.execution.interpretation.resume
    (accumulatedStates.foldl ExecutionState.merge e.execution.interpretation.state)))

end Select

/-- `preorder(ParserState)`. The namespace of the state is left before a path expression, and nowhere
else. -/
def preorder : Nat → ParserState ε → ScopedExecution ε → Except ParserFailure (ScopedExecution ε)
  | 0, _, _ => .error .outOfFuel
  | fuel + 1, parserState, e =>
    if parserState.isFinal then .ok e
    else do
      let e := e.pushNamespace (.parserState parserState)
      let i ← implemented (components externs parserState.components e.execution.interpretation)
      let e := e.resume i
      match parserState.selectExpression with
      | .select selectExpr => processSelectExpression base (preorder fuel) selectExpr e
      | .path state => do
        let e := e.popNamespace
        let decl ← implemented (base.findDecl e.namespaces state)
        if e.execution.hasVisitedParserId decl.cloneId then .error (.alreadyVisited state)
        preorder fuel decl { e with execution := e.execution.addParserId decl.cloneId }

/-- A loop over parameters or declarations, in the namespaces that have been entered. -/
def forEach {α : Type} (f : List (Namespace ε) → Interpretation → α → Option Interpretation)
    (l : List α) (e : ScopedExecution ε) : Except ParserFailure (ScopedExecution ε) := do
  let i ← implemented (l.foldlM (f e.namespaces) e.execution.interpretation)
  .ok (e.resume i)

/-- `preorder(P4Parser)`. -/
def interpret (skipParsers : Bool) (fuel : Nat) (decl : ParserDeclaration ε π δ)
    (e : ScopedExecution ε) : Except ParserFailure (ScopedExecution ε) :=
  if skipParsers then
    forEach base.assignStructLike
      ((decl.applyParameters.filter fun param => param.1.writes).map Prod.snd) e
  else do
    let e := e.pushNamespace (.parser decl.parser)
    let e ← forEach base.copyIn (decl.applyParameters.map Prod.snd) e
    let i ← implemented (base.initializeParserState e.namespaces e.execution.interpretation)
    let e ← forEach base.declareVariable decl.parserLocals (e.resume i)
    let startState ← implemented (decl.parser.findDecl "start")
    let e ← preorder base externs fuel startState
      { e with execution := e.execution.addParserId startState.cloneId }
    let e ← forEach base.copyOut (decl.applyParameters.map Prod.snd) e
    .ok e.popNamespace

end Interpreter

/-! ### What is left of the namespaces -/

section Ensures

variable {α β : Type} {r : Except ParserFailure α} {f : α → Except ParserFailure β}
  {Q : α → Prop} {Q' : β → Prop}

/-- What is returned has a property. -/
def Ensures (Q : α → Prop) (r : Except ParserFailure α) : Prop := ∀ a, r = .ok a → Q a

theorem Ensures.ok {a : α} (h : Q a) : Ensures Q (.ok a) := by
  rintro _ ⟨⟩
  exact h

theorem Ensures.error (failure : ParserFailure) : Ensures Q (.error failure) := by
  rintro _ ⟨⟩

theorem Ensures.bind (h : Ensures Q r) (next : ∀ a, Q a → Ensures Q' (f a)) :
    Ensures Q' (r >>= f) := by
  cases r with
  | error failure => exact .error failure
  | ok a => exact next a (h a rfl)

theorem Ensures.implemented {o : Option α} (next : ∀ a, o = some a → Ensures Q' (f a)) :
    Ensures Q' (Flay.implemented o >>= f) := by
  cases o with
  | none => exact .error _
  | some a => exact next a rfl

end Ensures

variable {base} {externs}

/-- The namespaces entered before are still below the others. -/
def Entered (namespaces : List (Namespace ε)) (e : ScopedExecution ε) : Prop :=
  namespaces <:+ e.namespaces

section Entered

variable [GenEq]

theorem selectCases_entered {step : ParserState ε → ScopedExecution ε →
      Except ParserFailure (ScopedExecution ε)}
    (steps : ∀ decl e, Ensures (Entered e.namespaces) (step decl e)) {types : List Ty}
    {selectKeyExpr : Components Expr types} (l : List (SelectCase types))
    (notCond : Option (Expr .boolean)) (e : ScopedExecution ε) :
    Ensures (fun r => Entered e.namespaces r.1) (selectCases base step selectKeyExpr l notCond e) := by
  induction l generalizing notCond e with
  | nil => exact .ok (List.suffix_refl _)
  | cons c l ih =>
    obtain ⟨keyset, state⟩ := c
    cases keyset with
    | default => exact .implemented fun decl _ => .bind (steps decl e) fun a entered => .ok entered
    | valueSet set | components l' =>
      refine .implemented fun decl _ => ?_
      split
      · exact .error _
      · refine .implemented fun matched _ => .bind (steps decl _) fun a _ => ?_
        exact .bind (ih _ _) fun r entered => .ok entered

theorem processSelectExpression_entered {step : ParserState ε → ScopedExecution ε →
      Except ParserFailure (ScopedExecution ε)}
    (steps : ∀ decl e, Ensures (Entered e.namespaces) (step decl e)) (selectExpr : SelectExpression)
    (e : ScopedExecution ε) :
    Ensures (Entered e.namespaces) (processSelectExpression base step selectExpr e) :=
  .implemented fun _ _ => .bind (selectCases_entered steps _ _ _) fun _ entered => .ok entered

theorem preorder_entered (fuel : Nat) (state : ParserState ε) (e : ScopedExecution ε) :
    Ensures (Entered e.namespaces) (preorder base externs fuel state e) := by
  induction fuel generalizing state e with
  | zero => exact .error _
  | succ fuel ih =>
    rw [preorder]
    split
    · exact .ok (List.suffix_refl _)
    · refine .implemented fun i _ => ?_
      split
      · intro e' ran
        have entered : .parserState state :: e.namespaces <:+ e'.namespaces :=
          processSelectExpression_entered (fun decl e => ih decl e) _ _ e' ran
        exact (List.suffix_cons _ _).trans entered
      · refine .implemented fun decl _ => ?_
        split
        · exact .error _
        · exact ih decl _

end Entered

/-- A state leads to another one by a path expression. -/
def Direct (base : ParserBase ε π δ) (namespaces : List (Namespace ε)) (a b : ParserState ε) : Prop :=
  a.isFinal = false ∧
    ∃ target, a.selectExpression = .path target ∧ base.findDecl namespaces target = some b

/-- Path expressions alone lead from a state to one with a select expression. -/
def Selects (base : ParserBase ε π δ) (namespaces : List (Namespace ε)) (state : ParserState ε) :
    Prop :=
  ∃ last selectExpr, Relation.ReflTransGen (Direct base namespaces) state last ∧
    last.isFinal = false ∧ last.selectExpression = .select selectExpr

theorem not_selects_of_final {namespaces : List (Namespace ε)} {state : ParserState ε}
    (final : state.isFinal = true) : ¬Selects base namespaces state := by
  rintro ⟨last, selectExpr, path, notFinal, -⟩
  obtain rfl | ⟨next, ⟨notFinal, -⟩, -⟩ := Relation.ReflTransGen.cases_head path <;>
    rw [final] at notFinal <;> cases notFinal

theorem selects_path_iff {namespaces : List (Namespace ε)} {state decl : ParserState ε}
    {target : String} (final : state.isFinal = false)
    (transition : state.selectExpression = .path target)
    (found : base.findDecl namespaces target = some decl) :
    Selects base namespaces state ↔ Selects base namespaces decl := by
  constructor
  · rintro ⟨last, selectExpr, path, notFinal, select⟩
    obtain rfl | ⟨next, ⟨-, target', transition', found'⟩, path⟩ :=
      Relation.ReflTransGen.cases_head path
    · rw [transition] at select
      cases select
    · rw [transition] at transition'
      cases transition'
      rw [found] at found'
      cases found'
      exact ⟨last, selectExpr, path, notFinal, select⟩
  · rintro ⟨last, selectExpr, path, rest⟩
    exact ⟨last, selectExpr, path.head ⟨final, target, transition, found⟩, rest⟩

theorem forEach_namespaces {α : Type}
    {f : List (Namespace ε) → Interpretation → α → Option Interpretation} (l : List α)
    (e : ScopedExecution ε) : Ensures (fun e' => e'.namespaces = e.namespaces) (forEach f l e) :=
  .implemented fun _ _ => .ok rfl

theorem tail_eq_iff {l namespaces : List (Namespace ε)} {inner : Namespace ε} :
    (l ++ inner :: namespaces).tail = namespaces ↔ l = [] := by
  constructor
  · intro same
    have lengths := congrArg List.length same
    simp only [List.length_tail, List.length_append, List.length_cons] at lengths
    exact List.length_eq_zero_iff.mp (by omega)
  · rintro rfl
    rfl

section Restores

variable [GenEq]

/-- The visit of a state leaves a namespace behind exactly where path expressions alone lead to a
select expression. -/
theorem preorder_namespaces (fuel : Nat) (state : ParserState ε) (e : ScopedExecution ε) :
    Ensures (fun e' => ∃ l, e'.namespaces = l ++ e.namespaces ∧
      (l = [] ↔ ¬Selects base e.namespaces state)) (preorder base externs fuel state e) := by
  induction fuel generalizing state e with
  | zero => exact .error _
  | succ fuel ih =>
    rw [preorder]
    cases final : state.isFinal with
    | true => exact .ok ⟨[], rfl, iff_of_true rfl (not_selects_of_final final)⟩
    | false =>
      refine .implemented fun i _ => ?_
      cases transition : state.selectExpression with
      | select selectExpr =>
        intro e' ran
        obtain ⟨l, entered⟩ :=
          processSelectExpression_entered (fun decl e => preorder_entered fuel decl e) _ _ e' ran
        refine ⟨l ++ [.parserState state], ?_, iff_of_false (by simp) ?_⟩
        · rw [← entered, List.append_assoc]
          rfl
        · exact not_not.mpr ⟨state, selectExpr, .refl, final, transition⟩
      | path target =>
        refine .implemented fun decl found => ?_
        have found : base.findDecl e.namespaces target = some decl := found
        rw [selects_path_iff final transition found]
        split
        · exact .error _
        · exact ih decl _

theorem interpret_namespaces (fuel : Nat) (decl : ParserDeclaration ε π δ) {start : ParserState ε}
    (found : decl.parser.findDecl "start" = some start) (e : ScopedExecution ε) :
    Ensures (fun e' => e'.namespaces = e.namespaces ↔
        ¬Selects base (.parser decl.parser :: e.namespaces) start)
      (interpret base externs false fuel decl e) := by
  rw [interpret, if_neg Bool.false_ne_true]
  refine .bind (forEach_namespaces _ _) fun e₁ copied => ?_
  refine .implemented fun i _ => .bind (forEach_namespaces _ _) fun e₂ declared => ?_
  refine .implemented fun start' found' => ?_
  obtain rfl := Option.some.inj (found.symm.trans found')
  refine .bind (preorder_namespaces fuel start _) fun e₃ ⟨l, visited, left⟩ => ?_
  refine .bind (forEach_namespaces _ _) fun e₄ copiedOut => .ok ?_
  have outer : e₂.namespaces = .parser decl.parser :: e.namespaces := declared.trans copied
  rw [ScopedExecution.popNamespace, copiedOut, visited]
  change (l ++ e₂.namespaces).tail = _ ↔ _
  change l = [] ↔ ¬Selects base e₂.namespaces start at left
  rw [outer] at left ⊢
  exact tail_eq_iff.trans left

/-- The interpretation of a parser that comes to its end leaves the namespaces as they were exactly
where parsers are skipped or no select expression is reached from the start state by path expressions
alone. -/
theorem interpret_restores_iff (base : ParserBase ε π δ)
    (externs : ε → Interpretation → Option Interpretation) (skipParsers : Bool) (fuel : Nat)
    (decl : ParserDeclaration ε π δ) {start : ParserState ε}
    (found : decl.parser.findDecl "start" = some start) {e e' : ScopedExecution ε}
    (ran : interpret base externs skipParsers fuel decl e = .ok e') :
    e'.namespaces = e.namespaces ↔
      skipParsers = true ∨ ¬Selects base (.parser decl.parser :: e.namespaces) start := by
  cases skipParsers with
  | true => exact iff_of_true (forEach_namespaces _ e e' ran) (.inl rfl)
  | false => simpa using interpret_namespaces fuel decl found e e' ran

end Restores

/-! ### The interpreter without namespaces -/

/-- Names of states are resolved in the parser, whatever has been entered within it. -/
def Transparent (base : ParserBase ε π δ) (p : P4Parser ε) : Prop :=
  ∀ namespaces name, .parser p ∈ namespaces → base.findDecl namespaces name = p.findDecl name

section Erases

variable {α β α' β' γ : Type} {erase : α → β} {erase' : α' → β'} {r : Except ParserFailure α}
  {r' : Except ParserFailure β} {f : α → Except ParserFailure α'} {f' : β → Except ParserFailure β'}

/-- Both fail alike, or return the same but for what is erased. -/
def Erases (erase : α → β) (r : Except ParserFailure α) (r' : Except ParserFailure β) : Prop :=
  r.map erase = r'

theorem Erases.bind (h : Erases erase r r') (next : ∀ a, Erases erase' (f a) (f' (erase a))) :
    Erases erase' (r >>= f) (r' >>= f') := by
  obtain rfl := h
  cases r with
  | error failure => rfl
  | ok a => exact next a

theorem Erases.implemented {o : Option γ} {f : γ → Except ParserFailure α}
    {f' : γ → Except ParserFailure β} (next : ∀ a, Erases erase (f a) (f' a)) :
    Erases erase (Flay.implemented o >>= f) (Flay.implemented o >>= f') := by
  cases o with
  | none => rfl
  | some a => exact next a

theorem Erases.unless {failure : ParserFailure} {visited visited' : Bool} (same : visited = visited')
    (h : Erases erase r r') :
    Erases erase
      (do
        if visited then .error failure
        r)
      (do
        if visited' then .error failure
        r') := by
  obtain rfl := same
  cases visited with
  | true => rfl
  | false => exact h

end Erases

section Refinement

variable [GenEq] {p : P4Parser ε}
  {step : ParserState ε → ScopedExecution ε → Except ParserFailure (ScopedExecution ε)}
  {step' : ParserState ε → ParserExecution → Except ParserFailure ParserExecution}

theorem selectCases_erases (transparent : Transparent base p)
    (steps : ∀ decl e, .parser p ∈ e.namespaces →
      Erases ScopedExecution.execution (step decl e) (step' decl e.execution))
    {types : List Ty} {selectKeyExpr : Components Expr types} (l : List (SelectCase types))
    (notCond : Option (Expr .boolean)) (e : ScopedExecution ε) (inside : .parser p ∈ e.namespaces) :
    Erases (fun r => (r.1.execution, r.2)) (selectCases base step selectKeyExpr l notCond e)
      (ParserStepper.selectCases p step' selectKeyExpr l notCond e.execution) := by
  induction l generalizing notCond e with
  | nil => rfl
  | cons c l ih =>
    obtain ⟨keyset, state⟩ := c
    have resolved := transparent e.namespaces state inside
    cases keyset with
    | default =>
      rw [selectCases, ParserStepper.selectCases, resolved]
      exact .implemented fun decl => .bind (steps decl e inside) fun a => rfl
    | valueSet set | components l' =>
      simp only [selectCases, ParserStepper.selectCases, resolved]
      refine .implemented fun decl => .unless rfl ?_
      refine .implemented fun matched => .bind (steps decl _ inside) fun a => ?_
      exact .bind (ih _ _ inside) fun r => rfl

theorem processSelectExpression_erases (transparent : Transparent base p)
    (steps : ∀ decl e, .parser p ∈ e.namespaces →
      Erases ScopedExecution.execution (step decl e) (step' decl e.execution))
    (selectExpr : SelectExpression) (e : ScopedExecution ε) (inside : .parser p ∈ e.namespaces) :
    Erases ScopedExecution.execution (processSelectExpression base step selectExpr e)
      (ParserStepper.processSelectExpression p step' selectExpr e.execution) :=
  .implemented fun resolved =>
    .bind (selectCases_erases transparent steps _ _ (e.resume resolved.2) inside) fun _ => rfl

/-- Where names of states are resolved in the parser, the namespaces change nothing else. -/
theorem preorder_erases (transparent : Transparent base p) (fuel : Nat) (state : ParserState ε)
    (e : ScopedExecution ε) (inside : .parser p ∈ e.namespaces) :
    Erases ScopedExecution.execution (preorder base externs fuel state e)
      (ParserStepper.preorder p externs fuel state e.execution) := by
  induction fuel generalizing state e with
  | zero => rfl
  | succ fuel ih =>
    rw [preorder, ParserStepper.preorder]
    cases state.isFinal with
    | true => rfl
    | false =>
      refine .implemented fun i => ?_
      cases state.selectExpression with
      | select selectExpr =>
        exact processSelectExpression_erases transparent (fun decl e => ih decl e) selectExpr _
          (List.mem_cons_of_mem _ inside)
      | path target =>
        have resolved : base.findDecl
            ((e.pushNamespace (.parserState state)).resume i).popNamespace.namespaces target =
              p.findDecl target := transparent e.namespaces target inside
        dsimp only
        rw [resolved]
        refine .implemented fun decl => ?_
        exact .unless rfl (ih decl _ inside)

/-- Where names of states are resolved in the parser, the visit of a state in the namespaces that have
been entered simulates the runs from the state. -/
theorem preorder_follows [GenEq.Lawful] {vars : List StateVariable}
    {effect : Valuation → ExternEffect ε} (transparent : Transparent base p)
    (follow : ExternsFollow vars externs effect) (supported : SupportedParser vars p)
    (distinct : p.DistinctIds) {rank : String → Nat}
    (descends : ∀ a b, p.Edge a b → rank b < rank a) (fuel : Nat) {name : String}
    {state : ParserState ε} (found : p.findDecl name = some state) (bound : rank name < fuel)
    (e : ScopedExecution ε) (inside : .parser p ∈ e.namespaces)
    (unvisited : Unvisited p e.execution.visitedParserIds name)
    (defined : vars ⊆ e.execution.interpretation.state.env.keys) :
    ∃ e', preorder base externs fuel state e = .ok e' ∧
      Follows vars e.execution.interpretation.state e'.execution.interpretation.state fun ρ w =>
        p.run (effect ρ) ρ fuel state w := by
  obtain ⟨left, ran, follows⟩ := ParserStepper.preorder_follows follow supported distinct descends
    fuel found bound unvisited e.execution.interpretation defined
  have erased : (preorder base externs fuel state e).map ScopedExecution.execution = .ok left :=
    (preorder_erases transparent fuel state e inside).trans ran
  cases visited : preorder base externs fuel state e with
  | error failure =>
    rw [visited] at erased
    cases erased
  | ok e' =>
    rw [visited] at erased
    obtain rfl := Except.ok.inj erased
    exact ⟨e', rfl, follows⟩

end Refinement

section Examples

attribute [local instance] genEq

/-- Names of states are resolved in the innermost parser. -/
def findInnermost : List (Namespace Unit) → String → Option (ParserState Unit)
  | .parser p :: _, name => p.findDecl name
  | _ :: namespaces, name => findInnermost namespaces name
  | [], _ => none

/-- Parameters and local variables that nothing is done for. -/
def emptyBase : ParserBase Unit Empty Empty where
  findDecl := findInnermost
  copyIn _ _ param := param.elim
  copyOut _ _ param := param.elim
  assignStructLike _ _ param := param.elim
  declareVariable _ _ decl := decl.elim
  initializeParserState _ i := some i

/-- One state leads to the end of the parser. -/
def directParser : P4Parser Unit where
  states := [parserState "start" 1 [.externCall ()] "accept", parserState "accept" 2 [] "accept"]

def outerExecution : ScopedExecution Unit := ⟨⟨fieldState, []⟩, [.other "program"]⟩

theorem interpret_directParser :
    ∃ e', interpret emptyBase extractField false 2 ⟨directParser, [], []⟩ outerExecution = .ok e' ∧
      e'.namespaces = outerExecution.namespaces := by
  refine ⟨_, rfl, (interpret_restores_iff emptyBase extractField false 2 ⟨directParser, [], []⟩ rfl
    (e := outerExecution) rfl).mpr (.inr ?_)⟩
  rw [selects_path_iff rfl rfl rfl]
  exact not_selects_of_final rfl

/-- The namespace of the start state stays on the stack after its select expression, and the one of the
parser is left in its place. -/
theorem interpret_fieldParser :
    ∃ e', interpret emptyBase extractField false 4 ⟨fieldParser, [], []⟩ outerExecution = .ok e' ∧
      e'.namespaces ≠ outerExecution.namespaces := by
  refine ⟨_, rfl, fun same => ?_⟩
  exact absurd (congrArg List.length same) (by decide)

end Examples

end ParserStepper.Scoped

end Flay
