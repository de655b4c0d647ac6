import Flay.Interpreter.ParserStepper

/-! The symbolic execution of a parser without cycles simulates its runs. -/

namespace Flay

namespace Components

variable {F G H : Ty → Type}

theorem all₂_map (f : {t : Ty} → F t → G t) (test : {t : Ty} → G t → H t → Bool)
    {types : List Ty} (l : Components F types) (l' : Components H types) :
    (l.map f).all₂ test l' = l.all₂ (fun a b => test (f a) b) l' := by
  induction l with
  | nil =>
    cases l'
    rfl
  | cons head tail ih =>
    cases l' with
    | cons head' tail' => simp only [map, all₂, ih]

theorem Forall.mono {P Q : {t : Ty} → F t → Prop} {types : List Ty} {l : Components F types}
    (h : l.Forall P) (implies : ∀ {t : Ty} (a : F t), P a → Q a) : l.Forall Q := by
  induction l with
  | nil => trivial
  | cons head tail ih => exact ⟨implies head h.1, ih h.2⟩

end Components

/-- The variables that a component of a keyset reads. -/
def KeysetComponent.reads : {t : Ty} → KeysetComponent (ProgramExpr Empty) t → List StateVariable
  | _, .expression e => e.reads
  | _, .mask left right => left.reads ++ right.reads
  | _, .range left right => left.reads ++ right.reads
  | _, .default => []

/-- A keyset reads variables of the list only. -/
def Keyset.Closed {types : List Ty} (vars : List StateVariable) : Keyset types → Prop
  | .components l => l.Forall fun keyset => keyset.reads ⊆ vars
  | _ => True

namespace ParserStepper

section Expressions

variable {vars : List StateVariable} {F G H : Ty → Type}

/-- The resolution of a component succeeds, and the result has the value of the component. -/
def Resolves (vars : List StateVariable)
    (resolve : {t : Ty} → F t → Interpretation → Option (G t × Interpretation))
    (symbolic : Valuation → {t : Ty} → G t → H t) (concrete : World → {t : Ty} → F t → H t)
    {t : Ty} (a : F t) : Prop :=
  ∀ i, vars ⊆ i.state.env.keys → ∃ r i', resolve a i = some (r, i') ∧ i.Unchanged i' ∧
    ∀ ρ w, Simulates ρ vars i.state w → symbolic ρ r = concrete w a

theorem resolveComponents_unchanged
    {resolve : {t : Ty} → F t → Interpretation → Option (G t × Interpretation)}
    {symbolic : Valuation → {t : Ty} → G t → H t} {concrete : World → {t : Ty} → F t → H t}
    {types : List Ty} (l : Components F types)
    (resolves : l.Forall fun a => Resolves vars resolve symbolic concrete a) (i : Interpretation)
    (defined : vars ⊆ i.state.env.keys) :
    ∃ r i', resolveComponents resolve l i = some (r, i') ∧ i.Unchanged i' ∧
      ∀ ρ w, Simulates ρ vars i.state w → r.map (symbolic ρ) = l.map (concrete w) := by
  induction l generalizing i with
  | nil => exact ⟨.nil, i, rfl, .refl i, fun _ _ _ => rfl⟩
  | cons head tail ih =>
    obtain ⟨r, j, resolved, unchanged, value⟩ := resolves.1 i defined
    obtain ⟨rs, k, resolved', unchanged', values⟩ :=
      ih resolves.2 j fun x mem => unchanged.mem_keys.mpr (defined mem)
    refine ⟨.cons r rs, k, by simp [resolveComponents, resolved, resolved'],
      unchanged.trans unchanged', fun ρ w simulates => ?_⟩
    rw [Components.map, Components.map, value ρ w simulates,
      values ρ w (unchanged.of_simulates simulates)]

theorem resolveExpression_resolves {t : Ty} (e : ProgramExpr Empty t) (closed : e.reads ⊆ vars) :
    Resolves vars resolveExpression (fun ρ => Expr.eval ρ) ProgramExpr.value e :=
  computeResult_none e closed

/-- Two expressions are resolved one after the other. -/
theorem resolveExpression_pair {t : Ty} (left right : ProgramExpr Empty t)
    (closed : left.reads ++ right.reads ⊆ vars) (i : Interpretation)
    (defined : vars ⊆ i.state.env.keys) :
    ∃ l j r k, resolveExpression left i = some (l, j) ∧ resolveExpression right j = some (r, k) ∧
      i.Unchanged k ∧ ∀ ρ w, Simulates ρ vars i.state w →
        l.eval ρ = left.value w ∧ r.eval ρ = right.value w := by
  obtain ⟨leftReads, rightReads⟩ := List.append_subset.mp closed
  obtain ⟨l, j, resolved, unchanged, value⟩ := resolveExpression_resolves left leftReads i defined
  obtain ⟨r, k, resolved', unchanged', value'⟩ := resolveExpression_resolves right rightReads j
    fun x mem => unchanged.mem_keys.mpr (defined mem)
  refine ⟨l, j, r, k, resolved, resolved', unchanged.trans unchanged', fun ρ w simulates => ?_⟩
  exact ⟨value ρ w simulates, value' ρ w (unchanged.of_simulates simulates)⟩

theorem resolveKeyset_resolves {t : Ty} (keyset : KeysetComponent (ProgramExpr Empty) t)
    (closed : keyset.reads ⊆ vars) :
    Resolves (F := KeysetComponent (ProgramExpr Empty)) (G := KeysetComponent Expr)
      (H := KeysetComponent Ty.Val) vars resolveKeyset
      (fun ρ {_} keyset => keyset.map (Expr.eval ρ))
      (fun w {_} keyset => keyset.map (ProgramExpr.value w)) keyset := by
  intro i defined
  cases keyset with
  | expression e =>
    obtain ⟨r, j, resolved, unchanged, value⟩ := resolveExpression_resolves e closed i defined
    refine ⟨.expression r, j, by simp [resolveKeyset, resolved], unchanged, fun ρ w h => ?_⟩
    simp [KeysetComponent.map, value ρ w h]
  | mask left right =>
    obtain ⟨l, j, r, k, resolved, resolved', unchanged, values⟩ :=
      resolveExpression_pair left right closed i defined
    refine ⟨.mask l r, k, by simp [resolveKeyset, resolved, resolved'], unchanged, fun ρ w h => ?_⟩
    simp [KeysetComponent.map, values ρ w h]
  | range left right =>
    obtain ⟨l, j, r, k, resolved, resolved', unchanged, values⟩ :=
      resolveExpression_pair left right closed i defined
    refine ⟨.range l r, k, by simp [resolveKeyset, resolved, resolved'], unchanged, fun ρ w h => ?_⟩
    simp [KeysetComponent.map, values ρ w h]
  | default => exact ⟨.default, i, rfl, .refl i, fun _ _ _ => rfl⟩

end Expressions

section Keysets

variable {vars : List StateVariable} [GenEq] [GenEq.Lawful] {types : List Ty}

/-- The equation with a value set. -/
theorem eval_equate_valueSet (set : P4ValueSet types) (key : Components Expr types) (ρ : Valuation) :
    (GenEq.equate key (set.labels.map fun {t} label => .expression (.var label t))).eval ρ =
      set.labels.all₂ (fun {t} label v => decide (v = ρ ⟨label, t⟩)) (key.map (Expr.eval ρ)) := by
  rw [GenEq.Lawful.eval_equate, Components.all₂_map]
  simp [KeysetComponent.map, KeysetComponent.accepts]

/-- The condition of a case is true where the keyset accepts the values of the select expression. -/
theorem exists_matchCond {keyset : Keyset types} (named : keyset.isDefault = false)
    (closed : keyset.Closed vars) (selectKeyExpr : Components Expr types) {i : Interpretation}
    (defined : vars ⊆ i.state.env.keys) :
    ∃ cond i', matchCond selectKeyExpr keyset i = some (cond, i') ∧ i.Unchanged i' ∧
      ∀ ρ w, Simulates ρ vars i.state w →
        cond.eval ρ = keyset.accepts ρ w (selectKeyExpr.map (Expr.eval ρ)) := by
  cases keyset with
  | default => cases named
  | valueSet set =>
    refine ⟨_, i, rfl, .refl i, fun ρ w _ => ?_⟩
    rw [Expr.eval_lAnd, eval_equate_valueSet]
    simp [Keyset.accepts]
  | components l =>
    have resolves := Components.Forall.mono (l := l) closed fun keyset => resolveKeyset_resolves keyset
    obtain ⟨r, i', resolved, unchanged, values⟩ :=
      resolveComponents_unchanged l resolves i defined
    refine ⟨GenEq.equate selectKeyExpr r, i', by simp [matchCond, resolved], unchanged, ?_⟩
    intro ρ w simulates
    have same := values ρ w simulates
    rw [GenEq.Lawful.eval_equate, Keyset.accepts]
    have resolvedAccepts := Components.all₂_map
      (fun {t} (keyset : KeysetComponent Expr t) => keyset.map (Expr.eval ρ))
      (fun keyset v => keyset.accepts v) r (selectKeyExpr.map (Expr.eval ρ))
    have programAccepts := Components.all₂_map
      (fun {t} (keyset : KeysetComponent (ProgramExpr Empty) t) =>
        keyset.map (ProgramExpr.value w))
      (fun keyset v => keyset.accepts v) l (selectKeyExpr.map (Expr.eval ρ))
    rw [← resolvedAccepts, same, programAccepts]

end Keysets

end ParserStepper

/-- What the interpreter does from one state to another simulates runs that depend on the
valuation. -/
structure Follows (vars : List StateVariable) (s s' : ExecutionState)
    (run : Valuation → World → Option World) : Prop where
  keys : s.env.keys ⊆ s'.env.keys
  condition : s'.executionCondition = s.executionCondition
  values : ∀ ρ w, s.Holds ρ → Simulates ρ vars s w →
    ∃ w', run ρ w = some w' ∧ Simulates ρ vars s' w'

namespace Follows

variable {vars : List StateVariable} {s s' s'' : ExecutionState}
  {run run' : Valuation → World → Option World}

theorem of_simulation {f : World → World} (h : Simulation vars s s' f) :
    Follows vars s s' fun _ w => some (f w) where
  keys := h.keys
  condition := h.condition
  values := fun ρ w holds simulates => ⟨f w, rfl, h.values ρ w holds simulates⟩

theorem trans (h : Follows vars s s' run) (h' : Follows vars s' s'' run') :
    Follows vars s s'' fun ρ w => (run ρ w).bind (run' ρ) where
  keys := List.Subset.trans h.keys h'.keys
  condition := h'.condition.trans h.condition
  values := by
    intro ρ w holds simulates
    obtain ⟨w₁, ran, simulates₁⟩ := h.values ρ w holds simulates
    have holds₁ := (ExecutionState.holds_congr h.condition).mpr holds
    obtain ⟨w₂, ran', simulates₂⟩ := h'.values ρ w₁ holds₁ simulates₁
    exact ⟨w₂, by rw [ran, Option.bind_some, ran'], simulates₂⟩

end Follows

namespace ParserStepper

variable {ε : Type} {vars : List StateVariable}

/-- The interpreter has a rule for each extern, which simulates its effect. -/
def ExternsFollow (vars : List StateVariable) (externs : ε → Interpretation → Option Interpretation)
    (effect : Valuation → ExternEffect ε) : Prop :=
  ∀ call i, vars ⊆ i.state.env.keys → ∃ i', externs call i = some i' ∧
    Follows vars i.state i'.state fun ρ w => some (effect ρ call w)

/-- A statement among the components of a state is one that the interpreter supports. -/
def Supported (vars : List StateVariable) : ParserComponent ε → Prop
  | .statement s => s.Supported vars
  | .externCall _ => True

section Components

variable {externs : ε → Interpretation → Option Interpretation} {effect : Valuation → ExternEffect ε}

theorem component_follows (follow : ExternsFollow vars externs effect) (c : ParserComponent ε)
    (supported : Supported vars c) (i : Interpretation) (defined : vars ⊆ i.state.env.keys) :
    ∃ i', component externs c i = some i' ∧
      Follows vars i.state i'.state fun ρ w => some (c.exec (effect ρ) w) := by
  cases c with
  | statement s =>
    obtain ⟨i', ran, steps⟩ := statement_steps s supported i defined
    exact ⟨i', ran, .of_simulation steps.simulation⟩
  | externCall call => exact follow call i defined

theorem components_follow (follow : ExternsFollow vars externs effect) (l : List (ParserComponent ε))
    (supported : ∀ c ∈ l, Supported vars c) (i : Interpretation)
    (defined : vars ⊆ i.state.env.keys) :
    ∃ i', components externs l i = some i' ∧ Follows vars i.state i'.state
      fun ρ w => some (l.foldl (fun w c => c.exec (effect ρ) w) w) := by
  induction l generalizing i with
  | nil =>
    exact ⟨i, rfl, List.Subset.refl _, rfl, fun _ w _ simulates => ⟨w, rfl, simulates⟩⟩
  | cons c l ih =>
    obtain ⟨j, ran, follows⟩ :=
      component_follows follow c (supported c List.mem_cons_self) i defined
    obtain ⟨i', ran', follows'⟩ := ih (fun d mem => supported d (List.mem_cons_of_mem _ mem)) j
      (List.Subset.trans defined follows.keys)
    exact ⟨i', by simp [components, ran, ran'], follows.trans follows'⟩

end Components

section Cases

variable {p : P4Parser ε}
  {step : ParserState ε → ParserExecution → Except ParserFailure ParserExecution}
  {go : Valuation → String → World → Option World} {types : List Ty}

/-- The visit of a state by an execution with the given ids succeeds and simulates runs from there. -/
def Arrives (vars : List StateVariable)
    (step : ParserState ε → ParserExecution → Except ParserFailure ParserExecution)
    (go : Valuation → String → World → Option World) (visitedParserIds : List Int)
    (decl : ParserState ε) : Prop :=
  ∀ i : Interpretation, vars ⊆ i.state.env.keys →
    ∃ e, step decl ⟨i, visitedParserIds⟩ = .ok e ∧
      Follows vars i.state e.interpretation.state fun ρ w => go ρ decl.name w

/-- A case leads to a state that is visited in place if it is the default case, and else by a clone,
for which the state is a new one. -/
structure Leads (p : P4Parser ε) (vars : List StateVariable)
    (step : ParserState ε → ParserExecution → Except ParserFailure ParserExecution)
    (go : Valuation → String → World → Option World) (visitedParserIds : List Int)
    (c : SelectCase types) (decl : ParserState ε) : Prop where
  found : p.findDecl c.state = some decl
  inPlace : c.keyset.isDefault = true → Arrives vars step go visitedParserIds decl
  unvisited : c.keyset.isDefault = false → decl.cloneId ∉ visitedParserIds
  cloned : c.keyset.isDefault = false →
    Arrives vars step go (decl.cloneId :: visitedParserIds) decl

/-- The run from the case that matches, or else none. -/
def goMatch (go : Valuation → String → World → Option World) (ρ : Valuation) (w : World)
    (target : Option String) : Option World :=
  target.elim (some w) fun target => go ρ target w

/-- Whether the conditions that no case before matches hold. -/
def unmatched (ρ : Valuation) (notCond : Option (Expr .boolean)) : Bool :=
  notCond.elim true (Expr.eval ρ)

theorem eval_caseCond (ρ : Valuation) (notCond : Option (Expr .boolean)) (cond : Expr .boolean) :
    (caseCond notCond cond).eval ρ = (unmatched ρ notCond && cond.eval ρ) := by
  cases notCond <;> simp [caseCond, unmatched]

theorem name_of_findDecl {name : String} {decl : ParserState ε} (found : p.findDecl name = some decl) :
    decl.name = name := by
  have named := List.find?_some found
  simpa using named

/-- What the loop over cases leaves of a state: the state after it and the states of the cases. Where
no case before matches, merging these into a state that has the values of the one left gives the
values of the run from the case that matches. Where one does, merging them changes nothing. -/
structure LoopFollows (vars : List StateVariable)
    (go : Valuation → String → World → Option World) (values : World → Components Ty.Val types)
    (cases : List (SelectCase types)) (notCond : Option (Expr .boolean)) (s left : ExecutionState)
    (states : List ExecutionState) : Prop where
  keys : s.env.keys ⊆ left.env.keys
  condition : left.executionCondition = s.executionCondition
  skipped : ∀ ρ w, s.Holds ρ → Simulates ρ vars s w → unmatched ρ notCond = false →
    ∀ d w', Simulates ρ vars d w' → Simulates ρ vars (states.foldl ExecutionState.merge d) w'
  merged : ∀ ρ w, s.Holds ρ → Simulates ρ vars s w → unmatched ρ notCond = true →
    ∀ d, vars ⊆ d.env.keys → (∀ w', Simulates ρ vars left w' → Simulates ρ vars d w') →
      ∃ w', goMatch go ρ w (firstMatch ρ w (values w) cases) = some w' ∧
        Simulates ρ vars (states.foldl ExecutionState.merge d) w'

namespace LoopFollows

variable {values : World → Components Ty.Val types} {cases : List (SelectCase types)}
  {c : SelectCase types} {notCond : Option (Expr .boolean)} {cond : Expr .boolean}
  {s left a : ExecutionState} {states : List ExecutionState}

theorem nil (s : ExecutionState) :
    LoopFollows vars go values ([] : List (SelectCase types)) notCond s s [] where
  keys := List.Subset.refl _
  condition := rfl
  skipped _ _ _ _ _ _ _ h := h
  merged _ w _ simulates _ _ _ stays := ⟨w, rfl, stays w simulates⟩

/-- The default case goes on in place and ends the loop. -/
theorem defaultCase (kind : c.keyset.isDefault = true)
    (follows : Follows vars s left fun ρ w => go ρ c.state w) :
    LoopFollows vars go values (c :: cases) notCond s left [] where
  keys := follows.keys
  condition := follows.condition
  skipped _ _ _ _ _ _ _ h := h
  merged := by
    intro ρ w holds simulates _ d _ stays
    obtain ⟨w', ran, simulates'⟩ := follows.values ρ w holds simulates
    obtain ⟨keyset, state⟩ := c
    cases keyset with
    | valueSet set => cases kind
    | components l => cases kind
    | default => exact ⟨w', ran, stays w' simulates'⟩

theorem of_unchanged {i j : Interpretation} (unchanged : i.Unchanged j)
    (h : LoopFollows vars go values cases notCond j.state left states) :
    LoopFollows vars go values cases notCond i.state left states where
  keys _ mem := h.keys (unchanged.mem_keys.mpr mem)
  condition := h.condition.trans unchanged.condition
  skipped ρ w holds simulates :=
    h.skipped ρ w (unchanged.holds.mpr holds) (unchanged.of_simulates simulates)
  merged ρ w holds simulates :=
    h.merged ρ w (unchanged.holds.mpr holds) (unchanged.of_simulates simulates)

theorem unmatched_later (ρ : Valuation) (notCond : Option (Expr .boolean)) (cond : Expr .boolean) :
    unmatched ρ (some (caseCond notCond (.lNot cond))) = (unmatched ρ notCond && !cond.eval ρ) :=
  (eval_caseCond ρ notCond _).trans (by rw [Expr.eval_lNot])

/-- The clone for a case is on its path where no case before matches and this one does. -/
theorem holds_clone {ρ : Valuation} (holds : s.Holds ρ)
    (condition : a.executionCondition =
      (s.pushExecutionCondition (caseCond notCond cond)).executionCondition) :
    a.Holds ρ ↔ unmatched ρ notCond = true ∧ cond.eval ρ = true := by
  rw [ExecutionState.holds_congr condition]
  refine ExecutionState.holds_push.trans ((and_iff_right holds).trans ?_)
  rw [eval_caseCond, Bool.and_eq_true]

/-- A case other than the default one, ahead of the rest of the loop. -/
theorem cons (defined : vars ⊆ s.env.keys)
    (accepts : ∀ ρ w, Simulates ρ vars s w → cond.eval ρ = c.keyset.accepts ρ w (values w))
    (follows : Follows vars (s.pushExecutionCondition (caseCond notCond cond)) a
      fun ρ w => go ρ c.state w)
    (loop : LoopFollows vars go values cases (some (caseCond notCond (.lNot cond))) s left states) :
    LoopFollows vars go values (c :: cases) notCond s left (a :: states) where
  keys := loop.keys
  condition := loop.condition
  skipped := by
    intro ρ w holds simulates matchedBefore d w' h
    have fails : ¬a.Holds ρ := by
      rw [holds_clone holds follows.condition, matchedBefore]
      exact fun path => Bool.false_ne_true path.1
    refine loop.skipped ρ w holds simulates ?_ _ w' ?_
    · rw [unmatched_later, matchedBefore, Bool.false_and]
    · exact h.merge_of_false (List.Subset.trans defined follows.keys) (Bool.eq_false_iff.mpr fails)
  merged := by
    intro ρ w holds simulates open' d definedD stays
    have path := holds_clone holds follows.condition
    rw [firstMatch, ← accepts ρ w simulates]
    cases accepted : cond.eval ρ with
    | true =>
      have taken : a.Holds ρ := path.mpr ⟨open', accepted⟩
      have pushed := (ExecutionState.holds_congr follows.condition).mp taken
      obtain ⟨w', went, simulates'⟩ := follows.values ρ w pushed simulates
      refine ⟨w', by rwa [if_pos rfl], ?_⟩
      refine loop.skipped ρ w holds simulates ?_ _ w' (simulates'.merge_of_true definedD taken)
      rw [unmatched_later, accepted, Bool.not_true, Bool.and_false]
    | false =>
      have fails : ¬a.Holds ρ := by
        rw [path, accepted]
        exact fun path => Bool.false_ne_true path.2
      rw [if_neg Bool.false_ne_true]
      refine loop.merged ρ w holds simulates ?_ _ ?_ fun w' h => ?_
      · rw [unmatched_later, accepted, open']
        rfl
      · rw [ExecutionState.keys_merge]
        exact definedD
      · exact (stays w' h).merge_of_false (List.Subset.trans defined follows.keys)
          (Bool.eq_false_iff.mpr fails)

end LoopFollows

variable [GenEq]

/-- What the loop does for a case other than the default one. -/
theorem selectCases_cons {selectKeyExpr : Components Expr types} {c : SelectCase types}
    {cases : List (SelectCase types)} {notCond : Option (Expr .boolean)} {i j : Interpretation}
    {visited : List Int} {cond : Expr .boolean} {decl : ParserState ε} {a e : ParserExecution}
    {states : List ExecutionState} (named : c.keyset.isDefault = false)
    (found : p.findDecl c.state = some decl) (unvisited : decl.cloneId ∉ visited)
    (resolved : matchCond selectKeyExpr c.keyset i = some (cond, j))
    (stepped : step decl ⟨j.resume (j.state.pushExecutionCondition (caseCond notCond cond)),
      decl.cloneId :: visited⟩ = .ok a)
    (rest : selectCases p step selectKeyExpr cases (some (caseCond notCond (.lNot cond)))
      ⟨a.interpretation.resume j.state, visited⟩ = .ok (e, states)) :
    selectCases p step selectKeyExpr (c :: cases) notCond ⟨i, visited⟩ =
      .ok (e, a.interpretation.state :: states) := by
  obtain ⟨keyset, state⟩ := c
  have fresh : ParserExecution.hasVisitedParserId ⟨i, visited⟩ decl.cloneId = false :=
    decide_eq_false unvisited
  have entered : ParserExecution.addParserId
      ⟨j.resume (j.state.pushExecutionCondition (caseCond notCond cond)), visited⟩ decl.cloneId =
        ⟨j.resume (j.state.pushExecutionCondition (caseCond notCond cond)),
          decl.cloneId :: visited⟩ := rfl
  cases keyset with
  | default => cases named
  | valueSet set | components l =>
    simp only [selectCases, implemented, found, resolved, fresh, bind, Except.bind,
      if_neg Bool.false_ne_true, entered, stepped, rest]

variable [GenEq.Lawful]

/-- The loop over the cases succeeds, and follows the run from the case that matches. -/
theorem selectCases_follows {selectKeyExpr : Components Expr types}
    {values : World → Components Ty.Val types} {visited : List Int} (cases : List (SelectCase types))
    (leads : ∀ c ∈ cases, ∃ decl, Leads p vars step go visited c decl)
    (closed : ∀ c ∈ cases, c.keyset.Closed vars) (notCond : Option (Expr .boolean))
    (i : Interpretation) (defined : vars ⊆ i.state.env.keys)
    (evaluated : ∀ ρ w, Simulates ρ vars i.state w →
      selectKeyExpr.map (Expr.eval ρ) = values w) :
    ∃ e states, selectCases p step selectKeyExpr cases notCond ⟨i, visited⟩ = .ok (e, states) ∧
      LoopFollows vars go values cases notCond i.state e.interpretation.state states := by
  induction cases generalizing notCond i with
  | nil => exact ⟨⟨i, visited⟩, [], rfl, .nil i.state⟩
  | cons c cases ih =>
    obtain ⟨decl, lead⟩ := leads c List.mem_cons_self
    have named := name_of_findDecl lead.found
    cases kind : c.keyset.isDefault with
    | true =>
      obtain ⟨e, stepped, follows⟩ := lead.inPlace kind i defined
      rw [named] at follows
      refine ⟨e, [], ?_, .defaultCase kind follows⟩
      obtain ⟨keyset, state⟩ := c
      cases keyset with
      | valueSet set => cases kind
      | components l => cases kind
      | default => simp only [selectCases, implemented, lead.found, bind, Except.bind, stepped]
    | false =>
      obtain ⟨cond, j, resolved, unchanged, accepts⟩ :=
        exists_matchCond kind (closed c List.mem_cons_self) selectKeyExpr defined
      have definedJ : vars ⊆ j.state.env.keys := fun x mem => unchanged.mem_keys.mpr (defined mem)
      have before : ∀ {ρ w}, Simulates ρ vars j.state w → Simulates ρ vars i.state w :=
        fun h => h.of_value fun x _ => by
          rw [ExecutionState.value, ExecutionState.value, unchanged.find x]
      obtain ⟨a, stepped, follows⟩ := lead.cloned kind
        (j.resume (j.state.pushExecutionCondition (caseCond notCond cond))) definedJ
      rw [named] at follows
      obtain ⟨e, states, ran, loop⟩ :=
        ih (fun c mem => leads c (List.mem_cons_of_mem _ mem))
          (fun c mem => closed c (List.mem_cons_of_mem _ mem))
          (some (caseCond notCond (.lNot cond))) (a.interpretation.resume j.state) definedJ
          fun ρ w h => evaluated ρ w (before h)
      have value : ∀ ρ w, Simulates ρ vars j.state w →
          cond.eval ρ = c.keyset.accepts ρ w (values w) := by
        intro ρ w h
        rw [accepts ρ w (before h), evaluated ρ w (before h)]
      exact ⟨e, a.interpretation.state :: states,
        selectCases_cons kind lead.found (lead.unvisited kind) resolved stepped ran,
        .of_unchanged unchanged (.cons definedJ value follows loop)⟩

/-- A select expression reads variables of the list only. -/
def Closed (vars : List StateVariable) (e : SelectExpression) : Prop :=
  (e.select.Forall fun e => e.reads ⊆ vars) ∧ ∀ c ∈ e.selectCases, c.keyset.Closed vars

theorem processSelectExpression_follows {visited : List Int} {e : SelectExpression}
    (leads : ∀ c ∈ e.selectCases, ∃ decl, Leads p vars step go visited c decl)
    (closed : Closed vars e) (i : Interpretation) (defined : vars ⊆ i.state.env.keys) :
    ∃ e', processSelectExpression p step e ⟨i, visited⟩ = .ok e' ∧
      Follows vars i.state e'.interpretation.state fun ρ w => goMatch go ρ w (e.target ρ w) := by
  obtain ⟨selectKeyExpr, j, resolved, unchanged, values⟩ := resolveComponents_unchanged e.select
    (closed.1.mono fun e => resolveExpression_resolves e) i defined
  have definedJ : vars ⊆ j.state.env.keys := fun x mem => unchanged.mem_keys.mpr (defined mem)
  have evaluated : ∀ ρ w, Simulates ρ vars j.state w →
      selectKeyExpr.map (Expr.eval ρ) = e.select.map (ProgramExpr.value w) := fun ρ w h =>
    values ρ w (h.of_value fun x _ => by
      rw [ExecutionState.value, ExecutionState.value, unchanged.find x])
  obtain ⟨a, states, ran, loop⟩ :=
    selectCases_follows e.selectCases leads closed.2 none j definedJ evaluated
  have follows := LoopFollows.of_unchanged unchanged loop
  refine ⟨⟨a.interpretation.resume
    (states.foldl ExecutionState.merge a.interpretation.state), a.visitedParserIds⟩, ?_, ?_, ?_,
    fun ρ w holds simulates => ?_⟩
  · simp only [processSelectExpression, resolved, implemented, bind, Except.bind, ran]
  · intro x mem
    have same := ExecutionState.keys_foldl_merge states a.interpretation.state
    exact same ▸ follows.keys mem
  · refine Eq.trans ?_ follows.condition
    exact ExecutionState.executionCondition_foldl_merge states a.interpretation.state
  · exact follows.merged ρ w holds simulates rfl a.interpretation.state
      (List.Subset.trans defined follows.keys) fun _ h => h

end Cases

section Graph

variable {p : P4Parser ε} {externs : ε → Interpretation → Option Interpretation}
  {effect : Valuation → ExternEffect ε}

/-- The states of a parser are ones that the interpreter supports: so are their components, they read
variables of the list only, and they lead to states of the parser. -/
structure SupportedParser (vars : List StateVariable) (p : P4Parser ε) : Prop where
  components : ∀ state ∈ p.states, state.isFinal = false →
    ∀ c ∈ state.components, Supported vars c
  closed : ∀ state ∈ p.states, state.isFinal = false → ∀ e, state.selectExpression = .select e →
    Closed vars e
  declared : ∀ a b, p.Edge a b → ∃ decl, p.findDecl b = some decl

/-- No state that a path from the state enters has an id that has been visited. -/
def Unvisited (p : P4Parser ε) (visited : List Int) (a : String) : Prop :=
  ∀ b, p.Reenters a b → ∀ id ∈ visited, p.cloneId b ≠ some id

theorem Unvisited.edge {visited : List Int} {a b : String} (h : Unvisited p visited a)
    (edge : p.Edge a b) : Unvisited p visited b := by
  rintro c ⟨d, path, enters⟩
  exact h c ⟨d, path.head edge, enters⟩

/-- The state that is entered is added to the visited ones. -/
theorem Unvisited.enter {visited : List Int} {a b : String} {decl : ParserState ε}
    (h : Unvisited p visited a) (distinct : p.DistinctIds) (edge : p.Edge a b) (enters : p.Enters a b)
    (found : p.findDecl b = some decl) : Unvisited p (decl.cloneId :: visited) b := by
  intro c reenters id mem
  have known : p.cloneId b = some decl.cloneId := by rw [P4Parser.cloneId, found]; rfl
  rcases List.mem_cons.mp mem with rfl | mem
  · rw [← known]
    exact (distinct b c (.inr ⟨a, enters⟩) reenters).symm
  · exact h.edge edge c reenters id mem

theorem edge_of_enters {a b : String} (h : p.Enters a b) : p.Edge a b := by
  obtain ⟨state, found, final, mem⟩ := h
  refine ⟨state, found, final, ?_⟩
  cases transition : state.selectExpression with
  | path target => rwa [transition] at mem
  | select e =>
    rw [transition] at mem
    obtain ⟨c, kept, rfl⟩ := List.mem_map.mp mem
    exact List.mem_map_of_mem (List.mem_filter.mp kept).1

theorem enters_of_path {name target : String} {state : ParserState ε}
    (found : p.findDecl name = some state) (final : state.isFinal = false)
    (transition : state.selectExpression = .path target) : p.Enters name target :=
  ⟨state, found, final, by simp [transition, Transition.entered]⟩

section SelectEdges

variable {name : String} {state : ParserState ε} {e : SelectExpression} {c : SelectCase e.types}

theorem edge_of_select (found : p.findDecl name = some state) (final : state.isFinal = false)
    (transition : state.selectExpression = .select e) (mem : c ∈ e.selectCases) :
    p.Edge name c.state := by
  refine ⟨state, found, final, ?_⟩
  rw [transition]
  exact List.mem_map_of_mem mem

theorem enters_of_select (found : p.findDecl name = some state) (final : state.isFinal = false)
    (transition : state.selectExpression = .select e) (mem : c ∈ e.selectCases)
    (kind : c.keyset.isDefault = false) : p.Enters name c.state := by
  refine ⟨state, found, final, ?_⟩
  rw [transition]
  exact List.mem_map_of_mem (List.mem_filter.mpr ⟨mem, by rw [kind]; rfl⟩)

end SelectEdges

/-- A state that is entered is a new one. -/
theorem Unvisited.new {visited : List Int} {a b : String} {decl : ParserState ε}
    (h : Unvisited p visited a) (enters : p.Enters a b) (found : p.findDecl b = some decl) :
    decl.cloneId ∉ visited := by
  refine fun mem => h b ⟨a, .refl, enters⟩ _ mem ?_
  rw [P4Parser.cloneId, found]
  rfl

/-- The run from the state of a name. -/
def runFrom (p : P4Parser ε) (effect : Valuation → ExternEffect ε) (fuel : Nat) (ρ : Valuation)
    (name : String) (w : World) : Option World :=
  (p.findDecl name).bind fun decl => p.run (effect ρ) ρ fuel decl w

theorem runFrom_of_findDecl {fuel : Nat} {name : String} {decl : ParserState ε}
    (found : p.findDecl name = some decl) :
    (fun ρ w => runFrom p effect fuel ρ name w) = fun ρ w => p.run (effect ρ) ρ fuel decl w := by
  funext ρ w
  rw [runFrom, found, Option.bind_some]

/-- Where each id is that of one state, a parser without cycles enters no id twice. -/
theorem distinctIds_of_unique (acyclic : Paths.Acyclic p.Edge)
    (unique : ∀ a b id, p.cloneId a = some id → p.cloneId b = some id → a = b) : p.DistinctIds := by
  rintro a b - ⟨c, path, enters⟩ same
  have edges : Relation.TransGen p.Edge a b := .tail' path (edge_of_enters enters)
  obtain ⟨d, edge, -⟩ := Relation.TransGen.head'_iff.mp edges
  obtain ⟨state, found, -⟩ := edge
  have known : p.cloneId a = some state.cloneId := by rw [P4Parser.cloneId, found]; rfl
  obtain rfl := unique a b state.cloneId known (same ▸ known)
  exact acyclic a edges

variable [GenEq] [GenEq.Lawful]

/-- The visit of a state simulates the runs from it, with fuel for every state on a path. -/
theorem preorder_follows (follow : ExternsFollow vars externs effect)
    (supported : SupportedParser vars p) (distinct : p.DistinctIds) {rank : String → Nat}
    (descends : ∀ a b, p.Edge a b → rank b < rank a) (fuel : Nat) {name : String}
    {state : ParserState ε} (found : p.findDecl name = some state) (bound : rank name < fuel)
    {visited : List Int} (unvisited : Unvisited p visited name) (i : Interpretation)
    (defined : vars ⊆ i.state.env.keys) :
    ∃ e, preorder p externs fuel state ⟨i, visited⟩ = .ok e ∧
      Follows vars i.state e.interpretation.state fun ρ w => p.run (effect ρ) ρ fuel state w := by
  induction fuel generalizing name state visited i with
  | zero => omega
  | succ fuel ih =>
    cases final : state.isFinal with
    | true =>
      refine ⟨⟨i, visited⟩, by rw [preorder, if_pos final], List.Subset.refl _, rfl, ?_⟩
      exact fun ρ w _ simulates => ⟨w, by rw [P4Parser.run, if_pos final], simulates⟩
    | false =>
      have mem : state ∈ p.states := List.mem_of_find?_eq_some found
      obtain ⟨j, ran, follows⟩ :=
        components_follow follow state.components (supported.components state mem final) i defined
      have definedJ : vars ⊆ j.state.env.keys := List.Subset.trans defined follows.keys
      -- A state that this one leads to is visited with less fuel.
      have arrives : ∀ b ids decl, p.Edge name b → p.findDecl b = some decl → Unvisited p ids b →
          Arrives vars (preorder p externs fuel) (runFrom p effect fuel) ids decl := by
        intro b ids decl edge foundB unvisitedB k definedK
        have lower := descends name b edge
        obtain ⟨e, stepped, followsB⟩ := ih foundB (by omega) unvisitedB k definedK
        refine ⟨e, stepped, ?_⟩
        rw [name_of_findDecl foundB, runFrom_of_findDecl foundB]
        exact followsB
      cases transition : state.selectExpression with
      | path target =>
        have enters := enters_of_path found final transition
        have edge := edge_of_enters enters
        obtain ⟨decl, foundTarget⟩ := supported.declared name target edge
        have fresh : ParserExecution.hasVisitedParserId ⟨j, visited⟩ decl.cloneId = false :=
          decide_eq_false (unvisited.new enters foundTarget)
        obtain ⟨e, stepped, followsE⟩ := arrives target (decl.cloneId :: visited) decl edge
          foundTarget (unvisited.enter distinct edge enters foundTarget) j definedJ
        refine ⟨e, ?_, ?_⟩
        · have entered : ParserExecution.addParserId ⟨j, visited⟩ decl.cloneId =
            ⟨j, decl.cloneId :: visited⟩ := rfl
          simp only [preorder, final, Bool.false_eq_true, if_false, ran, implemented, bind,
            Except.bind, transition, foundTarget, fresh, entered, stepped]
        · have run := follows.trans followsE
          rw [name_of_findDecl foundTarget] at run
          simpa only [P4Parser.run, final, Bool.false_eq_true, if_false, transition,
            Option.bind_some, runFrom] using run
      | select selectExpr =>
        have leads : ∀ c ∈ selectExpr.selectCases, ∃ decl, Leads p vars (preorder p externs fuel)
            (runFrom p effect fuel) visited c decl := by
          intro c mem
          have edge := edge_of_select found final transition mem
          have enters := enters_of_select found final transition mem
          obtain ⟨decl, foundC⟩ := supported.declared name c.state edge
          refine ⟨decl, foundC, fun _ => arrives _ _ _ edge foundC (unvisited.edge edge),
            fun kind => unvisited.new (enters kind) foundC, fun kind => ?_⟩
          exact arrives _ _ _ edge foundC (unvisited.enter distinct edge (enters kind) foundC)
        obtain ⟨e, selected, followsE⟩ := processSelectExpression_follows leads
          (supported.closed state mem final selectExpr transition) j definedJ
        refine ⟨e, ?_, ?_⟩
        · simp only [preorder, final, Bool.false_eq_true, if_false, ran, implemented, bind,
            Except.bind, transition, selected]
        · have run := follows.trans followsE
          refine ⟨run.keys, run.condition, fun ρ w holds simulates => ?_⟩
          obtain ⟨w', went, simulates'⟩ := run.values ρ w holds simulates
          refine ⟨w', ?_, simulates'⟩
          rw [Option.bind_some] at went
          simp only [P4Parser.run, final, Bool.false_eq_true, if_false, transition]
          rw [← went]
          cases selectExpr.target ρ _ <;> rfl

/-- A parser without cycles whose paths enter no two states with one id: from a state that has
visited none of them, the interpreter gets to the end of the parser, and every variable that was
there has the value that the run of the parser leaves. -/
theorem parse_simulates (follow : ExternsFollow vars externs effect)
    (supported : SupportedParser vars p) (acyclic : Paths.Acyclic p.Edge) (distinct : p.DistinctIds)
    {start : ParserState ε} (found : p.findDecl "start" = some start) (e : ParserExecution)
    (keys : e.interpretation.state.env.keys = vars)
    (fresh : ∀ name, ∀ id ∈ e.visitedParserIds, p.cloneId name ≠ some id) :
    ∃ n, ∀ fuel ≥ n, ∃ e', parse p externs fuel e = .ok e' ∧
      ∀ ρ w, e.interpretation.state.Holds ρ →
        (∀ x ∈ vars, e.interpretation.state.value ρ x = some (w.env x)) →
          ∃ w', p.run (effect ρ) ρ fuel start w = some w' ∧
            ∀ x ∈ vars, e'.interpretation.state.value ρ x = some (w'.env x) := by
  obtain ⟨rank, descends⟩ := acyclic.exists_rank (p.states.map ParserState.name).toFinset
    fun a b edge => by
      obtain ⟨state, foundA, -⟩ := edge
      rw [List.mem_toFinset, ← name_of_findDecl foundA]
      exact List.mem_map_of_mem (List.mem_of_find?_eq_some foundA)
  refine ⟨rank "start" + 1, fun fuel enough => ?_⟩
  have unvisited : Unvisited p (start.cloneId :: e.visitedParserIds) "start" := by
    intro b reenters id mem
    rcases List.mem_cons.mp mem with rfl | mem
    · have different := distinct "start" b (.inl rfl) reenters
      rw [P4Parser.cloneId, found] at different
      exact different.symm
    · exact fresh b id mem
  obtain ⟨e', ran, follows⟩ := preorder_follows follow supported distinct descends fuel found
    (by omega) unvisited e.interpretation (keys ▸ List.Subset.refl _)
  refine ⟨e', ?_, follows.values⟩
  simp only [parse, found, implemented, bind, Except.bind]
  exact ran

end Graph

end ParserStepper

section Examples

open ParserStepper

/-- The conjunction of the equations of the components. -/
def equateComponents : {types : List Ty} → Components Expr types →
    Components (KeysetComponent Expr) types → Expr .boolean
  | _, .nil, .nil => .true
  | _, .cons key keys, .cons keyset keysets =>
    .lAnd (equateComponent key keyset) (equateComponents keys keysets)
where
  equateComponent : {t : Ty} → Expr t → KeysetComponent Expr t → Expr .boolean
    | _, key, .expression e => .equ key e
    | _, key, .mask left right => .equ (.binary .bAnd key right) (.binary .bAnd left right)
    | _, key, .range left right => .lAnd (.binary .leq left key) (.binary .leq key right)
    | _, _, .default => .true

@[reducible] def genEq : GenEq := ⟨equateComponents⟩

attribute [local instance] genEq

theorem genEq_lawful : GenEq.Lawful where
  eval_equate := by
    intro types key keyset ρ
    have component : ∀ {t : Ty} (key : Expr t) (keyset : KeysetComponent Expr t),
        (equateComponents.equateComponent key keyset).eval ρ =
          (keyset.map (Expr.eval ρ)).accepts (key.eval ρ) := by
      intro t key keyset
      cases keyset <;>
        simp [equateComponents.equateComponent, KeysetComponent.map, KeysetComponent.accepts,
          BinaryOp.eval]
    change (equateComponents key keyset).eval ρ = _
    induction key with
    | nil =>
      cases keyset
      rfl
    | cons key keys ih =>
      cases keyset with
      | cons keyset keysets =>
        simp only [equateComponents, Components.all₂, Components.map, Expr.eval_lAnd, component, ih]

attribute [local instance] genEq_lawful

/-- A state whose components are `l`, which leads to another one. -/
def parserState (name : String) (cloneId : Int) (l : List (ParserComponent Unit))
    (target : String) : ParserState Unit := ⟨name, cloneId, l, .path target⟩

/-- Two select cases, one with a value set, and the path through the default case lead to one state,
which extracts the field. -/
def fieldParser : P4Parser Unit where
  states :=
    [⟨"start", 1, [], .select ⟨[.bit 8], .cons (.path 21 "field" (.bit 8)) .nil,
        [⟨.components (.cons (.expression (.lit (1 : BitVec 8))) .nil), "extract"⟩,
          ⟨.valueSet ⟨"set", .base (.bit 8)⟩, "extract"⟩, ⟨.default, "other"⟩]⟩⟩,
      parserState "other" 2 [.statement (.assignment (t := .bit 8) "field" (.lit (2 : BitVec 8)))]
        "extract",
      parserState "extract" 3 [.externCall ()] "accept",
      parserState "accept" 4 [] "accept", parserState "reject" 5 [] "reject"]

/-- The extern reads the field from the packet. -/
def extractField (_ : Unit) (i : Interpretation) : Option Interpretation :=
  some (i.resume (i.state.set ⟨"field", .bit 8⟩ (.var (.dataPlane "packet") (.bit 8))))

def extractEffect (ρ : Valuation) (_ : Unit) (w : World) : World :=
  w.set ⟨"field", .bit 8⟩ (ρ ⟨.dataPlane "packet", .bit 8⟩)

theorem extractField_follows (vars : List StateVariable) :
    ExternsFollow vars extractField extractEffect := by
  intro call i _
  refine ⟨_, rfl, fun x mem => Container.OrderedMap.mem_keys_set.mpr (.inl mem), rfl, ?_⟩
  exact fun ρ w _ simulates => ⟨_, rfl, simulates.set rfl⟩

theorem fieldParser_edge {a b : String} (h : fieldParser.Edge a b) :
    a = "start" ∧ (b = "extract" ∨ b = "other") ∨ a = "other" ∧ b = "extract" ∨
      a = "extract" ∧ b = "accept" := by
  obtain ⟨state, found, final, mem⟩ := h
  have named := name_of_findDecl found
  have listed := List.mem_of_find?_eq_some found
  simp only [fieldParser, List.mem_cons, List.not_mem_nil, or_false] at listed
  obtain rfl | rfl | rfl | rfl | rfl := listed
  · subst named
    simpa [Transition.targets] using mem
  · subst named
    simpa [Transition.targets, parserState] using mem
  · subst named
    simpa [Transition.targets, parserState] using mem
  · cases final
  · cases final

theorem fieldParser_acyclic : Paths.Acyclic fieldParser.Edge := by
  let rank : String → Nat := fun a =>
    if a = "start" then 3 else if a = "other" then 2 else if a = "extract" then 1 else 0
  refine .of_rank rank fun a b edge => ?_
  obtain ⟨rfl, rfl | rfl⟩ | ⟨rfl, rfl⟩ | ⟨rfl, rfl⟩ := fieldParser_edge edge <;> decide

theorem fieldParser_unique (a b : String) (id : Int) (ha : fieldParser.cloneId a = some id)
    (hb : fieldParser.cloneId b = some id) : a = b := by
  obtain ⟨state, found, rfl⟩ := Option.map_eq_some_iff.mp ha
  obtain ⟨state', found', same⟩ := Option.map_eq_some_iff.mp hb
  have listed := List.mem_of_find?_eq_some found
  have listed' := List.mem_of_find?_eq_some found'
  rw [← name_of_findDecl found, ← name_of_findDecl found']
  simp only [fieldParser, List.mem_cons, List.not_mem_nil, or_false] at listed listed'
  obtain rfl | rfl | rfl | rfl | rfl := listed <;>
    obtain rfl | rfl | rfl | rfl | rfl := listed' <;>
      first | rfl | exact absurd same (by decide)

theorem fieldParser_supported : SupportedParser [⟨"field", .bit 8⟩] fieldParser where
  components := by
    simp [fieldParser, parserState, Supported, Statement.Supported, ProgramExpr.reads]
  closed := by
    simp [fieldParser, parserState, Closed, Components.Forall, ProgramExpr.reads, Keyset.Closed,
      KeysetComponent.reads]
  declared := by
    intro a b edge
    obtain ⟨-, rfl | rfl⟩ | ⟨-, rfl⟩ | ⟨-, rfl⟩ := fieldParser_edge edge <;> exact ⟨_, rfl⟩

theorem parse_fieldParser :
    ∃ n, ∀ fuel ≥ n, ∃ e', parse fieldParser extractField fuel ⟨fieldState, []⟩ = .ok e' ∧
      ∀ ρ w, fieldState.state.Holds ρ →
        (∀ x ∈ [⟨"field", .bit 8⟩], fieldState.state.value ρ x = some (w.env x)) →
          ∃ w', fieldParser.run (extractEffect ρ) ρ fuel (fieldParser.states.head (by decide)) w =
              some w' ∧
            ∀ x ∈ [⟨"field", .bit 8⟩], e'.interpretation.state.value ρ x = some (w'.env x) :=
  parse_simulates (extractField_follows _) fieldParser_supported fieldParser_acyclic
    (distinctIds_of_unique fieldParser_acyclic fieldParser_unique) rfl ⟨fieldState, []⟩ rfl
    (fun _ _ mem => absurd mem List.not_mem_nil)

/-- A state with a local variable. -/
def declaringParser : P4Parser Unit where
  states :=
    [parserState "start" 1 [.statement (.declaration (t := .bit 8) "local" (.lit 1))] "accept",
      parserState "accept" 2 [] "accept"]

/-- Two states that were cloned from one, one after the other. -/
def clonedParser : P4Parser Unit where
  states :=
    [parserState "start" 1 [] "first", parserState "first" 2 [] "second",
      parserState "second" 2 [] "accept", parserState "accept" 3 [] "accept"]

theorem declaringParser_acyclic : Paths.Acyclic declaringParser.Edge := by
  refine .of_rank (fun a => if a = "start" then 1 else 0) fun a b edge => ?_
  obtain ⟨state, found, final, mem⟩ := edge
  have named := name_of_findDecl found
  have listed := List.mem_of_find?_eq_some found
  simp only [declaringParser, List.mem_cons, List.not_mem_nil, or_false] at listed
  obtain rfl | rfl := listed
  · subst named
    obtain rfl := List.mem_singleton.mp mem
    decide
  · cases final

theorem clonedParser_acyclic : Paths.Acyclic clonedParser.Edge := by
  refine .of_rank (fun a =>
    if a = "start" then 3 else if a = "first" then 2 else if a = "second" then 1 else 0)
    fun a b edge => ?_
  obtain ⟨state, found, final, mem⟩ := edge
  have named := name_of_findDecl found
  have listed := List.mem_of_find?_eq_some found
  simp only [clonedParser, List.mem_cons, List.not_mem_nil, or_false] at listed
  obtain rfl | rfl | rfl | rfl := listed
  case inr.inr.inr => cases final
  all_goals
    subst named
    obtain rfl := List.mem_singleton.mp mem
    decide

/-- Both parsers have no cycle and run to their end, but the interpreter has no rule for the
declaration of the first, and takes the second clone of the other for a state that it has visited. -/
theorem parse_unfinished :
    (Paths.Acyclic declaringParser.Edge ∧
      (∀ ρ w, (declaringParser.run (extractEffect ρ) ρ 2 (declaringParser.states.head (by decide))
        w).isSome) ∧
      ¬∃ fuel e, parse declaringParser extractField fuel ⟨fieldState, []⟩ = .ok e) ∧
    Paths.Acyclic clonedParser.Edge ∧
      (∀ ρ w, (clonedParser.run (extractEffect ρ) ρ 4 (clonedParser.states.head (by decide))
        w).isSome) ∧
      parse clonedParser extractField 4 ⟨fieldState, []⟩ = .error (.alreadyVisited "second") ∧
      ¬∃ fuel e, parse clonedParser extractField fuel ⟨fieldState, []⟩ = .ok e := by
  refine ⟨⟨declaringParser_acyclic, fun _ _ => rfl, ?_⟩, clonedParser_acyclic, fun _ _ => rfl, rfl, ?_⟩
  · rintro ⟨fuel, e, ran⟩
    cases fuel <;> cases ran
  · rintro ⟨fuel, e, ran⟩
    obtain _ | _ | fuel := fuel <;> cases ran

end Examples

end Flay
