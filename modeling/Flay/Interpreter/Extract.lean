import Mathlib.Algebra.Ring.Nat
import Flay.Interpreter.Draws
import Flay.Interpreter.HeaderValidity
import Flay.Interpreter.ParserSimulation
import Flay.Lib.Lockstep

/-! `packet_in.extract`: the variables that the interpreter makes for a header, the bits that the
header is read from, and the runs in which one valuation accounts for both. -/

namespace Flay

open Container

/-- A call of `extract` on a packet object. -/
structure ExtractCall where
  externObjectRef : String
  header : Header

namespace ExtractCall

def extractLabel (call : ExtractCall) : String :=
  call.externObjectRef ++ "_" ++ "extract" ++ "_" ++ call.header.name

def extractFieldLabel (call : ExtractCall) (field : StateVariable) : String :=
  call.externObjectRef ++ "_" ++ "extract" ++ "_" ++ call.header.name ++ "_" ++ field.name

/-- What the interpreter does on the call: first the validity, then the fields. -/
def process (call : ExtractCall) (i : Interpretation) : Interpretation :=
  let state := i.state.set call.header.getHeaderValidity
    (.var (.dataPlane call.extractLabel) .boolean)
  i.resume (call.header.fields.foldl (fun state field =>
    state.set field (.var (.dataPlane (call.extractFieldLabel field)) field.type)) state)

end ExtractCall

/-- The rule of the interpreter for extracts. -/
def extractRule (call : ExtractCall) (i : Interpretation) : Option Interpretation :=
  some (call.process i)

/-! ### Packets -/

/-- The number of bits of a field. A packet has no strings. -/
def Ty.size : Ty → Nat
  | .boolean => 1
  | .bits _ width => width
  | .string => 0

/-- The value of a field, with the most significant bit first. -/
def Ty.read : (t : Ty) → List Bool → t.Val
  | .boolean, input => input.headD false
  | .bits _ width, input => (BitVec.ofBoolListBE input).setWidth width
  | .string, _ => ""

/-- The value of a variable. -/
abbrev VariableValue : Type := Sigma fun x : StateVariable => x.type.Val

/-- The fields one after another. -/
def readFields : List StateVariable → List Bool → List VariableValue
  | [], _ => []
  | field :: fields, bits =>
    ⟨field, field.type.read (bits.take field.type.size)⟩ ::
      readFields fields (bits.drop field.type.size)

def World.setAll (w : World) (values : List VariableValue) : World :=
  values.foldl (fun w v => w.set v.1 v.2) w

/-- The world with the bits that the parsers have still to read. -/
structure PacketWorld where
  world : World
  bits : List Bool

namespace ExtractCall

def size (call : ExtractCall) : Nat := (call.header.fields.map fun field => field.type.size).sum

/-- What the call makes of the bits: the header is valid, and has the fields. -/
def values (call : ExtractCall) (bits : List Bool) : List VariableValue :=
  ⟨call.header.getHeaderValidity, true⟩ :: readFields call.header.fields bits

/-- What the call does. A packet that is too short ends the run. -/
def exec (call : ExtractCall) (p : PacketWorld) : Option PacketWorld :=
  if call.size ≤ p.bits.length then
    some ⟨p.world.setAll (call.values p.bits), p.bits.drop call.size⟩
  else none

/-- The symbolic variable that the call makes for a variable of the header. -/
def symbol (call : ExtractCall) (x : StateVariable) : SymbolicVariable where
  label := .dataPlane
    (if x = call.header.getHeaderValidity then call.extractLabel else call.extractFieldLabel x)
  type := x.type

/-- The values that the call draws from the packet for its symbolic variables. -/
def draws (call : ExtractCall) (bits : List Bool) : List Draw :=
  (call.values bits).map fun v => ⟨call.symbol v.1, v.2⟩

end ExtractCall

/-! ### Runs -/

section Runs

/-- A step of a parser on the path of a packet: a component of a state, or the case of a select
expression that the packet goes to, with the keysets of the cases before. -/
inductive ParserStep
  | component (c : ParserComponent ExtractCall)
  | select {types : List Ty} (select : Components (ProgramExpr Empty) types)
      (before : List (Keyset types)) (keyset : Keyset types)

/-- The symbolic variables that stand for what a value set holds. -/
def Keyset.configured {types : List Ty} : Keyset types → List SymbolicVariable
  | .valueSet set =>
    getParserValueSetConfigured set.controlPlaneName :: symbols set.labels
  | _ => []
where
  symbols : {types : List Ty} → Components (fun _ => SymbolLabel) types → List SymbolicVariable
    | _, .nil => []
    | _, .cons (t := t) label labels => ⟨label, t⟩ :: symbols labels

namespace ParserStep

open ParserStepper

/-- What the step does. The value sets hold what `config` says. -/
def exec (config : Valuation) : ParserStep → PacketWorld → Option PacketWorld
  | component (.statement s), p => some { p with world := s.exec Handlers.none p.world }
  | component (.externCall call), p => call.exec p
  | select key before keyset, p =>
    let values := key.map (ProgramExpr.value p.world)
    if (before.all fun keyset => !keyset.accepts config p.world values) &&
        keyset.accepts config p.world values then some p
    else none

def draws : ParserStep → PacketWorld → List Draw
  | component (.statement _), _ => []
  | component (.externCall call), p => call.draws p.bits
  | select _ _ _, _ => []

def configured : ParserStep → List SymbolicVariable
  | component _ => []
  | select _ before keyset => before.flatMap Keyset.configured ++ keyset.configured

/-- The interpreter supports the step, and knows the variables that it reads and writes. -/
def Covered (vars : List StateVariable) : ParserStep → Prop
  | component (.statement s) => s.Supported vars
  | component (.externCall call) =>
    call.header.getHeaderValidity ∈ vars ∧ call.header.fields ⊆ vars
  | select key before keyset =>
    (key.Forall fun e => e.reads ⊆ vars) ∧ (∀ keyset ∈ before, keyset.Closed vars) ∧
      keyset.Closed vars

variable [GenEq]

/-- The state in which the loop over the cases of a select expression visits the state of a case. -/
def caseState {types : List Ty} (selectKeyExpr : Components Expr types) :
    List (Keyset types) → Keyset types → Option (Expr .boolean) → Interpretation →
      Option Interpretation
  | [], .default, _, i => some i
  | [], keyset, notCond, i => do
    let (matchCond, i) ← matchCond selectKeyExpr keyset i
    some (i.resume (i.state.pushExecutionCondition (caseCond notCond matchCond)))
  | keyset :: before, taken, notCond, i => do
    let (matchCond, i) ← matchCond selectKeyExpr keyset i
    caseState selectKeyExpr before taken (some (caseCond notCond (.lNot matchCond))) i

/-- What the interpreter does. -/
def process : ParserStep → Interpretation → Option Interpretation
  | .component c, i => ParserStepper.component extractRule c i
  | .select key before keyset, i => do
    let (selectKeyExpr, i) ← resolveComponents resolveExpression key i
    caseState selectKeyExpr before keyset none i

end ParserStep

end Runs

/-! ### The visits of the cases -/

section Visits

open ParserStepper

theorem resolveComponents_onState {F G : Ty → Type}
    {resolve : {t : Ty} → F t → Interpretation → Option (G t × Interpretation)}
    (resolves : ∀ {t : Ty} (a : F t), OnState (resolve a)) {types : List Ty}
    (l : Components F types) : OnState (resolveComponents resolve l) := by
  induction l with
  | nil => exact .pure _
  | cons head tail ih => exact (resolves head).bind fun a => ih.map fun r => Components.cons a r

theorem resolveKeyset_onState {t : Ty} (keyset : KeysetComponent (ProgramExpr Empty) t) :
    OnState (resolveKeyset keyset) := by
  cases keyset with
  | expression e => exact (computeResult_onState e).map KeysetComponent.expression
  | mask left right =>
    exact (computeResult_onState left).bind fun l => (computeResult_onState right).map fun r =>
      KeysetComponent.mask l r
  | range left right =>
    exact (computeResult_onState left).bind fun l => (computeResult_onState right).map fun r =>
      KeysetComponent.range l r
  | default => exact .pure _

variable [GenEq] {types : List Ty}

theorem matchCond_onState (selectKeyExpr : Components Expr types) (keyset : Keyset types) :
    OnState (matchCond selectKeyExpr keyset) := by
  cases keyset with
  | default => exact fun _ _ => rfl
  | valueSet set => exact .pure _
  | components l =>
    exact (resolveComponents_onState (fun a => resolveKeyset_onState a) l).map fun r =>
      GenEq.equate selectKeyExpr r

/-- The state in which a case is visited is a matter of the state alone. -/
theorem ParserStep.caseState_resume (selectKeyExpr : Components Expr types)
    (before : List (Keyset types)) (keyset : Keyset types) (notCond : Option (Expr .boolean))
    (i k : Interpretation) :
    (caseState selectKeyExpr before keyset notCond (k.resume i.state)).map Interpretation.state =
      (caseState selectKeyExpr before keyset notCond i).map Interpretation.state := by
  induction before generalizing notCond i k with
  | nil =>
    cases keyset with
    | default => rfl
    | valueSet set =>
      simp only [caseState, matchCond_onState selectKeyExpr (.valueSet set) i k]
      cases matchCond selectKeyExpr (.valueSet set) i <;> rfl
    | components l =>
      simp only [caseState, matchCond_onState selectKeyExpr (.components l) i k]
      cases matchCond selectKeyExpr (.components l) i <;> rfl
  | cons first before ih =>
    rw [caseState, caseState, matchCond_onState selectKeyExpr first i k]
    cases matchCond selectKeyExpr first i with
    | none => rfl
    | some r => exact ih _ r.2 k

variable {ε : Type} {p : P4Parser ε}
  {step : ParserState ε → ParserExecution → Except ParserFailure ParserExecution}
  {before cases : List (SelectCase types)} {c : SelectCase types}

omit [GenEq] in
theorem bind_eq_ok {α β γ : Type} {r : Except γ α} {f : α → Except γ β} {b : β}
    (h : r >>= f = .ok b) : ∃ a, r = .ok a ∧ f a = .ok b := by
  cases r with
  | error => cases h
  | ok a => exact ⟨a, rfl, h⟩

omit [GenEq] in
theorem implemented_eq_ok {α : Type} {o : Option α} {a : α} (h : implemented o = .ok a) :
    o = some a := by
  cases o with
  | none => cases h
  | some => exact congrArg some (Except.ok.inj h)

/-- What the loop has done for a case other than the default one. -/
theorem selectCases_cons_ok {selectKeyExpr : Components Expr types}
    {notCond : Option (Expr .boolean)} {e : ParserExecution}
    {r : ParserExecution × List ExecutionState} (named : c.keyset.isDefault = false)
    (ran : selectCases p step selectKeyExpr (c :: cases) notCond e = .ok r) :
    ∃ decl cond i visited left rest, p.findDecl c.state = some decl ∧
      matchCond selectKeyExpr c.keyset e.interpretation = some (cond, i) ∧
      step decl ⟨i.resume (i.state.pushExecutionCondition (caseCond notCond cond)), visited⟩ =
        .ok left ∧
      selectCases p step selectKeyExpr cases (some (caseCond notCond (.lNot cond)))
        ⟨left.interpretation.resume i.state, e.visitedParserIds⟩ = .ok rest := by
  obtain ⟨keyset, state⟩ := c
  cases keyset with
  | default => cases named
  | valueSet set | components l =>
    obtain ⟨decl, found, ran⟩ := bind_eq_ok ran
    dsimp only at ran
    split at ran
    · cases ran
    obtain ⟨⟨cond, i⟩, resolved, ran⟩ := bind_eq_ok ran
    obtain ⟨left, stepped, ran⟩ := bind_eq_ok ran
    obtain ⟨rest, ran, -⟩ := bind_eq_ok ran
    exact ⟨decl, cond, i, _, left, rest, implemented_eq_ok found, implemented_eq_ok resolved, stepped,
      ran⟩

/-- The loop over the cases visits the state of a case in the state that is made for it. -/
theorem selectCases_visits {selectKeyExpr : Components Expr types} {notCond : Option (Expr .boolean)}
    {e : ParserExecution} {r : ParserExecution × List ExecutionState}
    (named : ∀ c ∈ before, c.keyset.isDefault = false)
    (ran : selectCases p step selectKeyExpr (before ++ c :: cases) notCond e = .ok r) :
    ∃ decl i' entered left, p.findDecl c.state = some decl ∧
      ParserStep.caseState selectKeyExpr (before.map SelectCase.keyset) c.keyset notCond
        e.interpretation = some i' ∧
      entered.interpretation.state = i'.state ∧ step decl entered = .ok left := by
  induction before generalizing notCond e r with
  | nil =>
    cases kind : c.keyset.isDefault with
    | true =>
      obtain ⟨keyset, state⟩ := c
      obtain rfl : keyset = .default := by cases keyset <;> first | rfl | cases kind
      obtain ⟨decl, found, ran⟩ := bind_eq_ok ran
      obtain ⟨left, stepped, -⟩ := bind_eq_ok ran
      exact ⟨decl, e.interpretation, e, left, implemented_eq_ok found, rfl, rfl, stepped⟩
    | false =>
      obtain ⟨decl, cond, i, visited, left, rest, found, resolved, stepped, -⟩ :=
        selectCases_cons_ok kind ran
      refine ⟨decl, i.resume (i.state.pushExecutionCondition (caseCond notCond cond)), _, left, found,
        ?_, rfl, stepped⟩
      cases keyset : c.keyset with
      | default =>
        rw [keyset] at kind
        cases kind
      | valueSet set | components l =>
        rw [keyset] at resolved
        simp [ParserStep.caseState, resolved]
  | cons first before ih =>
    obtain ⟨namedFirst, named⟩ := List.forall_mem_cons.mp named
    obtain ⟨-, cond, i, visited, left, rest, -, resolved, -, ran⟩ := selectCases_cons_ok namedFirst ran
    obtain ⟨decl, i', entered, left', found, made, same, stepped⟩ := ih named ran
    have states := ParserStep.caseState_resume selectKeyExpr (before.map SelectCase.keyset) c.keyset
      (some (caseCond notCond (.lNot cond))) i left.interpretation
    rw [made] at states
    obtain ⟨i'', made', state⟩ := Option.map_eq_some_iff.mp states.symm
    refine ⟨decl, i'', entered, left', found, ?_, same.trans state.symm, stepped⟩
    simp [ParserStep.caseState, resolved, made']

/-- The step to the case of a select expression is what `processSelectExpression` does ahead of the
visit of the state of the case. -/
theorem ParserStep.process_select {selectExpr : SelectExpression}
    {before cases : List (SelectCase selectExpr.types)} {c : SelectCase selectExpr.types}
    {e e' : ParserExecution} (split : selectExpr.selectCases = before ++ c :: cases)
    (named : ∀ c ∈ before, c.keyset.isDefault = false)
    (ran : processSelectExpression p step selectExpr e = .ok e') :
    ∃ decl i' entered left, p.findDecl c.state = some decl ∧
      (ParserStep.select selectExpr.select (before.map SelectCase.keyset) c.keyset).process
        e.interpretation = some i' ∧
      entered.interpretation.state = i'.state ∧ step decl entered = .ok left := by
  obtain ⟨⟨selectKeyExpr, i⟩, resolved, ran⟩ := bind_eq_ok ran
  obtain ⟨⟨e'', states⟩, looped, -⟩ := bind_eq_ok ran
  rw [split] at looped
  obtain ⟨decl, i', entered, left, found, made, same, stepped⟩ := selectCases_visits named looped
  refine ⟨decl, i', entered, left, found, ?_, same, stepped⟩
  simp only [ParserStep.process, implemented_eq_ok resolved]
  exact made

end Visits

/-! ### Values that are set together -/

section Together

variable {values : List VariableValue} {bits : List Bool}

@[simp] theorem keys_readFields (fields : List StateVariable) (bits : List Bool) :
    (readFields fields bits).keys = fields := by
  induction fields generalizing bits with
  | nil => rfl
  | cons field fields ih => rw [readFields, List.keys_cons, ih]

theorem ExtractCall.keys_values (call : ExtractCall) (bits : List Bool) :
    (call.values bits).keys = call.header.getHeaderValidity :: call.header.fields := by
  rw [values, List.keys_cons, keys_readFields]

theorem ExtractCall.nodupKeys_values (call : ExtractCall) (bits : List Bool) :
    (call.values bits).NodupKeys := by
  rw [List.NodupKeys, keys_values]
  exact List.nodup_cons.mpr ⟨call.header.apart, call.header.distinct⟩

theorem World.env_setAll (w : World) (distinct : values.NodupKeys) (x : StateVariable) :
    (w.setAll values).env x = (values.dlookup x).getD (w.env x) := by
  induction values generalizing w with
  | nil => rfl
  | cons v values ih =>
    obtain ⟨y, v⟩ := v
    obtain ⟨absent, distinct⟩ := List.nodupKeys_cons.mp distinct
    rw [setAll, List.foldl_cons]
    refine (ih (w.set y v) distinct).trans ?_
    by_cases same : x = y
    · subst same
      rw [List.dlookup_cons_eq, List.dlookup_eq_none.mpr absent]
      exact env_set_self w x v
    · rw [List.dlookup_cons_ne values (⟨y, v⟩ : VariableValue) same, env_set_ne _ _ same]

/-- Variables that are set to symbolic variables of their own. -/
theorem ExecutionState.value_setAll {ρ : Valuation} (symbol : (x : StateVariable) → Expr x.type)
    (fields : List StateVariable) (s : ExecutionState) (x : StateVariable) :
    (fields.foldl (fun s x => s.set x (symbol x)) s).value ρ x =
      if x ∈ fields then some ((symbol x).eval ρ) else s.value ρ x := by
  induction fields generalizing s with
  | nil => rfl
  | cons y fields ih =>
    rw [List.foldl_cons, ih]
    by_cases same : x = y
    · subst same
      simp [value, set, OrderedMap.find_set_self]
    · simp [same, value, set, OrderedMap.find_set_ne _ _ same]

theorem ExecutionState.keys_subset_setAll (symbol : (x : StateVariable) → Expr x.type)
    (fields : List StateVariable) (s : ExecutionState) :
    s.env.keys ⊆ (fields.foldl (fun s x => s.set x (symbol x)) s).env.keys := by
  induction fields generalizing s with
  | nil => exact List.Subset.refl _
  | cons y fields ih =>
    exact List.Subset.trans (fun x mem => OrderedMap.mem_keys_set.mpr (.inl mem))
      (ih (s.set y (symbol y)))

theorem ExecutionState.executionCondition_setAll (symbol : (x : StateVariable) → Expr x.type)
    (fields : List StateVariable) (s : ExecutionState) :
    (fields.foldl (fun s x => s.set x (symbol x)) s).executionCondition = s.executionCondition := by
  induction fields generalizing s with
  | nil => rfl
  | cons y fields ih => exact ih (s.set y (symbol y))

end Together

/-! ### Extracts -/

section Steps

variable {vars : List StateVariable} {ρ : Valuation} {i : Interpretation} {w : World}

/-- The variables that an extract sets. -/
def ExtractCall.targets (call : ExtractCall) : List StateVariable :=
  call.header.getHeaderValidity :: call.header.fields

theorem ExtractCall.state_process (call : ExtractCall) (i : Interpretation) :
    (call.process i).state =
      call.targets.foldl (fun s x => s.set x (.var (call.symbol x).label x.type)) i.state := by
  have labels : ∀ field ∈ call.header.fields,
      (call.symbol field).label = .dataPlane (call.extractFieldLabel field) := by
    intro field mem
    have different : field ≠ call.header.getHeaderValidity := by
      rintro rfl
      exact call.header.apart mem
    rw [symbol, if_neg different]
  have first : (call.symbol call.header.getHeaderValidity).label = .dataPlane call.extractLabel := by
    rw [symbol, if_pos rfl]
  rw [targets, List.foldl_cons, first]
  refine List.foldl_ext _ _ _ fun s field mem => ?_
  rw [labels field mem]

/-- What an extract leaves is described by the valuation if and only if the valuation has the values
that are drawn from the packet. -/
theorem ExtractCall.describes_iff (call : ExtractCall) (h : Describes vars ρ i.state w)
    (covered : call.targets ⊆ vars) (bits : List Bool) :
    Describes vars ρ (call.process i).state (w.setAll (call.values bits)) ↔
      ρ.Agrees (call.draws bits) := by
  have distinct := call.nodupKeys_values bits
  have value : ∀ x, (call.process i).state.value ρ x =
      if x ∈ call.targets then some ((Expr.var (call.symbol x).label x.type).eval ρ)
      else i.state.value ρ x := by
    intro x
    rw [state_process, ExecutionState.value_setAll]
  constructor
  · intro after d mem
    obtain ⟨⟨x, v⟩, found, rfl⟩ := List.mem_map.mp mem
    have target : x ∈ call.targets := by
      rw [targets, ← call.keys_values bits]
      exact List.mem_keys_of_mem found
    have simulates := after.simulates x (covered target)
    rw [value, if_pos target, World.env_setAll w distinct, List.mem_dlookup distinct found]
      at simulates
    exact Option.some.inj simulates
  · intro agrees
    refine ⟨?_, ?_, fun x known => ?_⟩
    · rw [state_process]
      exact List.Subset.trans h.defined (ExecutionState.keys_subset_setAll _ _ _)
    · refine (ExecutionState.holds_congr ?_).mpr h.holds
      rw [state_process]
      exact ExecutionState.executionCondition_setAll _ _ _
    · rw [value, World.env_setAll w distinct]
      by_cases target : x ∈ call.targets
      · rw [if_pos target]
        rw [targets, ← call.keys_values bits] at target
        obtain ⟨v, mem⟩ := List.exists_of_mem_keys target
        have drawn := agrees ⟨call.symbol x, v⟩ (List.mem_map.mpr ⟨⟨x, v⟩, mem, rfl⟩)
        rw [List.mem_dlookup distinct mem]
        exact congrArg some drawn
      · rw [if_neg target]
        rw [targets, ← call.keys_values bits] at target
        rw [List.dlookup_eq_none.mpr target]
        exact h.simulates x known

end Steps

section Select

variable {vars : List StateVariable} {ρ config : Valuation} {types : List Ty}

theorem all₂_labels {labels : Components (fun _ => SymbolLabel) types}
    (same : ∀ x ∈ Keyset.configured.symbols labels, ρ x = config x)
    (values : Components Ty.Val types) :
    labels.all₂ (fun {t} label v => decide (v = ρ ⟨label, t⟩)) values =
      labels.all₂ (fun {t} label v => decide (v = config ⟨label, t⟩)) values := by
  induction labels with
  | nil =>
    cases values
    rfl
  | cons label labels ih =>
    cases values with
    | cons v values =>
      rw [Components.all₂, Components.all₂, same _ List.mem_cons_self,
        ih fun x mem => same x (List.mem_cons_of_mem _ mem)]

/-- Whether a keyset accepts values depends on what its value set holds. -/
theorem Keyset.accepts_congr {keyset : Keyset types}
    (same : ∀ x ∈ keyset.configured, ρ x = config x) (w : World)
    (values : Components Ty.Val types) :
    keyset.accepts ρ w values = keyset.accepts config w values := by
  cases keyset with
  | default => rfl
  | valueSet set =>
    rw [accepts, accepts, same _ List.mem_cons_self,
      all₂_labels fun x mem => same x (List.mem_cons_of_mem _ mem)]
  | components l => rfl

theorem Describes.push {s : ExecutionState} {w : World} (h : Describes vars ρ s w)
    {cond : Expr .boolean} (holds : cond.eval ρ = true) :
    Describes vars ρ (s.pushExecutionCondition cond) w where
  defined := h.defined
  holds := ExecutionState.holds_push.mpr ⟨h.holds, holds⟩
  simulates := h.simulates

variable [GenEq] [GenEq.Lawful]

open ParserStepper

/-- The state of the case that the packet goes to is described by the valuation still. -/
theorem ParserStep.describes_caseState {before : List (Keyset types)} {keyset : Keyset types}
    {selectKeyExpr : Components Expr types} {w : World}
    (closedBefore : ∀ keyset ∈ before, keyset.Closed vars) (closed : keyset.Closed vars)
    (skips : ∀ keyset ∈ before, keyset.accepts ρ w (selectKeyExpr.map (Expr.eval ρ)) = false)
    (accepts : keyset.accepts ρ w (selectKeyExpr.map (Expr.eval ρ)) = true)
    {notCond : Option (Expr .boolean)} (open' : unmatched ρ notCond = true) {i : Interpretation}
    (h : Describes vars ρ i.state w) :
    ∃ i', caseState selectKeyExpr before keyset notCond i = some i' ∧
      Describes vars ρ i'.state w := by
  induction before generalizing notCond i with
  | nil =>
    cases kind : keyset.isDefault with
    | true =>
      obtain rfl : keyset = .default := by cases keyset <;> first | rfl | cases kind
      exact ⟨i, rfl, h⟩
    | false =>
      obtain ⟨cond, i', matched, unchanged, value⟩ :=
        exists_matchCond kind closed selectKeyExpr h.defined
      refine ⟨i'.resume (i'.state.pushExecutionCondition (caseCond notCond cond)), ?_, ?_⟩
      · cases keyset with
        | default => cases kind
        | valueSet set => simp [caseState, matched]
        | components l => simp [caseState, matched]
      · refine (h.of_unchanged unchanged).push ?_
        rw [eval_caseCond, open', value ρ w h.simulates, accepts]
        rfl
  | cons first before ih =>
    have skipped := skips first List.mem_cons_self
    have kind : first.isDefault = false := by
      cases first with
      | default => cases skipped
      | valueSet set => rfl
      | components l => rfl
    obtain ⟨cond, i', matched, unchanged, value⟩ :=
      exists_matchCond kind (closedBefore first List.mem_cons_self) selectKeyExpr h.defined
    have later : unmatched ρ (some (caseCond notCond (.lNot cond))) = true := by
      have fails : cond.eval ρ = false := (value ρ w h.simulates).trans skipped
      rw [unmatched, Option.elim_some, eval_caseCond, open', Expr.eval_lNot, fails]
      rfl
    obtain ⟨i₂, ran, described⟩ :=
      ih (fun keyset mem => closedBefore keyset (List.mem_cons_of_mem _ mem))
        (fun keyset mem => skips keyset (List.mem_cons_of_mem _ mem)) later (h.of_unchanged unchanged)
    exact ⟨i₂, by simp [caseState, matched, ran], described⟩

end Select

section Runs

variable {vars : List StateVariable} {ρ config : Valuation} [GenEq] [GenEq.Lawful]

open ParserStepper

theorem ParserStep.describes_iff (t : ParserStep) (covered : t.Covered vars)
    (same : ∀ x ∈ t.configured, ρ x = config x) (i : Interpretation) (p p' : PacketWorld)
    (h : Describes vars ρ i.state p.world) (taken : t.exec config p = some p') :
    ∃ i', t.process i = some i' ∧
      (Describes vars ρ i'.state p'.world ↔ ∀ d ∈ t.draws p, ρ d.1 = d.2) := by
  rcases t with ⟨s | call⟩ | ⟨key, before, keyset⟩
  · obtain ⟨i', ran, steps⟩ := statement_steps s covered i h.defined
    cases taken
    refine ⟨i', ran, iff_of_true ⟨?_, ?_, ?_⟩ fun d mem => by cases mem⟩
    · exact List.Subset.trans h.defined steps.simulation.keys
    · exact (ExecutionState.holds_congr steps.simulation.condition).mpr h.holds
    · exact steps.simulation.values ρ p.world h.holds h.simulates
  · refine ⟨call.process i, rfl, ?_⟩
    have known : call.targets ⊆ vars := List.cons_subset.mpr covered
    simp only [exec, ExtractCall.exec, Option.ite_none_right_eq_some] at taken
    obtain ⟨-, after⟩ := taken
    cases after
    exact call.describes_iff h known p.bits
  · obtain ⟨closedKey, closedBefore, closed⟩ := covered
    simp only [exec, Option.ite_none_right_eq_some, Bool.and_eq_true, List.all_eq_true,
      Bool.not_eq_true'] at taken
    obtain ⟨⟨skips, accepts⟩, after⟩ := taken
    cases after
    obtain ⟨selectKeyExpr, j, resolved, unchanged, values⟩ := resolveComponents_unchanged key
      (closedKey.mono fun e => resolveExpression_resolves e) i h.defined
    have evaluated := values ρ p.world h.simulates
    have agree : ∀ k : Keyset _, (∀ x ∈ k.configured, ρ x = config x) →
        k.accepts ρ p.world (selectKeyExpr.map (Expr.eval ρ)) =
          k.accepts config p.world (key.map (ProgramExpr.value p.world)) := fun k same => by
      rw [evaluated]
      exact Keyset.accepts_congr same _ _
    have first : unmatched ρ none = true := rfl
    obtain ⟨i', ran, described⟩ := describes_caseState closedBefore closed
      (fun k mem => (agree k fun x inside => same x (List.mem_append_left _
        (List.mem_flatMap.mpr ⟨k, mem, inside⟩))).trans (skips k mem))
      ((agree keyset fun x inside => same x (List.mem_append_right _ inside)).trans accepts)
      first (h.of_unchanged unchanged)
    refine ⟨i', by simp [process, resolved, ran], iff_of_true described fun d mem => by cases mem⟩

/-- One valuation describes a run of parsers at each of its steps, if and only if no variable is drawn
from the packets with two values, and a valuation that describes the start has the values that are
drawn for the variables that occur there. -/
theorem extracts_described_iff (config : Valuation) (l : List ParserStep)
    (covered : ∀ t ∈ l, t.Covered vars) (i : Interpretation) (p : PacketWorld) :
    (∃ ρ : Valuation, (∀ x ∈ l.flatMap ParserStep.configured, ρ x = config x) ∧
      ∀ n p', Lockstep.run (ParserStep.exec config) (l.take n) p = some p' →
        ∃ i', Lockstep.run ParserStep.process (l.take n) i = some i' ∧
          Describes vars ρ i'.state p'.world) ↔
      (∃ ρ : Valuation, ((∀ x ∈ l.flatMap ParserStep.configured, ρ x = config x) ∧
          Describes vars ρ i.state p.world) ∧
        ∀ d ∈ Lockstep.collect (ParserStep.exec config) ParserStep.draws l p,
          d.1 ∈ l.flatMap ParserStep.configured ++ i.state.symbols vars → ρ d.1 = d.2) ∧
      Consistent (Lockstep.collect (ParserStep.exec config) ParserStep.draws l p) := by
  rw [← exists_agrees_iff]
  · refine exists_congr fun ρ => ?_
    rw [and_assoc]
    refine and_congr_right fun same => ?_
    have keeps : ∀ t ∈ l, ∀ (i : Interpretation) (p p' : PacketWorld),
        Describes vars ρ i.state p.world → t.exec config p = some p' →
          ∃ i', t.process i = some i' ∧
            (Describes vars ρ i'.state p'.world ↔ ∀ d ∈ t.draws p, ρ d.1 = d.2) :=
      fun t mem i p p' => t.describes_iff (covered t mem)
        (fun x inside => same x (List.mem_flatMap.mpr ⟨t, mem, inside⟩)) i p p'
    have follows := fun start : Describes vars ρ i.state p.world =>
      (Lockstep.related_iff keeps start).trans Lockstep.allSteps_yield
    constructor
    · intro described
      obtain ⟨i', ran, start⟩ := described 0 p rfl
      cases ran
      exact ⟨start, (follows start).mp described⟩
    · rintro ⟨start, agrees⟩
      exact (follows start).mpr agrees
  · rintro ρ ρ' same ⟨configured, describes⟩
    refine ⟨fun x mem => ?_, describes.congr fun x mem => same x (List.mem_append_right _ mem)⟩
    exact (same x (List.mem_append_left _ mem)).trans (configured x mem)

end Runs

section Examples

attribute [local instance] genEq genEq_lawful

def ethernetExtract : ExtractCall := ⟨"packet", ethernetHeader⟩

def savedField : StateVariable := ⟨"saved", .bit 8⟩

def extractVariables : List StateVariable := savedField :: ethernetExtract.targets

/-- The start of a parser, where the header is invalid. -/
def extractState : Interpretation where
  state :=
    { env := ((OrderedMap.empty.set savedField (.lit (0 : BitVec 8))).set
        ethernetHeader.getHeaderValidity .false).set ⟨"eth.type", .bit 8⟩ (.lit (0 : BitVec 8))
      executionCondition := none
      nodeAnnotationMap := .empty }
  objects := []
  tableKeyMatches := []

/-- The header is extracted, its field is saved, and the header is extracted anew. -/
def extractTwice : List ParserStep :=
  [.component (.externCall ethernetExtract),
    .component (.statement (.assignment (t := .bit 8) "saved" (.path 1 "eth.type" (.bit 8)))),
    .component (.externCall ethernetExtract)]

/-- The header is extracted, its field is saved, and a select expression has a case for it. -/
def extractSelected : List ParserStep :=
  [.component (.externCall ethernetExtract),
    .component (.statement (.assignment (t := .bit 8) "saved" (.path 1 "eth.type" (.bit 8)))),
    .select (.cons (.path 2 "eth.type" (.bit 8)) .nil)
      [.components (.cons (.expression (.lit (2 : BitVec 8))) .nil)]
      (.components (.cons (.expression (.lit (1 : BitVec 8))) .nil))]

/-- A packet whose bytes are 1 and 2. -/
def twoBytes : PacketWorld where
  world := zeroWorld
  bits := [false, false, false, false, false, false, false, true,
    false, false, false, false, false, false, true, false]

theorem typeField_known : [⟨"eth.type", .bit 8⟩] ⊆ extractVariables := by decide

theorem ethernetExtract_covered :
    (ParserStep.component (.externCall ethernetExtract)).Covered extractVariables :=
  ⟨by decide, by decide⟩

theorem extractState_described (ρ : Valuation) :
    Describes extractVariables ρ extractState.state twoBytes.world := by
  refine ⟨by decide, rfl, fun x mem => ?_⟩
  simp only [extractVariables, ExtractCall.targets, ethernetExtract, ethernetHeader, List.mem_cons,
    List.not_mem_nil, or_false] at mem
  obtain rfl | rfl | rfl := mem <;> rfl

theorem extracts_described_extractSelected :
    ∃ ρ : Valuation, (∀ x ∈ extractSelected.flatMap ParserStep.configured, ρ x = default) ∧
      ∀ n p', Lockstep.run (ParserStep.exec fun _ => default) (extractSelected.take n) twoBytes =
          some p' →
        ∃ i', Lockstep.run ParserStep.process (extractSelected.take n) extractState = some i' ∧
          Describes extractVariables ρ i'.state p'.world := by
  refine (extracts_described_iff (fun _ => default) extractSelected ?_ extractState twoBytes).mpr
    ⟨⟨fun _ => default, ⟨fun _ _ => rfl, extractState_described _⟩, ?_⟩, ?_⟩
  · intro t mem
    simp only [extractSelected, List.mem_cons, List.not_mem_nil, or_false] at mem
    obtain rfl | rfl | rfl := mem
    · exact ethernetExtract_covered
    · exact typeField_known
    · refine ⟨⟨typeField_known, trivial⟩, fun keyset mem => ?_, List.nil_subset _, trivial⟩
      obtain rfl := List.mem_singleton.mp mem
      exact ⟨List.nil_subset _, trivial⟩
  · intro d _ occurs
    have none_occurs : extractSelected.flatMap ParserStep.configured ++
      extractState.state.symbols extractVariables = [] := rfl
    rw [none_occurs] at occurs
    cases occurs
  · have drawn : Lockstep.collect (ParserStep.exec fun _ => default) ParserStep.draws
        extractSelected twoBytes =
        [⟨ethernetExtract.symbol ethernetHeader.getHeaderValidity, true⟩,
          ⟨ethernetExtract.symbol ⟨"eth.type", .bit 8⟩, (1 : BitVec 8)⟩] := rfl
    rw [drawn]
    refine Consistent.of_nodupKeys (List.nodup_cons.mpr ⟨fun mem => ?_, List.nodup_singleton _⟩)
    cases congrArg SymbolicVariable.type (List.mem_singleton.mp mem)

/-- The second extract draws another value for the variable of the field. -/
theorem extracts_described_extractTwice :
    (∀ t ∈ extractTwice, t.Covered extractVariables) ∧
      Describes extractVariables (fun _ => default) extractState.state twoBytes.world ∧
      ¬∃ ρ : Valuation, (∀ x ∈ extractTwice.flatMap ParserStep.configured, ρ x = default) ∧
        ∀ n p', Lockstep.run (ParserStep.exec fun _ => default) (extractTwice.take n) twoBytes =
            some p' →
          ∃ i', Lockstep.run ParserStep.process (extractTwice.take n) extractState = some i' ∧
            Describes extractVariables ρ i'.state p'.world := by
  refine ⟨?_, extractState_described _, ?_⟩
  · intro t mem
    simp only [extractTwice, List.mem_cons, List.not_mem_nil, or_false] at mem
    obtain rfl | rfl | rfl := mem
    · exact ethernetExtract_covered
    · exact typeField_known
    · exact ethernetExtract_covered
  · rintro ⟨ρ, -, described⟩
    obtain ⟨i', ran, after⟩ := described 3 _ rfl
    cases ran
    have saved : ρ (ethernetExtract.symbol ⟨"eth.type", .bit 8⟩) = (1 : BitVec 8) :=
      Option.some.inj (after.simulates savedField (by decide))
    have field : ρ (ethernetExtract.symbol ⟨"eth.type", .bit 8⟩) = (2 : BitVec 8) :=
      Option.some.inj (after.simulates ⟨"eth.type", .bit 8⟩ (by decide))
    have same : (1 : BitVec 8) = 2 := saved.symm.trans field
    exact absurd same (by decide)

end Examples

end Flay
