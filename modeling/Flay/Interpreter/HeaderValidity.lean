import Flay.Interpreter.Control
import Flay.Program.Inline

/-! The operations on the validity of headers: what the interpreter makes of them, what they do, and
the runs on which the two agree. -/

namespace Flay

open Container

section Inlining

variable {α : Type} {body : α → ActionBody} {h : SymbolicHandlers Empty α}
  {vars : List StateVariable}

open ExpressionResolver FlayStepper

theorem computeResult_eq_none (h : SymbolicHandlers Empty α) {t : Ty} (e : ProgramExpr Empty t)
    (i : Interpretation) : computeResult h e i = computeResult SymbolicHandlers.none e i := by
  induction e generalizing i with
  | lit => rfl
  | path => rfl
  | hit _ table | miss _ table | actionRun table => exact table.elim
  | lNot e ih | unary _ e ih => simp only [computeResult, ih]
  | lAnd left right ihLeft ihRight | lOr left right ihLeft ihRight
  | equ left right ihLeft ihRight | neq left right ihLeft ihRight
  | binary _ left right ihLeft ihRight => simp only [computeResult, ihLeft, ihRight]
  | mux e0 e1 e2 ih0 ih1 ih2 => simp only [computeResult, ih0, ih1, ih2]

/-- The interpreter steps through the body of each call. -/
def SymbolicHandlers.Inlines (h : SymbolicHandlers Empty α) (body : α → ActionBody) : Prop :=
  ∀ a i, h.callAction a i = statements SymbolicHandlers.none (body a) i

mutual

/-- The interpreter that steps through the body of each call steps through the program with the
bodies. -/
theorem statement_inline (inlined : h.Inlines body) :
    (s : Statement Empty α) → (i : Interpretation) →
      statement h s i = statement SymbolicHandlers.none (s.inline body) i
  | .empty, _ => rfl
  | .assignment _ _, i => by simp only [statement, Statement.inline, computeResult_eq_none]
  | .declaration _ _, _ => rfl
  | .block components, i => by
    rw [statement, Statement.inline, statement]
    exact statements_inline inlined components i
  | .ifStatement node condition ifTrue ifFalse, i => by
    simp only [statement, Statement.inline, computeResult_eq_none, statement_inline inlined ifTrue,
      optionalStatement_inline inlined ifFalse]
  | .switchStatement expression cases, i => by
    simp only [statement, Statement.inline, computeResult_eq_none,
      switchCases_inline inlined _ cases, defaultCase_inline inlined cases]
  | .apply table, _ => table.elim
  | .call action, i => inlined action i

theorem statements_inline (inlined : h.Inlines body) :
    (l : List (Statement Empty α)) → (i : Interpretation) →
      statements h l i = statements SymbolicHandlers.none (inlineAll body l) i
  | [], _ => rfl
  | s :: l, i => by
    simp only [statements, inlineAll, statement_inline inlined s, statements_inline inlined l]

theorem optionalStatement_inline (inlined : h.Inlines body) :
    (s : Option (Statement Empty α)) → (i : Interpretation) →
      optionalStatement h s i = optionalStatement SymbolicHandlers.none (inlineOption body s) i
  | none, _ => rfl
  | some s, i => statement_inline inlined s i

theorem switchCases_inline (inlined : h.Inlines body)
    {t : Ty} (switchExpr : Expr t) : (cases : List (SwitchCase Empty α)) →
      (cond : Option (Expr .boolean)) → (i : Interpretation) →
        switchCases h switchExpr cond cases i =
          switchCases SymbolicHandlers.none switchExpr cond (inlineCases body cases) i
  | [], _, _ => rfl
  | .mk _ label statement :: cases, cond, i => by
    simp only [switchCases, inlineCases, switchCases_inline inlined switchExpr cases,
      caseBody_inline inlined]

theorem caseBody_inline (inlined : h.Inlines body)
    (cond : Expr .boolean) : (statement : Option (List (Statement Empty α))) → (i : Interpretation) →
      (next : Option (Expr .boolean) → Interpretation →
        Option (Interpretation × List ExecutionState)) →
        caseBody h cond statement i next =
          caseBody SymbolicHandlers.none cond (inlineBody body statement) i next
  | none, _, _ => rfl
  | some l, i, next => by simp only [caseBody, inlineBody, statements_inline inlined l]

theorem defaultCase_inline (inlined : h.Inlines body) :
    (cases : List (SwitchCase Empty α)) → (i : Interpretation) →
      defaultCase h cases i = defaultCase SymbolicHandlers.none (inlineCases body cases) i
  | [], _ => rfl
  | .mk _ label none :: cases, i => by
    simp only [defaultCase, inlineCases, inlineBody, defaultBody, defaultCase_inline inlined cases]
  | .mk _ label (some l) :: cases, i => by
    simp only [defaultCase, inlineCases, inlineBody, defaultBody, defaultCase_inline inlined cases,
      statements_inline inlined l]

end

theorem mem_inlineCases {cases : List (SwitchCase Empty α)} {c : SwitchCase Empty Empty}
    (mem : c ∈ inlineCases body cases) : ∃ c' ∈ cases, c'.label = c.label := by
  induction cases with
  | nil => cases mem
  | cons first cases ih =>
    obtain ⟨node, label, statement⟩ := first
    obtain rfl | mem := List.mem_cons.mp mem
    · exact ⟨_, List.mem_cons_self, rfl⟩
    · obtain ⟨c', mem', same⟩ := ih mem
      exact ⟨c', List.mem_cons_of_mem _ mem', same⟩

/-- The labels stay as they are. -/
theorem SwitchLabels.inline {t : Ty} {cases : List (SwitchCase Empty α)}
    (labels : SwitchLabels t cases) : SwitchLabels t (inlineCases body cases) := by
  induction labels with
  | nil => exact .nil
  | default node l => exact .default node (inlineAll body l)
  | @cons node label l cases v constant distinct _ ih =>
    refine .cons constant (fun c mem => ?_) ih
    obtain ⟨c', mem', same⟩ : ∃ c' ∈ cases, c'.label = c.label := mem_inlineCases mem
    exact same ▸ distinct c' mem'

mutual

theorem supported_inline (supported : ∀ a, SupportedAll vars (body a)) :
    (s : Statement Empty α) → s.Supported vars → (s.inline body).Supported vars
  | .empty, _ => trivial
  | .assignment _ _, h => h
  | .declaration _ _, h => h
  | .block components, h => supportedAll_inline supported components h
  | .ifStatement _ _ ifTrue ifFalse, ⟨reads, inTrue, inFalse⟩ =>
    ⟨reads, supported_inline supported ifTrue inTrue,
      supportedOption_inline supported ifFalse inFalse⟩
  | .switchStatement _ cases, ⟨reads, labels, inCases⟩ =>
    ⟨reads, labels.inline, supportedCases_inline supported cases inCases⟩
  | .apply table, _ => table.elim
  | .call action, _ => supported action

theorem supportedAll_inline (supported : ∀ a, SupportedAll vars (body a)) :
    (l : List (Statement Empty α)) → SupportedAll vars l → SupportedAll vars (inlineAll body l)
  | [], _ => trivial
  | s :: l, h => ⟨supported_inline supported s h.1, supportedAll_inline supported l h.2⟩

theorem supportedOption_inline (supported : ∀ a, SupportedAll vars (body a)) :
    (s : Option (Statement Empty α)) → SupportedOption vars s →
      SupportedOption vars (inlineOption body s)
  | none, _ => trivial
  | some s, h => supported_inline supported s h

theorem supportedCases_inline (supported : ∀ a, SupportedAll vars (body a)) :
    (cases : List (SwitchCase Empty α)) → SupportedCases vars cases →
      SupportedCases vars (inlineCases body cases)
  | [], _ => trivial
  | .mk _ _ none :: cases, h => ⟨trivial, supportedCases_inline supported cases h.2⟩
  | .mk _ _ (some l) :: cases, h =>
    ⟨supportedAll_inline supported l h.1, supportedCases_inline supported cases h.2⟩

end

end Inlining

/-- A header with its flat fields. -/
structure Header where
  name : String
  fields : List StateVariable
  distinct : fields.Nodup
  apart : ⟨name ++ ".*valid", .boolean⟩ ∉ fields

namespace Header

abbrev getHeaderValidity (header : Header) : StateVariable := ⟨header.name ++ ".*valid", .boolean⟩

/-- `isValid`, which is the value of the validity. -/
def isValid (header : Header) (node : Node) : ProgramExpr Empty .boolean :=
  .path node header.getHeaderValidity.name .boolean

end Header

/-- A call of a method of a header that returns nothing. -/
inductive HeaderCall
  | setValid (header : Header)
  | setInvalid (header : Header)

def HeaderCall.header : HeaderCall → Header
  | .setValid header => header
  | .setInvalid header => header

/-- A statement over header calls. -/
abbrev HeaderStatement : Type := Statement Empty HeaderCall

/-- The assignment of a value. -/
def setLiteral (x : StateVariable) (v : x.type.Val) : Statement Empty Empty :=
  .assignment x.name (.lit v)

section Operations

-- The target's uninitialized value of a type.
variable (createTargetUninitialized : (t : Ty) → t.Val)

namespace ExecutionState

/-- `initializeStructLike` without taint: every field is uninitialized, and the header invalid. -/
def initializeStructLike (s : ExecutionState) (header : Header) : ExecutionState :=
  (header.fields.foldl (fun s field => s.set field (.lit (createTargetUninitialized field.type)))
    s).set header.getHeaderValidity .false

end ExecutionState

namespace HeaderCall

/-- What the interpreter does on the call. -/
def process (i : Interpretation) : HeaderCall → Interpretation
  | .setValid header =>
    let state := i.state.initializeStructLike createTargetUninitialized header
    i.resume (state.set header.getHeaderValidity .true)
  | .setInvalid header => i.resume (i.state.initializeStructLike createTargetUninitialized header)

end HeaderCall

/-- The rule of the interpreter for header calls. -/
def headerRules : SymbolicHandlers Empty HeaderCall where
  processTable table := table.elim
  callAction call i := some (call.process createTargetUninitialized i)

namespace Header

/-- The header becomes invalid. It has no fields then, and what they hold is uninitialized. -/
def invalidate (header : Header) (w : World) : World :=
  (header.fields.foldl (fun w field => w.set field (createTargetUninitialized field.type))
    w).set header.getHeaderValidity false

/-- The assignments that `initializeStructLike` makes. -/
def resets (header : Header) : ActionBody :=
  header.fields.map (fun field => setLiteral field (createTargetUninitialized field.type)) ++
    [setLiteral header.getHeaderValidity false]

end Header

namespace HeaderCall

/-- What a call does. The fields of a header that is valid stay as they are when it is set valid. -/
def run (w : World) : HeaderCall → World
  | .setValid header =>
    let valid : Bool := w.env header.getHeaderValidity
    let before := if valid then w else header.invalidate createTargetUninitialized w
    before.set header.getHeaderValidity true
  | .setInvalid header => header.invalidate createTargetUninitialized w

/-- What the interpreter takes a call for. It initializes the header in each case. -/
def renew (w : World) : HeaderCall → World
  | .setValid header =>
    (header.invalidate createTargetUninitialized w).set header.getHeaderValidity true
  | .setInvalid header => header.invalidate createTargetUninitialized w

/-- A header that is set valid is not valid yet, or its fields are uninitialized still. -/
def Keeps (w : World) : HeaderCall → Prop
  | .setValid header => w.env header.getHeaderValidity = true →
      ∀ field ∈ header.fields, w.env field = createTargetUninitialized field.type
  | .setInvalid _ => True

/-- The assignments that the interpreter makes of a call. -/
def assignments : HeaderCall → ActionBody
  | .setValid header =>
    header.resets createTargetUninitialized ++ [setLiteral header.getHeaderValidity true]
  | .setInvalid header => header.resets createTargetUninitialized

end HeaderCall

/-- The effect of header calls. -/
def headerEffects : Handlers Empty HeaderCall where
  applyTable table := table.elim
  callAction call w := call.run createTargetUninitialized w

end Operations

section Assignments

variable {createTargetUninitialized : (t : Ty) → t.Val} (fields : List StateVariable)

theorem statements_setLiteral (v : (x : StateVariable) → x.type.Val) (rest : ActionBody)
    (i : Interpretation) :
    FlayStepper.statements SymbolicHandlers.none
        (fields.map (fun x => setLiteral x (v x)) ++ rest) i =
      FlayStepper.statements SymbolicHandlers.none rest
        (i.resume (fields.foldl (fun s x => s.set x (.lit (v x))) i.state)) := by
  induction fields generalizing i with
  | nil => rfl
  | cons x fields ih => exact ih (i.resume (i.state.set x (.lit (v x))))

theorem execAll_setLiteral (v : (x : StateVariable) → x.type.Val) (rest : ActionBody) (w : World) :
    execAll Handlers.none (fields.map (fun x => setLiteral x (v x)) ++ rest) w =
      execAll Handlers.none rest (fields.foldl (fun w x => w.set x (v x)) w) := by
  induction fields generalizing w with
  | nil => rfl
  | cons x fields ih => exact ih (w.set x (v x))

/-- Variables that are set to the values they have. -/
theorem foldl_set_of_env {v : (x : StateVariable) → x.type.Val} {w : World}
    (h : ∀ x ∈ fields, w.env x = v x) : fields.foldl (fun w x => w.set x (v x)) w = w := by
  induction fields with
  | nil => rfl
  | cons x fields ih =>
    rw [List.foldl_cons, World.set_of_env (h x List.mem_cons_self)]
    exact ih fun y mem => h y (List.mem_cons_of_mem _ mem)

theorem headerRules_inlines :
    (headerRules createTargetUninitialized).Inlines
      (HeaderCall.assignments createTargetUninitialized) := by
  intro call i
  cases call with
  | setValid header =>
    rw [HeaderCall.assignments, Header.resets, List.append_assoc, statements_setLiteral]
    rfl
  | setInvalid header =>
    rw [HeaderCall.assignments, Header.resets, statements_setLiteral]
    rfl

theorem HeaderCall.execAll_assignments (call : HeaderCall) (w : World) :
    execAll Handlers.none (call.assignments createTargetUninitialized) w =
      call.renew createTargetUninitialized w := by
  cases call with
  | setValid header =>
    rw [assignments, Header.resets, List.append_assoc, execAll_setLiteral]
    rfl
  | setInvalid header =>
    rw [assignments, Header.resets, execAll_setLiteral]
    rfl

/-- A header that is initialized anew has the fields that it keeps. -/
theorem HeaderCall.Keeps.run_eq {call : HeaderCall} {w : World}
    (keeps : call.Keeps createTargetUninitialized w) :
    call.run createTargetUninitialized w = call.renew createTargetUninitialized w := by
  cases call with
  | setInvalid header => rfl
  | setValid header =>
    rw [run, renew]
    split
    · rename_i valid
      have blank := foldl_set_of_env header.fields
        (v := fun x => createTargetUninitialized x.type) (keeps valid)
      rw [Header.invalidate, blank, World.set_set]
    · rfl

theorem supported_assignments (vars : List StateVariable) (call : HeaderCall) :
    SupportedAll vars (call.assignments createTargetUninitialized) := by
  have literals : ∀ (l : List StateVariable) (v : (x : StateVariable) → x.type.Val) rest,
      SupportedAll vars rest →
        SupportedAll vars (l.map (fun x => setLiteral x (v x)) ++ rest) := by
    intro l v rest supported
    induction l with
    | nil => exact supported
    | cons x l ih => exact ⟨List.nil_subset _, ih⟩
  cases call with
  | setValid header =>
    rw [HeaderCall.assignments, Header.resets, List.append_assoc]
    exact literals _ _ _ ⟨List.nil_subset _, List.nil_subset _, trivial⟩
  | setInvalid header => exact literals _ _ _ ⟨List.nil_subset _, trivial⟩

end Assignments

section Exactness

variable {createTargetUninitialized : (t : Ty) → t.Val} {vars : List StateVariable} {ρ : Valuation}

theorem SupportedAll.take {α : Type} {l : List (Statement Empty α)} (h : SupportedAll vars l)
    (n : Nat) : SupportedAll vars (l.take n) := by
  induction l generalizing n with
  | nil => simpa using h
  | cons s l ih =>
    cases n with
    | zero => trivial
    | succ n => exact ⟨h.1, ih h.2 n⟩

theorem Simulates.foldl_set (fields : List StateVariable) (v : (x : StateVariable) → x.type.Val)
    {s : ExecutionState} {w : World} (h : Simulates ρ vars s w) :
    Simulates ρ vars (fields.foldl (fun s x => s.set x (.lit (v x))) s)
      (fields.foldl (fun w x => w.set x (v x)) w) := by
  induction fields generalizing s w with
  | nil => exact h
  | cons x fields ih => exact ih (h.set (Expr.eval_lit (v x)))

theorem env_foldl_set (fields : List StateVariable) (v : (x : StateVariable) → x.type.Val)
    (w : World) (x : StateVariable) :
    (fields.foldl (fun w x => w.set x (v x)) w).env x = if x ∈ fields then v x else w.env x := by
  induction fields generalizing w with
  | nil => simp
  | cons y fields ih =>
    rw [List.foldl_cons, ih]
    by_cases same : x = y
    · subst same
      simp
    · simp [same, World.env_set_ne _ _ same]

theorem HeaderCall.simulates_renew {i : Interpretation} {w : World}
    (h : Simulates ρ vars i.state w) (call : HeaderCall) :
    Simulates ρ vars (call.process createTargetUninitialized i).state
      (call.renew createTargetUninitialized w) := by
  have reset : ∀ header : Header, Simulates ρ vars
      (i.state.initializeStructLike createTargetUninitialized header)
      (header.invalidate createTargetUninitialized w) := fun header =>
    (h.foldl_set header.fields fun x => createTargetUninitialized x.type).set
      (Expr.eval_lit (t := .boolean) false)
  cases call with
  | setValid header => exact (reset header).set (Expr.eval_lit (t := .boolean) true)
  | setInvalid header => exact reset header

/-- What the interpreter leaves after a call is what the call does if and only if the call keeps the
fields of its header. -/
theorem HeaderCall.simulates_iff {i : Interpretation} {w : World} (h : Simulates ρ vars i.state w)
    (call : HeaderCall) (known : call.header.fields ⊆ vars) :
    Simulates ρ vars (call.process createTargetUninitialized i).state
        (call.run createTargetUninitialized w) ↔
      call.Keeps createTargetUninitialized w := by
  have renewed : Simulates ρ vars (call.process createTargetUninitialized i).state
      (call.renew createTargetUninitialized w) := simulates_renew h call
  refine ⟨fun simulates => ?_, fun keeps => keeps.run_eq ▸ renewed⟩
  cases call with
  | setInvalid header => trivial
  | setValid header =>
    intro valid field mem
    have distinct : field ≠ header.getHeaderValidity := by
      rintro rfl
      exact header.apart mem
    have same : ((setValid header).run createTargetUninitialized w).env field =
        ((setValid header).renew createTargetUninitialized w).env field :=
      Option.some.inj ((simulates field (known mem)).symm.trans (renewed field (known mem)))
    have kept : ((setValid header).run createTargetUninitialized w).env field = w.env field := by
      rw [run]
      simp only [valid, if_true]
      exact World.env_set_ne _ _ distinct
    have reset : ((setValid header).renew createTargetUninitialized w).env field =
        createTargetUninitialized field.type := by
      rw [renew, World.env_set_ne _ _ distinct, Header.invalidate, World.env_set_ne _ _ distinct,
        env_foldl_set header.fields (fun x => createTargetUninitialized x.type), if_pos mem]
    exact kept.symm.trans (same.trans reset)

/-- The interpreter follows a run at each of its statements where every header that is set valid is
invalid or uninitialized still. It does not follow any other call. -/
theorem headers_simulate (createTargetUninitialized : (t : Ty) → t.Val) (l : List HeaderStatement)
    (i : Interpretation) (supported : SupportedAll i.state.env.keys l) :
    (∀ n, ∃ i', FlayStepper.statements (headerRules createTargetUninitialized) (l.take n) i = some i' ∧
      ∀ ρ w, i.state.Holds ρ → Simulates ρ i.state.env.keys i.state w →
        (∀ c ∈ callsAll (headerEffects createTargetUninitialized) l w,
          c.1.Keeps createTargetUninitialized c.2) →
        Simulates ρ i.state.env.keys i'.state
          (execAll (headerEffects createTargetUninitialized) (l.take n) w)) ∧
      ∀ (call : HeaderCall) ρ w, call.header.fields ⊆ i.state.env.keys →
        Simulates ρ i.state.env.keys i.state w →
        (Simulates ρ i.state.env.keys (call.process createTargetUninitialized i).state
            (call.run createTargetUninitialized w) ↔
          call.Keeps createTargetUninitialized w) := by
  refine ⟨fun n => ?_, fun call ρ w known simulates => call.simulates_iff simulates known⟩
  have supports : ∀ call : HeaderCall,
      SupportedAll i.state.env.keys (call.assignments createTargetUninitialized) :=
    supported_assignments i.state.env.keys
  have inlined := supportedAll_inline supports (l.take n) (supported.take n)
  obtain ⟨i', ran, steps⟩ := statements_steps _ inlined i (List.Subset.refl _)
  refine ⟨i', (statements_inline headerRules_inlines (l.take n) i).trans ran, ?_⟩
  intro ρ w holds simulates keeps
  have assigned : ∀ c ∈ callsAll (headerEffects createTargetUninitialized) (l.take n) w,
      Inlines (headerEffects createTargetUninitialized)
        (HeaderCall.assignments createTargetUninitialized) c := fun c mem =>
    (keeps c (mem_callsAll_of_take mem)).run_eq.trans (c.1.execAll_assignments c.2).symm
  rw [execAll_inline (l.take n) w assigned]
  exact steps.simulation.values ρ w holds simulates

end Exactness

section Examples

def ethernetHeader : Header where
  name := "eth"
  fields := [⟨"eth.type", .bit 8⟩]
  distinct := List.nodup_singleton _
  apart := by simp

/-- A state in which the header is valid and its field has the value 7. -/
def ethernetState : Interpretation where
  state :=
    { env := (OrderedMap.empty.set ⟨"eth.type", .bit 8⟩ (.lit (7 : BitVec 8))).set
        ethernetHeader.getHeaderValidity .true
      executionCondition := none
      nodeAnnotationMap := .empty }
  objects := []
  tableKeyMatches := []

def ethernetWorld : World :=
  (zeroWorld.set ⟨"eth.type", .bit 8⟩ (7 : BitVec 8)).set ethernetHeader.getHeaderValidity true

theorem ethernetWorld_simulated (ρ : Valuation) :
    Simulates ρ ethernetState.state.env.keys ethernetState.state ethernetWorld := by
  intro x mem
  have cases : x = ⟨"eth.type", .bit 8⟩ ∨ x = ethernetHeader.getHeaderValidity := by
    simpa [ethernetState] using mem
  obtain rfl | rfl := cases
  · rfl
  · rfl

/-- The header is removed, and added again where it is not valid. -/
def readdedHeader : List HeaderStatement :=
  [.call (.setInvalid ethernetHeader),
    .ifStatement 1 (.lNot (ethernetHeader.isValid 2)) (.call (.setValid ethernetHeader)) none,
    .assignment (t := .bit 8) "eth.type" (.lit (5 : BitVec 8))]

theorem headers_simulate_readdedHeader :
    ∃ i', FlayStepper.statements (headerRules fun _ => default) readdedHeader ethernetState = some i' ∧
      ∀ ρ, Simulates ρ ethernetState.state.env.keys i'.state
        (execAll (headerEffects fun _ => default) readdedHeader ethernetWorld) := by
  obtain ⟨i', ran, follows⟩ := (headers_simulate (fun _ => default) readdedHeader ethernetState
    ⟨trivial, ⟨by decide, trivial, trivial⟩, List.nil_subset _, trivial⟩).1 3
  refine ⟨i', ran, fun ρ => follows ρ ethernetWorld rfl (ethernetWorld_simulated ρ) ?_⟩
  have keeps : ∀ w : World, w.env ethernetHeader.getHeaderValidity = false →
      (HeaderCall.setValid ethernetHeader).Keeps (fun _ => default) w := by
    intro w invalid valid
    cases invalid.symm.trans valid
  intro c mem
  obtain rfl | rfl | ⟨⟨⟩⟩ :=
    (List.mem_cons.mp mem).imp_right fun (mem : c ∈ [(HeaderCall.setValid ethernetHeader, _)]) =>
      List.mem_cons.mp mem
  · trivial
  · exact keeps _ rfl

def validHeader : List HeaderStatement := [.call (.setValid ethernetHeader)]

/-- A valid header that is set valid loses its field. -/
theorem headers_simulate_setValid :
    SupportedAll ethernetState.state.env.keys validHeader ∧
      ethernetState.state.Holds (fun _ => default) ∧
      Simulates (fun _ => default) ethernetState.state.env.keys ethernetState.state ethernetWorld ∧
      (execAll (headerEffects fun _ => default) validHeader ethernetWorld).env ⟨"eth.type", .bit 8⟩ =
        (7 : BitVec 8) ∧
      ∃ i', FlayStepper.statements (headerRules fun _ => default)
          validHeader ethernetState = some i' ∧
        i'.state.value (fun _ => default) ⟨"eth.type", .bit 8⟩ = some (0 : BitVec 8) ∧
        ¬Simulates (fun _ => default) ethernetState.state.env.keys i'.state
          (execAll (headerEffects fun _ => default) validHeader ethernetWorld) := by
  refine ⟨⟨trivial, trivial⟩, rfl, ethernetWorld_simulated _, rfl, _, rfl, rfl, fun simulates => ?_⟩
  have value := simulates ⟨"eth.type", .bit 8⟩ (by decide)
  exact absurd value (by decide)

end Examples

end Flay
