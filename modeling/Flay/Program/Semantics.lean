import Flay.Program.Syntax

/-! The concrete execution of a program: what its statements do to a packet's state, with a record
of the branches that are taken, the tables that are applied and the values that are read. -/

namespace Flay

/-- What an application of a table returns. -/
structure TableResult where
  hit : Bool
  actionRun : String

/-- What happens in a run. `taken` records an if statement whose condition holds and a switch case
whose label the value equals. -/
inductive Event
  | taken (node : Node)
  | applied (table : String)
  | read (node : Node) (value : Sigma Ty.Val)

/-- The values of the variables, and what has happened so far. -/
structure World where
  env : (x : StateVariable) → x.type.Val
  events : List Event

namespace World

def emit (w : World) (e : Event) : World := { w with events := w.events ++ [e] }

/-- The world with the variable set to the value. -/
def set (w : World) (x : StateVariable) (v : x.type.Val) : World :=
  { w with env := fun y => if h : y = x then h ▸ v else w.env y }

@[simp] theorem env_emit (w : World) (e : Event) : (w.emit e).env = w.env := rfl

@[simp] theorem events_emit (w : World) (e : Event) : (w.emit e).events = w.events ++ [e] := rfl

@[simp] theorem env_set_self (w : World) (x : StateVariable) (v : x.type.Val) :
    (w.set x v).env x = v := by simp [set]

theorem env_set_ne (w : World) {x y : StateVariable} (v : x.type.Val) (h : y ≠ x) :
    (w.set x v).env y = w.env y := by simp [set, h]

theorem set_set (w : World) (x : StateVariable) (u v : x.type.Val) :
    (w.set x u).set x v = w.set x v := by
  refine congrArg (fun env => { w with env }) (funext fun y => ?_)
  by_cases same : y = x <;> simp [set, same]

/-- A variable that is set to the value it has. -/
theorem set_of_env {w : World} {x : StateVariable} {v : x.type.Val} (h : w.env x = v) :
    w.set x v = w := by
  refine congrArg (fun env => { w with env }) (funext fun y => ?_)
  by_cases same : y = x
  · subst same
    simp [h]
  · simp [same]

@[simp] theorem events_set (w : World) (x : StateVariable) (v : x.type.Val) :
    (w.set x v).events = w.events := rfl

end World

/-- What the application of a table and the call of an action do. -/
structure Handlers (τ α : Type) where
  applyTable : τ → World → TableResult × World
  callAction : α → World → World

/-- The handlers where there is nothing to apply or to call. -/
def Handlers.none : Handlers Empty Empty := ⟨fun t => t.elim, fun a => a.elim⟩

namespace ProgramExpr

variable {τ α : Type} (h : Handlers τ α)

def eval : {t : Ty} → ProgramExpr τ t → World → t.Val × World
  | _, .lit value, w => (value, w)
  | _, .path node name t, w => (w.env ⟨name, t⟩, w.emit (.read node ⟨t, w.env ⟨name, t⟩⟩))
  | _, .hit _ table, w =>
    let applied := h.applyTable table w
    (applied.1.hit, applied.2)
  | _, .miss _ table, w =>
    let applied := h.applyTable table w
    (!applied.1.hit, applied.2)
  | _, .actionRun table, w =>
    let applied := h.applyTable table w
    (applied.1.actionRun, applied.2)
  | _, .lNot e, w =>
    let result := e.eval w
    (!result.1, result.2)
  | _, .lAnd left right, w =>
    let result := left.eval w
    if result.1 then right.eval result.2 else (false, result.2)
  | _, .lOr left right, w =>
    let result := left.eval w
    if result.1 then (true, result.2) else right.eval result.2
  | _, .equ left right, w =>
    let result := left.eval w
    let result' := right.eval result.2
    (decide (result.1 = result'.1), result'.2)
  | _, .neq left right, w =>
    let result := left.eval w
    let result' := right.eval result.2
    (!decide (result.1 = result'.1), result'.2)
  | _, .unary op e, w =>
    let result := e.eval w
    (op.eval result.1, result.2)
  | _, .binary op left right, w =>
    let result := left.eval w
    let result' := right.eval result.2
    (op.eval result.1 result'.1, result'.2)
  | _, .mux e0 e1 e2, w =>
    let result := e0.eval w
    if result.1 then e1.eval result.2 else e2.eval result.2

end ProgramExpr

namespace SwitchLabel

/-- Whether a value of the type goes to the label. -/
def accepts {t : Ty} (label : SwitchLabel) (v : t.Val) : Bool :=
  label == .default || label.literal t == some v

end SwitchLabel

mutual

def Statement.exec {τ α : Type} (h : Handlers τ α) : Statement τ α → World → World
  | .empty, w => w
  | .assignment (t := t) left right, w =>
    let result := right.eval h w
    result.2.set ⟨left, t⟩ result.1
  | .declaration (t := t) name initializer, w =>
    let result := initializer.eval h w
    result.2.set ⟨name, t⟩ result.1
  | .block components, w => execAll h components w
  | .ifStatement node condition ifTrue ifFalse, w =>
    let result := condition.eval h w
    if result.1 then ifTrue.exec h (result.2.emit (.taken node)) else execOption h ifFalse result.2
  | .switchStatement expression cases, w =>
    let result := expression.eval h w
    execCases h result.1 false cases result.2
  | .apply table, w => (h.applyTable table w).2
  | .call action, w => h.callAction action w

def execAll {τ α : Type} (h : Handlers τ α) : List (Statement τ α) → World → World
  | [], w => w
  | s :: l, w => execAll h l (s.exec h w)

def execOption {τ α : Type} (h : Handlers τ α) : Option (Statement τ α) → World → World
  | none, w => w
  | some s, w => s.exec h w

/-- The cases of a switch from the first whose label accepts the value, down to the first with a
statement. -/
def execCases {τ α : Type} (h : Handlers τ α) {t : Ty} (v : t.Val) :
    Bool → List (SwitchCase τ α) → World → World
  | _, [], w => w
  | fallen, c :: cases, w => execCase h v fallen c (fun fallen w => execCases h v fallen cases w) w

def execCase {τ α : Type} (h : Handlers τ α) {t : Ty} (v : t.Val) (fallen : Bool) :
    SwitchCase τ α → (Bool → World → World) → World → World
  | .mk node label statement, next, w =>
    if fallen then execBody h statement (next true) w
    else if label.accepts v then
      execBody h statement (next true) (if label = .default then w else w.emit (.taken node))
    else next false w

def execBody {τ α : Type} (h : Handlers τ α) :
    Option (List (Statement τ α)) → (World → World) → World → World
  | none, next, w => next w
  | some body, _, w => execAll h body w

end

section Switch

variable {τ α : Type}

/-- The first case with a statement, and the cases after it. -/
def landing : List (SwitchCase τ α) → Option (SwitchCase τ α × List (SwitchCase τ α))
  | [] => none
  | c :: cases => if c.statement.isSome then some (c, cases) else landing cases

/-- The first statement of a case. -/
def landingBlock (cases : List (SwitchCase τ α)) : Option (List (Statement τ α)) :=
  (landing cases).bind fun selected => selected.1.statement

@[simp] theorem landingBlock_nil : landingBlock ([] : List (SwitchCase τ α)) = none := rfl

@[simp] theorem landingBlock_cons (c : SwitchCase τ α) (cases : List (SwitchCase τ α)) :
    landingBlock (c :: cases) = c.statement.or (landingBlock cases) := by
  cases body : c.statement <;> simp [landingBlock, landing, body]

/-- The case whose statement a switch runs for the value, and the cases after it. -/
def selectCase {t : Ty} (v : t.Val) :
    List (SwitchCase τ α) → Option (SwitchCase τ α × List (SwitchCase τ α))
  | [] => none
  | c :: cases => if c.label.accepts v then landing (c :: cases) else selectCase v cases

/-- The block that a switch runs for the value. -/
def selectBlock {t : Ty} (v : t.Val) (cases : List (SwitchCase τ α)) :
    Option (List (Statement τ α)) :=
  (selectCase v cases).bind fun selected => selected.1.statement

theorem selectBlock_cons {t : Ty} (v : t.Val) (c : SwitchCase τ α) (cases : List (SwitchCase τ α)) :
    selectBlock v (c :: cases) =
      if c.label.accepts v then landingBlock (c :: cases) else selectBlock v cases := by
  by_cases accepted : c.label.accepts v = true <;>
    simp [selectBlock, selectCase, accepted, landingBlock]

/-- The block, if there is one. -/
def execBlock (h : Handlers τ α) (block : Option (List (Statement τ α))) (w : World) : World :=
  (block.map (execAll h · w)).getD w

theorem execCases_true (h : Handlers τ α) {t : Ty} (v : t.Val) (cases : List (SwitchCase τ α))
    (w : World) : execCases h v true cases w = execBlock h (landingBlock cases) w := by
  induction cases with
  | nil => rw [execCases, landingBlock_nil]; rfl
  | cons c cases ih =>
    obtain ⟨node, label, statement⟩ := c
    cases statement with
    | none => simpa [execCases, execCase, execBody, SwitchCase.statement] using ih
    | some body => simp [execCases, execCase, execBody, SwitchCase.statement, execBlock]

/-- The case whose label accepts the value, as the switch records it. -/
def takeCase {t : Ty} (v : t.Val) (cases : List (SwitchCase τ α)) (w : World) : World :=
  match cases.find? fun c => c.label.accepts v with
  | none => w
  | some c => if c.label = .default then w else w.emit (.taken c.node)

theorem takeCase_cons {t : Ty} (v : t.Val) (c : SwitchCase τ α) (cases : List (SwitchCase τ α))
    (w : World) : takeCase v (c :: cases) w =
      if c.label.accepts v then if c.label = .default then w else w.emit (.taken c.node)
      else takeCase v cases w := by
  by_cases accepted : c.label.accepts v = true <;> simp [takeCase, accepted]

/-- A switch runs the block it selects. -/
theorem execCases_false (h : Handlers τ α) {t : Ty} (v : t.Val) (cases : List (SwitchCase τ α))
    (w : World) :
    execCases h v false cases w = execBlock h (selectBlock v cases) (takeCase v cases w) := by
  induction cases with
  | nil => simp [execCases, selectBlock, selectCase, execBlock, takeCase]
  | cons c cases ih =>
    obtain ⟨node, label, statement⟩ := c
    rw [takeCase_cons, selectBlock_cons, execCases, execCase]
    by_cases accepted : label.accepts v = true
    · cases statement with
      | none =>
        simp only [execBody, accepted, SwitchCase.label, SwitchCase.statement, execCases_true,
          landingBlock_cons, Option.none_or, if_true, Bool.false_eq_true, if_false]
        rfl
      | some body =>
        simp only [execBody, accepted, SwitchCase.label, SwitchCase.statement, landingBlock_cons,
          Option.some_or, if_true, Bool.false_eq_true, if_false]
        rfl
    · simpa [accepted, SwitchCase.label] using ih

end Switch

/-- The world with the parameters set to the arguments. -/
def World.setArguments (w : World) (arguments : List (Sigma fun p : Parameter => p.type.Val)) :
    World :=
  arguments.foldl (fun w a => w.set a.1.reference a.2) w

/-- The action with the arguments. -/
def P4Action.run (action : P4Action) (arguments : List (Sigma fun p : Parameter => p.type.Val))
    (w : World) : World :=
  execAll Handlers.none action.body (w.setArguments arguments)

def ActionCall.run (call : ActionCall) (w : World) : World := call.action.run call.arguments w

end Flay
