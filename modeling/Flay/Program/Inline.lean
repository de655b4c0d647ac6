import Flay.Program.Semantics

/-! Calls that a run makes, and the program in which the body of a call stands in its place. -/

namespace Flay

section Expressions

variable {α : Type} {t : Ty}

/-- An expression applies no table, so that its value has nothing to do with the handlers. -/
theorem eval_eq_none (h : Handlers Empty α) (e : ProgramExpr Empty t) (w : World) :
    e.eval h w = e.eval Handlers.none w := by
  induction e generalizing w with
  | lit => rfl
  | path => rfl
  | hit _ table | miss _ table | actionRun table => exact table.elim
  | lNot e ih | unary _ e ih => simp only [ProgramExpr.eval, ih]
  | lAnd left right ihLeft ihRight | lOr left right ihLeft ihRight
  | equ left right ihLeft ihRight | neq left right ihLeft ihRight
  | binary _ left right ihLeft ihRight => simp only [ProgramExpr.eval, ihLeft, ihRight]
  | mux e0 e1 e2 ih0 ih1 ih2 => simp only [ProgramExpr.eval, ih0, ih1, ih2]

end Expressions

mutual

/-- The calls that a run makes, each with the world that it is made in. -/
def Statement.calls {α : Type} (h : Handlers Empty α) : Statement Empty α → World → List (α × World)
  | .empty, _ => []
  | .assignment _ _, _ => []
  | .declaration _ _, _ => []
  | .block components, w => callsAll h components w
  | .ifStatement node condition ifTrue ifFalse, w =>
    let result := condition.eval h w
    if result.1 then ifTrue.calls h (result.2.emit (.taken node))
    else callsOption h ifFalse result.2
  | .switchStatement expression cases, w =>
    let result := expression.eval h w
    callsCases h result.1 false cases result.2
  | .apply table, _ => table.elim
  | .call action, w => [(action, w)]

def callsAll {α : Type} (h : Handlers Empty α) :
    List (Statement Empty α) → World → List (α × World)
  | [], _ => []
  | s :: l, w => s.calls h w ++ callsAll h l (s.exec h w)

def callsOption {α : Type} (h : Handlers Empty α) :
    Option (Statement Empty α) → World → List (α × World)
  | none, _ => []
  | some s, w => s.calls h w

def callsCases {α : Type} (h : Handlers Empty α) {t : Ty} (v : t.Val) :
    Bool → List (SwitchCase Empty α) → World → List (α × World)
  | _, [], _ => []
  | fallen, c :: cases, w =>
    callsCase h v fallen c (fun fallen w => callsCases h v fallen cases w) w

def callsCase {α : Type} (h : Handlers Empty α) {t : Ty} (v : t.Val) (fallen : Bool) :
    SwitchCase Empty α → (Bool → World → List (α × World)) → World → List (α × World)
  | .mk node label statement, next, w =>
    if fallen then callsBody h statement (next true) w
    else if label.accepts v then
      callsBody h statement (next true) (if label = .default then w else w.emit (.taken node))
    else next false w

def callsBody {α : Type} (h : Handlers Empty α) :
    Option (List (Statement Empty α)) → (World → List (α × World)) → World → List (α × World)
  | none, next, w => next w
  | some body, _, w => callsAll h body w

end

mutual

/-- The program with the body of each call in its place. -/
def Statement.inline {α : Type} (body : α → ActionBody) : Statement Empty α → Statement Empty Empty
  | .empty => .empty
  | .assignment left right => .assignment left right
  | .declaration name initializer => .declaration name initializer
  | .block components => .block (inlineAll body components)
  | .ifStatement node condition ifTrue ifFalse =>
    .ifStatement node condition (ifTrue.inline body) (inlineOption body ifFalse)
  | .switchStatement expression cases => .switchStatement expression (inlineCases body cases)
  | .apply table => table.elim
  | .call action => .block (body action)

def inlineAll {α : Type} (body : α → ActionBody) : List (Statement Empty α) → ActionBody
  | [] => []
  | s :: l => s.inline body :: inlineAll body l

def inlineOption {α : Type} (body : α → ActionBody) :
    Option (Statement Empty α) → Option (Statement Empty Empty)
  | none => none
  | some s => some (s.inline body)

def inlineCases {α : Type} (body : α → ActionBody) :
    List (SwitchCase Empty α) → List (SwitchCase Empty Empty)
  | [] => []
  | .mk node label statement :: cases =>
    .mk node label (inlineBody body statement) :: inlineCases body cases

def inlineBody {α : Type} (body : α → ActionBody) :
    Option (List (Statement Empty α)) → Option ActionBody
  | none => none
  | some statements => some (inlineAll body statements)

end

section Run

variable {α : Type} {h : Handlers Empty α} {body : α → ActionBody}

/-- The call does in the world what its body does. -/
def Inlines (h : Handlers Empty α) (body : α → ActionBody) (c : α × World) : Prop :=
  h.callAction c.1 c.2 = execAll Handlers.none (body c.1) c.2

mutual

/-- Where each call of the run does what its body does, so does the program with the bodies. -/
theorem exec_inline : (s : Statement Empty α) → (w : World) →
    (∀ c ∈ s.calls h w, Inlines h body c) → s.exec h w = (s.inline body).exec Handlers.none w
  | .empty, _, _ => rfl
  | .assignment _ right, w, _ => by
    simp only [Statement.exec, Statement.inline, eval_eq_none]
  | .declaration _ initializer, w, _ => by
    simp only [Statement.exec, Statement.inline, eval_eq_none]
  | .block components, w, inlined => by
    rw [Statement.exec, Statement.inline, Statement.exec]
    exact execAll_inline components w inlined
  | .ifStatement node condition ifTrue ifFalse, w, inlined => by
    rw [Statement.calls, eval_eq_none] at inlined
    rw [Statement.exec, Statement.inline, Statement.exec, eval_eq_none]
    split
    · rename_i holds
      rw [if_pos holds] at inlined
      exact exec_inline ifTrue _ inlined
    · rename_i fails
      rw [if_neg fails] at inlined
      exact execOption_inline ifFalse _ inlined
  | .switchStatement expression cases, w, inlined => by
    rw [Statement.calls, eval_eq_none] at inlined
    rw [Statement.exec, Statement.inline, Statement.exec, eval_eq_none]
    exact execCases_inline _ cases false _ inlined
  | .apply table, _, _ => table.elim
  | .call action, w, inlined => inlined (action, w) (List.mem_singleton.mpr rfl)

theorem execAll_inline : (l : List (Statement Empty α)) → (w : World) →
    (∀ c ∈ callsAll h l w, Inlines h body c) →
      execAll h l w = execAll Handlers.none (inlineAll body l) w
  | [], _, _ => rfl
  | s :: l, w, inlined => by
    rw [callsAll] at inlined
    have first := exec_inline s w fun c mem => inlined c (List.mem_append_left _ mem)
    have rest := execAll_inline l (s.exec h w) fun c mem => inlined c (List.mem_append_right _ mem)
    rw [execAll, rest, first]
    rfl

theorem execOption_inline : (s : Option (Statement Empty α)) → (w : World) →
    (∀ c ∈ callsOption h s w, Inlines h body c) →
      execOption h s w = execOption Handlers.none (inlineOption body s) w
  | none, _, _ => rfl
  | some s, w, inlined => exec_inline s w inlined

theorem execCases_inline {t : Ty} (v : t.Val) : (cases : List (SwitchCase Empty α)) →
    (fallen : Bool) → (w : World) → (∀ c ∈ callsCases h v fallen cases w, Inlines h body c) →
      execCases h v fallen cases w = execCases Handlers.none v fallen (inlineCases body cases) w
  | [], _, _, _ => by rw [execCases, inlineCases, execCases]
  | .mk node label statement :: cases, fallen, w, inlined => by
    have next := execCases_inline v cases
    rw [callsCases, callsCase] at inlined
    rw [execCases, execCase, inlineCases, execCases, execCase]
    by_cases fell : fallen = true
    · rw [if_pos fell] at inlined
      rw [if_pos fell, if_pos fell]
      exact execBody_inline statement (next true) w inlined
    · rw [if_neg fell] at inlined
      rw [if_neg fell, if_neg fell]
      by_cases accepted : label.accepts v = true
      · rw [if_pos accepted] at inlined
        rw [if_pos accepted, if_pos accepted]
        exact execBody_inline statement (next true) _ inlined
      · rw [if_neg accepted] at inlined
        rw [if_neg accepted, if_neg accepted]
        exact next false w inlined

theorem execBody_inline : (statement : Option (List (Statement Empty α))) →
    {calls : World → List (α × World)} → {next next' : World → World} →
      (∀ w, (∀ c ∈ calls w, Inlines h body c) → next w = next' w) → (w : World) →
        (∀ c ∈ callsBody h statement calls w, Inlines h body c) →
          execBody h statement next w =
            execBody Handlers.none (inlineBody body statement) next' w
  | none, _, _, _, follows, w, inlined => follows w inlined
  | some statements, _, _, _, _, w, inlined => execAll_inline statements w inlined

end

/-- The calls of a run so far are among its calls. -/
theorem mem_callsAll_of_take {l : List (Statement Empty α)} {n : Nat} {w : World} {c : α × World}
    (mem : c ∈ callsAll h (l.take n) w) : c ∈ callsAll h l w := by
  induction l generalizing n w with
  | nil => simpa using mem
  | cons s l ih =>
    cases n with
    | zero => cases mem
    | succ n =>
      rw [List.take_succ_cons, callsAll, List.mem_append] at mem
      exact List.mem_append.mpr (mem.imp_right ih)

end Run

end Flay
