import Flay.Ir.Expression
import Flay.Lib.OrderedMap

/-! What the program uses of the Z3 library and of the translation of its expressions to Z3, what
it relies on there, and a solver that computes on ground expressions. -/

namespace Flay

open Container

/-- The calls that the program makes to Z3: `Z3Translator::translate`, `z3::expr::simplify`,
`z3::ite`, `z3::expr::substitute`, and the reading of a term that is a truth value or a numeral. -/
class Z3 where
  Term : Ty → Type
  translate : {t : Ty} → Expr t → Term t
  simplify : {t : Ty} → Term t → Term t
  ite : {t : Ty} → Term .boolean → Term t → Term t → Term t
  substitute : {t : Ty} → Term t → List (Sigma fun x : SymbolicVariable => Term x.type) → Term t
  literal? : {t : Ty} → Term t → Option t.Val

namespace Z3

variable [Z3]

/-- `Z3Cache::set`. -/
def set {t : Ty} (e : Expr t) : Term t := simplify (translate e)

/-- The valuation in which an assigned variable has the value of the term assigned to it. -/
def assigned {ρ : Valuation} (eval : {t : Ty} → Term t → t.Val)
    (l : List (Sigma fun x : SymbolicVariable => Term x.type)) : Valuation :=
  fun x => ((l.dlookup x).map eval).getD (ρ x)

/-- The terms have values, and the calls keep them as their documentation says. -/
class Lawful where
  eval : Valuation → {t : Ty} → Term t → t.Val
  eval_translate : ∀ (ρ : Valuation) {t : Ty} (e : Expr t), eval ρ (translate e) = e.eval ρ
  eval_simplify : ∀ (ρ : Valuation) {t : Ty} (e : Term t), eval ρ (simplify e) = eval ρ e
  eval_ite : ∀ (ρ : Valuation) {t : Ty} (c : Term .boolean) (a b : Term t),
    eval ρ (ite c a b) = if eval ρ c then eval ρ a else eval ρ b
  eval_substitute : ∀ (ρ : Valuation) {t : Ty} (e : Term t)
    (l : List (Sigma fun x : SymbolicVariable => Term x.type)),
    eval ρ (substitute e l) = eval (assigned (ρ := ρ) (eval ρ) l) e
  eval_of_literal? : ∀ (ρ : Valuation) {t : Ty} (e : Term t) (v : t.Val),
    literal? e = some v → eval ρ e = v

/-- Substitution in a translated expression and the simplification of the result are functions of
the expression and of the assignments of the variables that occur in it. -/
class Local : Prop where
  simplify_substitute_congr : ∀ {t : Ty} (e : Expr t)
    (l l' : List (Sigma fun x : SymbolicVariable => Term x.type)),
    (∀ x ∈ e.symbols, l.dlookup x = l'.dlookup x) →
      simplify (substitute (simplify (set e)) l) = simplify (substitute (simplify (set e)) l')

attribute [simp] Lawful.eval_translate Lawful.eval_simplify Lawful.eval_ite

@[simp] theorem Lawful.eval_set [Lawful] (ρ : Valuation) {t : Ty} (e : Expr t) :
    Lawful.eval ρ (set e) = e.eval ρ := by simp [set]

end Z3

/-- The literal that an expression without symbolic variables equals. -/
def Expr.simplifyGround {t : Ty} (e : Expr t) : Expr t :=
  if e.symbols = [] then .lit (e.eval fun _ => default) else e

theorem Expr.eval_simplifyGround {ρ : Valuation} {t : Ty} (e : Expr t) :
    e.simplifyGround.eval ρ = e.eval ρ := by
  unfold simplifyGround
  split
  · rename_i ground
    rw [Expr.eval_lit]
    exact Expr.eval_congr (by simp [ground])
  · rfl

theorem Expr.symbols_simplifyGround {t : Ty} {e : Expr t} {x : SymbolicVariable}
    (h : x ∈ e.simplifyGround.symbols) : x ∈ e.symbols := by
  unfold simplifyGround at h
  split at h
  · simp [symbols] at h
  · exact h

/-- A solver whose terms are the expressions themselves and that computes the ground ones. -/
@[reducible] def exprSolver : Z3 where
  Term := Expr
  translate e := e
  simplify e := e.simplifyGround
  ite := .mux
  substitute e l := e.substitute fun x => l.dlookup x
  literal? e := e.literal?

@[reducible] def exprSolver.lawful : @Z3.Lawful exprSolver :=
  letI := exprSolver
  { eval := fun ρ _ e => Expr.eval ρ e
    eval_translate := fun _ _ _ => rfl
    eval_simplify := fun _ _ e => Expr.eval_simplifyGround e
    eval_ite := fun _ _ _ _ _ => Expr.eval_mux ..
    eval_substitute := fun _ _ _ _ => Expr.eval_substitute ..
    eval_of_literal? := fun _ _ _ _ h => Expr.eval_of_literal? h }

theorem exprSolver.local : @Z3.Local exprSolver :=
  letI := exprSolver
  { simplify_substitute_congr := by
      intro t e l l' h
      refine congrArg Expr.simplifyGround (Expr.substitute_congr fun x hx => h x ?_)
      exact Expr.symbols_simplifyGround (Expr.symbols_simplifyGround hx) }

end Flay
