import Flay.ControlPlane.Objects
import Flay.Program.Syntax

/-! The conditions under which an applied table runs its actions, over the variables that the
control plane assigns, the action that they select, and the arguments that it takes. -/

namespace Flay

namespace TableExecutor

/-- The variable of the control plane for an argument. One of a boolean is a bit. -/
def actionArgument (symbolicTablePrefix actionName : String) : (p : Parameter) → Expr p.type
  | ⟨_, controlPlaneName, .boolean⟩ =>
    .equ (getTableActionArgument symbolicTablePrefix actionName controlPlaneName (.bit 1)).expr
      (.lit (1 : BitVec 1))
  | ⟨_, controlPlaneName, type⟩ =>
    (getTableActionArgument symbolicTablePrefix actionName controlPlaneName type).expr

variable (table : P4Table)

/-- The action choice names the action. -/
def chosen (action : ActionListElement) : Expr .boolean :=
  .equ (getTableActionChoice table.controlPlaneName).expr (.lit action.action.controlPlaneName)

/-- The first loop of `processTableActionOptions`. -/
def totalHitCondition : Expr .boolean :=
  .lAnd
    (table.actionList.foldl (fun condition action =>
      if action.defaultOnly then condition else .lOr condition (chosen table action)) .false)
    (getTableActive table.controlPlaneName).expr

/-- The condition of an action in the second loop of `processTableActionOptions`. -/
def actionHitCondition (action : ActionListElement) : Expr .boolean :=
  let condition := if action.defaultOnly then .false else chosen table action
  if action.tableOnly then condition
  else
    .lOr condition
      (.lAnd (.lNot (totalHitCondition table))
        (.equ (getDefaultActionVariable table.controlPlaneName).expr
          (.lit action.action.controlPlaneName)))

/-- An action that is not `@defaultonly` has the name. -/
def listed (name : String) : Bool :=
  table.actionList.any fun action => !action.defaultOnly && name == action.action.controlPlaneName

/-- What `actionHitCondition` says, for values of the three variables that it reads. -/
def selects (active : Bool) (choice defaultAction : String) (action : ActionListElement) : Bool :=
  (!action.defaultOnly && choice == action.action.controlPlaneName) ||
    (!action.tableOnly && !(listed table choice && active) &&
      defaultAction == action.action.controlPlaneName)

/-- The action that takes effect: the last of those whose condition holds. Without one, it is the
declared default action. -/
def selected (active : Bool) (choice defaultAction : String) : Option ActionListElement :=
  (table.actionList.filter (selects table active choice defaultAction)).getLast?

variable {table} {ρ : Valuation}

theorem eval_totalHitCondition : (totalHitCondition table).eval ρ =
    (listed table (ρ (getTableActionChoice table.controlPlaneName)) &&
      ρ (getTableActive table.controlPlaneName)) := by
  have loop : ∀ (l : List ActionListElement) (condition : Expr .boolean),
      (l.foldl (fun condition action =>
        if action.defaultOnly then condition else .lOr condition (chosen table action))
          condition).eval ρ =
        (condition.eval ρ || l.any fun action => !action.defaultOnly &&
          ρ (getTableActionChoice table.controlPlaneName) == action.action.controlPlaneName) := by
    intro l
    induction l with
    | nil => simp
    | cons action l ih =>
      intro condition
      rw [List.foldl_cons, ih, List.any_cons]
      cases action.defaultOnly <;> simp [chosen, Bool.or_assoc, beq_eq_decide]
  have folded := loop table.actionList .false
  rw [totalHitCondition, Expr.eval_lAnd, folded]
  simp [listed]

theorem eval_actionHitCondition (action : ActionListElement) :
    (actionHitCondition table action).eval ρ =
      selects table (ρ (getTableActive table.controlPlaneName))
        (ρ (getTableActionChoice table.controlPlaneName))
        (ρ (getDefaultActionVariable table.controlPlaneName)) action := by
  have total : (totalHitCondition table).eval ρ = _ := eval_totalHitCondition
  cases only : action.defaultOnly <;> cases tableOnly : action.tableOnly <;>
    simp [actionHitCondition, selects, chosen, only, tableOnly, total, beq_eq_decide]

theorem mem_of_selected {active : Bool} {choice defaultAction : String} {action : ActionListElement}
    (h : selected table active choice defaultAction = some action) : action ∈ table.actionList :=
  (List.mem_filter.mp (List.mem_of_getLast? h)).1

/-- A name that no action has selects none. -/
theorem selected_noAction (active : Bool) : selected table active noAction noAction = none := by
  have unnamed : ∀ action ∈ table.actionList,
      ¬selects table active noAction noAction action = true := by
    intro action _
    have named := action.action.named
    simp [selects, named.symm]
  rw [selected, List.filter_eq_nil_iff.mpr unnamed]
  rfl

end TableExecutor

end Flay
