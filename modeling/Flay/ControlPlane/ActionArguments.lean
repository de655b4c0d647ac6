import Flay.ControlPlane.EntryMessages
import Flay.Interpreter.TableConditions

/-! The arguments of an action: the values that a message gives them, and the variables that the
table executor reads for them. -/

namespace Flay

open Container TableExecutor

section Read

/-- The type of the variable for an argument of the type. -/
def argumentType : Ty → Ty
  | .boolean => .bit 1
  | type => type

theorem symbols_actionArgument (tableName actionName : String) (p : Parameter) :
    (actionArgument tableName actionName p).symbols =
      [getTableActionArgument tableName actionName p.controlPlaneName (argumentType p.type)] := by
  obtain ⟨name, controlPlaneName, type⟩ := p
  cases type <;> rfl

/-- The two types differ for a boolean alone. -/
theorem argumentType_eq_self_iff {type : Ty} : argumentType type = type ↔ type ≠ .boolean := by
  cases type <;> simp [argumentType]

/-- The value of the type that a number of a message stands for. A boolean is a bit. -/
def Ty.ofNumber : (t : Ty) → Nat → t.Val
  | .boolean, n => BitVec.ofNat 1 n == 1
  | .bits _ width, n => BitVec.ofNat width n
  | .string, _ => default

theorem eval_actionArgument_congr {tableName actionName : String} {p : Parameter} {ρ ρ' : Valuation}
    (same : ρ' (getTableActionArgument tableName actionName p.controlPlaneName
      (argumentType p.type)) = ρ (getTableActionArgument tableName actionName p.controlPlaneName
        (argumentType p.type))) :
    (actionArgument tableName actionName p).eval ρ' = (actionArgument tableName actionName p).eval ρ := by
  refine Expr.eval_congr fun x reads => ?_
  rw [symbols_actionArgument, List.mem_singleton] at reads
  rw [reads, same]

end Read

section Given

/-- The width that the program information has for a type. -/
def P4Info.bitwidth : Ty → Option Nat
  | .bits _ width => some width
  | .boolean => some 1
  | .string => none

/-- The program information is about the action. -/
structure P4Info.Action.Describes (p4Action : P4Info.Action) (action : P4Action) : Prop where
  name : p4Action.name = action.controlPlaneName
  params : p4Action.params.map (fun param => (param.name, some param.bitwidth)) =
    action.parameters.map fun p => (p.controlPlaneName, bitwidth p.type)

namespace P4Info.Action.Describes

variable {p4Action : P4Info.Action} {action : P4Action} (described : p4Action.Describes action)

include described

theorem exists_parameter {param : ActionParam} (mem : param ∈ p4Action.params) :
    ∃ p ∈ action.parameters,
      p.controlPlaneName = param.name ∧ bitwidth p.type = some param.bitwidth := by
  have listed := List.mem_map_of_mem (f := fun param => (param.name, some param.bitwidth)) mem
  rw [described.params] at listed
  simpa using listed

theorem exists_param {p : Parameter} (mem : p ∈ action.parameters) :
    ∃ param ∈ p4Action.params,
      param.name = p.controlPlaneName ∧ bitwidth p.type = some param.bitwidth := by
  have listed := List.mem_map_of_mem (f := fun p => (p.controlPlaneName, bitwidth p.type)) mem
  rw [← described.params] at listed
  simpa [eq_comm] using listed

end P4Info.Action.Describes

theorem bitwidth_argumentType (type : Ty) :
    P4Info.bitwidth (argumentType type) = P4Info.bitwidth type := by
  cases type <;> rfl

/-- What a message gives an argument, an unsigned number, is what the executor reads unless the
parameter is signed. -/
theorem argumentType_eq_bit_iff {type : Ty} {width : Nat}
    (described : P4Info.bitwidth type = some width) :
    argumentType type = .bit width ↔ ∀ w, type ≠ .bits true w := by
  cases type with
  | boolean =>
    cases described
    simp [argumentType]
  | bits isSigned w =>
    cases described
    simp [argumentType]
  | string => cases described

variable {tableName : String} {p4Action : P4Info.Action}

theorem mem_keys_convertParams {params : List ParamConfig}
    {converted converted' : LiteralAssignmentSet × SymbolSet}
    (run : params.foldlM (convertParam tableName p4Action) converted = some converted')
    {x : SymbolicVariable} :
    x ∈ converted'.1.keys ↔ x ∈ converted.1.keys ∨ ∃ paramConfig ∈ params, ∃ param,
      p4Action.params.find? (fun param => param.id == paramConfig.paramId) = some param ∧
        x = getTableActionArgument tableName p4Action.name param.name (.bit param.bitwidth) := by
  induction params generalizing converted with
  | nil =>
    cases run
    simp
  | cons paramConfig params ih =>
    simp only [List.foldlM_cons, bind, Option.bind_eq_some_iff] at run
    obtain ⟨middle, step, run⟩ := run
    simp only [convertParam, bind, Option.bind_eq_some_iff, Option.some.injEq] at step
    obtain ⟨param, found, value, -, rfl⟩ := step
    rw [ih run, OrderedMap.mem_keys_emplace, or_assoc]
    simp [found]

theorem mem_keys_convertTableAction_iff {tblAction : TableAction} {isDefaultAction : Bool}
    {converted : LiteralAssignmentSet × SymbolSet}
    (convert : convertTableAction tblAction tableName p4Action isDefaultAction = some converted)
    (parameter : String) (type : Ty) :
    getTableActionArgument tableName p4Action.name parameter type ∈ converted.1.keys ↔
      tblAction.params.length = p4Action.params.length ∧ ∃ param ∈ p4Action.params,
        (∃ paramConfig ∈ tblAction.params, p4Action.Names paramConfig param) ∧
          param.name = parameter ∧ .bit param.bitwidth = type := by
  have unnamed : getTableActionArgument tableName p4Action.name parameter type ∉
      (OrderedMap.empty.emplace (tableActionID tableName isDefaultAction) p4Action.name :
        LiteralAssignmentSet).keys := by
    cases isDefaultAction <;> simp
  rw [convertTableAction] at convert
  split at convert
  · rename_i other
    cases convert
    exact iff_of_false unnamed fun assigned => other assigned.1
  · rename_i count
    rw [mem_keys_convertParams convert, or_iff_right unnamed, and_iff_right (not_not.mp count)]
    constructor
    · rintro ⟨paramConfig, given, param, found, same⟩
      cases same
      exact ⟨param, List.mem_of_find?_eq_some found, ⟨paramConfig, given, param, found, rfl, rfl⟩,
        rfl, rfl⟩
    · rintro ⟨param, -, ⟨paramConfig, given, param', found, name, width⟩, rfl, rfl⟩
      exact ⟨paramConfig, given, param', found, by rw [name, width]⟩

/-- The number that the message gives the parameter of the name: that of the first of its parameters
whose id is one of such a parameter. -/
def TableAction.given (tableAction : TableAction) (p4Action : P4Info.Action) (name : String) :
    Option Nat :=
  tableAction.params.findSome? fun paramConfig => do
    let param ← p4Action.params.find? fun param => param.id == paramConfig.paramId
    if param.name = name then paramConfig.value else none

variable {action : P4Action} (described : p4Action.Describes action) {p : Parameter}
  (mem : p ∈ action.parameters)

include described mem

/-- A described parameter has one width. -/
theorem bitwidth_of_describes {param : P4Info.ActionParam} (declared : param ∈ p4Action.params)
    (name : param.name = p.controlPlaneName) :
    P4Info.bitwidth p.type = some param.bitwidth := by
  obtain ⟨q, other, same, width⟩ := described.exists_parameter declared
  rwa [List.inj_on_of_nodup_map action.distinct mem other (name.symm.trans same.symm)]

theorem findSome_argument {width : Nat} (wide : P4Info.bitwidth p.type = some width)
    (params : List ParamConfig) :
    params.findSome? (TableEntryMessage.argument? tableName p4Action
        (getTableActionArgument tableName p4Action.name p.controlPlaneName (.bit width))) =
      (params.findSome? fun paramConfig => do
        let param ← p4Action.params.find? fun param => param.id == paramConfig.paramId
        if param.name = p.controlPlaneName then paramConfig.value else none).map
          (BitVec.ofNat width) := by
  rw [List.map_findSome?]
  congr 1
  funext paramConfig
  simp only [TableEntryMessage.argument?, Function.comp_apply, bind]
  cases found : p4Action.params.find? fun param => param.id == paramConfig.paramId with
  | none => rfl
  | some param =>
    simp only [Option.bind_some]
    cases paramConfig.value with
    | none => simp
    | some value =>
      simp only [Option.bind_some]
      by_cases name : param.name = p.controlPlaneName
      · have same := bitwidth_of_describes described mem (List.mem_of_find?_eq_some found) name
        obtain rfl := Option.some.inj (wide.symm.trans same)
        rw [if_pos name, name, OrderedMap.find_emplace_self, OrderedMap.find_empty]
        rfl
      · have other : getTableActionArgument tableName p4Action.name p.controlPlaneName (.bit width) ≠
            getTableActionArgument tableName p4Action.name param.name (.bit param.bitwidth) := by
          simp [Ne.symm name]
        rw [if_neg name, OrderedMap.find_emplace_ne _ _ other, OrderedMap.find_empty]
        rfl

/-- A converted action assigns to the argument what the message gives it, if the message has as many
parameters as the action. -/
theorem find_argument_of_convertTableAction {tableAction : TableAction} {isDefaultAction : Bool}
    {converted : LiteralAssignmentSet × SymbolSet}
    (convert : convertTableAction tableAction tableName p4Action isDefaultAction = some converted)
    {width : Nat} (wide : P4Info.bitwidth p.type = some width) :
    converted.1.find (getTableActionArgument tableName p4Action.name p.controlPlaneName
        (.bit width)) =
      if tableAction.params.length = p4Action.params.length then
        (tableAction.given p4Action p.controlPlaneName).map (BitVec.ofNat width)
      else none := by
  have unnamed : (OrderedMap.empty.emplace (tableActionID tableName isDefaultAction) p4Action.name :
      LiteralAssignmentSet).find (getTableActionArgument tableName p4Action.name p.controlPlaneName
        (.bit width)) = none := by
    cases isDefaultAction <;> rw [OrderedMap.find_emplace_ne _ _ (by simp), OrderedMap.find_empty]
  rw [convertTableAction] at convert
  split at convert
  · rename_i other
    cases convert
    rw [if_neg other, unnamed]
  · rename_i count
    rw [if_pos (not_not.mp count), (TableEntryMessage.find_of_convertParams convert).2, unnamed,
      Option.none_or, findSome_argument described mem wide, TableAction.given]

omit described mem

/-- Under the values, the executor passes the action the arguments that the message gives it. -/
def TableAction.Passed (tableAction : TableAction) (tableName : String) (p4Action : P4Info.Action)
    (action : P4Action) (value : Valuation) : Prop :=
  ∀ p ∈ action.parameters, ∃ n, tableAction.given p4Action p.controlPlaneName = some n ∧
    (actionArgument tableName action.controlPlaneName p).eval value = p.type.ofNumber n

/-- The message gives every argument of the action a number. The conversion assigns it to the variable
that is read, or that variable, which is then free, has it anyway. -/
def TableAction.Conveyed (tableAction : TableAction) (tableName : String) (p4Action : P4Info.Action)
    (action : P4Action) (ρ : Valuation) : Prop :=
  ∀ p ∈ action.parameters, ∃ n, tableAction.given p4Action p.controlPlaneName = some n ∧
    ((tableAction.params.length = p4Action.params.length ∧ ∀ width, p.type ≠ .bits true width) ∨
      (actionArgument tableName action.controlPlaneName p).eval ρ = p.type.ofNumber n)

theorem eval_actionArgument_of_unsigned {actionName : String} {value : Valuation} {width n : Nat}
    (wide : P4Info.bitwidth p.type = some width) (unsigned : ∀ width, p.type ≠ .bits true width)
    (assigned : value (getTableActionArgument tableName actionName p.controlPlaneName (.bit width)) =
      BitVec.ofNat width n) :
    (actionArgument tableName actionName p).eval value = p.type.ofNumber n := by
  obtain ⟨name, controlPlaneName, type⟩ := p
  cases type with
  | boolean =>
    cases wide
    simp only [actionArgument, Expr.eval_equ, SymbolicVariable.expr, Expr.eval_var, assigned]
    rfl
  | bits isSigned width =>
    cases wide
    cases isSigned with
    | true => exact absurd rfl (unsigned width)
    | false => exact assigned
  | string => cases wide

/-- What the conversion does not assign keeps the value of the valuation. -/
theorem passed_iff_conveyed (described : p4Action.Describes action) {tableAction : TableAction}
    {isDefaultAction : Bool} {converted : LiteralAssignmentSet × SymbolSet}
    (convert : convertTableAction tableAction tableName p4Action isDefaultAction = some converted)
    {value ρ : Valuation}
    (values : ∀ parameter type, value (getTableActionArgument tableName p4Action.name parameter type) =
      (converted.1.find (getTableActionArgument tableName p4Action.name parameter type)).getD
        (ρ (getTableActionArgument tableName p4Action.name parameter type))) :
    tableAction.Passed tableName p4Action action value ↔
      tableAction.Conveyed tableName p4Action action ρ := by
  refine forall₂_congr fun p mem => exists_congr fun n => and_congr_right fun given => ?_
  obtain ⟨param, declared, name, wide⟩ := described.exists_param mem
  by_cases conveyed : tableAction.params.length = p4Action.params.length ∧
    ∀ width, p.type ≠ .bits true width
  · refine iff_of_true ?_ (.inl conveyed)
    refine eval_actionArgument_of_unsigned wide conveyed.2 ?_
    rw [← described.name, values, find_argument_of_convertTableAction described mem convert wide,
      if_pos conveyed.1, given]
    rfl
  · rw [or_iff_right conveyed]
    -- The variable that is read is not the one assigned, if any is.
    have unassigned : getTableActionArgument tableName p4Action.name p.controlPlaneName
        (argumentType p.type) ∉ converted.1.keys := by
      rw [mem_keys_convertTableAction_iff convert]
      rintro ⟨count, param', declared', -, name', type⟩
      have wide' := bitwidth_of_describes described mem declared' name'
      exact conveyed ⟨count, (argumentType_eq_bit_iff wide').mp type.symm⟩
    have free := values p.controlPlaneName (argumentType p.type)
    rw [OrderedMap.find_eq_none.mpr unassigned, Option.getD_none, described.name] at free
    rw [eval_actionArgument_congr free]

end Given

end Flay
