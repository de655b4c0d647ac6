import Flay.ControlPlane.Objects
import Flay.Program.Syntax

/-! The messages of the control plane, the program information that they refer to, and their
conversion to default actions and table entries, which P4Runtime and BFRuntime do alike. -/

namespace Flay

open Container

namespace P4Info

/-- `p4::config::v1::MatchField`. -/
structure MatchField where
  id : Nat
  name : String
  bitwidth : Nat
  matchType : MatchKind

structure ActionParam where
  id : Nat
  name : String
  bitwidth : Nat

structure Action where
  id : Nat
  name : String
  params : List ActionParam
  named : name ≠ noAction

structure Table where
  id : Nat
  name : String
  matchFields : List MatchField
  isConstTable : Bool
  implementationId : Nat

/-- An instance of an extern, or an action profile, by its id and name. -/
structure Instance where
  id : Nat
  name : String

end P4Info

/-- `p4::config::v1::P4Info`. The externs are absent when the program information has none of their
type. -/
structure P4Info where
  tables : List P4Info.Table
  actions : List P4Info.Action
  actionProfiles : List P4Info.Instance
  actionProfileExtern : Option (List P4Info.Instance)
  actionSelectorExtern : Option (List P4Info.Instance)

namespace P4Info

def findP4RuntimeTable (p4Info : P4Info) (id : Nat) : Option Table :=
  p4Info.tables.find? fun table => table.id == id

def findP4RuntimeTableByName (p4Info : P4Info) (name : String) : Option Table :=
  p4Info.tables.find? fun table => table.name == name

def findP4RuntimeAction (p4Info : P4Info) (id : Nat) : Option Action :=
  p4Info.actions.find? fun action => action.id == id

end P4Info

/-- The match of a message on one field. -/
inductive FieldMatchType
  | exact (value : Nat)
  | lpm (value : Nat) (prefixLen : Int)
  | ternary (value mask : Nat)
  | range (low high : Nat)
  | optional (value : Nat)
  | unset

structure FieldMatch where
  fieldId : Nat
  matchType : FieldMatchType

/-- A parameter of an action in a message. A BFRuntime value that is not a stream is `none`. -/
structure ParamConfig where
  paramId : Nat
  value : Option Nat

structure TableAction where
  actionId : Nat
  params : List ParamConfig

/-- A table entry message. BFRuntime has no priority. -/
structure TableEntryMessage where
  tableId : Nat
  fields : List FieldMatch
  action : Option TableAction
  priority : Int
  isDefaultAction : Bool

inductive UpdateType
  | unspecified
  | insert
  | modify
  | delete
deriving DecidableEq

/-- `produceTableMatch`: the assignments of the match on a field, and the symbols used. -/
def produceTableMatch (field : FieldMatchType) (tableName : String)
    (matchField : P4Info.MatchField) : Option (LiteralAssignmentSet × SymbolSet) :=
  let keyType := Ty.bit matchField.bitwidth
  let constant := BitVec.ofNat matchField.bitwidth
  let keySymbol := getTableKey tableName matchField.name keyType
  match field with
  | .exact value => some (OrderedMap.empty.emplace keySymbol (constant value), [keySymbol])
  | .lpm value prefixLen =>
    let lpmPrefixSymbol := getTableMatchLpmPrefix tableName matchField.name keyType
    some ((OrderedMap.empty.emplace keySymbol (constant value)).emplace lpmPrefixSymbol
      (BitVec.ofInt matchField.bitwidth prefixLen), [keySymbol, lpmPrefixSymbol])
  | .ternary value mask =>
    let maskSymbol := getTableTernaryMask tableName matchField.name keyType
    some ((OrderedMap.empty.emplace keySymbol (constant value)).emplace maskSymbol (constant mask),
      [keySymbol, maskSymbol])
  | .range low high =>
    let range := getTableRange tableName matchField.name keyType
    some ((OrderedMap.empty.emplace range.1 (constant low)).emplace range.2 (constant high),
      [keySymbol, range.1, range.2])
  | .optional value => some (OrderedMap.empty.emplace keySymbol (constant value), [keySymbol])
  | .unset => none

/-- `produceTableMatchForMissingField`: missing ternary and optional fields match on nothing. -/
def produceTableMatchForMissingField (tableName : String) (matchField : P4Info.MatchField) :
    Option (LiteralAssignmentSet × SymbolSet) :=
  let keyType := Ty.bit matchField.bitwidth
  let keySymbol := getTableKey tableName matchField.name keyType
  let maskSymbol := getTableTernaryMask tableName matchField.name keyType
  match matchField.matchType with
  | .ternary | .optional =>
    some ((OrderedMap.empty.emplace keySymbol (0 : BitVec matchField.bitwidth)).emplace maskSymbol
      (0 : BitVec matchField.bitwidth), [keySymbol, maskSymbol])
  | _ => none

/-- The variable that a conversion of an action assigns its name to. -/
abbrev tableActionID (tableName : String) (isDefaultAction : Bool) : SymbolicVariable :=
  ⟨if isDefaultAction then .defaultAction tableName else .tableActionChoice tableName, .string⟩

/-- One step of the loop of `convertTableAction` over the parameters of the message. -/
def convertParam (tableName : String) (p4Action : P4Info.Action)
    (converted : LiteralAssignmentSet × SymbolSet) (paramConfig : ParamConfig) :
    Option (LiteralAssignmentSet × SymbolSet) := do
  let param ← p4Action.params.find? fun param => param.id == paramConfig.paramId
  let value ← paramConfig.value
  let actionArg :=
    getTableActionArgument tableName p4Action.name param.name (.bit param.bitwidth)
  some (converted.1.emplace actionArg (BitVec.ofNat param.bitwidth value),
    converted.2 ++ [actionArg])

/-- `convertTableAction`: an action with another number of parameters than the program information
has keeps its name and loses its parameters. -/
def convertTableAction (tblAction : TableAction) (tableName : String) (p4Action : P4Info.Action)
    (isDefaultAction : Bool) : Option (LiteralAssignmentSet × SymbolSet) :=
  let actionID := tableActionID tableName isDefaultAction
  let named : LiteralAssignmentSet := OrderedMap.empty.emplace actionID p4Action.name
  if tblAction.params.length ≠ p4Action.params.length then some (named, [actionID])
  else tblAction.params.foldlM (convertParam tableName p4Action) (named, [actionID])

/-- What a conversion of an action has done: it has bound the name of the action, and otherwise only
arguments of it, and it has collected what it has bound. -/
structure ConvertedAction (tableName : String) (p4Action : P4Info.Action) (isDefaultAction : Bool)
    (converted : LiteralAssignmentSet × SymbolSet) : Prop where
  name : converted.1.find (tableActionID tableName isDefaultAction) = some p4Action.name
  arguments : ∀ x ∈ converted.1.keys, x = tableActionID tableName isDefaultAction ∨
    ∃ parameter type, x = getTableActionArgument tableName p4Action.name parameter type
  collected : ∀ x, x ∈ converted.2 ↔ x ∈ converted.1.keys

theorem ConvertedAction.param {tableName : String} {p4Action : P4Info.Action}
    {isDefaultAction : Bool} {converted converted' : LiteralAssignmentSet × SymbolSet}
    (h : ConvertedAction tableName p4Action isDefaultAction converted) {paramConfig : ParamConfig}
    (step : convertParam tableName p4Action converted paramConfig = some converted') :
    ConvertedAction tableName p4Action isDefaultAction converted' := by
  simp only [convertParam, bind, Option.bind_eq_some_iff, Option.some.injEq] at step
  obtain ⟨param, -, value, -, rfl⟩ := step
  refine ⟨?_, fun x hx => ?_, fun x => ?_⟩
  · rw [OrderedMap.find_emplace, h.name, Option.some_or]
  · rcases OrderedMap.mem_keys_emplace.mp hx with hx | rfl
    · exact h.arguments x hx
    · exact .inr ⟨_, _, rfl⟩
  · rw [List.mem_append, h.collected, List.mem_singleton, OrderedMap.mem_keys_emplace]

theorem ConvertedAction.not_mem {tableName : String} {p4Action : P4Info.Action}
    {isDefaultAction : Bool} {converted : LiteralAssignmentSet × SymbolSet}
    (h : ConvertedAction tableName p4Action isDefaultAction converted) {x : SymbolicVariable}
    (other : x ≠ tableActionID tableName isDefaultAction)
    (unargued : ∀ parameter type,
      x ≠ getTableActionArgument tableName p4Action.name parameter type) :
    x ∉ converted.1.keys := by
  intro bound
  rcases h.arguments x bound with same | ⟨parameter, type, same⟩
  · exact other same
  · exact unargued parameter type same

theorem convertedAction_of_convertTableAction {tblAction : TableAction} {tableName : String}
    {p4Action : P4Info.Action} {isDefaultAction : Bool}
    {converted : LiteralAssignmentSet × SymbolSet}
    (h : convertTableAction tblAction tableName p4Action isDefaultAction = some converted) :
    ConvertedAction tableName p4Action isDefaultAction converted := by
  have named : ConvertedAction tableName p4Action isDefaultAction
      ((OrderedMap.empty.emplace (tableActionID tableName isDefaultAction) p4Action.name),
        [tableActionID tableName isDefaultAction]) := by
    refine ⟨OrderedMap.find_emplace_self _ _ _, fun x hx => ?_, fun x => ?_⟩
    · exact .inl ((OrderedMap.mem_keys_emplace.mp hx).resolve_left (OrderedMap.not_mem_keys_empty x))
    · simp
  have loop : ∀ (params : List ParamConfig) (before : LiteralAssignmentSet × SymbolSet),
      ConvertedAction tableName p4Action isDefaultAction before →
      params.foldlM (convertParam tableName p4Action) before = some converted →
      ConvertedAction tableName p4Action isDefaultAction converted := by
    intro params
    induction params with
    | nil =>
      rintro before hb ⟨⟩
      exact hb
    | cons param params ih =>
      intro before hb run
      simp only [List.foldlM_cons, bind, Option.bind_eq_some_iff] at run
      obtain ⟨middle, step, run⟩ := run
      exact ih middle (hb.param step) run
  rw [convertTableAction] at h
  split at h
  · cases h
    exact named
  · exact loop _ _ named h

theorem mem_keys_convertTableAction {tblAction : TableAction} {tableName : String}
    {p4Action : P4Info.Action} {converted : LiteralAssignmentSet × SymbolSet}
    (h : convertTableAction tblAction tableName p4Action false = some converted) :
    getTableActionChoice tableName ∈ converted.1.keys :=
  OrderedMap.mem_keys_of_find (convertedAction_of_convertTableAction h).name

/-- One step of the loop of `produceTableEntry` over the match fields of the table. -/
def produceMatchField (tableName : String) (fields : List FieldMatch)
    (produced : LiteralAssignmentSet × SymbolSet) (matchField : P4Info.MatchField) :
    Option (LiteralAssignmentSet × SymbolSet) := do
  let matchSet ←
    match fields.find? fun field => field.fieldId == matchField.id with
    | none => produceTableMatchForMissingField tableName matchField
    | some field => produceTableMatch field.matchType tableName matchField
  some (produced.1.insertAll matchSet.1.entries, produced.2 ++ matchSet.2)

/-- `produceTableEntry` for a message with the action, from the table of the program information. -/
def produceTableEntry [Z3] (p4Info : P4Info) (tableName : String) (tableId : Nat)
    (message : TableEntryMessage) (priority : Int) :
    Option (TableMatchEntry tableName × SymbolSet) := do
  let tableAction ← message.action
  let p4Action ← p4Info.findP4RuntimeAction tableAction.actionId
  match h : convertTableAction tableAction tableName p4Action false with
  | none => none
  | some converted =>
    let p4InfoTable ← p4Info.findP4RuntimeTable tableId
    if message.fields.length ≤ p4InfoTable.matchFields.length then
      let produced ← p4InfoTable.matchFields.foldlM (produceMatchField tableName message.fields)
        (OrderedMap.empty, [])
      some (TableMatchEntry.create converted.1 priority produced.1 (mem_keys_convertTableAction h),
        converted.2 ++ produced.2)
    else none

theorem action_of_produceTableEntry [Z3] {p4Info : P4Info} {tableName : String} {tableId : Nat}
    {message : TableEntryMessage} {priority : Int} {made : TableMatchEntry tableName × SymbolSet}
    (h : produceTableEntry p4Info tableName tableId message priority = some made) :
    message.action.isNone = false := by
  simp only [produceTableEntry, bind, Option.bind_eq_some_iff] at h
  obtain ⟨tableAction, acted, -⟩ := h
  rw [acted]
  rfl

/-- The action assignment of a produced entry is a converted action. -/
theorem convertTableAction_of_produceTableEntry [Z3] {p4Info : P4Info} {tableName : String}
    {tableId : Nat} {message : TableEntryMessage} {priority : Int} {e : TableMatchEntry tableName}
    {used : SymbolSet}
    (h : produceTableEntry p4Info tableName tableId message priority = some (e, used)) :
    ∃ (p4Action : P4Info.Action) (tableAction : TableAction)
      (converted : LiteralAssignmentSet × SymbolSet),
      convertTableAction tableAction tableName p4Action false = some converted ∧
        e.actionAssignment = converted.1 := by
  simp only [produceTableEntry, bind, Option.bind_eq_some_iff] at h
  obtain ⟨tableAction, -, p4Action, -, h⟩ := h
  split at h
  · cases h
  · rename_i converted convert
    obtain ⟨p4InfoTable, -, h⟩ := Option.bind_eq_some_iff.mp h
    split at h
    · obtain ⟨produced, -, h⟩ := Option.bind_eq_some_iff.mp h
      cases h
      exact ⟨p4Action, tableAction, converted, convert, rfl⟩
    · cases h

/-- No message names the action of an entry as none. -/
theorem named_of_produceTableEntry [Z3] {p4Info : P4Info} {message : TableEntryMessage}
    {symbolSet : SymbolSet} {tableName : String} {tableId : Nat} {priority : Int}
    {e : TableMatchEntry tableName}
    (produced : produceTableEntry p4Info tableName tableId message priority =
      some (e, symbolSet)) : e.action ≠ noAction := by
  obtain ⟨p4Action, tableAction, converted, convert, assigned⟩ :=
    convertTableAction_of_produceTableEntry produced
  have name : converted.1.find (getTableActionChoice tableName) = some p4Action.name :=
    (convertedAction_of_convertTableAction convert).name
  have chosen := e.find_choice
  rw [assigned, name] at chosen
  rw [← Option.some.inj chosen]
  exact p4Action.named

end Flay
