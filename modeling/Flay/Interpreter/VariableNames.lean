import Flay.ControlPlane.ActionArguments
import Flay.Interpreter.KeyConstraints

/-! The variables of the control plane by name: those that the table executor reads for the arguments
and the keys of a table, and those that const entries, default actions and messages assign. -/

namespace Flay

open Container TableExecutor ControlPlaneStateInitializer

section Arguments

/-- The variables that the table executor reads for the arguments of the action. -/
def argumentVariables (tableName : String) (action : P4Action) : List SymbolicVariable :=
  (createActionCallArguments tableName action.controlPlaneName action.parameters).flatMap
    fun argument => argument.2.symbols

/-- The assignment has a value for each of these variables and for no other argument of the action,
and no expression keeps one of them under it. -/
structure NamesArguments (tableName : String) (action : P4Action)
    (assignment : LiteralAssignmentSet) : Prop where
  same : ∀ parameter type,
    getTableActionArgument tableName action.controlPlaneName parameter type ∈ assignment.keys ↔
      getTableActionArgument tableName action.controlPlaneName parameter type ∈
        argumentVariables tableName action
  closed : ∀ {t : Ty} (e : Expr t), ∀ x ∈ argumentVariables tableName action,
    x ∉ (assignment.expressions.substitute e).symbols

theorem mem_argumentVariables {tableName : String} {action : P4Action} {x : SymbolicVariable} :
    x ∈ argumentVariables tableName action ↔ ∃ p ∈ action.parameters,
      x = getTableActionArgument tableName action.controlPlaneName p.controlPlaneName
        (argumentType p.type) := by
  simp [argumentVariables, createActionCallArguments, symbols_actionArgument]

/-- A literal in the place of a variable leaves no variable. -/
theorem closed_of_mem {assignment : LiteralAssignmentSet} {x : SymbolicVariable}
    (assigned : x ∈ assignment.keys) {t : Ty} (e : Expr t) :
    x ∉ (assignment.expressions.substitute e).symbols := by
  intro occurs
  rcases Expr.free_of_mem_symbols_substitute occurs with free | ⟨y, v, found, inside⟩
  · rw [LiteralAssignmentSet.find_expressions, Option.map_eq_none_iff] at free
    exact OrderedMap.find_eq_none.mp free assigned
  · rw [LiteralAssignmentSet.find_expressions, Option.map_eq_some_iff] at found
    obtain ⟨value, -, rfl⟩ := found
    cases inside

variable {tableName : String} {action : P4Action} {assignment : LiteralAssignmentSet}

/-- The names decide: what is assigned under the name that is read is not left. -/
theorem namesArguments_iff :
    NamesArguments tableName action assignment ↔ ∀ parameter type,
      getTableActionArgument tableName action.controlPlaneName parameter type ∈ assignment.keys ↔
        ∃ p ∈ action.parameters, p.controlPlaneName = parameter ∧ argumentType p.type = type := by
  have read : ∀ parameter type,
      getTableActionArgument tableName action.controlPlaneName parameter type ∈
        argumentVariables tableName action ↔
      ∃ p ∈ action.parameters, p.controlPlaneName = parameter ∧ argumentType p.type = type := by
    intro parameter type
    rw [mem_argumentVariables]
    simp [eq_comm]
  constructor
  · intro names parameter type
    rw [names.same, read]
  · intro same
    refine ⟨fun parameter type => by rw [same, read], fun e x reads => closed_of_mem ?_ e⟩
    obtain ⟨p, mem, rfl⟩ := mem_argumentVariables.mp reads
    exact (same _ _).mpr ⟨p, mem, rfl, rfl⟩

/-- An assignment that has the argument of each parameter under the parameter's own type. -/
theorem namesArguments_iff_of_own
    (own : ∀ parameter type,
      getTableActionArgument tableName action.controlPlaneName parameter type ∈ assignment.keys ↔
        ∃ p ∈ action.parameters, p.controlPlaneName = parameter ∧ p.type = type) :
    NamesArguments tableName action assignment ↔ ∀ p ∈ action.parameters, p.type ≠ .boolean := by
  rw [namesArguments_iff]
  constructor
  · intro same p mem
    obtain ⟨q, other, name, type⟩ := (own _ _).mp ((same _ _).mpr ⟨p, mem, rfl, rfl⟩)
    obtain rfl := List.inj_on_of_nodup_map action.distinct other mem name
    exact argumentType_eq_self_iff.mp type.symm
  · intro unconverted parameter type
    rw [own]
    refine exists_congr fun p => and_congr_right fun mem => and_congr_right fun _ => ?_
    rw [argumentType_eq_self_iff.mpr (unconverted p mem)]

theorem mem_keys_argumentAssignments {call : ActionCall} {x : SymbolicVariable} :
    x ∈ (argumentAssignments tableName call).keys ↔ ∃ p ∈ call.action.parameters,
      x = getTableActionArgument tableName call.action.controlPlaneName p.controlPlaneName
        p.type := by
  rw [← call.complete]
  simp [List.keys, argumentAssignments, eq_comm]

variable (tableName) (call : ActionCall)

theorem namesArguments_entry_iff :
    NamesArguments tableName call.action (computeEntryAction tableName call) ↔
      ∀ p ∈ call.action.parameters, p.type ≠ .boolean := by
  refine namesArguments_iff_of_own fun parameter type => ?_
  rw [computeEntryAction, OrderedMap.mem_keys_insertAll, mem_keys_argumentAssignments]
  simp [eq_comm]

theorem namesArguments_default_iff :
    NamesArguments tableName call.action (computeDefaultActionConstraints tableName call) ↔
      ∀ p ∈ call.action.parameters, p.type ≠ .boolean := by
  refine namesArguments_iff_of_own fun parameter type => ?_
  rw [computeDefaultActionConstraints, OrderedMap.mem_keys_insertAll, mem_keys_argumentAssignments]
  simp [eq_comm]

end Arguments

section Messages

variable {tableName : String} {p4Action : P4Info.Action}

theorem namesArguments_message_iff {action : P4Action} (described : p4Action.Describes action)
    {tblAction : TableAction} {isDefaultAction : Bool} {converted : LiteralAssignmentSet × SymbolSet}
    (convert : convertTableAction tblAction tableName p4Action isDefaultAction = some converted) :
    NamesArguments tableName action converted.1 ↔
      (action.parameters ≠ [] → tblAction.params.length = p4Action.params.length) ∧
      (∀ param ∈ p4Action.params, ∃ paramConfig ∈ tblAction.params,
        p4Action.Names paramConfig param) ∧
      ∀ p ∈ action.parameters, ∀ width, p.type ≠ .bits true width := by
  have assigned := mem_keys_convertTableAction_iff convert
  rw [described.name] at assigned
  rw [namesArguments_iff]
  constructor
  · intro same
    have each : ∀ p ∈ action.parameters, tblAction.params.length = p4Action.params.length ∧
        ∃ param ∈ p4Action.params, (∃ paramConfig ∈ tblAction.params,
          p4Action.Names paramConfig param) ∧ param.name = p.controlPlaneName ∧
            .bit param.bitwidth = argumentType p.type := fun p mem =>
      (assigned _ _).mp ((same _ _).mpr ⟨p, mem, rfl, rfl⟩)
    refine ⟨fun some_parameter => ?_, fun param mem => ?_, fun p mem width signed => ?_⟩
    · obtain ⟨p, mem⟩ := List.exists_mem_of_ne_nil _ some_parameter
      exact (each p mem).1
    · obtain ⟨p, listed, name, width⟩ := described.exists_parameter mem
      obtain ⟨-, param', -, ⟨paramConfig, given, found, first, named, wide⟩, name', type⟩ :=
        each p listed
      have width' : some param'.bitwidth = some param.bitwidth := by
        rw [← width, ← bitwidth_argumentType, ← type]
        rfl
      exact ⟨paramConfig, given, found, first, named.trans (name'.trans name),
        wide.trans (Option.some.inj width')⟩
    · obtain ⟨-, param, -, -, -, type⟩ := each p mem
      rw [signed] at type
      cases type
  · rintro ⟨count, given, unsigned⟩ parameter type
    rw [assigned]
    constructor
    · rintro ⟨-, param, mem, -, rfl, rfl⟩
      obtain ⟨p, listed, name, width⟩ := described.exists_parameter mem
      exact ⟨p, listed, name, (argumentType_eq_bit_iff width).mpr (unsigned p listed)⟩
    · rintro ⟨p, listed, rfl, rfl⟩
      obtain ⟨param, mem, name, width⟩ := described.exists_param listed
      exact ⟨count (List.ne_nil_of_mem listed), param, mem, given param mem, name,
        ((argumentType_eq_bit_iff width).mpr (unsigned p listed)).symm⟩

end Messages

section Keys

/-- The variables of the control plane that the constraint of the key reads. -/
def KeyElement.variables (keyField : KeyElement) (tableName : String) : List SymbolicVariable :=
  match keyField.matchType with
  | .exact | .optional => [getTableKey tableName keyField.name keyField.type]
  | .ternary => [getTableKey tableName keyField.name keyField.type,
      getTableTernaryMask tableName keyField.name keyField.type]
  | .lpm => [getTableKey tableName keyField.name keyField.type,
      getTableMatchLpmPrefix tableName keyField.name keyField.type]
  | .range => [(getTableRange tableName keyField.name keyField.type).1,
      (getTableRange tableName keyField.name keyField.type).2]
  | .selector =>
    [getTableKey tableName (selectorKeyName tableName keyField.name) keyField.type]

/-- The constraint of the key reads what is assigned, and what the expression of the key reads. -/
def NamesKey (tableName : String) (keyField : KeyElement) (assignment : LiteralAssignmentSet) :
    Prop :=
  ∀ keyExpression, ∀ x ∈
    (computeTargetMatchType tableName keyField keyExpression).computeControlPlaneConstraint.symbols,
      x ∈ assignment.keys ∨ x ∈ keyExpression.symbols

theorem mem_symbols_constraint {tableName : String} {keyField : KeyElement}
    {keyExpression : Expr keyField.type} {x : SymbolicVariable} :
    x ∈ (computeTargetMatchType tableName keyField
        keyExpression).computeControlPlaneConstraint.symbols ↔
      x ∈ keyField.variables tableName ∨ x ∈ keyExpression.symbols := by
  obtain ⟨name, matchType, isSigned, width, expression⟩ := keyField
  cases matchType <;>
    simp [computeTargetMatchType, TableMatchKey.computeControlPlaneConstraint, createTernaryKey,
      createLpmKey, createRangeKey, Expr.symbols, SymbolicVariable.expr, KeyElement.variables] <;>
    tauto

theorem namesKey_iff {tableName : String} {keyField : KeyElement}
    {assignment : LiteralAssignmentSet} :
    NamesKey tableName keyField assignment ↔
      ∀ x ∈ keyField.variables tableName, x ∈ assignment.keys := by
  constructor
  · intro names x reads
    have literal := names (.lit default) x (mem_symbols_constraint.mpr (.inl reads))
    exact literal.resolve_right List.not_mem_nil
  · intro assigned keyExpression x occurs
    exact (mem_symbols_constraint.mp occurs).imp_left (assigned x)

/-- The don't-care match of an optional key, for which the initializer of tofino assigns nothing. -/
def Skips (target : Target) (component : Sigma fun key : KeyElement => EntryKey key.type) : Prop :=
  target = .tofino ∧ component.1.matchType = .optional ∧ component.2 = .default

/-- The match assigns a variable of the key itself: it is not a range, and not skipped. -/
def AssignsKey (target : Target) (component : Sigma fun key : KeyElement => EntryKey key.type) :
    Prop :=
  component.1.matchType ≠ .range ∧ ¬Skips target component

variable {target : Target} {tableName : String} {keySet keySet' : LiteralAssignmentSet}
  {component : Sigma fun key : KeyElement => EntryKey key.type}

theorem mem_keys_computeMatch
    (made : target.computeMatch component.2 tableName component.1.name component.1.matchType
      keySet = some keySet') :
    component.1.matchType ≠ .selector ∧ (∀ x ∈ keySet.keys, x ∈ keySet'.keys) ∧
    (¬Skips target component → ∀ x ∈ component.1.variables tableName, x ∈ keySet'.keys) ∧
    ∀ name type, getTableKey tableName name type ∈ keySet'.keys →
      getTableKey tableName name type ∈ keySet.keys ∨
        AssignsKey target component ∧ component.1.name = name ∧ component.1.type = type := by
  obtain ⟨⟨name, matchType, isSigned, width, expression⟩, entryKey⟩ := component
  -- Each target has a row for each kind and form of the key; what is left are two lists of variables.
  cases target <;> cases matchType <;> cases entryKey <;> cases made <;>
    simp [Skips, AssignsKey, KeyElement.variables, eq_comm] <;> tauto

/-- The loop over the matches of an entry: what is skipped is all that is left out. -/
theorem mem_keys_computeMatches
    {components : List (Sigma fun key : KeyElement => EntryKey key.type)}
    (run : components.foldlM (fun keySet c =>
      target.computeMatch c.2 tableName c.1.name c.1.matchType keySet) keySet = some keySet') :
    (∀ c ∈ components, c.1.matchType ≠ .selector) ∧ (∀ x ∈ keySet.keys, x ∈ keySet'.keys) ∧
    (∀ c ∈ components, ¬Skips target c → ∀ x ∈ c.1.variables tableName, x ∈ keySet'.keys) ∧
    ∀ name type, getTableKey tableName name type ∈ keySet'.keys →
      getTableKey tableName name type ∈ keySet.keys ∨
        ∃ c ∈ components, AssignsKey target c ∧ c.1.name = name ∧ c.1.type = type := by
  induction components generalizing keySet with
  | nil =>
    cases run
    exact ⟨fun _ mem => absurd mem List.not_mem_nil, fun _ mem => mem,
      fun _ mem => absurd mem List.not_mem_nil, fun _ _ mem => .inl mem⟩
  | cons c components ih =>
    simp only [List.foldlM_cons, bind, Option.bind_eq_some_iff] at run
    obtain ⟨middle, step, run⟩ := run
    obtain ⟨matched, kept, own, keys⟩ := mem_keys_computeMatch step
    obtain ⟨matched', kept', others, keys'⟩ := ih run
    refine ⟨List.forall_mem_cons.mpr ⟨matched, matched'⟩, fun x mem => kept' x (kept x mem), fun d mem covered x reads => ?_,
      fun name type mem => ?_⟩
    · rcases List.mem_cons.mp mem with rfl | mem
      · exact kept' x (own covered x reads)
      · exact others d mem covered x reads
    · rcases keys' name type mem with mem | ⟨d, listed, assigns⟩
      · rcases keys name type mem with mem | assigns
        · exact .inl mem
        · exact .inr ⟨c, List.mem_cons_self, assigns⟩
      · exact .inr ⟨d, List.mem_cons_of_mem c listed, assigns⟩

theorem getTableKey_mem_variables (tableName : String) (keyField : KeyElement)
    (assigned : keyField.matchType ≠ .range) (matched : keyField.matchType ≠ .selector) :
    getTableKey tableName keyField.name keyField.type ∈ keyField.variables tableName := by
  rw [KeyElement.variables]
  cases kind : keyField.matchType with
  | range => exact absurd kind assigned
  | selector => exact absurd kind matched
  | exact | optional | ternary | lpm => exact List.mem_cons_self

theorem namesKeys_entry_iff {table : P4Table} {entry : Entry table.key}
    (made : computeEntryKeySet target.computeMatch table entry = some keySet) :
    (∀ keyField ∈ table.key, NamesKey table.controlPlaneName keyField keySet) ↔
      ∀ c ∈ entry.components, Skips target c → ∃ d ∈ entry.components,
        AssignsKey target d ∧ d.1.name = c.1.name ∧ d.1.type = c.1.type := by
  obtain ⟨matched, -, covered, keys⟩ := mem_keys_computeMatches made
  simp only [namesKey_iff]
  constructor
  · intro named c mem skipped
    have listed : c.1 ∈ table.key := by
      rw [← entry.complete]
      exact List.mem_map_of_mem mem
    have read := getTableKey_mem_variables table.controlPlaneName c.1 (by rw [skipped.2.1]; decide)
      (matched c mem)
    exact (keys _ _ (named c.1 listed _ read)).resolve_left (OrderedMap.not_mem_keys_empty _)
  · intro assigned keyField listed x reads
    rw [← entry.complete] at listed
    obtain ⟨c, mem, rfl⟩ := List.mem_map.mp listed
    by_cases skipped : Skips target c
    · -- The other match assigns the variable under the same name and type.
      obtain ⟨d, mem', assigns, name, type⟩ := assigned c mem skipped
      rw [KeyElement.variables, skipped.2.1, List.mem_singleton] at reads
      rw [reads, ← name, ← type]
      exact covered d mem' assigns.2 _ (getTableKey_mem_variables _ _ assigns.1 (matched d mem'))
    · exact covered c mem skipped x reads

/-- The matches that have the variables of the kind. An omitted field has those of its own kind, and
a selector key has a variable that no match on its field has. -/
def MatchKind.ServedBy : MatchKind → Option FieldMatchType → Prop
  | .range, some (.range _ _) | .lpm, some (.lpm _ _) | .ternary, some (.ternary _ _) => True
  | .range, _ | .lpm, _ | .ternary, some _ => False
  | .selector, _ | .exact, some (.range _ _) | .optional, some (.range _ _) => False
  | .ternary, none | .exact, _ | .optional, _ => True

/-- A match assigns the variable of its own field, and of no other. A range has none. -/
theorem mem_keys_producedMatch_iff {matchField : P4Info.MatchField} {field : Option FieldMatchType}
    (made : producedMatch tableName matchField field = some keySet) (name : String) (type : Ty) :
    getTableKey tableName name type ∈ keySet.keys ↔
      name = matchField.name ∧ type = .bit matchField.bitwidth ∧
        ∀ low high, field ≠ some (.range low high) := by
  obtain ⟨id, fieldName, width, kind⟩ := matchField
  cases field with
  | none => cases kind <;> cases made <;> simp
  | some field => cases field <;> cases made <;> simp

theorem selectorKeyName_ne (tableName fieldName : String) :
    selectorKeyName tableName fieldName ≠ fieldName := by
  intro same
  have long := congrArg String.length same
  simp [selectorKeyName, String.length_append] at long

/-- What reaches the variable of a selector key is a match on a field that has the key's own name. -/
theorem namesKey_selector_iff {keyField : KeyElement} (selects : keyField.matchType = .selector)
    {matchField : P4Info.MatchField} {field : Option FieldMatchType}
    (made : producedMatch tableName matchField field = some keySet) :
    NamesKey tableName keyField keySet ↔
      matchField.name = selectorKeyName tableName keyField.name ∧
        keyField.type = .bit matchField.bitwidth ∧ ∀ low high, field ≠ some (.range low high) := by
  rw [namesKey_iff, KeyElement.variables, selects, List.forall_mem_singleton,
    mem_keys_producedMatch_iff made, eq_comm]

/-- No initializer has a match for a selector key. -/
theorem computeEntryKeySet_of_selector {table : P4Table} {entry : Entry table.key}
    {keyField : KeyElement} (listed : keyField ∈ table.key)
    (selects : keyField.matchType = .selector) :
    computeEntryKeySet target.computeMatch table entry = none := by
  rw [← entry.complete] at listed
  obtain ⟨c, mem, rfl⟩ := List.mem_map.mp listed
  refine Option.eq_none_iff_forall_ne_some.mpr fun keySet made => ?_
  exact (mem_keys_computeMatches made).1 c mem selects

theorem namesKey_message_iff {keyField : KeyElement} {id : Nat} {field : Option FieldMatchType}
    (made : producedMatch tableName (keyField.matchField id) field = some keySet) :
    NamesKey tableName keyField keySet ↔
      keyField.isSigned = false ∧ keyField.matchType.ServedBy field := by
  rw [namesKey_iff]
  obtain ⟨name, matchType, isSigned, width, expression⟩ := keyField
  cases isSigned with
  | true =>
    have free := free_of_signed made
    refine iff_of_false (fun named => ?_) (by simp)
    cases matchType <;> exact free _ (named _ List.mem_cons_self)
  | false =>
    rw [and_iff_right rfl]
    cases field with
    | none =>
      cases matchType <;> cases made <;>
        simp [KeyElement.variables, KeyElement.matchField, MatchKind.ServedBy]
    | some field =>
      cases field <;> cases made <;> cases matchType <;>
        simp [KeyElement.variables, KeyElement.matchField, MatchKind.ServedBy, selectorKeyName_ne]

end Keys

/-- Readers and writers of the variables of a table name them alike exactly under these conditions:
no boolean parameters in const entries and default actions, no signed parameters or keys in messages,
and no selector keys, which const entries cannot match on and whose variable only a match on another
field, of the name that the executor makes up for the key, assigns. -/
theorem namesAlike_iff (table : P4Table) :
    (∀ call : ActionCall,
      (NamesArguments table.controlPlaneName call.action
          (computeEntryAction table.controlPlaneName call) ↔
        ∀ p ∈ call.action.parameters, p.type ≠ .boolean) ∧
      (NamesArguments table.controlPlaneName call.action
          (computeDefaultActionConstraints table.controlPlaneName call) ↔
        ∀ p ∈ call.action.parameters, p.type ≠ .boolean)) ∧
    (∀ (action : P4Action) (p4Action : P4Info.Action) (tblAction : TableAction)
        (isDefaultAction : Bool) (converted : LiteralAssignmentSet × SymbolSet),
      p4Action.Describes action →
      convertTableAction tblAction table.controlPlaneName p4Action isDefaultAction =
          some converted →
        (NamesArguments table.controlPlaneName action converted.1 ↔
          (action.parameters ≠ [] → tblAction.params.length = p4Action.params.length) ∧
          (∀ param ∈ p4Action.params, ∃ paramConfig ∈ tblAction.params,
            p4Action.Names paramConfig param) ∧
          ∀ p ∈ action.parameters, ∀ width, p.type ≠ .bits true width)) ∧
    (∀ (target : Target) (entry : Entry table.key) (keySet : LiteralAssignmentSet),
      computeEntryKeySet target.computeMatch table entry = some keySet →
        ((∀ keyField ∈ table.key, NamesKey table.controlPlaneName keyField keySet) ↔
          ∀ c ∈ entry.components, Skips target c → ∃ d ∈ entry.components,
            AssignsKey target d ∧ d.1.name = c.1.name ∧ d.1.type = c.1.type)) ∧
    (∀ keyField ∈ table.key, ∀ (id : Nat) (field : Option FieldMatchType)
      (keySet : LiteralAssignmentSet),
      producedMatch table.controlPlaneName (keyField.matchField id) field = some keySet →
        (NamesKey table.controlPlaneName keyField keySet ↔
          keyField.isSigned = false ∧ keyField.matchType.ServedBy field)) ∧
    ∀ keyField ∈ table.key, keyField.matchType = .selector →
      (∀ (target : Target) (entry : Entry table.key),
        computeEntryKeySet target.computeMatch table entry = none) ∧
      ∀ (matchField : P4Info.MatchField) (field : Option FieldMatchType)
        (keySet : LiteralAssignmentSet),
        producedMatch table.controlPlaneName matchField field = some keySet →
          (NamesKey table.controlPlaneName keyField keySet ↔
            matchField.name = selectorKeyName table.controlPlaneName keyField.name ∧
              keyField.type = .bit matchField.bitwidth ∧
                ∀ low high, field ≠ some (.range low high)) := by
  refine ⟨fun call => ⟨namesArguments_entry_iff _ call, namesArguments_default_iff _ call⟩,
    fun _ _ _ _ _ described convert => namesArguments_message_iff described convert,
    fun _ _ _ made => namesKeys_entry_iff made, fun _ _ _ _ _ made => namesKey_message_iff made,
    fun _ listed selects => ⟨fun _ _ => computeEntryKeySet_of_selector listed selects,
      fun _ _ _ made => namesKey_selector_iff selects made⟩⟩

/-- An action with a boolean parameter. -/
def setFlag : P4Action :=
  ⟨"setFlag", [⟨"flag", "flag", .boolean⟩], [], by decide, List.nodup_singleton _⟩

def setFlagCall : ActionCall := ⟨"setFlag", setFlag, [⟨⟨"flag", "flag", .boolean⟩, true⟩], rfl⟩

def setFlagTable : P4Table where
  controlPlaneName := "t"
  key := [⟨"k", .exact, false, 8, .lit (0 : BitVec 8)⟩,
    ⟨"h", .selector, false, 8, .lit (0 : BitVec 8)⟩]
  actionList := [⟨1, "setFlag", setFlag, false, false⟩]
  defaultAction := setFlagCall
  entries := []
  isImmutable := false

def setFlagInfo : P4Info.Action := ⟨1, "setFlag", [⟨1, "flag", 1⟩], by decide⟩

/-- A message assigns the flag under the name that the executor reads, and the key as well, but not
the variable of the selector key. -/
theorem message_namesAlike :
    (∃ converted, convertTableAction ⟨1, [⟨1, some 1⟩]⟩ "t" setFlagInfo false = some converted ∧
      NamesArguments "t" setFlag converted.1) ∧
    ∃ keySet, producedMatch "t" ⟨1, "k", 8, .exact⟩ (some (.exact 3)) = some keySet ∧
      NamesKey "t" ⟨"k", .exact, false, 8, .lit (0 : BitVec 8)⟩ keySet ∧
      ¬NamesKey "t" ⟨"h", .selector, false, 8, .lit (0 : BitVec 8)⟩ keySet := by
  refine ⟨⟨_, rfl, ?_⟩, ⟨_, rfl, ?_, ?_⟩⟩
  · refine ((namesAlike_iff setFlagTable).2.1 setFlag setFlagInfo ⟨1, [⟨1, some 1⟩]⟩ false _
      ⟨rfl, rfl⟩ rfl).mpr ⟨fun _ => rfl, fun param declared => ?_, by simp [setFlag]⟩
    exact ⟨⟨1, some 1⟩, List.mem_cons_self, param, by simp_all [setFlagInfo], rfl, rfl⟩
  · exact ((namesAlike_iff setFlagTable).2.2.2.1 _ List.mem_cons_self 1 (some (.exact 3)) _ rfl).mpr
      ⟨rfl, trivial⟩
  · have selector := (namesAlike_iff setFlagTable).2.2.2.2 _
      (List.mem_cons_of_mem _ List.mem_cons_self) rfl
    intro names
    have same := (selector.2 ⟨1, "k", 8, .exact⟩ (some (.exact 3)) _ rfl).mp names
    exact absurd same.1 (by decide)

/-- A const entry assigns the flag as a boolean, where the executor reads a bit. -/
theorem setFlag_misnamed :
    ¬NamesArguments "t" setFlag (computeEntryAction "t" setFlagCall) := by
  intro names
  have assigned := (names.same "flag" (.bit 1)).mpr (by decide)
  exact absurd assigned (by decide)

end Flay
