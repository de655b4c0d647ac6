import Flay.ControlPlane.ConstEntries

/-! Which of the messages that `produceTableEntry` accepts it represents completely. -/

namespace Flay

open Container

/-- The kind of a match of a message. -/
def FieldMatchType.kind : FieldMatchType → Option MatchKind
  | .exact _ => some .exact
  | .lpm _ _ => some .lpm
  | .ternary _ _ => some .ternary
  | .range _ _ => some .range
  | .optional _ => some .optional
  | .unset => none

/-- The message names the parameter, by the id of one with its name and width. -/
def P4Info.Action.Names (p4Action : P4Info.Action) (paramConfig : ParamConfig)
    (param : P4Info.ActionParam) : Prop :=
  ∃ found, p4Action.params.find? (fun param => param.id == paramConfig.paramId) = some found ∧
    found.name = param.name ∧ found.bitwidth = param.bitwidth

namespace TableEntryMessage

variable (message : TableEntryMessage) (tableName : String)

/-- The match on a field of the table: the first that the message has for it, or the one for an
omitted field. -/
def fieldMatch (matchField : P4Info.MatchField) : Option LiteralAssignmentSet :=
  producedMatch tableName matchField
    ((message.fields.find? fun field => field.fieldId == matchField.id).map FieldMatch.matchType)

/-- What the first of the fields that assigns the variable assigns to it. -/
def firstAssigned (fields : List P4Info.MatchField) (x : SymbolicVariable) : Option x.type.Val :=
  fields.findSome? fun matchField => (message.fieldMatch tableName matchField).bind (·.find x)

/-- Every match of the message names a field of its own, of its kind, and the entry has its value.
Every field of the table is covered, and every parameter of the action has a value that the message
gives it. -/
structure Represented [Z3] {tableName : String} (message : TableEntryMessage)
    (tableAction : TableAction) (p4Action : P4Info.Action) (p4Table : P4Info.Table)
    (e : TableMatchEntry tableName) : Prop where
  distinct : (message.fields.map FieldMatch.fieldId).Nodup
  declared : ∀ field ∈ message.fields, ∃ matchField ∈ p4Table.matchFields,
    matchField.id = field.fieldId ∧ field.matchType.kind = some matchField.matchType
  contributes : ∀ field ∈ message.fields, ∀ matchField ∈ p4Table.matchFields,
    matchField.id = field.fieldId →
      ∃ m, producedMatch tableName matchField (some field.matchType) = some m ∧
        ∀ x v, m.find x = some v → e.matchSet.find x = some v
  covered : ∀ matchField ∈ p4Table.matchFields,
    ∃ m, message.fieldMatch tableName matchField = some m ∧ ∀ x ∈ m.keys, x ∈ e.matchSet.keys
  parameters : ∀ param ∈ p4Action.params, ∃ paramConfig ∈ tableAction.params, ∃ value,
    p4Action.Names paramConfig param ∧ paramConfig.value = some value ∧
      e.actionAssignment.find (getTableActionArgument tableName p4Action.name param.name
        (.bit param.bitwidth)) = some (BitVec.ofNat param.bitwidth value)

/-- The matches of the message name fields of their own, of their kinds, and its parameters are as
many as the action has and name each of them. Of two fields of the table with one variable, the one
that the message names has its value: the first decides. -/
structure Complete (message : TableEntryMessage) (tableName : String) (tableAction : TableAction)
    (p4Action : P4Info.Action) (p4Table : P4Info.Table) : Prop where
  distinct : (message.fields.map FieldMatch.fieldId).Nodup
  declared : ∀ field ∈ message.fields, ∃ matchField ∈ p4Table.matchFields,
    matchField.id = field.fieldId ∧ field.matchType.kind = some matchField.matchType
  unshadowed : ∀ field ∈ message.fields, ∀ before matchField after,
    p4Table.matchFields = before ++ matchField :: after → matchField.id = field.fieldId →
      ∀ m, message.fieldMatch tableName matchField = some m → ∀ x v v', m.find x = some v →
        message.firstAssigned tableName before x = some v' → v' = v
  count : p4Action.params ≠ [] → tableAction.params.length = p4Action.params.length
  named : ∀ param ∈ p4Action.params, ∃ paramConfig ∈ tableAction.params,
    p4Action.Names paramConfig param

variable {message tableName}

/-- With distinct ids, the match on a field that the message names is the one that it gives. -/
theorem fieldMatch_of_distinct (distinct : (message.fields.map FieldMatch.fieldId).Nodup)
    {field : FieldMatch} (mem : field ∈ message.fields) {matchField : P4Info.MatchField}
    (named : matchField.id = field.fieldId) :
    message.fieldMatch tableName matchField =
      producedMatch tableName matchField (some field.matchType) := by
  have found : message.fields.find? (fun field => field.fieldId == matchField.id) = some field := by
    have some_field : (message.fields.find? fun field => field.fieldId == matchField.id).isSome :=
      List.find?_isSome.mpr ⟨field, mem, by simp [named]⟩
    obtain ⟨first, found⟩ := Option.isSome_iff_exists.mp some_field
    have same : first.fieldId = field.fieldId := by
      rw [← named]
      simpa using List.find?_some found
    rw [found, List.inj_on_of_nodup_map distinct (List.mem_of_find?_eq_some found) mem same]
  rw [fieldMatch, found, Option.map_some]

section Fields

variable {produced produced' : LiteralAssignmentSet × SymbolSet} {matchField : P4Info.MatchField}

theorem fieldMatch_of_produceMatchField
    (step : produceMatchField tableName message.fields produced matchField = some produced') :
    ∃ m, message.fieldMatch tableName matchField = some m ∧
      produced'.1 = produced.1.insertAll m.entries := by
  rw [produceMatchField] at step
  rw [fieldMatch]
  split at step
  · rename_i omitted
    simp only [bind, Option.bind_eq_some_iff, Option.some.injEq] at step
    obtain ⟨matchSet, converted, rfl⟩ := step
    refine ⟨matchSet.1, ?_, rfl⟩
    rw [omitted, Option.map_none, producedMatch, converted, Option.map_some]
  · rename_i field found
    simp only [bind, Option.bind_eq_some_iff, Option.some.injEq] at step
    obtain ⟨matchSet, converted, rfl⟩ := step
    refine ⟨matchSet.1, ?_, rfl⟩
    rw [found, Option.map_some, producedMatch, converted, Option.map_some]

/-- The loop over the fields of the table: each variable has the value of the first field that
assigns it. -/
theorem find_of_produceMatchFields {fields : List P4Info.MatchField}
    (run : fields.foldlM (produceMatchField tableName message.fields) produced = some produced') :
    (∀ matchField ∈ fields, (message.fieldMatch tableName matchField).isSome = true) ∧
      ∀ x, produced'.1.find x =
        (produced.1.find x).or (message.firstAssigned tableName fields x) := by
  induction fields generalizing produced with
  | nil =>
    cases run
    refine ⟨fun _ mem => absurd mem List.not_mem_nil, fun x => ?_⟩
    rw [firstAssigned, List.findSome?_nil, Option.or_none]
  | cons matchField fields ih =>
    simp only [List.foldlM_cons, bind, Option.bind_eq_some_iff] at run
    obtain ⟨middle, step, run⟩ := run
    obtain ⟨m, converted, inserted⟩ := fieldMatch_of_produceMatchField step
    obtain ⟨others, values⟩ := ih run
    constructor
    · intro d mem
      rcases List.mem_cons.mp mem with rfl | mem
      · exact Option.isSome_of_eq_some converted
      · exact others d mem
    · intro x
      rw [values, inserted, OrderedMap.find_insertAll, Option.or_assoc]
      congr 1
      rw [firstAssigned, firstAssigned, List.findSome?_cons, converted, Option.bind_some]
      change (m.find x).or _ = _
      cases m.find x <;> rfl

end Fields

section Parameters

variable {p4Action : P4Info.Action}

/-- What the parameter of a message assigns to the variable. -/
def argument? (tableName : String) (p4Action : P4Info.Action) (x : SymbolicVariable)
    (paramConfig : ParamConfig) : Option x.type.Val := do
  let param ← p4Action.params.find? fun param => param.id == paramConfig.paramId
  let value ← paramConfig.value
  let assigned : LiteralAssignmentSet := OrderedMap.empty.emplace
    (getTableActionArgument tableName p4Action.name param.name (.bit param.bitwidth))
    (BitVec.ofNat param.bitwidth value)
  assigned.find x

/-- The loop over the parameters of the message: each variable has the value of the first that
assigns it. -/
theorem find_of_convertParams {params : List ParamConfig}
    {converted converted' : LiteralAssignmentSet × SymbolSet}
    (run : params.foldlM (convertParam tableName p4Action) converted = some converted') :
    (∀ paramConfig ∈ params, paramConfig.value.isSome = true) ∧
      ∀ x, converted'.1.find x =
        (converted.1.find x).or (params.findSome? (argument? tableName p4Action x)) := by
  induction params generalizing converted with
  | nil =>
    cases run
    refine ⟨fun _ mem => absurd mem List.not_mem_nil, fun x => ?_⟩
    rw [List.findSome?_nil, Option.or_none]
  | cons paramConfig params ih =>
    simp only [List.foldlM_cons, bind, Option.bind_eq_some_iff] at run
    obtain ⟨middle, step, run⟩ := run
    simp only [convertParam, bind, Option.bind_eq_some_iff, Option.some.injEq] at step
    obtain ⟨param, found, value, given, rfl⟩ := step
    obtain ⟨others, values⟩ := ih run
    constructor
    · intro config mem
      rcases List.mem_cons.mp mem with rfl | mem
      · exact Option.isSome_of_eq_some given
      · exact others config mem
    · intro x
      have own : argument? tableName p4Action x paramConfig =
          (OrderedMap.empty.emplace (getTableActionArgument tableName p4Action.name param.name
            (.bit param.bitwidth)) (BitVec.ofNat param.bitwidth value) :
              LiteralAssignmentSet).find x := by
        simp only [argument?, found, given, bind, Option.bind_some]
      rw [values, OrderedMap.find_emplace, Option.or_assoc, List.findSome?_cons, own,
        OrderedMap.find_emplace, OrderedMap.find_empty, Option.none_or]
      congr 1
      cases List.dlookup x _ <;> rfl

theorem names_of_argument? {param : P4Info.ActionParam} {paramConfig : ParamConfig}
    {v : BitVec param.bitwidth}
    (h : argument? tableName p4Action (getTableActionArgument tableName p4Action.name param.name
      (.bit param.bitwidth)) paramConfig = some v) :
    ∃ value, p4Action.Names paramConfig param ∧ paramConfig.value = some value ∧
      v = BitVec.ofNat param.bitwidth value := by
  simp only [argument?, bind, Option.bind_eq_some_iff] at h
  obtain ⟨⟨id, name, bitwidth⟩, found, value, given, looked⟩ := h
  obtain ⟨id', name', bitwidth'⟩ := param
  by_cases same : getTableActionArgument tableName p4Action.name name' (.bit bitwidth') =
      getTableActionArgument tableName p4Action.name name (.bit bitwidth)
  · simp only [SymbolicVariable.mk.injEq, SymbolLabel.tableActionArgument.injEq, true_and,
      Ty.bits.injEq] at same
    obtain ⟨rfl, rfl⟩ := same
    rw [OrderedMap.find_emplace_self, OrderedMap.find_empty] at looked
    exact ⟨value, ⟨_, found, rfl, rfl⟩, given, (Option.some.inj looked).symm⟩
  · rw [OrderedMap.find_emplace_ne _ _ same, OrderedMap.find_empty] at looked
    cases looked

theorem argument?_of_names {param : P4Info.ActionParam} {paramConfig : ParamConfig}
    (names : p4Action.Names paramConfig param) (given : paramConfig.value.isSome = true) :
    (argument? tableName p4Action (getTableActionArgument tableName p4Action.name param.name
      (.bit param.bitwidth)) paramConfig).isSome = true := by
  obtain ⟨⟨id, name, bitwidth⟩, found, rfl, rfl⟩ := names
  obtain ⟨value, given⟩ := Option.isSome_iff_exists.mp given
  simp only [argument?, found, given, bind, Option.bind_some]
  rw [OrderedMap.find_emplace_self]
  rfl

/-- A converted action has values for the parameters exactly when the message names each of them,
and no more. -/
theorem parameters_iff {tableAction : TableAction} {converted : LiteralAssignmentSet × SymbolSet}
    (convert : convertTableAction tableAction tableName p4Action false = some converted) :
    (∀ param ∈ p4Action.params, ∃ paramConfig ∈ tableAction.params, ∃ value,
      p4Action.Names paramConfig param ∧ paramConfig.value = some value ∧
        converted.1.find (getTableActionArgument tableName p4Action.name param.name
          (.bit param.bitwidth)) = some (BitVec.ofNat param.bitwidth value)) ↔
    (p4Action.params ≠ [] → tableAction.params.length = p4Action.params.length) ∧
      ∀ param ∈ p4Action.params, ∃ paramConfig ∈ tableAction.params,
        p4Action.Names paramConfig param := by
  have unnamed : ∀ param : P4Info.ActionParam,
      (OrderedMap.empty.emplace (tableActionID tableName false) p4Action.name :
        LiteralAssignmentSet).find (getTableActionArgument tableName p4Action.name param.name
          (.bit param.bitwidth)) = none := by
    intro param
    rw [OrderedMap.find_emplace_ne _ _ (by simp), OrderedMap.find_empty]
  rw [convertTableAction] at convert
  constructor
  · intro parameters
    refine ⟨fun some_param => ?_, fun param declared => ?_⟩
    · -- With another number of parameters, the conversion drops them all.
      by_contra other
      rw [if_pos other] at convert
      cases convert
      obtain ⟨param, declared⟩ := List.exists_mem_of_ne_nil _ some_param
      obtain ⟨paramConfig, -, value, -, -, assigned⟩ := parameters param declared
      rw [unnamed] at assigned
      cases assigned
    · obtain ⟨paramConfig, mem, value, names, -⟩ := parameters param declared
      exact ⟨paramConfig, mem, names⟩
  · rintro ⟨count, named⟩ param declared
    rw [if_neg (not_not.mpr (count (List.ne_nil_of_mem declared)))] at convert
    obtain ⟨given, values⟩ := find_of_convertParams convert
    obtain ⟨paramConfig, mem, names⟩ := named param declared
    have value := values (getTableActionArgument tableName p4Action.name param.name
      (.bit param.bitwidth))
    rw [unnamed, Option.none_or] at value
    have assigned : (tableAction.params.findSome? (argument? tableName p4Action
        (getTableActionArgument tableName p4Action.name param.name
          (.bit param.bitwidth)))).isSome = true :=
      List.findSome?_isSome_iff.mpr
        ⟨paramConfig, mem, argument?_of_names names (given paramConfig mem)⟩
    obtain ⟨v, first⟩ := Option.isSome_iff_exists.mp assigned
    obtain ⟨paramConfig', mem', own⟩ := List.exists_of_findSome?_eq_some first
    obtain ⟨number, names', given', rfl⟩ := names_of_argument? own
    exact ⟨paramConfig', mem', number, names', given', value.trans first⟩

end Parameters

/-- A field contributes its value when no field before it gives the variable another one. -/
theorem contributes_iff {fields : List P4Info.MatchField} {matchSet : LiteralAssignmentSet}
    (values : ∀ x, matchSet.find x = message.firstAssigned tableName fields x)
    {field : FieldMatch} (converted : ∀ matchField, matchField.id = field.fieldId →
      message.fieldMatch tableName matchField =
        producedMatch tableName matchField (some field.matchType))
    (made : ∀ matchField ∈ fields, (message.fieldMatch tableName matchField).isSome = true) :
    (∀ matchField ∈ fields, matchField.id = field.fieldId →
      ∃ m, producedMatch tableName matchField (some field.matchType) = some m ∧
        ∀ x v, m.find x = some v → matchSet.find x = some v) ↔
    ∀ before matchField after, fields = before ++ matchField :: after →
      matchField.id = field.fieldId → ∀ m, message.fieldMatch tableName matchField = some m →
        ∀ x v v', m.find x = some v → message.firstAssigned tableName before x = some v' →
          v' = v := by
  have split : ∀ {before matchField after m}, fields = before ++ matchField :: after →
      message.fieldMatch tableName matchField = some m → ∀ {x v}, m.find x = some v →
        matchSet.find x = (message.firstAssigned tableName before x).or (some v) := by
    rintro before matchField after m rfl matched x v assigned
    rw [values, firstAssigned, List.findSome?_append, List.findSome?_cons, matched,
      Option.bind_some, assigned]
    rfl
  constructor
  · rintro contributes before matchField after rfl named m matched x v v' assigned earlier
    obtain ⟨m', same, contributed⟩ := contributes matchField
      (List.mem_append_right _ List.mem_cons_self) named
    rw [← converted matchField named, matched] at same
    cases same
    have value := contributed x v assigned
    rw [split rfl matched assigned, earlier, Option.some_or] at value
    exact Option.some.inj value
  · intro unshadowed matchField mem named
    obtain ⟨m, matched⟩ := Option.isSome_iff_exists.mp (made matchField mem)
    obtain ⟨before, after, splits⟩ := List.append_of_mem mem
    refine ⟨m, by rw [← converted matchField named, matched], fun x v assigned => ?_⟩
    rw [split splits matched assigned]
    cases earlier : message.firstAssigned tableName before x with
    | none => rfl
    | some v' =>
      rw [unshadowed before matchField after splits named m matched x v v' assigned earlier]
      rfl

/-- Every field of the table is covered by what the entry matches. -/
theorem covered_of_values {fields : List P4Info.MatchField} {matchSet : LiteralAssignmentSet}
    (values : ∀ x, matchSet.find x = message.firstAssigned tableName fields x)
    (made : ∀ matchField ∈ fields, (message.fieldMatch tableName matchField).isSome = true)
    {matchField : P4Info.MatchField} (mem : matchField ∈ fields) :
    ∃ m, message.fieldMatch tableName matchField = some m ∧ ∀ x ∈ m.keys, x ∈ matchSet.keys := by
  obtain ⟨m, matched⟩ := Option.isSome_iff_exists.mp (made matchField mem)
  refine ⟨m, matched, fun x assigned => ?_⟩
  rw [← OrderedMap.find_isSome, values, firstAssigned, List.findSome?_isSome_iff]
  exact ⟨matchField, mem, by rw [matched]; exact OrderedMap.find_isSome.mpr assigned⟩

/-- A message that makes an entry is represented completely exactly when it is complete itself. -/
theorem represented_iff [Z3] {p4Info : P4Info} {tableId : Nat} {priority : Int}
    {e : TableMatchEntry tableName} {used : SymbolSet} {tableAction : TableAction}
    {p4Action : P4Info.Action} {p4Table : P4Info.Table}
    (produced : produceTableEntry p4Info tableName tableId message priority = some (e, used))
    (acted : message.action = some tableAction)
    (action : p4Info.findP4RuntimeAction tableAction.actionId = some p4Action)
    (table : p4Info.findP4RuntimeTable tableId = some p4Table) :
    message.Represented tableAction p4Action p4Table e ↔
      message.Complete tableName tableAction p4Action p4Table := by
  simp only [produceTableEntry, bind, acted, Option.bind_some, action] at produced
  split at produced
  · cases produced
  · rename_i converted convert
    simp only [table, Option.bind_some] at produced
    split at produced
    · obtain ⟨matched, run, made⟩ := Option.bind_eq_some_iff.mp produced
      cases made
      obtain ⟨made, values⟩ := find_of_produceMatchFields run
      have values : ∀ x, matched.1.find x = message.firstAssigned tableName p4Table.matchFields x :=
        fun x => (values x).trans (Option.none_or ..)
      have parameters := parameters_iff convert
      constructor
      · intro represented
        obtain ⟨count, named⟩ := parameters.mp represented.parameters
        refine ⟨represented.distinct, represented.declared, fun field mem => ?_, count, named⟩
        exact (contributes_iff values (fun _ => fieldMatch_of_distinct represented.distinct mem)
          made).mp (represented.contributes field mem)
      · intro complete
        refine ⟨complete.distinct, complete.declared, fun field mem => ?_,
          fun _ => covered_of_values values made,
          parameters.mpr ⟨complete.count, complete.named⟩⟩
        exact (contributes_iff values (fun _ => fieldMatch_of_distinct complete.distinct mem)
          made).mpr (complete.unshadowed field mem)
    · cases produced

end TableEntryMessage

section Forward

/-- A table with an exact match and an action with a parameter. -/
def forwardP4Table : P4Info.Table := ⟨1, "t", [⟨1, "k", 8, .exact⟩], false, 0⟩

theorem forward_named : "forward" ≠ noAction := by decide

def forwardP4Action : P4Info.Action := ⟨1, "forward", [⟨1, "port", 9⟩], forward_named⟩

def forwardP4Info : P4Info := ⟨[forwardP4Table], [forwardP4Action], [], none, none⟩

/-- A message that forwards the key 1, with the parameters. -/
def forwardMessage (params : List ParamConfig) : TableEntryMessage :=
  ⟨1, [⟨1, .exact 1⟩], some ⟨1, params⟩, 0, false⟩

attribute [local instance] exprSolver

theorem represented_forwardMessage :
    ∃ e used, produceTableEntry forwardP4Info "t" 1 (forwardMessage [⟨1, some 7⟩]) 0 =
        some (e, used) ∧
      (forwardMessage [⟨1, some 7⟩]).Represented ⟨1, [⟨1, some 7⟩]⟩ forwardP4Action forwardP4Table
        e := by
  have produced : produceTableEntry forwardP4Info "t" 1 (forwardMessage [⟨1, some 7⟩]) 0 =
      some (_, _) := rfl
  refine ⟨_, _, produced, (TableEntryMessage.represented_iff produced rfl rfl rfl).mpr ?_⟩
  refine ⟨by decide, fun field mem => ?_, fun field mem before matchField after splits => ?_,
    fun _ => rfl, fun param declared => ?_⟩
  · cases List.mem_singleton.mp mem
    exact ⟨⟨1, "k", 8, .exact⟩, List.mem_cons_self, rfl, rfl⟩
  · have none_before : before = [] := by
      have lengths := congrArg List.length splits
      rw [List.length_append, List.length_cons] at lengths
      exact List.eq_nil_of_length_eq_zero (by simp [forwardP4Table] at lengths; omega)
    subst none_before
    intro _ _ _ _ _ _ _ earlier
    cases earlier
  · cases List.mem_singleton.mp declared
    exact ⟨⟨1, some 7⟩, List.mem_cons_self, _, rfl, rfl, rfl⟩

/-- Without its parameter the message is accepted, and the entry has no port. -/
theorem forwardMessage_unrepresented :
    ∃ e used, produceTableEntry forwardP4Info "t" 1 (forwardMessage []) 0 = some (e, used) ∧
      ¬(forwardMessage []).Represented ⟨1, []⟩ forwardP4Action forwardP4Table e := by
  refine ⟨_, _, rfl, fun represented => ?_⟩
  obtain ⟨paramConfig, mem, -⟩ := represented.parameters ⟨1, "port", 9⟩ List.mem_cons_self
  cases mem

end Forward

end Flay
