import Flay.Specialization.Specializer

/-! `FlaySpecializer` keeps the meaning of a program: with verdicts and constants that are right for an
execution, the specialized program ends in the same state, and writes to the same places. -/

namespace Flay

section Soundness

/-- The constants are the values with which the expressions have been read. -/
def SoundConstants (constants : Constants) (w : World) : Prop :=
  ∀ (node : Node) (isSigned : Bool) (width : Nat) (value constant : BitVec width),
    .read node ⟨.bits isSigned width, value⟩ ∈ w.events →
      constants ⟨node, isSigned, width⟩ = some constant → value = constant

variable {τ α : Type} (reachability : Node → Option Bool) (h : Handlers τ α)

mutual

/-- The if statements that the execution of a statement reaches go the way of their verdicts. -/
def Statement.Decided : Statement τ α → World → Prop
  | .block components, w => DecidedAll components w
  | .ifStatement node condition ifTrue ifFalse, w =>
    let result := condition.eval h w
    (∀ verdict, reachability node = some verdict → result.1 = verdict) ∧
      if result.1 then ifTrue.Decided (result.2.emit (.taken node))
      else DecidedOption ifFalse result.2
  | _, _ => True

def DecidedAll : List (Statement τ α) → World → Prop
  | [], _ => True
  | s :: l, w => s.Decided w ∧ DecidedAll l (s.exec h w)

def DecidedOption : Option (Statement τ α) → World → Prop
  | none, _ => True
  | some s, w => s.Decided w

end

/-- The verdicts and the constants are right for the execution of the program. -/
structure SoundFor (constants : Constants) (program : CallStatement) (e : Execution) : Prop where
  verdicts : program.Decided reachability e.handlers ⟨e.env, []⟩
  values : SoundConstants constants (e.run program)

end Soundness

/-- The state is the same, and nothing has been read that the other world has not read. -/
structure World.Follows (w' w : World) : Prop where
  env : w'.env = w.env
  reads : ∀ node value, .read node value ∈ w'.events → .read node value ∈ w.events

namespace World.Follows

variable {w' w : World}

theorem refl (w : World) : w.Follows w := ⟨rfl, fun _ _ mem => mem⟩

theorem set (h : w'.Follows w) (x : StateVariable) (v : x.type.Val) :
    (w'.set x v).Follows (w.set x v) := by
  refine ⟨?_, h.reads⟩
  funext y
  simp only [World.set, h.env]

/-- The other world may read more. -/
theorem emit_right (h : w'.Follows w) (event : Event) : w'.Follows (w.emit event) :=
  ⟨h.env, fun node value mem => List.mem_append_left _ (h.reads node value mem)⟩

theorem emit_taken (h : w'.Follows w) (node : Node) : (w'.emit (.taken node)).Follows w := by
  refine ⟨h.env, fun other value mem => h.reads other value ?_⟩
  rcases List.mem_append.mp mem with mem | mem
  · exact mem
  · cases List.mem_singleton.mp mem

theorem emit (h : w'.Follows w) (event : Event) : (w'.emit event).Follows (w.emit event) := by
  refine ⟨h.env, fun node value mem => ?_⟩
  rcases List.mem_append.mp mem with mem | mem
  · exact List.mem_append_left _ (h.reads node value mem)
  · exact List.mem_append_right _ mem

end World.Follows

theorem SoundConstants.of_subset {constants : Constants} {w w' : World}
    (sound : SoundConstants constants w') (subset : ∀ event ∈ w.events, event ∈ w'.events) :
    SoundConstants constants w :=
  fun node isSigned width value constant mem =>
    sound node isSigned width value constant (subset _ mem)

theorem soundConstants_none (w : World) : SoundConstants (fun _ => none) w :=
  fun _ _ _ _ _ _ known => by cases known

section Expressions

variable {α : Type} {h : Handlers Empty α} {constants : Constants} {t : Ty}

/-- The evaluation of an expression keeps the record. -/
theorem mem_events_eval (e : ProgramExpr Empty t) {w : World} {event : Event}
    (mem : event ∈ w.events) : event ∈ (e.eval h w).2.events := by
  induction e generalizing w with
  | lit value => exact mem
  | path node name t => exact List.mem_append_left _ mem
  | hit node table | miss node table | actionRun table => exact table.elim
  | lNot e ih | unary op e ih => exact ih mem
  | lAnd left right ihl ihr =>
    simp only [ProgramExpr.eval]
    split
    · exact ihr (ihl mem)
    · exact ihl mem
  | lOr left right ihl ihr =>
    simp only [ProgramExpr.eval]
    split
    · exact ihl mem
    · exact ihr (ihl mem)
  | equ left right ihl ihr | neq left right ihl ihr | binary op left right ihl ihr =>
    exact ihr (ihl mem)
  | mux e0 e1 e2 ih0 ih1 ih2 =>
    simp only [ProgramExpr.eval]
    split
    · exact ih1 (ih0 mem)
    · exact ih2 (ih0 mem)

/-- An expression has in one world the value of another expression in the other world, and reads
nothing more. -/
structure EvalFollows (h : Handlers Empty α) (e' e : ProgramExpr Empty t) (w' w : World) :
    Prop where
  value : (e'.eval h w').1 = (e.eval h w).1
  follows : (e'.eval h w').2.Follows (e.eval h w).2

theorem EvalFollows.mux {e0 e0' : ProgramExpr Empty .boolean} {e1 e1' e2 e2' : ProgramExpr Empty t}
    {w w' : World} (h0 : EvalFollows h e0' e0 w' w)
    (h1 : (e0.eval h w).1 = true → EvalFollows h e1' e1 (e0'.eval h w').2 (e0.eval h w).2)
    (h2 : (e0.eval h w).1 = false → EvalFollows h e2' e2 (e0'.eval h w').2 (e0.eval h w).2) :
    EvalFollows h (.mux e0' e1' e2') (.mux e0 e1 e2) w' w := by
  cases value : (e0.eval h w).1 with
  | true =>
    have value' := h0.value.trans value
    have taken := h1 value
    constructor
    · simpa [ProgramExpr.eval, value, value'] using taken.value
    · simpa [ProgramExpr.eval, value, value'] using taken.follows
  | false =>
    have value' := h0.value.trans value
    have taken := h2 value
    constructor
    · simpa [ProgramExpr.eval, value, value'] using taken.value
    · simpa [ProgramExpr.eval, value, value'] using taken.follows

/-- Constants that are right after a choice are right after its condition and its alternative. -/
theorem SoundConstants.of_mux {e0 : ProgramExpr Empty .boolean} {e1 e2 : ProgramExpr Empty t}
    {w : World} (sound : SoundConstants constants ((ProgramExpr.mux e0 e1 e2).eval h w).2) :
    SoundConstants constants (e0.eval h w).2 ∧
      ((e0.eval h w).1 = true → SoundConstants constants (e1.eval h (e0.eval h w).2).2) ∧
      ((e0.eval h w).1 = false → SoundConstants constants (e2.eval h (e0.eval h w).2).2) := by
  cases value : (e0.eval h w).1 with
  | true =>
    simp only [ProgramExpr.eval, value, if_true] at sound
    exact ⟨sound.of_subset fun _ => mem_events_eval e1, fun _ => sound, (by cases ·)⟩
  | false =>
    simp only [ProgramExpr.eval, value, Bool.false_eq_true, if_false] at sound
    exact ⟨sound.of_subset fun _ => mem_events_eval e2, (by cases ·), fun _ => sound⟩

theorem evalFollows_lit (value : t.Val) {w w' : World} (follows : w'.Follows w) :
    EvalFollows h (.lit value) (.lit value) w' w := ⟨rfl, follows⟩

theorem evalFollows_path (node : Node) (name : String) {w w' : World} (follows : w'.Follows w) :
    EvalFollows h (.path node name t) (.path node name t) w' w := by
  refine ⟨congrFun follows.env _, ?_⟩
  simp only [ProgramExpr.eval, follows.env]
  exact follows.emit _

/-- A constant is what the expression would have read. -/
theorem evalFollows_pathExpression (node : Node) (name : String) {w w' : World}
    (follows : w'.Follows w)
    (sound : SoundConstants constants ((ProgramExpr.path node name t).eval h w).2) :
    EvalFollows h (SubstituteExpressions.pathExpression constants node name t)
      (.path node name t) w' w := by
  cases t with
  | boolean | string => exact evalFollows_path node name follows
  | bits isSigned width =>
    rw [SubstituteExpressions.pathExpression]
    split
    · rename_i constant known
      have read := sound node isSigned width _ constant
        (List.mem_append_right _ List.mem_cons_self) known
      exact ⟨read.symm, follows.emit_right _⟩
    · exact evalFollows_path node name follows

theorem evalFollows_expression (e : ProgramExpr Empty t) {w w' : World} (follows : w'.Follows w)
    (sound : SoundConstants constants (e.eval h w).2) :
    EvalFollows h (SubstituteExpressions.expression constants e) e w' w := by
  induction e generalizing w w' with
  | lit value => exact evalFollows_lit value follows
  | path node name t => exact evalFollows_pathExpression node name follows sound
  | hit node table | miss node table | actionRun table => exact table.elim
  | lNot e ih =>
    obtain ⟨value, follows⟩ := ih follows sound
    exact ⟨congrArg Bool.not value, follows⟩
  | unary op e ih =>
    obtain ⟨value, follows⟩ := ih follows sound
    exact ⟨congrArg op.eval value, follows⟩
  | lAnd left right ihl ihr =>
    -- The operators that stop early are choices of a literal.
    have choices : SoundConstants constants ((ProgramExpr.mux left right (.lit false)).eval h w).2 :=
      sound
    obtain ⟨soundLeft, soundRight, -⟩ := choices.of_mux
    have hl := ihl follows soundLeft
    have choice := hl.mux (fun value => ihr hl.follows (soundRight value))
      (fun _ => evalFollows_lit (t := .boolean) false hl.follows)
    exact ⟨choice.value, choice.follows⟩
  | lOr left right ihl ihr =>
    have choices : SoundConstants constants ((ProgramExpr.mux left (.lit true) right).eval h w).2 :=
      sound
    obtain ⟨soundLeft, -, soundRight⟩ := choices.of_mux
    have hl := ihl follows soundLeft
    have choice := hl.mux (fun _ => evalFollows_lit (t := .boolean) true hl.follows)
      (fun value => ihr hl.follows (soundRight value))
    exact ⟨choice.value, choice.follows⟩
  | equ left right ihl ihr | neq left right ihl ihr | binary op left right ihl ihr =>
    have hl := ihl follows (sound.of_subset fun _ => mem_events_eval right)
    have hr := ihr hl.follows sound
    refine ⟨?_, hr.follows⟩
    simp only [SubstituteExpressions.expression, ProgramExpr.eval, hl.value, hr.value]
  | mux e0 e1 e2 ih0 ih1 ih2 =>
    obtain ⟨sound0, sound1, sound2⟩ := sound.of_mux
    have h0 := ih0 follows sound0
    exact h0.mux (fun value => ih1 h0.follows (sound1 value))
      (fun value => ih2 h0.follows (sound2 value))

/-- Without constants, the pass changes nothing. -/
theorem expression_none (e : ProgramExpr Empty t) :
    SubstituteExpressions.expression (fun _ => none) e = e := by
  induction e with
  | path node name t => cases t <;> rfl
  | lit | hit | miss | actionRun => rfl
  | lNot e ih | unary op e ih => rw [SubstituteExpressions.expression, ih]
  | lAnd left right ihl ihr | lOr left right ihl ihr | equ left right ihl ihr
  | neq left right ihl ihr | binary op left right ihl ihr =>
    rw [SubstituteExpressions.expression, ihl, ihr]
  | mux e0 e1 e2 ih0 ih1 ih2 => rw [SubstituteExpressions.expression, ih0, ih1, ih2]

theorem evalFollows (e : ProgramExpr Empty t) {w w' : World} (follows : w'.Follows w) :
    EvalFollows h e e w' w := by
  have unchanged := evalFollows_expression (h := h) e follows (soundConstants_none _)
  rwa [expression_none] at unchanged

/-- `ElimDeadCode` finds no application to replace in an expression without tables. -/
theorem elimDeadCode_expression (reachability : Node → Option Bool) (e : ProgramExpr Empty t) :
    ElimDeadCode.expression reachability e = e := by
  induction e with
  | lit | path => rfl
  | hit node table | miss node table | actionRun table => exact table.elim
  | lNot e ih | unary op e ih => rw [ElimDeadCode.expression, ih]
  | lAnd left right ihl ihr | lOr left right ihl ihr | equ left right ihl ihr
  | neq left right ihl ihr | binary op left right ihl ihr =>
    rw [ElimDeadCode.expression, ihl, ihr]
  | mux e0 e1 e2 ih0 ih1 ih2 => rw [ElimDeadCode.expression, ih0, ih1, ih2]

end Expressions

section Calls

variable {constants : Constants} {w w' : World}

namespace PassedArgument

theorem mem_events_eval (argument : PassedArgument) {event : Event} (mem : event ∈ w.events) :
    event ∈ (argument.eval w).2.events := by
  obtain ⟨direction, t, e⟩ := argument
  cases direction with
  | out => exact mem
  | none | «in» | inOut => exact Flay.mem_events_eval e mem

theorem mem_events_evalAll (arguments : List PassedArgument) {event : Event}
    (mem : event ∈ w.events) : event ∈ (evalAll arguments w).2.events := by
  induction arguments generalizing w with
  | nil => exact mem
  | cons argument arguments ih => exact ih (argument.mem_events_eval mem)

/-- The argument after the pass. -/
def substituted (constants : Constants) (argument : PassedArgument) : PassedArgument :=
  (argument.1, SubstituteExpressions.argument constants argument.1 argument.2)

theorem eval_substituted (argument : PassedArgument) (follows : w'.Follows w)
    (sound : SoundConstants constants (argument.eval w).2) :
    ((argument.substituted constants).eval w').1 = (argument.eval w).1 ∧
      ((argument.substituted constants).eval w').2.Follows (argument.eval w).2 := by
  obtain ⟨direction, t, e⟩ := argument
  cases direction with
  | out => exact ⟨rfl, follows⟩
  | inOut =>
    obtain ⟨value, follows⟩ := evalFollows (h := Handlers.none) e follows
    exact ⟨congrArg (Sigma.mk t) value, follows⟩
  | none | «in» =>
    obtain ⟨value, follows⟩ := evalFollows_expression (h := Handlers.none) e follows sound
    exact ⟨congrArg (Sigma.mk t) value, follows⟩

theorem evalAll_substituted (arguments : List PassedArgument) (follows : w'.Follows w)
    (sound : SoundConstants constants (evalAll arguments w).2) :
    (evalAll (arguments.map (substituted constants)) w').1 = (evalAll arguments w).1 ∧
      (evalAll (arguments.map (substituted constants)) w').2.Follows (evalAll arguments w).2 := by
  induction arguments generalizing w w' with
  | nil => exact ⟨rfl, follows⟩
  | cons argument arguments ih =>
    obtain ⟨value, follows⟩ := argument.eval_substituted follows
      (sound.of_subset fun _ => mem_events_evalAll arguments)
    obtain ⟨values, follows⟩ := ih follows sound
    exact ⟨congrArg₂ List.cons value values, follows⟩

variable (returned : MethodResult) (position : Nat)

/-- The pass leaves the arguments that the call writes. -/
theorem write_substituted (argument : PassedArgument) :
    (argument.substituted constants).write returned position = argument.write returned position := by
  obtain ⟨direction, t, e⟩ := argument
  cases writes : direction.writes with
  | true => simp [substituted, SubstituteExpressions.argument, writes]
  | false =>
    have unwritten : ∀ e : ProgramExpr Empty t, write returned position (direction, ⟨t, e⟩) = id := by
      intro e
      funext w
      cases e <;> simp [write, writes]
    simp [substituted, SubstituteExpressions.argument, writes, unwritten]

theorem writeAll_substituted (arguments : List PassedArgument) :
    writeAll returned position (arguments.map (substituted constants)) =
      writeAll returned position arguments := by
  induction arguments generalizing position with
  | nil => rfl
  | cons argument arguments ih =>
    funext w
    rw [List.map_cons, writeAll, writeAll, ih, write_substituted]

theorem write_follows (argument : PassedArgument) (follows : w'.Follows w) :
    (argument.write returned position w').Follows (argument.write returned position w) := by
  obtain ⟨direction, t, e⟩ := argument
  cases e with
  | path node name =>
    simp only [write]
    split
    · exact follows.set _ _
    · exact follows
  | _ => exact follows

theorem writeAll_follows (arguments : List PassedArgument) (follows : w'.Follows w) :
    (writeAll returned position arguments w').Follows (writeAll returned position arguments w) := by
  induction arguments generalizing position w w' with
  | nil => exact follows
  | cons argument arguments ih => exact ih _ (write_follows returned position argument follows)

theorem events_writeAll (arguments : List PassedArgument) :
    (writeAll returned position arguments w).events = w.events := by
  induction arguments generalizing position w with
  | nil => rfl
  | cons argument arguments ih =>
    rw [writeAll, ih]
    obtain ⟨direction, t, e⟩ := argument
    cases e with
    | path node name =>
      simp only [write]
      split <;> rfl
    | _ => rfl

end PassedArgument

namespace MethodCall

variable (externs : Externs) (call : MethodCall)

theorem writeResult_follows (returned : MethodResult) (result : Option StateVariable)
    (follows : w'.Follows w) : (writeResult returned result w').Follows (writeResult returned result w) := by
  cases result with
  | none => exact follows
  | some x => exact follows.set x _

/-- The record of a call is that of the evaluation of its arguments. -/
theorem events_run :
    (call.run externs w).events = (PassedArgument.evalAll call.passedArguments w).2.events := by
  have written : ∀ (returned : MethodResult) (result : Option StateVariable) (v : World),
      (writeResult returned result v).events = v.events := by
    intro returned result v
    cases result <;> rfl
  rw [run, written, PassedArgument.events_writeAll]

/-- Two calls of a method do the same if the arguments have the same values and are written alike. -/
theorem run_follows_of {call' : MethodCall} (method : call'.method = call.method)
    (result : call'.result = call.result)
    (values : (PassedArgument.evalAll call'.passedArguments w').1 =
      (PassedArgument.evalAll call.passedArguments w).1)
    (follows : (PassedArgument.evalAll call'.passedArguments w').2.Follows
      (PassedArgument.evalAll call.passedArguments w).2)
    (written : ∀ returned, PassedArgument.writeAll returned 0 call'.passedArguments =
      PassedArgument.writeAll returned 0 call.passedArguments) :
    (call'.run externs w').Follows (call.run externs w) := by
  simp only [run, method, result, values, follows.env, written]
  exact writeResult_follows _ _ (PassedArgument.writeAll_follows _ _ _ ⟨rfl, follows.reads⟩)

theorem run_follows (follows : w'.Follows w) :
    (call.run externs w').Follows (call.run externs w) := by
  have unchanged : PassedArgument.substituted (fun _ => none) = id := by
    funext argument
    obtain ⟨direction, t, e⟩ := argument
    simp [PassedArgument.substituted, SubstituteExpressions.argument, expression_none]
  have evaluated := PassedArgument.evalAll_substituted call.passedArguments follows
    (soundConstants_none _)
  rw [unchanged, List.map_id] at evaluated
  exact run_follows_of externs call rfl rfl evaluated.1 evaluated.2 fun _ => rfl

variable (constants) in
theorem passedArguments_methodCall (enough : call.arguments.length ≤ call.parameters.length) :
    (SubstituteExpressions.methodCall constants call).passedArguments =
      call.passedArguments.map (PassedArgument.substituted constants) := by
  have paired : ∀ (parameters : List Direction) (arguments : List (Sigma (ProgramExpr Empty))),
      parameters.zip (List.zipWith (SubstituteExpressions.argument constants) parameters arguments) =
        (parameters.zip arguments).map (PassedArgument.substituted constants) := by
    intro parameters
    induction parameters with
    | nil => exact fun _ => rfl
    | cons direction parameters ih =>
      intro arguments
      cases arguments with
      | nil => rfl
      | cons argument arguments => exact congrArg (List.cons _) (ih arguments)
  rw [SubstituteExpressions.methodCall, if_neg (Nat.not_lt.mpr enough)]
  exact paired _ _

/-- The pass keeps what a call does. -/
theorem run_methodCall_follows (follows : w'.Follows w)
    (sound : SoundConstants constants (call.run externs w)) :
    ((SubstituteExpressions.methodCall constants call).run externs w').Follows
      (call.run externs w) := by
  by_cases enough : call.arguments.length ≤ call.parameters.length
  · have same : (SubstituteExpressions.methodCall constants call).method = call.method ∧
        (SubstituteExpressions.methodCall constants call).result = call.result := by
      rw [SubstituteExpressions.methodCall]
      split <;> exact ⟨rfl, rfl⟩
    have evaluated := PassedArgument.evalAll_substituted call.passedArguments follows
      (sound.of_subset fun event mem => by rwa [events_run])
    have passed := passedArguments_methodCall constants call enough
    rw [← passed] at evaluated
    refine run_follows_of externs call same.1 same.2 evaluated.1 evaluated.2 fun returned => ?_
    rw [passed, PassedArgument.writeAll_substituted]
  · rw [SubstituteExpressions.methodCall, if_pos (Nat.lt_of_not_le enough)]
    exact run_follows externs call follows

end MethodCall

end Calls

section Statements

variable {constants : Constants} {reachability : Node → Option Bool} {s : CallStatement}
  {w w' : World}

/-- The execution of a statement keeps the record. -/
theorem mem_events_exec (plain : CallStatement.Plain s) (e : Execution) {event : Event}
    (mem : event ∈ w.events) : event ∈ (s.exec e.handlers w).events := by
  induction plain generalizing w with
  | empty | nil => exact mem
  | assignment left right | declaration left right => exact mem_events_eval right mem
  | call methodCall =>
    show event ∈ (methodCall.run e.externs w).events
    rw [MethodCall.events_run]
    exact PassedArgument.mem_events_evalAll _ mem
  | cons head tail ihHead ihTail => exact ihTail (ihHead mem)
  | ifThen thenPlain ih =>
    have evaluated := mem_events_eval (h := e.handlers) ‹ProgramExpr Empty .boolean› mem
    simp only [Statement.exec]
    split
    · exact ih (List.mem_append_left _ evaluated)
    · exact evaluated
  | ifThenElse thenPlain elsePlain ihThen ihElse =>
    have evaluated := mem_events_eval (h := e.handlers) ‹ProgramExpr Empty .boolean› mem
    simp only [Statement.exec]
    split
    · exact ihThen (List.mem_append_left _ evaluated)
    · exact ihElse evaluated

/-- An if statement follows another one whose condition has the same value, and whose branches it
follows. -/
theorem exec_ifStatement_follows {e : Execution} {node : Node}
    {condition condition' : ProgramExpr Empty .boolean} {ifTrue ifTrue' : CallStatement}
    {ifFalse ifFalse' : Option CallStatement}
    (evaluated : EvalFollows e.handlers condition' condition w' w)
    (taken : (condition.eval e.handlers w).1 = true → ∀ {v' v : World}, v'.Follows v →
      v = (condition.eval e.handlers w).2.emit (.taken node) →
        (ifTrue'.exec e.handlers v').Follows (ifTrue.exec e.handlers v))
    (skipped : (condition.eval e.handlers w).1 = false → ∀ {v' v : World}, v'.Follows v →
      v = (condition.eval e.handlers w).2 →
        (execOption e.handlers ifFalse' v').Follows (execOption e.handlers ifFalse v)) :
    ((Statement.ifStatement node condition' ifTrue' ifFalse').exec e.handlers w').Follows
      ((Statement.ifStatement node condition ifTrue ifFalse).exec e.handlers w) := by
  cases value : (condition.eval e.handlers w).1 with
  | true =>
    have value' := evaluated.value.trans value
    simp only [Statement.exec, value, value', if_true]
    exact taken value (evaluated.follows.emit _) rfl
  | false =>
    have value' := evaluated.value.trans value
    simp only [Statement.exec, value, value', Bool.false_eq_true, if_false]
    exact skipped value evaluated.follows rfl

/-- Constants that are right after an if statement are right after its condition and its branch. -/
theorem SoundConstants.of_ifStatement {e : Execution} {node : Node}
    {condition : ProgramExpr Empty .boolean} {ifTrue : CallStatement} {ifFalse : Option CallStatement}
    (sound : SoundConstants constants
      ((Statement.ifStatement node condition ifTrue ifFalse).exec e.handlers w))
    (thenPlain : CallStatement.Plain ifTrue)
    (elsePlain : ∀ s ∈ ifFalse, CallStatement.Plain s) :
    SoundConstants constants (condition.eval e.handlers w).2 ∧
      ((condition.eval e.handlers w).1 = true → SoundConstants constants
        (ifTrue.exec e.handlers ((condition.eval e.handlers w).2.emit (.taken node)))) ∧
      ((condition.eval e.handlers w).1 = false → SoundConstants constants
        (execOption e.handlers ifFalse (condition.eval e.handlers w).2)) := by
  cases value : (condition.eval e.handlers w).1 with
  | true =>
    simp only [Statement.exec, value, if_true] at sound
    refine ⟨sound.of_subset fun event mem => ?_, fun _ => sound, (by cases ·)⟩
    exact mem_events_exec thenPlain e (List.mem_append_left _ mem)
  | false =>
    simp only [Statement.exec, value, Bool.false_eq_true, if_false] at sound
    refine ⟨sound.of_subset fun event mem => ?_, (by cases ·), fun _ => sound⟩
    cases ifFalse with
    | none => exact mem
    | some s => exact mem_events_exec (elsePlain s rfl) e mem

/-- With constants that are right for its execution, `SubstituteExpressions` keeps what a statement
does. -/
theorem exec_substituteExpressions (plain : CallStatement.Plain s) (e : Execution)
    (follows : w'.Follows w) (sound : SoundConstants constants (s.exec e.handlers w)) :
    ((SubstituteExpressions.statement constants (SubstituteExpressions.methodCall constants)
      s).exec e.handlers w').Follows (s.exec e.handlers w) := by
  induction plain generalizing w w' with
  | empty | nil => exact follows
  | assignment left right | declaration left right =>
    have evaluated := evalFollows_expression right follows (sound.of_subset fun _ mem => mem)
    simp only [SubstituteExpressions.statement, Statement.exec, evaluated.value]
    exact evaluated.follows.set _ _
  | call methodCall => exact MethodCall.run_methodCall_follows e.externs methodCall follows sound
  | cons head tail ihHead ihTail =>
    exact ihTail (ihHead follows (sound.of_subset fun _ => mem_events_exec tail e)) sound
  | ifThen thenPlain ih =>
    obtain ⟨condition, taken, -⟩ := sound.of_ifStatement thenPlain (by simp)
    refine exec_ifStatement_follows (evalFollows_expression _ follows condition) ?_ ?_
    · rintro value v' _ follows rfl
      exact ih follows (taken value)
    · rintro - v' _ follows rfl
      exact follows
  | ifThenElse thenPlain elsePlain ihThen ihElse =>
    obtain ⟨condition, taken, skipped⟩ := sound.of_ifStatement thenPlain (by simpa using elsePlain)
    refine exec_ifStatement_follows (evalFollows_expression _ follows condition) ?_ ?_
    · rintro value v' _ follows rfl
      exact ihThen follows (taken value)
    · rintro value v' _ follows rfl
      exact ihElse follows (skipped value)

/-- The branch that a verdict leaves. -/
theorem exec_preorderIf {e : Execution} {node : Node} {condition : ProgramExpr Empty .boolean}
    {ifTrue ifTrue' : CallStatement} {ifFalse ifFalse' : Option CallStatement} (follows : w'.Follows w)
    (decided : (Statement.ifStatement node condition ifTrue ifFalse).Decided reachability e.handlers w)
    (taken : ∀ {v' v : World}, v'.Follows v → ifTrue.Decided reachability e.handlers v →
      (ifTrue'.exec e.handlers v').Follows (ifTrue.exec e.handlers v))
    (skipped : ∀ {v' v : World}, v'.Follows v → DecidedOption reachability e.handlers ifFalse v →
      (execOption e.handlers ifFalse' v').Follows (execOption e.handlers ifFalse v)) :
    ((ElimDeadCode.preorderIf reachability node condition ifTrue' ifFalse').exec e.handlers
      w').Follows ((Statement.ifStatement node condition ifTrue ifFalse).exec e.handlers w) := by
  obtain ⟨decides, branch⟩ := decided
  have evaluated := evalFollows (h := e.handlers) condition follows
  cases verdict : reachability node with
  | none =>
    rw [ElimDeadCode.preorderIf, verdict]
    refine exec_ifStatement_follows evaluated ?_ ?_
    · rintro value v' _ follows rfl
      exact taken follows (by simpa only [value, if_true] using branch)
    · rintro value v' _ follows rfl
      exact skipped follows (by simpa only [value, Bool.false_eq_true, if_false] using branch)
  | some decision =>
    have value := decides decision verdict
    have value' := evaluated.value.trans value
    cases decision with
    | true =>
      simp only [value, if_true] at branch
      simp only [ElimDeadCode.preorderIf, verdict, Statement.exec, value, value', if_true]
      exact taken (evaluated.follows.emit _) branch
    | false =>
      -- The negated condition holds, and what was the else branch runs under it.
      simp only [value, Bool.false_eq_true, if_false] at branch
      have remaining := skipped (evaluated.follows.emit_taken node) branch
      simp only [ElimDeadCode.preorderIf, verdict, Statement.exec, ProgramExpr.eval, value, value',
        Bool.not_false, if_true, Bool.false_eq_true, if_false]
      cases ifFalse' <;> exact remaining

/-- With verdicts that are right for its execution, `ElimDeadCode` keeps what a statement does. -/
theorem exec_elimDeadCode (plain : CallStatement.Plain s) (e : Execution) (follows : w'.Follows w)
    (decided : s.Decided reachability e.handlers w) :
    ((ElimDeadCode.statement reachability Empty.elim s).exec e.handlers w').Follows
      (s.exec e.handlers w) := by
  induction plain generalizing w w' with
  | empty | nil => exact follows
  | assignment left right | declaration left right =>
    have evaluated := evalFollows (h := e.handlers) right follows
    simp only [ElimDeadCode.statement, elimDeadCode_expression, Statement.exec, evaluated.value]
    exact evaluated.follows.set _ _
  | call methodCall => exact MethodCall.run_follows e.externs methodCall follows
  | cons head tail ihHead ihTail => exact ihTail (ihHead follows decided.1) decided.2
  | ifThen thenPlain ih =>
    rw [ElimDeadCode.statement, elimDeadCode_expression]
    exact exec_preorderIf follows decided ih fun follows _ => follows
  | ifThenElse thenPlain elsePlain ihThen ihElse =>
    rw [ElimDeadCode.statement, elimDeadCode_expression]
    exact exec_preorderIf follows decided ihThen ihElse

theorem plain_elimDeadCode (plain : CallStatement.Plain s) :
    CallStatement.Plain (ElimDeadCode.statement reachability Empty.elim s) := by
  induction plain with
  | empty => exact .empty
  | assignment left right => exact .assignment left _
  | declaration name initializer => exact .declaration name _
  | call methodCall => exact .call methodCall
  | nil => exact .nil
  | cons head tail ihHead ihTail => exact .cons ihHead ihTail
  | ifThen thenPlain ih =>
    rw [ElimDeadCode.statement, ElimDeadCode.preorderIf]
    split
    · exact .ifThen ih
    · exact .ifThen ih
    · exact .ifThen .empty
  | ifThenElse thenPlain elsePlain ihThen ihElse =>
    rw [ElimDeadCode.statement, ElimDeadCode.preorderIf]
    split
    · exact .ifThenElse ihThen ihElse
    · exact .ifThen ihThen
    · exact .ifThen ihElse

/-- `ElimDeadCode` takes places away that are written, and no more. -/
theorem written_elimDeadCode (plain : CallStatement.Plain s) :
    (CallStatement.written (ElimDeadCode.statement reachability Empty.elim s)).Sublist
      (CallStatement.written s) := by
  induction plain with
  | empty | assignment | declaration | call | nil => exact List.Sublist.refl _
  | cons head tail ihHead ihTail => exact ihHead.append ihTail
  | ifThen thenPlain ih =>
    rw [ElimDeadCode.statement, ElimDeadCode.preorderIf]
    split
    · exact ih.append (List.Sublist.refl _)
    · exact ih.append (List.Sublist.refl _)
    · exact List.nil_sublist _
  | ifThenElse thenPlain elsePlain ihThen ihElse =>
    rw [ElimDeadCode.statement, ElimDeadCode.preorderIf]
    split
    · exact ihThen.append ihElse
    · exact ihThen.append (List.nil_sublist _)
    · refine List.Sublist.trans ?_ (List.sublist_append_right _ _)
      simpa [CallStatement.written, writtenOption, ElimDeadCode.optionalStatement] using ihElse

theorem written_methodCall (call : MethodCall) :
    (SubstituteExpressions.methodCall constants call).written = call.written := by
  by_cases enough : call.arguments.length ≤ call.parameters.length
  · have same : (SubstituteExpressions.methodCall constants call).result = call.result := by
      rw [SubstituteExpressions.methodCall]
      split <;> rfl
    rw [MethodCall.written, MethodCall.passedArguments_methodCall constants call enough, same,
      MethodCall.written, List.filter_map, List.map_map]
    refine congrArg (· ++ _) (List.map_congr_left fun argument mem => ?_)
    have writes : argument.1.writes = true := (List.mem_filter.mp mem).2
    simp [PassedArgument.substituted, SubstituteExpressions.argument, writes]
  · rw [SubstituteExpressions.methodCall, if_pos (Nat.lt_of_not_le enough)]

/-- `SubstituteExpressions` leaves the places that are written. -/
theorem written_substituteExpressions (plain : CallStatement.Plain s) :
    CallStatement.written (SubstituteExpressions.statement constants
      (SubstituteExpressions.methodCall constants) s) = CallStatement.written s := by
  induction plain with
  | empty | assignment | declaration | nil => rfl
  | call methodCall => exact written_methodCall methodCall
  | cons head tail ihHead ihTail => exact congrArg₂ List.append ihHead ihTail
  | ifThen thenPlain ih => exact congrArg₂ List.append ih rfl
  | ifThenElse thenPlain elsePlain ihThen ihElse => exact congrArg₂ List.append ihThen ihElse

end Statements

/-- Branch elimination and constant substitution keep the final state in every execution for which
the verdicts and the constants are right, and rewrite nothing that is written. -/
theorem flaySpecializer_preserves (reachability : Node → Option Bool) (constants : Constants)
    {program : CallStatement} (plain : CallStatement.Plain program) (executions : Execution → Prop)
    (sound : ∀ e, executions e → SoundFor reachability constants program e) :
    (∀ e, executions e → (e.run (flaySpecializerOfCalls reachability constants program)).env =
      (e.run program).env) ∧
    (CallStatement.written (flaySpecializerOfCalls reachability constants program)).Sublist
      (CallStatement.written program) := by
  constructor
  · intro e mem
    obtain ⟨verdicts, values⟩ := sound e mem
    have eliminated := exec_elimDeadCode plain e (.refl _) verdicts
    have still : SoundConstants constants
        (e.run (ElimDeadCode.statement reachability Empty.elim program)) :=
      fun node isSigned width value constant read =>
        values node isSigned width value constant (eliminated.reads _ _ read)
    have substituted := exec_substituteExpressions (plain_elimDeadCode plain) e (.refl _) still
    exact substituted.env.trans eliminated.env
  · rw [flaySpecializerOfCalls, written_substituteExpressions (plain_elimDeadCode plain)]
    exact written_elimDeadCode plain

/-- An if statement whose else branch calls a method. -/
def lookupProgram : CallStatement :=
  .block [.ifStatement 1 (.equ (.path 2 "x" (.bit 8)) (.lit (1 : BitVec 8)))
    (.assignment "y" (.path 3 "z" (.bit 8)))
    (some (.call ⟨"lookup", [.in, .inOut], [⟨.bit 8, .path 4 "z" (.bit 8)⟩,
      ⟨.bit 8, .path 5 "y" (.bit 8)⟩], none⟩))]

/-- A method that doubles its first argument. -/
def lookupExecution : Execution where
  externs _ arguments env :=
    { env
      argument _ t :=
        match t, arguments with
        | .bits false 8, ⟨.bits false 8, value⟩ :: _ => value + value
        | _, _ => default
      result _ := default }
  env x := if h : x = ⟨"z", .bit 8⟩ then h ▸ (5 : BitVec 8) else default

/-- The else branch is taken. -/
def lookupVerdicts (node : Node) : Option Bool := if node = 1 then some false else none

/-- The first argument of the call is 5, and the second one is 0 before the call. -/
def lookupConstants : Constants
  | ⟨4, false, 8⟩ => some (5 : BitVec 8)
  | ⟨5, false, 8⟩ => some (0 : BitVec 8)
  | _ => none

example : flaySpecializerOfCalls lookupVerdicts lookupConstants lookupProgram =
    .block [.ifStatement 1 (.lNot (.equ (.path 2 "x" (.bit 8)) (.lit (1 : BitVec 8))))
      (.call ⟨"lookup", [.in, .inOut], [⟨.bit 8, .lit (5 : BitVec 8)⟩,
        ⟨.bit 8, .path 5 "y" (.bit 8)⟩], none⟩) none] := rfl

theorem lookupProgram_preserved :
    (lookupExecution.run
        (flaySpecializerOfCalls lookupVerdicts lookupConstants lookupProgram)).env =
      (lookupExecution.run lookupProgram).env ∧
    (CallStatement.written
        (flaySpecializerOfCalls lookupVerdicts lookupConstants lookupProgram)).Sublist
      (CallStatement.written lookupProgram) := by
  have plain : CallStatement.Plain lookupProgram :=
    .cons (.ifThenElse (.assignment _ _) (.call _)) .nil
  have sound : SoundFor lookupVerdicts lookupConstants lookupProgram lookupExecution := by
    constructor
    · refine ⟨⟨fun verdict known => ?_, trivial⟩, trivial⟩
      cases known
      rfl
    · have record : (lookupExecution.run lookupProgram).events =
          [.read 2 ⟨.bit 8, (0 : BitVec 8)⟩, .read 4 ⟨.bit 8, (5 : BitVec 8)⟩,
            .read 5 ⟨.bit 8, (0 : BitVec 8)⟩] := rfl
      intro node isSigned width value constant read known
      rw [record] at read
      simp only [List.mem_cons, List.not_mem_nil, or_false, Event.read.injEq] at read
      rcases read with ⟨rfl, same⟩ | ⟨rfl, same⟩ | ⟨rfl, same⟩ <;> cases same <;> cases known <;> rfl
  have preserved := flaySpecializer_preserves lookupVerdicts lookupConstants plain
    (· = lookupExecution) (by rintro _ rfl; exact sound)
  exact ⟨preserved.1 lookupExecution rfl, preserved.2⟩

end Flay
