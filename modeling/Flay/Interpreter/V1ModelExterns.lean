import Flay.Interpreter.Control
import Flay.Interpreter.Draws
import Flay.Lib.Lockstep
import Flay.Program.Parser

/-! The externs of v1model that write an argument or a field of the metadata: what the interpreter
does on a call, what the documentation allows a call to do, and the runs that one valuation of the
symbolic variables of the calls accounts for. -/

namespace Flay

open Container

/-- An argument that is only read. -/
abbrev InArgument : Type := Sigma (ProgramExpr Empty)

/-- A variable that is passed for an `out` or `inout` parameter. -/
structure InOutReference (t : Ty) where
  node : Node
  name : String

namespace InOutReference

variable {t : Ty}

abbrev ref (argument : InOutReference t) : StateVariable := ⟨argument.name, t⟩

def expression (argument : InOutReference t) : InArgument :=
  ⟨t, .path argument.node argument.name t⟩

end InOutReference

/-- The methods with their arguments. A meter comes with the number of its states. The algorithm of a
checksum or a hash is a constant and left out. -/
inductive V1ModelMethod
  | random {width : Nat} (result : InOutReference (.bit width))
      (lo hi : ProgramExpr Empty (.bit width))
  | registerRead {t : Ty} (result : InOutReference t) (index : InArgument)
  | executeMeter (size : Nat) {indexWidth width : Nat} (index : ProgramExpr Empty (.bit indexWidth))
      (result : InOutReference (.bit width))
  | directMeterRead {width : Nat} (result : InOutReference (.bit width))
  | hash {width baseWidth maxWidth : Nat} (result : InOutReference (.bit width))
      (base : ProgramExpr Empty (.bit baseWidth)) (data : List InArgument)
      (max : ProgramExpr Empty (.bit maxWidth))
  | verifyChecksum (withPayload : Bool) (condition : ProgramExpr Empty .boolean)
      (data : List InArgument) (checksum : InArgument)
  | updateChecksum {t : Ty} (withPayload : Bool) (condition : ProgramExpr Empty .boolean)
      (data : List InArgument) (checksum : InOutReference t)

/-- A call of a method, with the identity that the clones of the call share. -/
structure V1ModelCall where
  externObjectRef : String
  cloneId : Nat
  method : V1ModelMethod

/-- `*standard_metadata.checksum_error`. -/
abbrev checksumErr : StateVariable := ⟨"*standard_metadata.checksum_error", .bit 1⟩

namespace V1ModelMethod

def methodName : V1ModelMethod → String
  | random _ _ _ => "random"
  | registerRead _ _ => "read"
  | executeMeter _ _ _ => "execute_meter"
  | directMeterRead _ => "read"
  | hash _ _ _ _ => "hash"
  | verifyChecksum withPayload _ _ _ =>
    if withPayload then "verify_checksum_with_payload" else "verify_checksum"
  | updateChecksum withPayload _ _ _ =>
    if withPayload then "update_checksum_with_payload" else "update_checksum"

/-- The variable that the method may write. -/
def target : V1ModelMethod → StateVariable
  | random result _ _ => result.ref
  | registerRead result _ => result.ref
  | executeMeter _ _ result => result.ref
  | directMeterRead result => result.ref
  | hash result _ _ _ => result.ref
  | verifyChecksum _ _ _ _ => checksumErr
  | updateChecksum _ _ _ checksum => checksum.ref

/-- All arguments in turn. -/
def arguments : V1ModelMethod → List InArgument
  | random result lo hi => [result.expression, ⟨_, lo⟩, ⟨_, hi⟩]
  | registerRead result index => [result.expression, index]
  | executeMeter _ index result => [⟨_, index⟩, result.expression]
  | directMeterRead result => [result.expression]
  | hash result base data max => [result.expression, ⟨_, base⟩] ++ data ++ [⟨_, max⟩]
  | verifyChecksum _ condition data checksum => ⟨_, condition⟩ :: (data ++ [checksum])
  | updateChecksum _ condition data checksum => ⟨_, condition⟩ :: (data ++ [checksum.expression])

end V1ModelMethod

/-! ### The interpreter -/

/-- Arguments are resolved one after another. -/
def resolveArguments : List InArgument → Interpretation → Option Interpretation
  | [], i => some i
  | argument :: arguments, i => do
    let (_, i) ← ExpressionResolver.computeResult SymbolicHandlers.none argument.2 i
    resolveArguments arguments i

namespace V1ModelCall

def label (call : V1ModelCall) : String :=
  call.externObjectRef ++ "_" ++ call.method.methodName ++ "_" ++ toString call.cloneId

/-- `getSymbolicVariable` with the label of the call. -/
abbrev symbolicVariable (call : V1ModelCall) (t : Ty) : SymbolicVariable := ⟨.dataPlane call.label, t⟩

/-- The variable is set to a symbolic variable. -/
def setSymbolic (call : V1ModelCall) (arguments : List InArgument) {t : Ty}
    (result : InOutReference t) (i : Interpretation) : Option Interpretation := do
  let i ← resolveArguments arguments i
  some (i.resume (i.state.set result.ref (call.symbolicVariable t).expr))

/-- The error is set to a symbolic variable where the condition holds, and else to zero. -/
def verify (call : V1ModelCall) (condition : ProgramExpr Empty .boolean)
    (arguments : List InArgument) (i : Interpretation) : Option Interpretation := do
  let (cond, i) ← ExpressionResolver.computeResult SymbolicHandlers.none condition i
  let i ← resolveArguments arguments i
  some (i.resume (i.state.set checksumErr
    (.mux cond (call.symbolicVariable (.bit 1)).expr (.lit (0 : BitVec 1)))))

/-- The checksum is set to a symbolic variable where the condition holds. -/
def update (call : V1ModelCall) (condition : ProgramExpr Empty .boolean)
    (arguments : List InArgument) {t : Ty} (checksum : InOutReference t) (i : Interpretation) :
    Option Interpretation := do
  let (cond, i) ← ExpressionResolver.computeResult SymbolicHandlers.none condition i
  let i ← resolveArguments arguments i
  let checksumCurrentVal ← i.state.env.find checksum.ref
  some (i.resume (i.state.set checksum.ref
    (.mux cond (call.symbolicVariable t).expr checksumCurrentVal)))

/-- What the interpreter does on the call. -/
def processExtern (call : V1ModelCall) : Interpretation → Option Interpretation :=
  match call.method with
  | .random result lo hi => call.setSymbolic [result.expression, ⟨_, lo⟩, ⟨_, hi⟩] result
  | .registerRead result index => call.setSymbolic [result.expression, index] result
  | .executeMeter _ index result => resolveArguments [⟨_, index⟩, result.expression]
  | .directMeterRead result => resolveArguments [result.expression]
  | .hash result base data max =>
    call.setSymbolic ([result.expression, ⟨_, base⟩] ++ data ++ [⟨_, max⟩]) result
  | .verifyChecksum _ condition data checksum => call.verify condition (data ++ [checksum])
  | .updateChecksum _ condition data checksum =>
    call.update condition (data ++ [checksum.expression]) checksum

end V1ModelCall

/-! ### The documented behaviour -/

namespace V1ModelMethod

/-- A checksum is verified: an error is recorded, or the field is left as it is. Without the condition
the verification succeeds. -/
def Verifies (w : World) (condition : ProgramExpr Empty .boolean) (v : BitVec 1) : Prop :=
  v = w.env checksumErr ∨ condition.value w = true ∧ v = 1

/-- A checksum is computed, and without the condition not changed. -/
def Updates (w : World) (condition : ProgramExpr Empty .boolean) {t : Ty}
    (checksum : InOutReference t) (v : t.Val) : Prop :=
  condition.value w = true ∨ v = w.env checksum.ref

instance decidableVerifies (w : World) (condition : ProgramExpr Empty .boolean) (v : BitVec 1) :
    Decidable (Verifies w condition v) := inferInstanceAs (Decidable (_ ∨ _ ∧ _))

instance decidableUpdates (w : World) (condition : ProgramExpr Empty .boolean) {t : Ty}
    (checksum : InOutReference t) (v : t.Val) : Decidable (Updates w condition checksum v) :=
  inferInstanceAs (Decidable (_ ∨ _))

/-- The values that the documentation allows for the target after a call. -/
def Allows (w : World) : (method : V1ModelMethod) → method.target.type.Val → Prop
  | random _ lo hi, v =>
    BitVec.toNat (lo.value w) ≤ BitVec.toNat v ∧ BitVec.toNat v ≤ BitVec.toNat (hi.value w)
  | registerRead _ _, _ => True
  | executeMeter size index _, v => BitVec.toNat (index.value w) < size → BitVec.toNat v ≤ 2
  | directMeterRead _, v => BitVec.toNat v ≤ 2
  | hash _ base _ max, v =>
    BitVec.toNat (base.value w) ≤ BitVec.toNat v ∧
      BitVec.toNat v ≤ BitVec.toNat (base.value w) + (BitVec.toNat (max.value w) - 1)
  | verifyChecksum _ condition _ _, v => Verifies w condition v
  | updateChecksum _ condition _ checksum, v => Updates w condition checksum v

instance decidableAllows (w : World) (method : V1ModelMethod) (v : method.target.type.Val) :
    Decidable (method.Allows w v) :=
  match method with
  | random _ _ _ => inferInstanceAs (Decidable (_ ∧ _))
  | registerRead _ _ => inferInstanceAs (Decidable True)
  | executeMeter _ _ _ => inferInstanceAs (Decidable (_ → _))
  | directMeterRead _ => inferInstanceAs (Decidable (_ ≤ _))
  | hash _ _ _ _ => inferInstanceAs (Decidable (_ ∧ _))
  | verifyChecksum _ condition _ _ => decidableVerifies w condition v
  | updateChecksum _ condition _ checksum => decidableUpdates w condition checksum v

/-- The value is given to a symbolic variable. A checksum that is not verified or updated has none. -/
def isSymbolic (w : World) : V1ModelMethod → Bool
  | executeMeter _ _ _ => false
  | directMeterRead _ => false
  | verifyChecksum _ condition _ _ => condition.value w
  | updateChecksum _ condition _ _ => condition.value w
  | _ => true

/-- What the interpreter has for a target without a symbolic variable is right: a meter writes the
value that is there, and a checksum that is not verified finds no error recorded. -/
def Accounted (w : World) : (method : V1ModelMethod) → method.target.type.Val → Prop
  | executeMeter _ _ result, v => v = w.env result.ref
  | directMeterRead result, v => v = w.env result.ref
  | verifyChecksum _ condition _ _, _ =>
    condition.value w = true ∨ w.env checksumErr = (0 : BitVec 1)
  | _, _ => True

end V1ModelMethod

/-- A call, and the value that its target has after it. -/
structure ExternStep where
  call : V1ModelCall
  value : call.method.target.type.Val

namespace ExternStep

def exec (t : ExternStep) (w : World) : Option World :=
  if t.call.method.Allows w t.value then some (w.set t.call.method.target t.value) else none

def process (t : ExternStep) : Interpretation → Option Interpretation := t.call.processExtern

/-- The value that is drawn for the symbolic variable of the call. -/
def draws (t : ExternStep) (w : World) : List Draw :=
  if t.call.method.isSymbolic w then [⟨t.call.symbolicVariable t.call.method.target.type, t.value⟩]
  else []

def Accounted (t : ExternStep) (w : World) : Prop := t.call.method.Accounted w t.value

/-- The variables that the call reads and writes are known. -/
def Covered (vars : List StateVariable) (t : ExternStep) : Prop :=
  (∀ argument ∈ t.call.method.arguments, argument.2.reads ⊆ vars) ∧ t.call.method.target ∈ vars

end ExternStep

/-! ### Steps -/

section Steps

variable {vars : List StateVariable} {ρ : Valuation} {i : Interpretation} {w : World}

theorem resolveArguments_unchanged (l : List InArgument)
    (closed : ∀ argument ∈ l, argument.2.reads ⊆ vars) (i : Interpretation)
    (defined : vars ⊆ i.state.env.keys) :
    ∃ i', resolveArguments l i = some i' ∧ i.Unchanged i' := by
  induction l generalizing i with
  | nil => exact ⟨i, rfl, .refl i⟩
  | cons argument l ih =>
    obtain ⟨r, j, computed, unchanged, -⟩ :=
      computeResult_none argument.2 (closed argument List.mem_cons_self) i defined
    obtain ⟨k, resolved, unchanged'⟩ := ih (fun a mem => closed a (List.mem_cons_of_mem _ mem)) j
      fun x mem => unchanged.mem_keys.mpr (defined mem)
    exact ⟨k, by simp [resolveArguments, computed, resolved], unchanged.trans unchanged'⟩

theorem Describes.set_iff {s : ExecutionState} (h : Describes vars ρ s w) {x : StateVariable}
    (known : x ∈ vars) (value : Expr x.type) (v : x.type.Val) :
    Describes vars ρ (s.set x value) (w.set x v) ↔ value.eval ρ = v := by
  constructor
  · intro after
    have simulates := after.simulates x known
    rw [World.env_set_self, ExecutionState.value, ExecutionState.set, OrderedMap.find_set_self]
      at simulates
    exact Option.some.inj simulates
  · intro evaluated
    exact ⟨fun y mem => OrderedMap.mem_keys_set.mpr (.inl (h.defined mem)), h.holds,
      h.simulates.set evaluated⟩

/-- A state that stays as it is, while the variable is set. -/
theorem Describes.kept_iff {s : ExecutionState} (h : Describes vars ρ s w) {x : StateVariable}
    (known : x ∈ vars) (v : x.type.Val) : Describes vars ρ s (w.set x v) ↔ v = w.env x := by
  constructor
  · intro after
    have set := after.simulates x known
    rw [World.env_set_self, h.simulates x known] at set
    exact (Option.some.inj set).symm
  · rintro rfl
    exact ⟨h.defined, h.holds, h.simulates.of_env (congrArg World.env (World.set_of_env rfl))⟩

namespace V1ModelCall

variable (call : V1ModelCall)

theorem setSymbolic_describes {t : Ty} (result : InOutReference t) {arguments : List InArgument}
    (closed : ∀ argument ∈ arguments, argument.2.reads ⊆ vars) (known : result.ref ∈ vars)
    (h : Describes vars ρ i.state w) (v : t.Val) :
    ∃ i', call.setSymbolic arguments result i = some i' ∧
      (Describes vars ρ i'.state (w.set result.ref v) ↔ ρ (call.symbolicVariable t) = v) := by
  obtain ⟨j, resolved, unchanged⟩ := resolveArguments_unchanged arguments closed i h.defined
  refine ⟨_, by rw [setSymbolic, resolved]; rfl, ?_⟩
  exact (h.of_unchanged unchanged).set_iff known (call.symbolicVariable t).expr v

theorem resolveArguments_describes {x : StateVariable} {arguments : List InArgument}
    (closed : ∀ argument ∈ arguments, argument.2.reads ⊆ vars) (known : x ∈ vars)
    (h : Describes vars ρ i.state w) (v : x.type.Val) :
    ∃ i', resolveArguments arguments i = some i' ∧
      (Describes vars ρ i'.state (w.set x v) ↔ v = w.env x) := by
  obtain ⟨j, resolved, unchanged⟩ := resolveArguments_unchanged arguments closed i h.defined
  exact ⟨j, resolved, (h.of_unchanged unchanged).kept_iff known v⟩

theorem verify_describes {condition : ProgramExpr Empty .boolean} {arguments : List InArgument}
    (closed : ∀ argument ∈ (⟨_, condition⟩ :: arguments : List InArgument), argument.2.reads ⊆ vars)
    (known : checksumErr ∈ vars) (h : Describes vars ρ i.state w) (v : BitVec 1) :
    ∃ i', call.verify condition arguments i = some i' ∧
      (Describes vars ρ i'.state (w.set checksumErr v) ↔
        (if condition.value w then ρ (call.symbolicVariable (.bit 1)) else (0 : BitVec 1)) = v) := by
  obtain ⟨cond, j, computed, unchanged, value⟩ :=
    computeResult_none condition (closed _ List.mem_cons_self) i h.defined
  have later := h.of_unchanged unchanged
  obtain ⟨k, resolved, unchanged'⟩ := resolveArguments_unchanged arguments
    (fun argument mem => closed argument (List.mem_cons_of_mem _ mem)) j later.defined
  refine ⟨_, by simp [verify, computed, resolved]; rfl, ?_⟩
  refine ((later.of_unchanged unchanged').set_iff known _ v).trans ?_
  rw [Expr.eval_mux, value ρ w h.simulates]
  rfl

theorem update_describes {condition : ProgramExpr Empty .boolean} {arguments : List InArgument}
    {t : Ty} {checksum : InOutReference t}
    (closed : ∀ argument ∈ (⟨_, condition⟩ :: arguments : List InArgument), argument.2.reads ⊆ vars)
    (known : checksum.ref ∈ vars) (h : Describes vars ρ i.state w) (v : t.Val) :
    ∃ i', call.update condition arguments checksum i = some i' ∧
      (Describes vars ρ i'.state (w.set checksum.ref v) ↔
        (if condition.value w then ρ (call.symbolicVariable t) else w.env checksum.ref) = v) := by
  obtain ⟨cond, j, computed, unchanged, value⟩ :=
    computeResult_none condition (closed _ List.mem_cons_self) i h.defined
  have later := h.of_unchanged unchanged
  obtain ⟨k, resolved, unchanged'⟩ := resolveArguments_unchanged arguments
    (fun argument mem => closed argument (List.mem_cons_of_mem _ mem)) j later.defined
  have last := later.of_unchanged unchanged'
  obtain ⟨current, found⟩ := OrderedMap.exists_find_of_mem (last.defined known)
  have currentValue : current.eval ρ = w.env checksum.ref := by
    have simulates := last.simulates _ known
    rw [ExecutionState.value, found] at simulates
    exact Option.some.inj simulates
  refine ⟨_, by simp [update, computed, resolved, found]; rfl, ?_⟩
  refine (last.set_iff known _ v).trans ?_
  rw [Expr.eval_mux, value ρ w h.simulates, currentValue]
  rfl

end V1ModelCall

theorem ExternStep.forall_draws (t : ExternStep) (w : World) :
    (∀ d ∈ t.draws w, ρ d.1 = d.2) ↔
      (t.call.method.isSymbolic w = true →
        ρ (t.call.symbolicVariable t.call.method.target.type) = t.value) := by
  rw [draws]
  split
  · rename_i symbolic
    simp [symbolic]
  · rename_i none
    simp [none]

/-- The valuation describes what the interpreter leaves after a call if and only if it has the value
that is drawn, and a target without a symbolic variable has the value that the interpreter has. -/
theorem ExternStep.describes_iff (t : ExternStep) (covered : t.Covered vars) (i : Interpretation)
    (w w' : World) (h : Describes vars ρ i.state w) (taken : t.exec w = some w') :
    ∃ i', t.process i = some i' ∧
      (Describes vars ρ i'.state w' ↔ t.Accounted w ∧ ∀ d ∈ t.draws w, ρ d.1 = d.2) := by
  obtain ⟨closed, known⟩ := covered
  simp only [exec, Option.ite_none_right_eq_some] at taken
  obtain ⟨allowed, same⟩ := taken
  cases same
  rw [forall_draws]
  obtain ⟨⟨externObjectRef, cloneId, method⟩, v⟩ := t
  cases method with
  | random result _ _ | registerRead result _ | hash result _ _ _ =>
    obtain ⟨i', ran, iff⟩ := V1ModelCall.setSymbolic_describes _ result closed known h v
    exact ⟨i', ran, iff.trans ⟨fun drawn => ⟨trivial, fun _ => drawn⟩, fun h => h.2 rfl⟩⟩
  | executeMeter _ _ _ | directMeterRead _ =>
    obtain ⟨i', ran, iff⟩ := V1ModelCall.resolveArguments_describes closed known h v
    exact ⟨i', ran, iff.trans ⟨fun kept => ⟨kept, fun none => by cases none⟩, fun h => h.1⟩⟩
  | verifyChecksum withPayload condition data checksum =>
    obtain ⟨i', ran, iff⟩ := V1ModelCall.verify_describes _ closed known h v
    refine ⟨i', ran, iff.trans ?_⟩
    by_cases holds : condition.value w = true
    · rw [if_pos holds]
      exact ⟨fun drawn => ⟨.inl holds, fun _ => drawn⟩, fun h => h.2 holds⟩
    · have kept : v = w.env checksumErr := allowed.resolve_right fun error => holds error.1
      rw [if_neg holds]
      constructor
      · exact fun zero => ⟨.inr (kept.symm.trans zero.symm), fun symbolic => absurd symbolic holds⟩
      · exact fun accounted => (kept.trans (accounted.1.resolve_left holds)).symm
  | updateChecksum withPayload condition data checksum =>
    obtain ⟨i', ran, iff⟩ := V1ModelCall.update_describes _ closed known h v
    refine ⟨i', ran, iff.trans ?_⟩
    by_cases holds : condition.value w = true
    · rw [if_pos holds]
      exact ⟨fun drawn => ⟨trivial, fun _ => drawn⟩, fun h => h.2 holds⟩
    · rw [if_neg holds]
      have kept : v = w.env checksum.ref := allowed.resolve_left holds
      exact iff_of_true kept.symm ⟨trivial, fun symbolic => absurd symbolic holds⟩

/-- The symbolic variables of a run of calls have values with which the interpreter has what the calls
leave, at each of the calls, if and only if every target without a symbolic variable has the value that
the interpreter has for it, no variable is drawn with two values, and those that occur at the start
have the values that are drawn. -/
theorem externs_described_iff (l : List ExternStep) (covered : ∀ t ∈ l, t.Covered vars)
    (i : Interpretation) (w : World) (ρ : Valuation) (start : Describes vars ρ i.state w) :
    (∃ ρ', ρ.Extends (i.state.symbols vars) (Lockstep.collect ExternStep.exec ExternStep.draws l w)
        ρ' ∧
      ∀ n w', Lockstep.run ExternStep.exec (l.take n) w = some w' →
        ∃ i', Lockstep.run ExternStep.process (l.take n) i = some i' ∧
          Describes vars ρ' i'.state w') ↔
      Lockstep.AllSteps ExternStep.exec ExternStep.Accounted l w ∧
        (∀ d ∈ Lockstep.collect ExternStep.exec ExternStep.draws l w,
          d.1 ∈ i.state.symbols vars → ρ d.1 = d.2) ∧
        Consistent (Lockstep.collect ExternStep.exec ExternStep.draws l w) := by
  rw [← exists_extends_iff ρ, ← exists_and_left]
  refine exists_congr fun ρ' => ?_
  have keeps : ∀ t ∈ l, ∀ (i : Interpretation) (w w' : World), Describes vars ρ' i.state w →
      t.exec w = some w' → ∃ i', t.process i = some i' ∧
        (Describes vars ρ' i'.state w' ↔ t.Accounted w ∧ ∀ d ∈ t.draws w, ρ' d.1 = d.2) :=
    fun t mem i w w' => t.describes_iff (covered t mem) i w w'
  rw [and_left_comm]
  refine and_congr_right fun extends' => ?_
  have start' : Describes vars ρ' i.state w := start.congr fun x mem => extends' x (.inr mem)
  refine (Lockstep.related_iff keeps start').trans ?_
  rw [Lockstep.allSteps_and]
  exact and_congr_right fun _ => Lockstep.allSteps_yield

end Steps

section Examples

def colorReference : InOutReference (.bit 2) := ⟨1, "color"⟩

def noiseReference : InOutReference (.bit 8) := ⟨2, "noise"⟩

def externVariables : List StateVariable := [colorReference.ref, noiseReference.ref]

/-- A state in which both variables are zero. -/
def externState : Interpretation where
  state :=
    { env := (OrderedMap.empty.set colorReference.ref (.lit (0 : BitVec 2))).set noiseReference.ref
        (.lit (0 : BitVec 8))
      executionCondition := none
      nodeAnnotationMap := .empty }
  objects := []
  tableKeyMatches := []

theorem externState_described (ρ : Valuation) :
    Describes externVariables ρ externState.state zeroWorld := by
  refine ⟨by decide, rfl, fun x mem => ?_⟩
  simp only [externVariables, List.mem_cons, List.not_mem_nil, or_false] at mem
  obtain rfl | rfl := mem <;> rfl

/-- A random number in the range from 3 to 9 is drawn, and is 7. -/
def randomStep : ExternStep where
  call :=
    { externObjectRef := "*method"
      cloneId := 5
      method := .random noiseReference (.lit (3 : BitVec 8)) (.lit (9 : BitVec 8)) }
  value := (7 : BitVec 8)

/-- The color of a packet is green, as the variable is. -/
def greenStep : ExternStep where
  call :=
    { externObjectRef := "meter"
      cloneId := 8
      method := .executeMeter 16 (.lit (4 : BitVec 32)) colorReference }
  value := (0 : BitVec 2)

/-- The register that the number is the index of has the value 2. -/
def registerStep : ExternStep where
  call :=
    { externObjectRef := "register"
      cloneId := 9
      method := .registerRead colorReference noiseReference.expression }
  value := (2 : BitVec 2)

def externSteps : List ExternStep := [randomStep, greenStep, registerStep]

theorem externs_described_randomStep :
    (Lockstep.run ExternStep.exec externSteps zeroWorld).isSome ∧
      ∃ ρ', Valuation.Extends (fun _ => default) (externState.state.symbols externVariables)
          (Lockstep.collect ExternStep.exec ExternStep.draws externSteps zeroWorld) ρ' ∧
        ∀ n w', Lockstep.run ExternStep.exec (externSteps.take n) zeroWorld = some w' →
          ∃ i', Lockstep.run ExternStep.process (externSteps.take n) externState = some i' ∧
            Describes externVariables ρ' i'.state w' := by
  refine ⟨rfl, (externs_described_iff externSteps ?_ externState zeroWorld (fun _ => default)
    (externState_described _)).mpr ⟨?_, ?_, ?_⟩⟩
  · unfold ExternStep.Covered
    decide
  · intro random taken
    refine ⟨trivial, fun green takenGreen => ⟨?_, fun _ _ => ⟨trivial, trivial⟩⟩⟩
    cases taken
    rfl
  · intro d _ occurs
    cases occurs
  · refine Consistent.of_nodupKeys ?_
    rw [List.NodupKeys]
    decide

/-- The color of a packet is red, which the interpreter does not know of. -/
def meterStep : ExternStep where
  call :=
    { externObjectRef := "meter"
      cloneId := 6
      method := .executeMeter 16 (.lit (4 : BitVec 32)) colorReference }
  value := (2 : BitVec 2)

theorem externs_described_meterStep :
    (∀ t ∈ [meterStep], t.Covered externVariables) ∧
      Describes externVariables (fun _ => default) externState.state zeroWorld ∧
      meterStep.call.method.Allows zeroWorld meterStep.value ∧
      ¬∃ ρ', Valuation.Extends (fun _ => default) (externState.state.symbols externVariables)
          (Lockstep.collect ExternStep.exec ExternStep.draws [meterStep] zeroWorld) ρ' ∧
        ∀ n w', Lockstep.run ExternStep.exec ([meterStep].take n) zeroWorld = some w' →
          ∃ i', Lockstep.run ExternStep.process ([meterStep].take n) externState = some i' ∧
            Describes externVariables ρ' i'.state w' := by
  refine ⟨?_, externState_described _, by decide, ?_⟩
  · intro t mem
    obtain rfl := List.mem_singleton.mp mem
    refine ⟨fun argument mem => ?_, by decide⟩
    have cases : argument = ⟨.bit 32, .lit (4 : BitVec 32)⟩ ∨ argument = colorReference.expression := by
      simpa [meterStep, V1ModelMethod.arguments] using mem
    obtain rfl | rfl := cases <;> decide
  · rintro ⟨ρ', -, described⟩
    obtain ⟨i', ran, after⟩ := described 1 _ rfl
    cases ran
    have color : (0 : BitVec 2) = 2 :=
      Option.some.inj (after.simulates colorReference.ref (by decide))
    exact absurd color (by decide)

end Examples

end Flay
