import Flay.ControlPlane.Objects

/-! `FlayServiceBase` with any ordered map of incremental analyses: how single updates and batches are
counted, and the program that the analyses specialize in turn. -/

namespace Flay

/-- An incremental analysis at work, which takes updates out of `υ` and programs out of `π`. -/
structure IncrementalAnalysis (υ π : Type) where
  State : Type
  state : State
  convertControlPlaneUpdate : State → υ → State × Option SymbolSet
  checkForSemanticsChange : State → SymbolSet → State × Option Bool
  specializeProgram : State → π → Option π

namespace IncrementalAnalysis

variable {υ π : Type} (a : IncrementalAnalysis υ π)

def convert (update : υ) : IncrementalAnalysis υ π × Option SymbolSet :=
  let converted := a.convertControlPlaneUpdate a.state update
  ({ a with state := converted.1 }, converted.2)

def check (symbolSet : SymbolSet) : IncrementalAnalysis υ π × Option Bool :=
  let checked := a.checkForSemanticsChange a.state symbolSet
  ({ a with state := checked.1 }, checked.2)

def specialize (program : π) : Option π := a.specializeProgram a.state program

/-- The loop over the updates of a batch, up to the first one that is an error. -/
def convertAll : List υ → SymbolSet → IncrementalAnalysis υ π →
    IncrementalAnalysis υ π × Option SymbolSet
  | [], symbolSet, a => (a, some symbolSet)
  | update :: updates, symbolSet, a =>
    match a.convert update with
    | (a, none) => (a, none)
    | (a, some used) => convertAll updates (symbolSet ++ used) a

/-- A single update up to the specialization: whether a change is needed. -/
def analyze (update : υ) : IncrementalAnalysis υ π × Option Bool :=
  match a.convert update with
  | (a, none) => (a, none)
  | (a, some symbolSet) => a.check symbolSet

/-- A batch up to the specialization. Without symbol sets a change is always needed. -/
def analyzeAll (useSymbolSet : Bool) (updates : List υ) : IncrementalAnalysis υ π × Option Bool :=
  match convertAll updates [] a with
  | (a, none) => (a, none)
  | (a, some symbolSet) => if useSymbolSet then a.check symbolSet else (a, some true)

/-- The program specialized where a change is needed, and else none. -/
def respond (program : π) :
    IncrementalAnalysis υ π × Option Bool → IncrementalAnalysis υ π × Option (Option π)
  | (a, none) => (a, none)
  | (a, some false) => (a, some none)
  | (a, some true) => (a, (a.specialize program).map some)

def processControlPlaneUpdate (program : π) (update : υ) :
    IncrementalAnalysis υ π × Option (Option π) :=
  respond program (a.analyze update)

/-- `processControlPlaneUpdate` of a batch. -/
def processControlPlaneUpdates (useSymbolSet : Bool) (program : π) (updates : List υ) :
    IncrementalAnalysis υ π × Option (Option π) :=
  respond program (a.analyzeAll useSymbolSet updates)

/-- With symbol sets, a batch of one update is analyzed as the update alone. -/
theorem analyzeAll_singleton (update : υ) : a.analyzeAll true [update] = a.analyze update := by
  unfold analyzeAll analyze convertAll
  rcases a.convert update with ⟨a', _ | used⟩ <;> rfl

end IncrementalAnalysis

abbrev IncrementalAnalysisMap (υ π : Type) : Type 1 := List (String × IncrementalAnalysis υ π)

/-- Passing a program through all analyses in order. -/
def IncrementalAnalysisMap.compose {υ π : Type} : IncrementalAnalysisMap υ π → π → Option π
  | [], program => some program
  | (_, a) :: l, program => do
    let program ← a.specialize program
    compose l program

structure FlayServiceBase (υ π : Type) where
  incrementalAnalysisMap : IncrementalAnalysisMap υ π
  originalProgram : π
  optimizedProgram : π
  updateCount : Nat
  respecializationCount : Nat

namespace FlayServiceBase

variable {υ π : Type}

/-- The service with the program specialized unconditionally, and whether that is a success. -/
def specializeProgram (s : FlayServiceBase υ π) : FlayServiceBase υ π × Bool :=
  match s.incrementalAnalysisMap.compose s.originalProgram with
  | none => (s, false)
  | some optimizedProgram => ({ s with optimizedProgram }, true)

/-- The constructor, which does not look at whether the specialization is a success. -/
def create (incrementalAnalysisMap : IncrementalAnalysisMap υ π) (originalProgram : π) :
    FlayServiceBase υ π :=
  (specializeProgram ⟨incrementalAnalysisMap, originalProgram, originalProgram, 0, 0⟩).1

/-- The variables of the loop over the analyses. -/
structure Specialized (π : Type) where
  optimizedProg : π
  optimizedProgram : π
  respecializationCount : Nat
  hasRespecialized : Bool

/-- The loop over the analyses, with whether it is a success. `count` is what it does to the count
of respecializations for an analysis that returns a program. -/
def forAnalyses
    (process : IncrementalAnalysis υ π → π → IncrementalAnalysis υ π × Option (Option π))
    (count : Nat → Nat) :
    IncrementalAnalysisMap υ π → Specialized π → IncrementalAnalysisMap υ π × Specialized π × Bool
  | [], v => ([], v, true)
  | (name, a) :: l, v =>
    match process a v.optimizedProg with
    | (a, none) => ((name, a) :: l, v, false)
    | (a, some none) =>
      let rest := forAnalyses process count l v
      ((name, a) :: rest.1, rest.2)
    | (a, some (some program)) =>
      let rest := forAnalyses process count l
        ⟨program, program, count v.respecializationCount, true⟩
      ((name, a) :: rest.1, rest.2)

variable (s : FlayServiceBase υ π)

/-- The variables ahead of the loop, which starts from the original program. -/
def start : Specialized π := ⟨s.originalProgram, s.optimizedProgram, s.respecializationCount, false⟩

/-- What is left of a call after the loop. -/
def finish (updates : Nat) (r : IncrementalAnalysisMap υ π × Specialized π × Bool) :
    FlayServiceBase υ π × Bool :=
  ({ s with
      incrementalAnalysisMap := r.1
      optimizedProgram := r.2.1.optimizedProgram
      updateCount := s.updateCount + updates
      respecializationCount :=
        if r.2.2 && r.2.1.hasRespecialized then r.2.1.respecializationCount + 1
        else r.2.1.respecializationCount },
    r.2.2)

/-- `processControlPlaneUpdate` of a single update, which counts in the loop as well. -/
def processControlPlaneUpdate (update : υ) : FlayServiceBase υ π × Bool :=
  s.finish 1 (forAnalyses (fun a program => a.processControlPlaneUpdate program update) Nat.succ
    s.incrementalAnalysisMap s.start)

/-- `processControlPlaneUpdate` of a batch. -/
def processControlPlaneUpdates (useSymbolSet : Bool) (updates : List υ) :
    FlayServiceBase υ π × Bool :=
  s.finish updates.length
    (forAnalyses (fun a program => a.processControlPlaneUpdates useSymbolSet program updates) id
      s.incrementalAnalysisMap s.start)

end FlayServiceBase

/-- A call of `processControlPlaneUpdate`. -/
inductive ProcessCall (υ : Type)
  | update (update : υ)
  | batch (updates : List υ)

/-- What an analysis says of the updates of a call. -/
def IncrementalAnalysis.answer {υ π : Type} (useSymbolSet : Bool) (c : ProcessCall υ)
    (a : IncrementalAnalysis υ π) : IncrementalAnalysis υ π × Option Bool :=
  match c with
  | .update update => a.analyze update
  | .batch updates => a.analyzeAll useSymbolSet updates

namespace FlayServiceBase

variable {υ π : Type} (useSymbolSet : Bool)

def call (s : FlayServiceBase υ π) : ProcessCall υ → FlayServiceBase υ π × Bool
  | .update update => s.processControlPlaneUpdate update
  | .batch updates => s.processControlPlaneUpdates useSymbolSet updates

def run (s : FlayServiceBase υ π) (calls : List (ProcessCall υ)) : FlayServiceBase υ π :=
  calls.foldl (fun s c => (s.call useSymbolSet c).1) s

/-- No analysis reports a change. -/
def Unreported (s : FlayServiceBase υ π) (c : ProcessCall υ) : Prop :=
  ∀ a ∈ s.incrementalAnalysisMap, (a.2.answer useSymbolSet c).2 ≠ some true

instance (s : FlayServiceBase υ π) (c : ProcessCall υ) : Decidable (s.Unreported useSymbolSet c) :=
  inferInstanceAs (Decidable (∀ a ∈ s.incrementalAnalysisMap, _))

/-! ### The counts -/

section Loop

variable {process : IncrementalAnalysis υ π → π → IncrementalAnalysis υ π × Option (Option π)}
  {count count' : Nat → Nat} {v v' : Specialized π}

/-- The variables are alike but for the count. -/
structure Alike (v v' : Specialized π) : Prop where
  optimizedProg : v.optimizedProg = v'.optimizedProg
  optimizedProgram : v.optimizedProgram = v'.optimizedProgram
  hasRespecialized : v.hasRespecialized = v'.hasRespecialized

/-- How respecializations are counted changes nothing but the count. -/
theorem forAnalyses_alike (l : IncrementalAnalysisMap υ π) (alike : Alike v v') :
    (forAnalyses process count l v).1 = (forAnalyses process count' l v').1 ∧
      (forAnalyses process count l v).2.2 = (forAnalyses process count' l v').2.2 ∧
      Alike (forAnalyses process count l v).2.1 (forAnalyses process count' l v').2.1 := by
  induction l generalizing v v' with
  | nil => exact ⟨rfl, rfl, alike⟩
  | cons entry l ih =>
    obtain ⟨name, a⟩ := entry
    rw [forAnalyses, forAnalyses, ← alike.optimizedProg]
    rcases process a v.optimizedProg with ⟨a', _ | _ | program⟩
    · exact ⟨rfl, rfl, alike⟩
    · obtain ⟨analyses, success, rest⟩ := ih alike
      exact ⟨congrArg (List.cons (name, a')) analyses, success, rest⟩
    · obtain ⟨analyses, success, rest⟩ :=
        ih (⟨rfl, rfl, rfl⟩ : Alike ⟨program, program, count v.respecializationCount, true⟩
          ⟨program, program, count' v'.respecializationCount, true⟩)
      exact ⟨congrArg (List.cons (name, a')) analyses, success, rest⟩

/-- A loop that does not count leaves the count. -/
theorem forAnalyses_id (l : IncrementalAnalysisMap υ π) :
    (forAnalyses process id l v).2.1.respecializationCount = v.respecializationCount := by
  induction l generalizing v with
  | nil => rfl
  | cons entry l ih =>
    obtain ⟨name, a⟩ := entry
    rw [forAnalyses]
    rcases process a v.optimizedProg with ⟨a', _ | _ | program⟩
    · rfl
    · exact ih
    · exact ih

/-- The count grows with the loop, by one at least where an analysis returns a program. -/
theorem forAnalyses_succ (l : IncrementalAnalysisMap υ π) :
    v.respecializationCount ≤ (forAnalyses process Nat.succ l v).2.1.respecializationCount ∧
      ((forAnalyses process Nat.succ l v).2.1.hasRespecialized = true →
        v.hasRespecialized = true ∨
          v.respecializationCount < (forAnalyses process Nat.succ l v).2.1.respecializationCount) := by
  induction l generalizing v with
  | nil => exact ⟨le_rfl, .inl⟩
  | cons entry l ih =>
    obtain ⟨name, a⟩ := entry
    rw [forAnalyses]
    rcases process a v.optimizedProg with ⟨a', _ | _ | program⟩
    · exact ⟨le_rfl, .inl⟩
    · exact ih
    · have grows := (ih (v := ⟨program, program, v.respecializationCount + 1, true⟩)).1
      exact ⟨Nat.le_of_succ_le grows, fun _ => .inr grows⟩

variable {answer : IncrementalAnalysis υ π → IncrementalAnalysis υ π × Option Bool}

/-- What the loop does with an analysis that answers. -/
abbrev responding (answer : IncrementalAnalysis υ π → IncrementalAnalysis υ π × Option Bool) :
    IncrementalAnalysis υ π → π → IncrementalAnalysis υ π × Option (Option π) :=
  fun a program => IncrementalAnalysis.respond program (answer a)

section Answers

variable {name : String} {a a' : IncrementalAnalysis υ π} {l : IncrementalAnalysisMap υ π}

theorem forAnalyses_error (answered : answer a = (a', none)) :
    forAnalyses (responding answer) count ((name, a) :: l) v = ((name, a') :: l, v, false) := by
  simp only [forAnalyses, responding, answered, IncrementalAnalysis.respond]

theorem forAnalyses_quiet (answered : answer a = (a', some false)) :
    forAnalyses (responding answer) count ((name, a) :: l) v =
      ((name, a') :: (forAnalyses (responding answer) count l v).1,
        (forAnalyses (responding answer) count l v).2) := by
  simp only [forAnalyses, responding, answered, IncrementalAnalysis.respond]

theorem forAnalyses_failed (answered : answer a = (a', some true))
    (failed : a'.specialize v.optimizedProg = none) :
    forAnalyses (responding answer) count ((name, a) :: l) v = ((name, a') :: l, v, false) := by
  simp only [forAnalyses, responding, answered, IncrementalAnalysis.respond, failed, Option.map_none]

theorem forAnalyses_change {program : π} (answered : answer a = (a', some true))
    (specialized : a'.specialize v.optimizedProg = some program) :
    forAnalyses (responding answer) count ((name, a) :: l) v =
      ((name, a') :: (forAnalyses (responding answer) count l
          ⟨program, program, count v.respecializationCount, true⟩).1,
        (forAnalyses (responding answer) count l
          ⟨program, program, count v.respecializationCount, true⟩).2) := by
  simp only [forAnalyses, responding, answered, IncrementalAnalysis.respond, specialized,
    Option.map_some]

/-- Where no analysis reports a change, the loop leaves its variables. -/
theorem forAnalyses_unreported (unreported : ∀ a ∈ l, (answer a.2).2 ≠ some true) :
    (forAnalyses (responding answer) count l v).2.1 = v := by
  induction l with
  | nil => rfl
  | cons entry l ih =>
    obtain ⟨name, a⟩ := entry
    obtain ⟨first, unreported⟩ := List.forall_mem_cons.mp unreported
    rcases answered : answer a with ⟨a', _ | _ | _⟩
    · rw [forAnalyses_error answered]
    · rw [forAnalyses_quiet answered]
      exact ih unreported
    · exact absurd (by rw [answered]) first

end Answers

/-- The analyses that report a change, after the updates of a call. -/
def reporting (answer : IncrementalAnalysis υ π → IncrementalAnalysis υ π × Option Bool)
    (l : IncrementalAnalysisMap υ π) : IncrementalAnalysisMap υ π :=
  l.filterMap fun a => if (answer a.2).2 = some true then some (a.1, (answer a.2).1) else none

theorem reporting_eq_nil {l : IncrementalAnalysisMap υ π} :
    reporting answer l = [] ↔ ∀ a ∈ l, (answer a.2).2 ≠ some true := by
  simp [reporting]

theorem reporting_cons {name : String} {a a' : IncrementalAnalysis υ π} {changeNeeded : Bool}
    {l : IncrementalAnalysisMap υ π} (answered : answer a = (a', some changeNeeded)) :
    reporting answer ((name, a) :: l) =
      if changeNeeded then (name, a') :: reporting answer l else reporting answer l := by
  unfold reporting
  cases changeNeeded <;> simp [answered]

/-- What a successful loop leaves: the analyses that report a change have specialized in turn what it
started from. -/
theorem forAnalyses_success {l : IncrementalAnalysisMap υ π}
    (success : (forAnalyses (responding answer) count l v).2.2 = true) :
    (forAnalyses (responding answer) count l v).1 = l.map (fun a => (a.1, (answer a.2).1)) ∧
      ∃ program, IncrementalAnalysisMap.compose (reporting answer l) v.optimizedProg = some program ∧
        (reporting answer l ≠ [] →
          (forAnalyses (responding answer) count l v).2.1.optimizedProgram = program ∧
          (forAnalyses (responding answer) count l v).2.1.hasRespecialized = true) := by
  induction l generalizing v with
  | nil => exact ⟨rfl, _, rfl, fun reports => absurd rfl reports⟩
  | cons entry l ih =>
    obtain ⟨name, a⟩ := entry
    rcases answered : answer a with ⟨a', _ | _ | _⟩
    · rw [forAnalyses_error answered] at success
      cases success
    · rw [forAnalyses_quiet answered] at success ⊢
      obtain ⟨analyses, program, composed, left⟩ := ih success
      rw [reporting_cons answered, if_neg Bool.false_ne_true, List.map_cons, answered]
      exact ⟨congrArg (List.cons (name, a')) analyses, program, composed, left⟩
    · cases specialized : a'.specialize v.optimizedProg with
      | none =>
        rw [forAnalyses_failed answered specialized] at success
        cases success
      | some program =>
        rw [forAnalyses_change answered specialized] at success ⊢
        obtain ⟨analyses, last, composed, left⟩ := ih success
        rw [reporting_cons answered, if_pos rfl, List.map_cons, answered]
        refine ⟨congrArg (List.cons (name, a')) analyses, last, ?_, fun _ => ?_⟩
        · rw [IncrementalAnalysisMap.compose, specialized]
          exact composed
        · by_cases more : reporting answer l = []
          · rw [more] at composed
            rw [forAnalyses_unreported (reporting_eq_nil.mp more)]
            exact ⟨Option.some.inj composed, rfl⟩
          · exact left more

end Loop

variable {useSymbolSet : Bool} {s : FlayServiceBase υ π} {c : ProcessCall υ}

/-- The loop of a call. -/
def loop (useSymbolSet : Bool) (s : FlayServiceBase υ π) (c : ProcessCall υ) :
    IncrementalAnalysisMap υ π × Specialized π × Bool :=
  forAnalyses (responding (IncrementalAnalysis.answer useSymbolSet c))
    (match c with
      | .update _ => Nat.succ
      | .batch _ => id)
    s.incrementalAnalysisMap s.start

theorem call_eq_finish (useSymbolSet : Bool) (s : FlayServiceBase υ π) (c : ProcessCall υ) :
    ∃ updates, s.call useSymbolSet c = s.finish updates (s.loop useSymbolSet c) := by
  cases c with
  | update update => exact ⟨1, rfl⟩
  | batch updates => exact ⟨updates.length, rfl⟩

theorem loop_success (accepted : (s.call useSymbolSet c).2 = true) :
    (s.loop useSymbolSet c).2.2 = true := by
  obtain ⟨updates, finished⟩ := call_eq_finish useSymbolSet s c
  rw [finished] at accepted
  exact accepted

/-- The count grows by no more than one for a batch, and for an update that no analysis reports. -/
theorem respecializationCount_call_le
    (sparing : ∀ update, c = .update update → s.Unreported useSymbolSet c) :
    (s.call useSymbolSet c).1.respecializationCount ≤ s.respecializationCount + 1 := by
  have counted : (s.loop useSymbolSet c).2.1.respecializationCount = s.respecializationCount := by
    cases c with
    | update update =>
      rw [loop, forAnalyses_unreported (sparing update rfl)]
      rfl
    | batch updates => exact forAnalyses_id _
  obtain ⟨updates, finished⟩ := call_eq_finish useSymbolSet s c
  rw [finished, finish]
  dsimp only
  split
  · rw [counted]
  · exact counted ▸ Nat.le_succ _

/-- A call for which no analysis reports a change leaves the count. -/
theorem respecializationCount_of_unreported (unreported : s.Unreported useSymbolSet c) :
    (s.call useSymbolSet c).1.respecializationCount = s.respecializationCount := by
  obtain ⟨updates, finished⟩ := call_eq_finish useSymbolSet s c
  have left : (s.loop useSymbolSet c).2.1 = s.start := forAnalyses_unreported unreported
  rw [finished, finish, left, start]
  simp only [Bool.and_false, Bool.false_eq_true, if_false]

/-- The count grows by two at least for an accepted update that an analysis reports. -/
theorem respecializationCount_update {update : υ}
    (accepted : (s.processControlPlaneUpdate update).2 = true)
    (reported : ¬s.Unreported useSymbolSet (.update update)) :
    s.respecializationCount + 2 ≤ (s.processControlPlaneUpdate update).1.respecializationCount := by
  have success : (s.loop useSymbolSet (.update update)).2.2 = true := loop_success accepted
  obtain ⟨-, program, -, left⟩ := forAnalyses_success success
  obtain ⟨-, respecialized⟩ := left fun none => reported (reporting_eq_nil.mp none)
  obtain ⟨-, grows⟩ := forAnalyses_succ s.incrementalAnalysisMap
  obtain old | grows := grows respecialized
  · cases old
  · change _ ≤ (s.finish 1 (s.loop useSymbolSet (.update update))).1.respecializationCount
    have both : ((s.loop useSymbolSet (.update update)).2.2 &&
        (s.loop useSymbolSet (.update update)).2.1.hasRespecialized) = true := by
      rw [success, Bool.true_and]
      exact respecialized
    rw [finish]
    dsimp only
    rw [if_pos both]
    exact Nat.succ_le_succ grows

/-! ### Runs -/

/-- A property of every call of a run, with the service that takes it. -/
def Throughout (useSymbolSet : Bool) (P : FlayServiceBase υ π → ProcessCall υ → Prop) :
    FlayServiceBase υ π → List (ProcessCall υ) → Prop
  | _, [] => True
  | s, c :: later => P s c ∧ Throughout useSymbolSet P (s.call useSymbolSet c).1 later

theorem Throughout.imp {P Q : FlayServiceBase υ π → ProcessCall υ → Prop}
    (implies : ∀ s c, P s c → Q s c) {calls : List (ProcessCall υ)}
    (h : Throughout useSymbolSet P s calls) : Throughout useSymbolSet Q s calls := by
  induction calls generalizing s with
  | nil => trivial
  | cons c later ih => exact ⟨implies s c h.1, ih h.2⟩

/-- The call is a success. -/
def Accepted (useSymbolSet : Bool) (s : FlayServiceBase υ π) (c : ProcessCall υ) : Prop :=
  (s.call useSymbolSet c).2 = true

/-- The count of respecializations grows by one at most. -/
def GrowsByOne (useSymbolSet : Bool) (s : FlayServiceBase υ π) (c : ProcessCall υ) : Prop :=
  (s.call useSymbolSet c).1.respecializationCount ≤ s.respecializationCount + 1

/-- If the call is a single update, no analysis reports a change for it. -/
def Sparing (useSymbolSet : Bool) (s : FlayServiceBase υ π) (c : ProcessCall υ) : Prop :=
  ∀ update, c = .update update → s.Unreported useSymbolSet c

theorem growsByOne_iff (accepted : s.Accepted useSymbolSet c) :
    s.GrowsByOne useSymbolSet c ↔ s.Sparing useSymbolSet c := by
  constructor
  · rintro grows update rfl
    by_contra reported
    have more := respecializationCount_update accepted reported
    exact absurd (Nat.le_trans more grows) (by omega)
  · exact respecializationCount_call_le

theorem respecializationCount_run_le {calls : List (ProcessCall υ)}
    (grows : Throughout useSymbolSet (GrowsByOne useSymbolSet) s calls) :
    (s.run useSymbolSet calls).respecializationCount ≤ s.respecializationCount + calls.length := by
  induction calls generalizing s with
  | nil => exact le_rfl
  | cons c later ih =>
    have first : (s.call useSymbolSet c).1.respecializationCount ≤ s.respecializationCount + 1 :=
      grows.1
    have rest := ih grows.2
    rw [List.length_cons]
    exact Nat.le_trans rest (by omega)

/-- The optimized program and both counts are equal. -/
structure SameResult (s s' : FlayServiceBase υ π) : Prop where
  optimizedProgram : s.optimizedProgram = s'.optimizedProgram
  updateCount : s.updateCount = s'.updateCount
  respecializationCount : s.respecializationCount = s'.respecializationCount

/-- A batch of one update leaves the same program and the same count of updates as the update alone. -/
theorem update_alike_batch (s : FlayServiceBase υ π) (update : υ) :
    (s.processControlPlaneUpdate update).1.optimizedProgram =
        (s.processControlPlaneUpdates true [update]).1.optimizedProgram ∧
      (s.processControlPlaneUpdate update).1.updateCount =
        (s.processControlPlaneUpdates true [update]).1.updateCount := by
  refine ⟨?_, rfl⟩
  have alike : Alike
      (forAnalyses (fun a program => a.processControlPlaneUpdate program update) Nat.succ
        s.incrementalAnalysisMap s.start).2.1
      (forAnalyses (fun a program => a.processControlPlaneUpdate program update) id
        s.incrementalAnalysisMap s.start).2.1 :=
    (forAnalyses_alike s.incrementalAnalysisMap ⟨rfl, rfl, rfl⟩).2.2
  have same : (fun (a : IncrementalAnalysis υ π) program =>
      a.processControlPlaneUpdates true program [update]) =
        fun a program => a.processControlPlaneUpdate program update := by
    funext a program
    rw [IncrementalAnalysis.processControlPlaneUpdates, IncrementalAnalysis.analyzeAll_singleton]
    rfl
  rw [processControlPlaneUpdates, same]
  exact alike.optimizedProgram

/-- A single update and the batch of it agree, and count one respecialization at most, exactly where
no analysis reports a change for the update. In a run, the count grows by one at most for every call
where no single update is reported. -/
theorem singleUpdate_agrees_iff (s : FlayServiceBase υ π) :
    (∀ update, (s.processControlPlaneUpdate update).2 = true →
      (SameResult (s.processControlPlaneUpdate update).1
            (s.processControlPlaneUpdates true [update]).1 ∧
          s.GrowsByOne true (.update update) ↔
        s.Unreported true (.update update))) ∧
    ∀ calls, (Throughout true (Accepted true) s calls →
        (Throughout true (GrowsByOne true) s calls ↔ Throughout true (Sparing true) s calls)) ∧
      (Throughout true (Sparing true) s calls →
        Throughout true (GrowsByOne true) s calls ∧
          (s.run true calls).respecializationCount ≤ s.respecializationCount + calls.length) := by
  constructor
  · intro update accepted
    have accepted : s.Accepted true (.update update) := accepted
    constructor
    · rintro ⟨-, grows⟩
      exact (growsByOne_iff accepted).mp grows update rfl
    · intro unreported
      have batch : s.Unreported true (.batch [update]) := by
        intro a mem
        rw [IncrementalAnalysis.answer, IncrementalAnalysis.analyzeAll_singleton]
        exact unreported a mem
      obtain ⟨optimizedProgram, updateCount⟩ := update_alike_batch s update
      refine ⟨⟨optimizedProgram, updateCount, ?_⟩, (growsByOne_iff accepted).mpr fun _ _ => unreported⟩
      exact (respecializationCount_of_unreported unreported).trans
        (respecializationCount_of_unreported batch).symm
  · intro calls
    have grows : Throughout true (Sparing true) s calls → Throughout true (GrowsByOne true) s calls :=
      Throughout.imp fun s c => respecializationCount_call_le
    refine ⟨fun accepted => ⟨fun grows => ?_, grows⟩, fun sparing => ⟨grows sparing, ?_⟩⟩
    · induction calls generalizing s with
      | nil => trivial
      | cons c later ih =>
        refine ⟨(growsByOne_iff accepted.1).mp grows.1, ih _ ?_ accepted.2 grows.2⟩
        exact Throughout.imp fun s c => respecializationCount_call_le
    · exact respecializationCount_run_le (grows sparing)

/-! ### The optimized program -/

/-- The optimized program is what passing the original one through all analyses gives. -/
def Composed (s : FlayServiceBase υ π) : Prop :=
  s.incrementalAnalysisMap.compose s.originalProgram = some s.optimizedProgram

/-- The analyses after the updates of a call. -/
def answered (useSymbolSet : Bool) (s : FlayServiceBase υ π) (c : ProcessCall υ) :
    IncrementalAnalysisMap υ π :=
  s.incrementalAnalysisMap.map fun a => (a.1, (a.2.answer useSymbolSet c).1)

/-- Each analysis specializes the program that it gets from those ahead of it as it did before the
updates. -/
def SpecializesAlike (answer : IncrementalAnalysis υ π → IncrementalAnalysis υ π × Option Bool) :
    IncrementalAnalysisMap υ π → π → Prop
  | [], _ => True
  | (_, a) :: l, program =>
    (answer a).1.specialize program = a.specialize program ∧
      ∀ next, a.specialize program = some next → SpecializesAlike answer l next

/-- Each analysis that reports no change leaves the program that it gets from those ahead of it. -/
def SilentKeep (answer : IncrementalAnalysis υ π → IncrementalAnalysis υ π × Option Bool) :
    IncrementalAnalysisMap υ π → π → Prop
  | [], _ => True
  | (_, a) :: l, program =>
    ((answer a).2 ≠ some true → (answer a).1.specialize program = some program) ∧
      ∀ next, (answer a).1.specialize program = some next → SilentKeep answer l next

/-- The analyses that report no change may be left out: where some report a change, the others leave
the programs that they get, and where none does, all specialize as before. -/
def Dispensable (useSymbolSet : Bool) (s : FlayServiceBase υ π) (c : ProcessCall υ) : Prop :=
  if s.Unreported useSymbolSet c then
    SpecializesAlike (IncrementalAnalysis.answer useSymbolSet c) s.incrementalAnalysisMap
      s.originalProgram
  else
    SilentKeep (IncrementalAnalysis.answer useSymbolSet c) s.incrementalAnalysisMap s.originalProgram

section Compose

variable {answer : IncrementalAnalysis υ π → IncrementalAnalysis υ π × Option Bool}
  {l : IncrementalAnalysisMap υ π} {program : π}

theorem SpecializesAlike.compose (alike : SpecializesAlike answer l program) :
    IncrementalAnalysisMap.compose (l.map fun a => (a.1, (answer a.2).1)) program =
      IncrementalAnalysisMap.compose l program := by
  induction l generalizing program with
  | nil => rfl
  | cons entry l ih =>
    obtain ⟨name, a⟩ := entry
    obtain ⟨same, rest⟩ := alike
    rw [List.map_cons, IncrementalAnalysisMap.compose, IncrementalAnalysisMap.compose, same]
    cases specialized : a.specialize program with
    | none => rfl
    | some next => exact ih (rest next specialized)

/-- Passing a program through all analyses is passing it through those that report a change. -/
theorem SilentKeep.compose (keep : SilentKeep answer l program) :
    IncrementalAnalysisMap.compose (l.map fun a => (a.1, (answer a.2).1)) program =
      IncrementalAnalysisMap.compose (reporting answer l) program := by
  induction l generalizing program with
  | nil => rfl
  | cons entry l ih =>
    obtain ⟨name, a⟩ := entry
    obtain ⟨silent, rest⟩ := keep
    rw [List.map_cons, IncrementalAnalysisMap.compose]
    by_cases reported : (answer a).2 = some true
    · have first : reporting answer ((name, a) :: l) = (name, (answer a).1) :: reporting answer l :=
        List.filterMap_cons_some (if_pos reported)
      rw [first, IncrementalAnalysisMap.compose]
      cases specialized : (answer a).1.specialize program with
      | none => rfl
      | some next => exact ih (rest next specialized)
    · have first : reporting answer ((name, a) :: l) = reporting answer l :=
        List.filterMap_cons_none (if_neg reported)
      rw [first, silent reported]
      exact ih (rest program (silent reported))

end Compose

theorem originalProgram_call :
    (s.call useSymbolSet c).1.originalProgram = s.originalProgram := by
  obtain ⟨updates, finished⟩ := call_eq_finish useSymbolSet s c
  rw [finished]
  rfl

/-- What an accepted call leaves. -/
theorem call_accepted (accepted : s.Accepted useSymbolSet c) :
    (s.call useSymbolSet c).1.incrementalAnalysisMap = s.answered useSymbolSet c ∧
      if s.Unreported useSymbolSet c then
        (s.call useSymbolSet c).1.optimizedProgram = s.optimizedProgram
      else IncrementalAnalysisMap.compose
        (reporting (IncrementalAnalysis.answer useSymbolSet c) s.incrementalAnalysisMap)
        s.originalProgram = some (s.call useSymbolSet c).1.optimizedProgram := by
  have success := loop_success accepted
  obtain ⟨analyses, program, composed, left⟩ := forAnalyses_success success
  obtain ⟨updates, finished⟩ := call_eq_finish useSymbolSet s c
  rw [finished]
  refine ⟨analyses, ?_⟩
  split
  · rename_i unreported
    have same : (s.loop useSymbolSet c).2.1 = s.start := forAnalyses_unreported unreported
    exact congrArg Specialized.optimizedProgram same
  · rename_i reported
    obtain ⟨last, -⟩ := left fun none => reported (reporting_eq_nil.mp none)
    exact composed.trans (congrArg some last.symm)

/-- After an accepted call the optimized program is the composition again where the analyses that report
no change may be left out. -/
theorem composed_call (composed : s.Composed) (accepted : s.Accepted useSymbolSet c)
    (dispensable : s.Dispensable useSymbolSet c) : (s.call useSymbolSet c).1.Composed := by
  obtain ⟨analyses, optimized⟩ := call_accepted accepted
  rw [Composed, analyses, originalProgram_call]
  rw [Dispensable] at dispensable
  split at dispensable
  · rename_i unreported
    rw [if_pos unreported] at optimized
    rw [optimized]
    exact dispensable.compose.trans composed
  · rename_i reported
    rw [if_neg reported] at optimized
    exact dispensable.compose.trans optimized

theorem composed_run {calls : List (ProcessCall υ)} (composed : s.Composed)
    (accepted : Throughout useSymbolSet (Accepted useSymbolSet) s calls)
    (dispensable : Throughout useSymbolSet (Dispensable useSymbolSet) s calls) :
    Throughout useSymbolSet (fun s c => (s.call useSymbolSet c).1.Composed) s calls := by
  induction calls generalizing s with
  | nil => trivial
  | cons c later ih =>
    have next := composed_call composed accepted.1 dispensable.1
    exact ⟨next, ih next accepted.2 dispensable.2⟩

theorem composed_create {analyses : IncrementalAnalysisMap υ π} {program : π}
    (specialized : (analyses.compose program).isSome) : (create analyses program).Composed := by
  obtain ⟨optimized, composed⟩ := Option.isSome_iff_exists.mp specialized
  simp only [Composed, create, specializeProgram, composed]

/-- From a service that could specialize its program at first, and in every run of accepted calls at each
of which the analyses that report no change may be left out, the optimized program is always what passing
the original program through all analyses gives. -/
theorem optimizedProgram_composes (useSymbolSet : Bool)
    (analyses : IncrementalAnalysisMap υ π) (program : π) (calls : List (ProcessCall υ))
    (specialized : (analyses.compose program).isSome)
    (accepted : Throughout useSymbolSet (Accepted useSymbolSet) (create analyses program) calls)
    (dispensable : Throughout useSymbolSet (Dispensable useSymbolSet) (create analyses program) calls) :
    (create analyses program).Composed ∧
      Throughout useSymbolSet (fun s c => (s.call useSymbolSet c).1.Composed)
        (create analyses program) calls :=
  ⟨composed_create specialized, composed_run (composed_create specialized) accepted dispensable⟩

section Examples

/-- An analysis that gives the same answer to every update, of programs that are numbers. -/
def constantAnalysis (changeNeeded : Bool) (specialize : Nat → Nat) : IncrementalAnalysis Unit Nat where
  State := Unit
  state := ()
  convertControlPlaneUpdate _ _ := ((), some [])
  checkForSemanticsChange _ _ := ((), some changeNeeded)
  specializeProgram _ program := some (specialize program)

/-- One analysis that reports a change. -/
def reportingService : FlayServiceBase Unit Nat := create [("double", constantAnalysis true (2 * ·))] 5

/-- Two analyses that report none. -/
def quietService : FlayServiceBase Unit Nat :=
  create [("double", constantAnalysis false (2 * ·)), ("increment", constantAnalysis false (· + 1))] 5

theorem quietService_agrees :
    SameResult (quietService.processControlPlaneUpdate ()).1
      (quietService.processControlPlaneUpdates true [()]).1 ∧
    (quietService.run true [.update (), .batch [()], .update ()]).respecializationCount ≤ 3 := by
  obtain ⟨agrees, counts⟩ := singleUpdate_agrees_iff quietService
  constructor
  · exact ((agrees () rfl).mpr (by decide)).1
  · refine ((counts [.update (), .batch [()], .update ()]).2 ⟨?_, ?_, ?_, trivial⟩).2
    · exact fun _ _ => by decide
    · exact fun _ same => by cases same
    · exact fun _ _ => by decide

/-- The single update counts twice. -/
theorem reportingService_counts :
    (reportingService.processControlPlaneUpdate ()).2 = true ∧
      (reportingService.processControlPlaneUpdate ()).1.respecializationCount = 2 ∧
      (reportingService.processControlPlaneUpdates true [()]).1.respecializationCount = 1 ∧
      ¬SameResult (reportingService.processControlPlaneUpdate ()).1
        (reportingService.processControlPlaneUpdates true [()]).1 :=
  ⟨rfl, rfl, rfl, fun same => absurd same.respecializationCount (by decide)⟩

/-- The first of two analyses reports no change, and the second one specializes the original program. -/
def skippingService : FlayServiceBase Unit Nat :=
  create [("increment", constantAnalysis false (· + 1)), ("double", constantAnalysis true (2 * ·))] 5

/-- Three analyses, of which the first and the last report no change: the first one leaves every
program, and the last one every program up to 100. -/
def cappedAnalyses : IncrementalAnalysisMap Unit Nat :=
  [("keep", constantAnalysis false id), ("double", constantAnalysis true (2 * ·)),
    ("cap", constantAnalysis false (min 100))]

theorem silentKeep_cappedAnalyses {c : ProcessCall Unit}
    (constant : ∀ changeNeeded specialize, (constantAnalysis changeNeeded specialize).answer true c =
      (constantAnalysis changeNeeded specialize, some changeNeeded)) :
    SilentKeep (IncrementalAnalysis.answer true c) cappedAnalyses 5 := by
  refine ⟨fun _ => by rw [constant]; rfl, fun program kept => ⟨fun silent => ?_, ?_⟩⟩
  · rw [constant] at silent
    exact absurd rfl silent
  · rw [constant] at kept
    cases kept
    intro program doubled
    rw [constant] at doubled
    cases doubled
    exact ⟨fun _ => by rw [constant]; rfl, fun _ _ => trivial⟩

theorem cappedAnalyses_composes :
    (create cappedAnalyses 5).Composed ∧
      Throughout true (fun s c => (s.call true c).1.Composed) (create cappedAnalyses 5)
        [.update (), .batch [(), ()]] := by
  refine optimizedProgram_composes true cappedAnalyses 5 [.update (), .batch [(), ()]] rfl
    ⟨rfl, rfl, trivial⟩ ⟨?_, ?_, trivial⟩
  · rw [Dispensable, if_neg (by decide)]
    exact silentKeep_cappedAnalyses fun _ _ => rfl
  · rw [Dispensable, if_neg (by decide)]
    exact silentKeep_cappedAnalyses fun _ _ => rfl

/-- The original program is 5, and the optimized one changes from 12 to 10. -/
theorem skippingService_skips :
    skippingService.Composed ∧ Throughout true (Accepted true) skippingService [.update ()] ∧
      ¬Throughout true (fun s c => (s.call true c).1.Composed) skippingService [.update ()] :=
  ⟨rfl, ⟨rfl, trivial⟩, fun composed => absurd (Option.some.inj composed.1) (by decide)⟩

end Examples

end FlayServiceBase

end Flay
