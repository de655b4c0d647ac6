import Flay.ControlPlane.Miss
import Flay.ControlPlane.Update
import Flay.Specialization.SolverMap

/-! The analysis `PartialEvaluation`: it converts the updates of the control plane, and recomputes
the verdicts of the nodes that depend on what an update has used. -/

namespace Flay

open Container

/-- The annotations that the interpreter leaves for the two maps. -/
structure ProgramAnnotations where
  reachability : ReachabilityAnnotations
  substitution : SubstitutionAnnotations

section Analysis

variable [Z3] [IrOrder]

structure PartialEvaluation where
  controlPlaneConstraints : ControlPlaneConstraints
  reachabilityMap : Z3SolverMap fun _ : Node => .boolean
  substitutionMap : Z3SolverMap ExpressionNode.type

namespace PartialEvaluation

/-- `checkForSemanticsChange`, over all nodes. -/
def checkForSemanticsChange (s : PartialEvaluation) : Option (PartialEvaluation × Bool) := do
  let assignmentSet := s.controlPlaneConstraints.assignmentSet
  let (reachabilityMap, reachabilityResult) ← s.reachabilityMap.recomputeAll assignmentSet
  let (substitutionMap, substitutionResult) ← s.substitutionMap.recomputeAll assignmentSet
  some ({ s with reachabilityMap, substitutionMap }, reachabilityResult || substitutionResult)

/-- `checkForSemanticsChange`, over the nodes that depend on a symbol of the set. -/
def checkSymbolsForSemanticsChange (s : PartialEvaluation) (symbolSet : SymbolSet) :
    Option (PartialEvaluation × Bool) := do
  let assignmentSet := s.controlPlaneConstraints.assignmentSet
  let (reachabilityMap, reachabilityResult) ← s.reachabilityMap.recompute symbolSet assignmentSet
  let (substitutionMap, substitutionResult) ← s.substitutionMap.recompute symbolSet assignmentSet
  some ({ s with reachabilityMap, substitutionMap }, reachabilityResult || substitutionResult)

/-- The last part of `initialize`, after the interpretation of the program. -/
def initializeMaps (annotations : ProgramAnnotations) (constraints : ControlPlaneConstraints) :
    Option PartialEvaluation :=
  (checkForSemanticsChange
    ⟨constraints, .create annotations.reachability, .create annotations.substitution⟩).map Prod.fst

/-- `IncrementalAnalysis::processControlPlaneUpdate` of one update up to the specialization of the
program: whether the semantics have changed, or nothing where an error is reported. -/
def processControlPlaneUpdate (p4Info : P4Info) (s : PartialEvaluation)
    (update : ControlPlaneUpdate) : PartialEvaluation × Option Bool :=
  let updated := convertControlPlaneUpdate p4Info s.controlPlaneConstraints update
  let s := { s with controlPlaneConstraints := updated.state }
  match updated.symbolSet with
  | none => (s, none)
  | some symbolSet =>
    match s.checkSymbolsForSemanticsChange symbolSet with
    | none => (s, none)
    | some (s, changeNeeded) => (s, some changeNeeded)

def isNodeReachable (s : PartialEvaluation) (node : Node) : Option Bool :=
  s.reachabilityMap.verdict node

def isExpressionConstant (s : PartialEvaluation) (e : ExpressionNode) : Option e.type.Val :=
  s.substitutionMap.verdict e

/-- The two states say the same of every node. -/
structure SameVerdicts (s s' : PartialEvaluation) : Prop where
  reachability : ∀ node, s'.isNodeReachable node = s.isNodeReachable node
  substitution : ∀ e, s'.isExpressionConstant e = s.isExpressionConstant e

/-- Recomputing all nodes under the current constraints gives the verdicts that the state has. -/
def AgreesWithRecomputation (s : PartialEvaluation) : Prop :=
  ∃ full changed, s.checkForSemanticsChange = some (full, changed) ∧ s.SameVerdicts full

/-- The maps keep the annotations of the program. -/
structure Tracks (s : PartialEvaluation) (annotations : ProgramAnnotations) : Prop where
  reachability : s.reachabilityMap.Tracks annotations.reachability
  substitution : s.substitutionMap.Tracks annotations.substitution

/-- The verdicts are those under the assignments. -/
structure UpToDate (s : PartialEvaluation) (assignmentSet : Z3ControlPlaneAssignmentSet) :
    Prop where
  reachability : s.reachabilityMap.UpToDate assignmentSet
  substitution : s.substitutionMap.UpToDate assignmentSet

/-- The verdicts are those that the constraints give the annotations. -/
structure Exact (s : PartialEvaluation) (annotations : ProgramAnnotations) : Prop where
  reachability : s.reachabilityMap.Exact annotations.reachability.expressions
    s.controlPlaneConstraints.assignmentSet
  substitution : s.substitutionMap.Exact annotations.substitution.expressions
    s.controlPlaneConstraints.assignmentSet

end PartialEvaluation

/-- The nodes that mention a symbol whose assignment the update changes depend on a symbol that the
update collects. -/
def ProgramAnnotations.Covers (annotations : ProgramAnnotations) (p4Info : P4Info)
    (constraints : ControlPlaneConstraints) (update : ControlPlaneUpdate) : Prop :=
  let updated := convertControlPlaneUpdate p4Info constraints update
  ∀ symbolSet, updated.symbolSet = some symbolSet →
    annotations.reachability.Covered symbolSet constraints.assignmentSet
        updated.state.assignmentSet ∧
      annotations.substitution.Covered symbolSet constraints.assignmentSet
        updated.state.assignmentSet

/-- The states that runs of accepted updates lead to, when every update is covered. -/
inductive CoveredRun (p4Info : P4Info) (annotations : ProgramAnnotations) :
    PartialEvaluation → Prop
  | initial {constraints : ControlPlaneConstraints} {s : PartialEvaluation}
      (h : PartialEvaluation.initializeMaps annotations constraints = some s) :
      CoveredRun p4Info annotations s
  | update {s s' : PartialEvaluation} {update : ControlPlaneUpdate} {changeNeeded : Bool}
      (before : CoveredRun p4Info annotations s)
      (covered : annotations.Covers p4Info s.controlPlaneConstraints update)
      (accepted : s.processControlPlaneUpdate p4Info update = (s', some changeNeeded)) :
      CoveredRun p4Info annotations s'

namespace PartialEvaluation

/-- What a check does to the maps, by the nodes that it recomputes. -/
structure Checked (annotations : ProgramAnnotations) (s : PartialEvaluation)
    (reachabilityTargets : List Node) (substitutionTargets : List ExpressionNode)
    (s' : PartialEvaluation) (reachabilityResult substitutionResult : Bool) : Prop where
  constraints : s'.controlPlaneConstraints = s.controlPlaneConstraints
  tracks : s'.Tracks annotations
  reachability : (computeNode _ s.controlPlaneConstraints.assignmentSet).Recomputed
    reachabilityTargets s.reachabilityMap.nodes s'.reachabilityMap.nodes reachabilityResult
  substitution : (computeNode _ s.controlPlaneConstraints.assignmentSet).Recomputed
    substitutionTargets s.substitutionMap.nodes s'.substitutionMap.nodes substitutionResult

variable {p4Info : P4Info} {annotations : ProgramAnnotations} {s s' : PartialEvaluation}

theorem exists_checkForSemanticsChange (tracks : s.Tracks annotations) :
    ∃ s' reachabilityResult substitutionResult,
      s.checkForSemanticsChange = some (s', reachabilityResult || substitutionResult) ∧
      Checked annotations s s.reachabilityMap.nodes.keys s.substitutionMap.nodes.keys s'
        reachabilityResult substitutionResult := by
  obtain ⟨r, rc, reachability, rTracks, rRecomputed⟩ :=
    Z3SolverMap.exists_recomputeAll tracks.reachability s.controlPlaneConstraints.assignmentSet
  obtain ⟨m, mc, substitution, mTracks, mRecomputed⟩ :=
    Z3SolverMap.exists_recomputeAll tracks.substitution s.controlPlaneConstraints.assignmentSet
  refine ⟨⟨s.controlPlaneConstraints, r, m⟩, rc, mc, ?_, rfl, ⟨rTracks, mTracks⟩, rRecomputed,
    mRecomputed⟩
  simp [checkForSemanticsChange, reachability, substitution]

theorem exists_checkSymbols (tracks : s.Tracks annotations) (symbolSet : SymbolSet) :
    ∃ s' reachabilityResult substitutionResult,
      s.checkSymbolsForSemanticsChange symbolSet =
        some (s', reachabilityResult || substitutionResult) ∧
      Checked annotations s (targetNodes annotations.reachability.symbolMap symbolSet)
        (targetNodes annotations.substitution.symbolMap symbolSet) s'
        reachabilityResult substitutionResult := by
  obtain ⟨r, rc, reachability, rTracks, rRecomputed⟩ :=
    Z3SolverMap.exists_recompute tracks.reachability symbolSet
      s.controlPlaneConstraints.assignmentSet
  obtain ⟨m, mc, substitution, mTracks, mRecomputed⟩ :=
    Z3SolverMap.exists_recompute tracks.substitution symbolSet
      s.controlPlaneConstraints.assignmentSet
  refine ⟨⟨s.controlPlaneConstraints, r, m⟩, rc, mc, ?_, rfl, ⟨rTracks, mTracks⟩, rRecomputed,
    mRecomputed⟩
  simp [checkSymbolsForSemanticsChange, reachability, substitution]

section Checked

variable {reachabilityTargets : List Node} {substitutionTargets : List ExpressionNode}
  {reachabilityResult substitutionResult : Bool}

/-- The nodes that a check leaves out are up to date. -/
structure Rest (s : PartialEvaluation) (reachabilityTargets : List Node)
    (substitutionTargets : List ExpressionNode) : Prop where
  reachability : ∀ k ∉ reachabilityTargets,
    (computeNode _ s.controlPlaneConstraints.assignmentSet).UpToDate s.reachabilityMap.nodes k
  substitution : ∀ k ∉ substitutionTargets,
    (computeNode _ s.controlPlaneConstraints.assignmentSet).UpToDate s.substitutionMap.nodes k

theorem rest_keys (s : PartialEvaluation) :
    s.Rest s.reachabilityMap.nodes.keys s.substitutionMap.nodes.keys :=
  ⟨fun _ out => Z3SolverMap.upToDate_of_not_mem out,
    fun _ out => Z3SolverMap.upToDate_of_not_mem out⟩

theorem Checked.upToDate
    (spec : Checked annotations s reachabilityTargets substitutionTargets s' reachabilityResult
      substitutionResult)
    (rest : s.Rest reachabilityTargets substitutionTargets) :
    s'.UpToDate s'.controlPlaneConstraints.assignmentSet := by
  rw [spec.constraints]
  exact ⟨spec.reachability.upToDate rest.reachability, spec.substitution.upToDate rest.substitution⟩

theorem Checked.unchanged_iff
    (spec : Checked annotations s reachabilityTargets substitutionTargets s' reachabilityResult
      substitutionResult)
    (rest : s.Rest reachabilityTargets substitutionTargets) :
    (reachabilityResult || substitutionResult) = false ↔ s.SameVerdicts s' := by
  rw [Bool.or_eq_false_iff,
    Z3SolverMap.unchanged_iff_of_recomputed rest.reachability spec.reachability,
    Z3SolverMap.unchanged_iff_of_recomputed rest.substitution spec.substitution]
  exact ⟨fun h => ⟨h.1, h.2⟩, fun h => ⟨h.reachability, h.substitution⟩⟩

end Checked

/-- Maps that are up to date are what recomputing them gives. -/
theorem agrees_of_upToDate (tracks : s.Tracks annotations)
    (upToDate : s.UpToDate s.controlPlaneConstraints.assignmentSet) :
    s.AgreesWithRecomputation := by
  obtain ⟨full, rc, mc, checked, spec⟩ := exists_checkForSemanticsChange tracks
  have rest := s.rest_keys
  refine ⟨full, rc || mc, checked, fun node => ?_, fun e => ?_⟩
  · have recomputed := Z3SolverMap.verdict_of_recomputed rest.reachability spec.reachability node
    exact recomputed.trans (upToDate.reachability.verdict node).symm
  · have recomputed := Z3SolverMap.verdict_of_recomputed rest.substitution spec.substitution e
    exact recomputed.trans (upToDate.substitution.verdict e).symm

theorem Tracks.exact (tracks : s.Tracks annotations)
    (upToDate : s.UpToDate s.controlPlaneConstraints.assignmentSet) : s.Exact annotations :=
  ⟨tracks.reachability.exact upToDate.reachability, tracks.substitution.exact upToDate.substitution⟩

/-- Under the same constraints the same annotations have the same verdicts. -/
theorem Exact.sameVerdicts (exact : s.Exact annotations) (exact' : s'.Exact annotations)
    (constraints : s'.controlPlaneConstraints = s.controlPlaneConstraints) : s.SameVerdicts s' := by
  obtain ⟨nodes, expressions⟩ := exact'
  rw [constraints] at nodes expressions
  exact ⟨fun node => (nodes node).trans (exact.reachability node).symm,
    fun e => (expressions e).trans (exact.substitution e).symm⟩

theorem upToDate_of_initializeMaps {constraints : ControlPlaneConstraints}
    (h : initializeMaps annotations constraints = some s) :
    s.Tracks annotations ∧ s.UpToDate s.controlPlaneConstraints.assignmentSet := by
  have tracks : Tracks ⟨constraints, .create annotations.reachability,
      .create annotations.substitution⟩ annotations :=
    ⟨Z3SolverMap.tracks_create _, Z3SolverMap.tracks_create _⟩
  obtain ⟨s₁, rc, mc, checked, spec⟩ := exists_checkForSemanticsChange tracks
  rw [initializeMaps, checked] at h
  cases h
  exact ⟨spec.tracks, spec.upToDate (rest_keys _)⟩

/-- An accepted update that is covered leaves the maps up to date, and it is reported as no change
exactly when no verdict has changed. -/
theorem upToDate_of_processControlPlaneUpdate [Z3.Local] {update : ControlPlaneUpdate}
    {changeNeeded : Bool} (tracks : s.Tracks annotations)
    (upToDate : s.UpToDate s.controlPlaneConstraints.assignmentSet)
    (covered : annotations.Covers p4Info s.controlPlaneConstraints update)
    (accepted : s.processControlPlaneUpdate p4Info update = (s', some changeNeeded)) :
    (s'.Tracks annotations ∧ s'.UpToDate s'.controlPlaneConstraints.assignmentSet) ∧
      (changeNeeded = false ↔ s.SameVerdicts s') := by
  unfold processControlPlaneUpdate at accepted
  dsimp only at accepted
  split at accepted
  · cases accepted
  · rename_i symbolSet collected
    have covers := covered symbolSet collected
    have rest : Rest { s with controlPlaneConstraints :=
          (convertControlPlaneUpdate p4Info s.controlPlaneConstraints update).state }
        (targetNodes annotations.reachability.symbolMap symbolSet)
        (targetNodes annotations.substitution.symbolMap symbolSet) :=
      ⟨upToDate_of_covered tracks.reachability upToDate.reachability covers.1,
        upToDate_of_covered tracks.substitution upToDate.substitution covers.2⟩
    have tracks : Tracks { s with controlPlaneConstraints :=
        (convertControlPlaneUpdate p4Info s.controlPlaneConstraints update).state } annotations :=
      ⟨tracks.reachability, tracks.substitution⟩
    obtain ⟨s₁, rc, mc, checked, spec⟩ := exists_checkSymbols tracks symbolSet
    rw [checked] at accepted
    cases accepted
    have told := spec.unchanged_iff rest
    exact ⟨⟨spec.tracks, spec.upToDate rest⟩,
      told.trans ⟨fun h => ⟨h.reachability, h.substitution⟩, fun h => ⟨h.reachability, h.substitution⟩⟩⟩

end PartialEvaluation

open PartialEvaluation

theorem CoveredRun.upToDate [Z3.Local] {p4Info : P4Info} {annotations : ProgramAnnotations}
    {s : PartialEvaluation} (run : CoveredRun p4Info annotations s) :
    s.Tracks annotations ∧ s.UpToDate s.controlPlaneConstraints.assignmentSet := by
  induction run with
  | initial h => exact upToDate_of_initializeMaps h
  | update before covered accepted ih =>
    exact (upToDate_of_processControlPlaneUpdate ih.1 ih.2 covered accepted).1

/-- In runs whose updates are all covered, every state agrees with recomputation from scratch and has
the verdicts that its constraints give the annotations, and an update is reported as no change exactly
when no verdict changes. -/
theorem incremental_agrees_of_covered [Z3.Local] {p4Info : P4Info}
    {annotations : ProgramAnnotations} {s : PartialEvaluation}
    (run : CoveredRun p4Info annotations s) :
    s.AgreesWithRecomputation ∧ s.Exact annotations ∧
      ∀ (update : ControlPlaneUpdate) (s' : PartialEvaluation) (changeNeeded : Bool),
        annotations.Covers p4Info s.controlPlaneConstraints update →
        s.processControlPlaneUpdate p4Info update = (s', some changeNeeded) →
          s'.AgreesWithRecomputation ∧ s'.Exact annotations ∧
            (changeNeeded = false ↔ s.SameVerdicts s') := by
  obtain ⟨tracks, upToDate⟩ := run.upToDate
  refine ⟨agrees_of_upToDate tracks upToDate, tracks.exact upToDate, ?_⟩
  intro update s' changeNeeded covered accepted
  obtain ⟨⟨tracks', upToDate'⟩, told⟩ :=
    upToDate_of_processControlPlaneUpdate tracks upToDate covered accepted
  exact ⟨agrees_of_upToDate tracks' upToDate', tracks'.exact upToDate', told⟩

end Analysis

section WildCardDelete

open PartialEvaluation

attribute [local instance] exprSolver exprSolver.lawful exprSolver.local IrOrder.literals

/-- The node 1 is reachable when the table `t` chooses to forward. -/
def forwardCondition : Expr .boolean :=
  .equ (getTableActionChoice "t").expr (.lit (t := .string) "forward")

def forwardAnnotations : ProgramAnnotations where
  reachability := .create (OrderedMap.empty.emplace 1 forwardCondition)
  substitution := .create OrderedMap.empty

/-- The table `t` with an entry that forwards the key 1. -/
def forwardConstraints : ControlPlaneConstraints :=
  OrderedMap.empty.emplace "t" (.tableConfiguration missForwarding)

def forwardAnalysis : PartialEvaluation :=
  (initializeMaps forwardAnnotations forwardConstraints).get rfl

theorem coveredRun_forwardAnalysis : CoveredRun missP4Info forwardAnnotations forwardAnalysis :=
  have started : initializeMaps forwardAnnotations forwardConstraints = some forwardAnalysis :=
    (Option.some_get _).symm
  .initial started

/-- A message that forwards the key 2. -/
def forwardInsert : ControlPlaneUpdate := .p4Runtime (some (missMessage 2 2 false)) .insert

/-- A message that deletes all entries of the table. -/
def wildCardDelete : ControlPlaneUpdate := .bfRuntime (some ⟨1, [], none, 0, false⟩) .delete

/-- An update that adds an entry collects the action choice, on which the node 1 depends. -/
theorem incremental_agrees_insert :
    (forwardAnalysis.processControlPlaneUpdate missP4Info forwardInsert).2 = some false ∧
      (forwardAnalysis.processControlPlaneUpdate missP4Info forwardInsert).1.AgreesWithRecomputation := by
  have accepted : forwardAnalysis.processControlPlaneUpdate missP4Info forwardInsert =
      ((forwardAnalysis.processControlPlaneUpdate missP4Info forwardInsert).1, some false) := rfl
  refine ⟨rfl, ((incremental_agrees_of_covered coveredRun_forwardAnalysis).2.2 _ _ _ ?_ accepted).1⟩
  intro symbolSet collected
  constructor
  · intro k e found _
    have chosen : getTableActionChoice "t" ∈ symbolSet := by
      cases collected
      exact List.mem_cons_self
    have annotated := OrderedMap.find_eq_some.mp found
    cases List.mem_singleton.mp annotated
    exact mem_targetNodes.mpr ⟨_, chosen, by decide⟩
  · intro k e found
    cases found

/-- The deletion collects nothing, and the node 1 keeps its verdict although nothing forwards. -/
theorem wildCardDelete_keeps_verdict :
    CoveredRun missP4Info forwardAnnotations forwardAnalysis ∧
      (forwardAnalysis.processControlPlaneUpdate missP4Info wildCardDelete).2 = some false ∧
      (forwardAnalysis.processControlPlaneUpdate missP4Info wildCardDelete).1.isNodeReachable 1 =
        none ∧
      ¬(forwardAnalysis.processControlPlaneUpdate missP4Info wildCardDelete).1.AgreesWithRecomputation := by
  have recomputedVerdict :
      ((forwardAnalysis.processControlPlaneUpdate missP4Info wildCardDelete).1.checkForSemanticsChange).map
        (fun result => result.1.isNodeReachable 1) = some (some false) := by decide
  refine ⟨coveredRun_forwardAnalysis, rfl, rfl, ?_⟩
  rintro ⟨full, changed, recomputed, same⟩
  have verdict := same.reachability 1
  rw [recomputed, Option.map_some, verdict] at recomputedVerdict
  exact absurd recomputedVerdict (by decide)

end WildCardDelete

end Flay
