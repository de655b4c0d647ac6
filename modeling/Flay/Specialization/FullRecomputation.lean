import Flay.Specialization.Initialization
import Flay.Specialization.Service

/-! Runs of batches against the recomputation of all verdicts, with and without symbol sets. -/

namespace Flay

open Container

section Service

variable [Z3] [IrOrder]

namespace FlayService

open PartialEvaluation

/-- The constructor of the service for an analysis that has been initialized: it specializes the program. -/
def create (analysis : PartialEvaluation) (program : ControlStatement) (useSymbolSet : Bool) :
    FlayService where
  analysis
  originalProgram := program
  optimizedProgram := flaySpecializer analysis.isNodeReachable analysis.isExpressionConstant program
  useSymbolSet
  errorCount := 0
  updateCount := 0
  respecializationCount := 0

/-- The original program specialized with the verdicts of an analysis. -/
def specialized (s : FlayService) (analysis : PartialEvaluation) : ControlStatement :=
  flaySpecializer analysis.isNodeReachable analysis.isExpressionConstant s.originalProgram

/-- The verdicts and the optimized program are those of a full recomputation under the current
constraints. -/
def AgreesWithFullRecomputation (s : FlayService) : Prop :=
  ∃ full changed, s.analysis.checkForSemanticsChange = some (full, changed) ∧
    s.analysis.SameVerdicts full ∧ s.optimizedProgram = s.specialized full

/-- The analysis with the constraints that a batch leaves. -/
def converted (p4Info : P4Info) (s : FlayService) (batch : List ControlPlaneUpdate) :
    PartialEvaluation :=
  { s.analysis with controlPlaneConstraints := (s.convert p4Info batch).state }

/-- The symbols whose nodes are recomputed for a batch that has used the symbols. -/
def recomputedSymbols (s : FlayService) (symbolSet : SymbolSet) : SymbolSet :=
  if s.useSymbolSet then symbolSet else []

/-- Every node whose annotation mentions a symbol that the batch assigns anew is recomputed for it: with
symbol sets it depends on a symbol that the batch collects, and without them there is no such node. -/
def Covers (annotations : ProgramAnnotations) (p4Info : P4Info) (s : FlayService)
    (batch : List ControlPlaneUpdate) : Prop :=
  let converted := s.convert p4Info batch
  let before := s.analysis.controlPlaneConstraints.assignmentSet
  ∀ symbolSet, converted.symbolSet = some symbolSet →
    annotations.reachability.Covered (s.recomputedSymbols symbolSet) before
        converted.state.assignmentSet ∧
      annotations.substitution.Covered (s.recomputedSymbols symbolSet) before
        converted.state.assignmentSet

/-- Every batch is accepted and covered. -/
def Accepts (annotations : ProgramAnnotations) (p4Info : P4Info) (s : FlayService) :
    List (List ControlPlaneUpdate) → Prop
  | [] => True
  | batch :: later =>
    ((s.convert p4Info batch).symbolSet.isSome ∧ s.Covers annotations p4Info batch) ∧
      Accepts annotations p4Info (s.processControlPlaneUpdate p4Info batch).1 later

/-- The constraints that batches lead to, one after the other. -/
def configure (p4Info : P4Info) (constraints : ControlPlaneConstraints)
    (batches : List (List ControlPlaneUpdate)) : ControlPlaneConstraints :=
  batches.foldl (fun constraints batch => (convertControlPlaneUpdates p4Info batch constraints []).state)
    constraints

/-- The verdicts are those under the current constraints, and the optimized program is the one that they
specialize. -/
structure Current (annotations : ProgramAnnotations) (program : ControlStatement) (s : FlayService) :
    Prop where
  tracks : s.analysis.Tracks annotations
  upToDate : s.analysis.UpToDate s.analysis.controlPlaneConstraints.assignmentSet
  original : s.originalProgram = program
  optimized : s.optimizedProgram = s.specialized s.analysis
  clean : s.errorCount = 0

variable {annotations : ProgramAnnotations} {program : ControlStatement} {p4Info : P4Info}
  {s : FlayService} {batch : List ControlPlaneUpdate} {symbolSet : SymbolSet}

theorem specialized_congr {a b : PartialEvaluation} (same : a.SameVerdicts b) :
    s.specialized b = s.specialized a := by
  rw [specialized, specialized, funext same.reachability, funext same.substitution]

theorem current_create {analysis : PartialEvaluation} (tracks : analysis.Tracks annotations)
    (upToDate : analysis.UpToDate analysis.controlPlaneConstraints.assignmentSet)
    (useSymbolSet : Bool) : (create analysis program useSymbolSet).Current annotations program :=
  ⟨tracks, upToDate, rfl, rfl, rfl⟩

/-- The service for an analysis that has been initialized is current. -/
theorem current_of_initializeAnalysis {keyMatches : List (String × List TableMatchKey)}
    {constraints : ControlPlaneConstraints} {configuration : List ControlPlaneUpdate}
    {analysis : PartialEvaluation}
    (initialized : PartialEvaluation.initializeAnalysis p4Info ⟨annotations, keyMatches⟩ constraints
      configuration = some analysis) (useSymbolSet : Bool) :
    (create analysis program useSymbolSet).Current annotations program := by
  obtain ⟨constraints', -, initialized⟩ := Option.bind_eq_some_iff.mp initialized
  obtain ⟨tracks, upToDate⟩ := PartialEvaluation.upToDate_of_initializeMaps initialized
  exact current_create tracks upToDate useSymbolSet

theorem Current.agrees (h : s.Current annotations program) : s.AgreesWithFullRecomputation := by
  obtain ⟨full, changed, checked, same⟩ := agrees_of_upToDate h.tracks h.upToDate
  exact ⟨full, changed, checked, same, h.optimized.trans (specialized_congr same).symm⟩

section Processed

variable {analysis : PartialEvaluation}

/-- Without symbol sets an accepted batch always counts as a change. -/
theorem analyze_of_plain (accepted : (s.convert p4Info batch).symbolSet = some symbolSet)
    (plain : s.useSymbolSet = false) :
    s.analyze p4Info batch = (s.converted p4Info batch, some true) := by
  simp only [analyze, accepted, plain, Bool.false_eq_true, if_false]
  rfl

theorem analyze_of_symbols {changed : Bool}
    (accepted : (s.convert p4Info batch).symbolSet = some symbolSet)
    (symbolSets : s.useSymbolSet = true)
    (checked : (s.converted p4Info batch).checkSymbolsForSemanticsChange symbolSet =
      some (analysis, changed)) :
    s.analyze p4Info batch = (analysis, some changed) := by
  have here : checkSymbolsForSemanticsChange { s.analysis with
      controlPlaneConstraints := (s.convert p4Info batch).state } symbolSet =
        some (analysis, changed) := checked
  simp only [analyze, accepted, symbolSets, if_true, here]

/-- After a change the program is specialized anew. -/
theorem processControlPlaneUpdate_of_changed (clean : s.errorCount = 0)
    (analyzed : s.analyze p4Info batch = (analysis, some true)) :
    s.processControlPlaneUpdate p4Info batch =
      ({ s with
        analysis := analysis
        updateCount := s.updateCount + batch.length
        optimizedProgram := s.specialized analysis
        respecializationCount := s.respecializationCount + 1 }, true) := by
  simp [processControlPlaneUpdate, analyzed, respecialize, specializeProgram, clean, specialized]

theorem processControlPlaneUpdate_of_unchanged
    (analyzed : s.analyze p4Info batch = (analysis, some false)) :
    s.processControlPlaneUpdate p4Info batch =
      ({ s with
        analysis := analysis
        updateCount := s.updateCount + batch.length }, true) := by
  simp [processControlPlaneUpdate, analyzed]

end Processed

/-- A batch that is accepted and covered succeeds, and it leaves the service current. -/
theorem Current.process [Z3.Local] (h : s.Current annotations program)
    (accepted : (s.convert p4Info batch).symbolSet.isSome) (covers : s.Covers annotations p4Info batch) :
    (s.processControlPlaneUpdate p4Info batch).2 = true ∧
      (s.processControlPlaneUpdate p4Info batch).1.Current annotations program ∧
      (s.processControlPlaneUpdate p4Info batch).1.analysis.controlPlaneConstraints =
        (s.convert p4Info batch).state := by
  obtain ⟨symbolSet, collected⟩ := Option.isSome_iff_exists.mp accepted
  obtain ⟨nodes, expressions⟩ := covers symbolSet collected
  have tracks : (s.converted p4Info batch).Tracks annotations :=
    ⟨h.tracks.reachability, h.tracks.substitution⟩
  have rest : (s.converted p4Info batch).Rest
      (targetNodes annotations.reachability.symbolMap (s.recomputedSymbols symbolSet))
      (targetNodes annotations.substitution.symbolMap (s.recomputedSymbols symbolSet)) :=
    ⟨upToDate_of_covered h.tracks.reachability h.upToDate.reachability nodes,
      upToDate_of_covered h.tracks.substitution h.upToDate.substitution expressions⟩
  cases symbolSets : s.useSymbolSet with
  | false =>
    rw [recomputedSymbols, symbolSets] at rest
    have upToDate : (s.converted p4Info batch).UpToDate
        (s.converted p4Info batch).controlPlaneConstraints.assignmentSet :=
      ⟨fun k => rest.reachability k List.not_mem_nil, fun k => rest.substitution k List.not_mem_nil⟩
    rw [processControlPlaneUpdate_of_changed h.clean (analyze_of_plain collected symbolSets)]
    exact ⟨rfl, ⟨tracks, upToDate, h.original, rfl, h.clean⟩, rfl⟩
  | true =>
    rw [recomputedSymbols, symbolSets] at rest
    obtain ⟨analysis, rc, mc, checked, spec⟩ := exists_checkSymbols tracks symbolSet
    have analyzed := analyze_of_symbols collected symbolSets checked
    have upToDate := spec.upToDate rest
    cases changed : rc || mc with
    | true =>
      rw [changed] at analyzed
      rw [processControlPlaneUpdate_of_changed h.clean analyzed]
      exact ⟨rfl, ⟨spec.tracks, upToDate, h.original, rfl, h.clean⟩, spec.constraints⟩
    | false =>
      -- The program that is kept is the one for the new verdicts, which are the old ones.
      have same := (spec.unchanged_iff rest).mp changed
      have kept : s.specialized analysis = s.specialized s.analysis :=
        specialized_congr ⟨same.reachability, same.substitution⟩
      rw [changed] at analyzed
      rw [processControlPlaneUpdate_of_unchanged analyzed]
      exact ⟨rfl, ⟨spec.tracks, upToDate, h.original, h.optimized.trans kept.symm, h.clean⟩,
        spec.constraints⟩

theorem Current.run [Z3.Local] (h : s.Current annotations program)
    {batches : List (List ControlPlaneUpdate)} (accepts : s.Accepts annotations p4Info batches) :
    (∀ result ∈ (s.run p4Info batches).2, result = true) ∧
      (s.run p4Info batches).1.Current annotations program ∧
      (s.run p4Info batches).1.analysis.controlPlaneConstraints =
        configure p4Info s.analysis.controlPlaneConstraints batches := by
  induction batches generalizing s with
  | nil => exact ⟨fun _ mem => absurd mem List.not_mem_nil, h, rfl⟩
  | cons batch later ih =>
    obtain ⟨succeeds, current, configured⟩ := h.process accepts.1.1 accepts.1.2
    obtain ⟨results, current, constraints⟩ := ih current accepts.2
    refine ⟨fun result mem => ?_, current, ?_⟩
    · obtain rfl | mem := List.mem_cons.mp mem
      · exact succeeds
      · exact results result mem
    · rw [configured] at constraints
      exact constraints

/-- With and without symbol sets: in every run of batches that are accepted and covered, every batch
succeeds, and the service has the verdicts and the program of a full recomputation under the constraints
that the batches lead to, which are the verdicts that these constraints give the annotations. -/
theorem run_agrees_of_covered [Z3.Local] {keyMatches : List (String × List TableMatchKey)}
    {constraints : ControlPlaneConstraints} {configuration : List ControlPlaneUpdate}
    {analysis : PartialEvaluation}
    (initialized : PartialEvaluation.initializeAnalysis p4Info ⟨annotations, keyMatches⟩ constraints
      configuration = some analysis) (useSymbolSet : Bool) {batches : List (List ControlPlaneUpdate)}
    (accepts : (create analysis program useSymbolSet).Accepts annotations p4Info batches) :
    let r := (create analysis program useSymbolSet).run p4Info batches
    (∀ result ∈ r.2, result = true) ∧
      r.1.analysis.controlPlaneConstraints =
        configure p4Info analysis.controlPlaneConstraints batches ∧
      r.1.AgreesWithFullRecomputation ∧ r.1.analysis.Exact annotations := by
  have created : (create analysis program useSymbolSet).Current annotations program :=
    current_of_initializeAnalysis initialized useSymbolSet
  obtain ⟨results, current, constraints⟩ := created.run accepts
  exact ⟨results, constraints, current.agrees, current.tracks.exact current.upToDate⟩

end FlayService

end Service

section Examples

open FlayService PartialEvaluation

attribute [local instance] exprSolver exprSolver.lawful exprSolver.local IrOrder.literals

/-- An if statement that is the node 1. -/
def branchProgram : ControlStatement := .ifStatement 1 (.path 2 "x" .boolean) (.apply missTable) none

/-- The two tables once the interpretation has given them their keys. -/
def pairForwarding : PartialEvaluation :=
  (PartialEvaluation.initializeAnalysis pairP4Info pairAnalysis pairConstraints []).get rfl

/-- A message that deletes the entry of the second table. -/
def secondDelete : ControlPlaneUpdate :=
  .p4Runtime (some { missMessage 2 1 false with tableId := 2 }) .delete

/-- The program depends on the first table alone: without symbol sets the second one may change, and with
them both. -/
theorem run_agrees_pair :
    ((create pairForwarding branchProgram false).run pairP4Info
        [[secondInsert], [secondDelete]]).1.AgreesWithFullRecomputation ∧
      ((create pairForwarding branchProgram true).run pairP4Info
        [[secondInsert, forwardInsert], [secondDelete]]).1.AgreesWithFullRecomputation := by
  have initialized : PartialEvaluation.initializeAnalysis pairP4Info
      ⟨forwardAnnotations, pairAnalysis.tableKeyMatches⟩ pairConstraints [] = some pairForwarding :=
    (Option.some_get _).symm
  have plain : (create pairForwarding branchProgram false).Accepts forwardAnnotations pairP4Info
      [[secondInsert], [secondDelete]] :=
    ⟨⟨rfl, fun _ _ => covered_forwardAnnotations (.inr rfl)⟩,
      ⟨rfl, fun _ _ => covered_forwardAnnotations (.inr rfl)⟩, trivial⟩
  have symbols : (create pairForwarding branchProgram true).Accepts forwardAnnotations pairP4Info
      [[secondInsert, forwardInsert], [secondDelete]] := by
    refine ⟨⟨rfl, fun symbolSet collected => covered_forwardAnnotations (.inl ?_)⟩,
      ⟨rfl, fun _ _ => covered_forwardAnnotations (.inr rfl)⟩, trivial⟩
    cases collected
    decide
  exact ⟨(run_agrees_of_covered initialized false plain).2.2.1,
    (run_agrees_of_covered initialized true symbols).2.2.1⟩

/-- A batch that deletes the entry of the first table. -/
def deleteBatch : List ControlPlaneUpdate := [.p4Runtime (some (missMessage 2 1 false)) .delete]

/-- The service for the first table, without symbol sets. -/
def plainService : FlayService := create forwardAnalysis branchProgram false

/-- The program without the branch that is not reachable. -/
def prunedProgram : ControlStatement :=
  .ifStatement 1 (.lNot (.path 2 "x" .boolean)) .empty none

theorem specialized_plainService {analysis : PartialEvaluation}
    (unreachable : analysis.isNodeReachable 1 = some false) :
    plainService.specialized analysis = prunedProgram := by
  simp [specialized, flaySpecializer, plainService, create, branchProgram, prunedProgram,
    ElimDeadCode.controlStatement, ElimDeadCode.statement, ElimDeadCode.preorderIf,
    ElimDeadCode.expression, ElimDeadCode.optionalStatement, unreachable,
    SubstituteExpressions.statement, SubstituteExpressions.expression,
    SubstituteExpressions.pathExpression, SubstituteExpressions.optionalStatement]

/-- Without symbol sets nothing is recomputed: after the deletion of the entry the program keeps the
branch that a full recomputation removes. -/
theorem plainService_delete :
    (plainService.convert missP4Info deleteBatch).symbolSet.isSome ∧
      (plainService.processControlPlaneUpdate missP4Info deleteBatch).2 = true ∧
      (plainService.processControlPlaneUpdate missP4Info deleteBatch).1.optimizedProgram =
        branchProgram ∧
      ((plainService.processControlPlaneUpdate missP4Info
        deleteBatch).1.analysis.checkForSemanticsChange.map fun result =>
          plainService.specialized result.1) = some prunedProgram ∧
      ¬(plainService.processControlPlaneUpdate missP4Info
        deleteBatch).1.AgreesWithFullRecomputation := by
  have verdict : ((plainService.processControlPlaneUpdate missP4Info
      deleteBatch).1.analysis.checkForSemanticsChange.map fun result =>
        result.1.isNodeReachable 1) = some (some false) := by decide
  have recomputed : ((plainService.processControlPlaneUpdate missP4Info
      deleteBatch).1.analysis.checkForSemanticsChange.map fun result =>
        plainService.specialized result.1) = some prunedProgram := by
    obtain ⟨result, checked, unreachable⟩ := Option.map_eq_some_iff.mp verdict
    rw [checked, Option.map_some, specialized_plainService unreachable]
  refine ⟨rfl, rfl, rfl, recomputed, ?_⟩
  rintro ⟨full, changed, checked, -, program⟩
  rw [checked, Option.map_some, Option.some.injEq] at recomputed
  have kept : branchProgram = prunedProgram := program.trans recomputed
  cases kept

end Examples

end Flay
