import Flay.ControlPlane.IdleUpdate
import Flay.Specialization.FullRecomputation

/-! What a rejected batch does to the batches after it. The updates ahead of the rejected one stay, and
the error that is reported keeps the program from being specialized again. -/

namespace Flay

open Container

section Batch

variable [Z3] [IrOrder] {p4Info : P4Info} {constraints : ControlPlaneConstraints}

/-- Each update of the batch, up to the first that is rejected, stores only what is there already. -/
def ControlPlaneConstraints.KeptBy (p4Info : P4Info) (constraints : ControlPlaneConstraints) :
    List ControlPlaneUpdate → Prop
  | [] => True
  | update :: updates =>
    update.Keeps p4Info constraints ∧
      ((convertControlPlaneUpdate p4Info constraints update).symbolSet.isSome →
        constraints.KeptBy p4Info updates)

/-- The tables of an action profile are distinct. -/
def ControlPlaneConstraints.DistinctTables (constraints : ControlPlaneConstraints) : Prop :=
  ∀ name associatedTables, constraints.find name = some (.actionProfile associatedTables) →
    associatedTables.Nodup

variable (p4Info constraints) in
/-- A batch changes the tables that its updates reach. -/
theorem exists_changes_convertControlPlaneUpdates (batch : List ControlPlaneUpdate)
    (symbolSet : SymbolSet) :
    ∃ f, Changes (batch.flatMap (·.tables p4Info constraints)) constraints
      (convertControlPlaneUpdates p4Info batch constraints symbolSet).state f := by
  induction batch generalizing symbolSet constraints with
  | nil => exact ⟨_, .refl _ constraints⟩
  | cons update batch ih =>
    obtain ⟨f, changes⟩ := exists_changes_convertControlPlaneUpdate p4Info constraints update
    have first := changes.mono (List.subset_append_left _ (batch.flatMap (·.tables p4Info constraints)))
    rw [convertControlPlaneUpdates, List.flatMap_cons]
    split
    · rename_i converted
      rw [converted] at first
      exact ⟨f, first⟩
    · rename_i constraints' used converted
      rw [converted] at first
      obtain ⟨g, rest⟩ := ih constraints' (symbolSet ++ used)
      have tables : (batch.flatMap fun u => u.tables p4Info constraints') =
          batch.flatMap fun u => u.tables p4Info constraints := by
        have changed : constraints' = constraints.mapTables f := first.state
        simp only [changed, ControlPlaneUpdate.tables_mapTables]
      rw [tables] at rest
      exact ⟨_, first.trans (rest.mono (List.subset_append_right _ _))⟩

namespace ControlPlaneConstraints

/-- A batch of updates that store nothing new leaves the constraints. -/
theorem KeptBy.state (distinct : constraints.DistinctTables) {batch : List ControlPlaneUpdate}
    (kept : constraints.KeptBy p4Info batch) (symbolSet : SymbolSet) :
    (convertControlPlaneUpdates p4Info batch constraints symbolSet).state = constraints := by
  induction batch generalizing symbolSet with
  | nil => rfl
  | cons update batch ih =>
    have same := (convert_state_eq_iff distinct update).mpr kept.1
    rw [convertControlPlaneUpdates]
    split
    · rename_i converted
      rwa [converted] at same
    · rename_i used converted
      rw [converted] at same
      dsimp only at same
      subst same
      exact ih (kept.2 (by rw [converted]; rfl)) _

/-- Where no table is reached twice, only such batches leave the constraints. -/
theorem keptBy_of_state (distinct : constraints.DistinctTables) {batch : List ControlPlaneUpdate}
    (apart : batch.Pairwise (ControlPlaneUpdate.Apart p4Info constraints)) {symbolSet : SymbolSet}
    (same : (convertControlPlaneUpdates p4Info batch constraints symbolSet).state = constraints) :
    constraints.KeptBy p4Info batch := by
  induction batch generalizing symbolSet with
  | nil => trivial
  | cons update batch ih =>
    obtain ⟨here, later⟩ := List.pairwise_cons.mp apart
    have kept : (convertControlPlaneUpdate p4Info constraints update).state = constraints ↔
        update.Keeps p4Info constraints := convert_state_eq_iff distinct update
    obtain ⟨f, changes⟩ := exists_changes_convertControlPlaneUpdate p4Info constraints update
    rw [convertControlPlaneUpdates] at same
    split at same
    · rename_i converted
      rw [converted] at kept
      exact ⟨kept.mp same, fun accepted => by rw [converted] at accepted; cases accepted⟩
    · rename_i constraints' used converted
      rw [converted] at kept changes
      obtain ⟨g, rest⟩ := exists_changes_convertControlPlaneUpdates p4Info constraints' batch
        (symbolSet ++ used)
      have changed : constraints' = constraints.mapTables f := changes.state
      -- What the update has changed, no later update changes back.
      have unchanged : constraints' = constraints := by
        refine changes.eq_iff_tablesUnchanged.mpr fun name t found => ?_
        have found' : constraints'.find name = some (.tableConfiguration (f name t)) := by
          rw [changed, find_mapTables, found]
          rfl
        refine ⟨f name t, found', ?_⟩
        by_cases reached : name ∈ update.tables p4Info constraints
        · have untouched : g name = id := by
            refine rest.elsewhere name fun mem => ?_
            obtain ⟨update', member, reached'⟩ := List.mem_flatMap.mp mem
            rw [changed, ControlPlaneUpdate.tables_mapTables] at reached'
            exact here update' member reached reached'
          have final := congrArg (OrderedMap.find · name) rest.state
          rw [same, found, find_mapTables, found', Option.map_some, ControlPlaneItem.mapTable,
            untouched] at final
          have kept' : t = f name t :=
            ControlPlaneItem.tableConfiguration.inj (Option.some.inj final)
          rw [← kept']
          exact .refl _
        · rw [changes.elsewhere name reached]
          exact .refl _
      subst unchanged
      exact ⟨kept.mp rfl, fun _ => ih later same⟩

end ControlPlaneConstraints

end Batch

section Service

variable [Z3] [IrOrder]

namespace FlayService

/-- Some update of the batch is rejected. -/
def Rejected (p4Info : P4Info) (s : FlayService) (batch : List ControlPlaneUpdate) : Prop :=
  (s.convert p4Info batch).symbolSet = none

/-- The analysis takes every batch without an error. -/
def Valid (p4Info : P4Info) (s : FlayService) : List (List ControlPlaneUpdate) → Prop
  | [] => True
  | batch :: later =>
    (s.analyze p4Info batch).2.isSome ∧
      Valid p4Info (s.processControlPlaneUpdate p4Info batch).1 later

/-- The program is to be specialized after the batch: symbol sets are not used, or the batch collects a
symbol of a node whose verdict is another one under the constraints that it leads to. -/
def Asks (p4Info : P4Info) (s : FlayService) (batch : List ControlPlaneUpdate) : Prop :=
  let converted := s.convert p4Info batch
  ∃ symbolSet, converted.symbolSet = some symbolSet ∧
    (s.useSymbolSet = false ∨
      s.analysis.reachabilityMap.Outdated symbolSet converted.state.assignmentSet ∨
      s.analysis.substitutionMap.Outdated symbolSet converted.state.assignmentSet)

/-- After none of the batches is the program to be specialized. -/
def Quiet (p4Info : P4Info) (s : FlayService) : List (List ControlPlaneUpdate) → Prop
  | [] => True
  | batch :: later =>
    ¬s.Asks p4Info batch ∧ Quiet p4Info (s.processControlPlaneUpdate p4Info batch).1 later

/-- The services are alike but for the errors and the statistics. -/
structure Alike (s s' : FlayService) : Prop where
  analysis : s.analysis = s'.analysis
  originalProgram : s.originalProgram = s'.originalProgram
  optimizedProgram : s.optimizedProgram = s'.optimizedProgram
  useSymbolSet : s.useSymbolSet = s'.useSymbolSet

/-- The verdicts, the constraints, the results and the optimized program of two runs are equal. -/
structure SameOutcome (r r' : FlayService × List Bool) : Prop where
  constraints : r.1.analysis.controlPlaneConstraints = r'.1.analysis.controlPlaneConstraints
  verdicts : r.1.analysis.SameVerdicts r'.1.analysis
  results : r.2 = r'.2
  optimizedProgram : r.1.optimizedProgram = r'.1.optimizedProgram

variable {p4Info : P4Info} {s s' : FlayService} {batch : List ControlPlaneUpdate}
  {later : List (List ControlPlaneUpdate)}

/-- A check that succeeds tells a change exactly when some verdict that it comes to is another one. -/
theorem changed_iff_outdated {analysis analysis' : PartialEvaluation} {symbolSet : SymbolSet}
    {changed : Bool}
    (checked : analysis.checkSymbolsForSemanticsChange symbolSet = some (analysis', changed)) :
    changed = true ↔
      analysis.reachabilityMap.Outdated symbolSet analysis.controlPlaneConstraints.assignmentSet ∨
        analysis.substitutionMap.Outdated symbolSet analysis.controlPlaneConstraints.assignmentSet := by
  simp only [PartialEvaluation.checkSymbolsForSemanticsChange, bind, Option.bind_eq_some_iff] at checked
  obtain ⟨⟨r, rc⟩, reachability, ⟨m, mc⟩, substitution, same⟩ := checked
  cases same
  rw [Bool.or_eq_true, Z3SolverMap.changed_iff_outdated reachability,
    Z3SolverMap.changed_iff_outdated substitution]

/-- What `analyze` tells for a batch that it takes. -/
theorem analyze_eq_some_true_iff (valid : (s.analyze p4Info batch).2.isSome) :
    (s.analyze p4Info batch).2 = some true ↔ s.Asks p4Info batch := by
  cases collected : (s.convert p4Info batch).symbolSet with
  | none => simp [analyze, collected] at valid
  | some symbolSet =>
    simp only [Asks, collected, Option.some.injEq, exists_eq_left']
    cases symbolSets : s.useSymbolSet with
    | false => simp [analyze, collected, symbolSets]
    | true =>
      cases checked : PartialEvaluation.checkSymbolsForSemanticsChange { s.analysis with
          controlPlaneConstraints := (s.convert p4Info batch).state } symbolSet with
      | none => simp [analyze, collected, symbolSets, checked] at valid
      | some result =>
        obtain ⟨analysis, changeNeeded⟩ := result
        have changed := changed_iff_outdated checked
        simpa [analyze, collected, symbolSets, checked] using changed

theorem analyze_ne_of_not_asks (quiet : ¬s.Asks p4Info batch) :
    (s.analyze p4Info batch).2 ≠ some true :=
  fun asked => quiet ((analyze_eq_some_true_iff (Option.isSome_of_eq_some asked)).mp asked)

theorem Alike.analyze (alike : s.Alike s') (batch : List ControlPlaneUpdate) :
    s.analyze p4Info batch = s'.analyze p4Info batch := by
  rw [FlayService.analyze, FlayService.analyze, convert, convert, alike.analysis,
    alike.useSymbolSet]

/-- Errors stay reported. -/
theorem errorCount_le_process (p4Info : P4Info) (s : FlayService)
    (batch : List ControlPlaneUpdate) :
    s.errorCount ≤ (s.processControlPlaneUpdate p4Info batch).1.errorCount := by
  unfold processControlPlaneUpdate
  dsimp only
  split
  · exact Nat.le_succ _
  · split
    · unfold respecialize
      split <;> exact Nat.le_refl _
    · exact Nat.le_refl _

/-- Alike services take a batch alike when both have reported errors, or when it does not ask for a
specialization. -/
theorem Alike.process (alike : s.Alike s') (batch : List ControlPlaneUpdate)
    (h : (0 < s.errorCount ∧ 0 < s'.errorCount) ∨ (s.analyze p4Info batch).2 ≠ some true) :
    (s.processControlPlaneUpdate p4Info batch).2 = (s'.processControlPlaneUpdate p4Info batch).2 ∧
      (s.processControlPlaneUpdate p4Info batch).1.Alike
        (s'.processControlPlaneUpdate p4Info batch).1 := by
  have same : s.analyze p4Info batch = s'.analyze p4Info batch := alike.analyze batch
  unfold processControlPlaneUpdate
  dsimp only
  rw [← same]
  split
  · exact ⟨rfl, rfl, alike.originalProgram, alike.optimizedProgram, alike.useSymbolSet⟩
  · rename_i changeNeeded asked
    cases changeNeeded with
    | false => exact ⟨rfl, rfl, alike.originalProgram, alike.optimizedProgram, alike.useSymbolSet⟩
    | true =>
      obtain ⟨failed, failed'⟩ := h.resolve_right fun quiet => quiet asked
      simp only [if_true, respecialize, specializeProgram, gt_iff_lt, failed, failed']
      exact ⟨trivial, rfl, alike.originalProgram, alike.optimizedProgram, alike.useSymbolSet⟩

/-- Alike services run alike when both have reported errors, or when no batch asks for a
specialization. -/
theorem Alike.run (alike : s.Alike s')
    (h : (0 < s.errorCount ∧ 0 < s'.errorCount) ∨ s.Quiet p4Info later) :
    (s.run p4Info later).2 = (s'.run p4Info later).2 ∧
      (s.run p4Info later).1.Alike (s'.run p4Info later).1 := by
  induction later generalizing s s' with
  | nil => exact ⟨rfl, alike⟩
  | cons batch later ih =>
    obtain ⟨result, after⟩ := alike.process batch (h.imp id fun quiet => analyze_ne_of_not_asks quiet.1)
    have rest := ih after (h.imp (fun failed => ?_) And.right)
    · refine ⟨?_, rest.2⟩
      rw [FlayService.run, FlayService.run, result, rest.1]
    · exact ⟨failed.1.trans_le (errorCount_le_process ..),
        failed.2.trans_le (errorCount_le_process ..)⟩

/-- A service that has reported an error fails where the program is to be specialized. -/
theorem Alike.results_ne (alike : s.Alike s') (clean : s.errorCount = 0) (failed : 0 < s'.errorCount)
    (valid : s.Valid p4Info later) (asks : ¬s.Quiet p4Info later) :
    (s.run p4Info later).2 ≠ (s'.run p4Info later).2 := by
  induction later generalizing s s' with
  | nil => exact absurd trivial asks
  | cons batch later ih =>
    intro same
    rw [FlayService.run, FlayService.run, List.cons.injEq] at same
    obtain ⟨result, rest⟩ := same
    by_cases asked : (s.analyze p4Info batch).2 = some true
    · have success : (s.processControlPlaneUpdate p4Info batch).2 = true := by
        simp [processControlPlaneUpdate, asked, respecialize, specializeProgram, clean]
      have failure : (s'.processControlPlaneUpdate p4Info batch).2 = false := by
        have asked' := (alike.analyze batch : s.analyze p4Info batch = _) ▸ asked
        simp [processControlPlaneUpdate, asked', respecialize, specializeProgram, failed]
      rw [success, failure] at result
      cases result
    · obtain ⟨-, after⟩ := alike.process _ (.inr asked)
      obtain ⟨changeNeeded, told⟩ := Option.isSome_iff_exists.mp valid.1
      have quiet : changeNeeded = false := by
        cases changeNeeded with
        | false => rfl
        | true => exact absurd told asked
      have stillClean : (s.processControlPlaneUpdate p4Info batch).1.errorCount = 0 := by
        simp [processControlPlaneUpdate, told, quiet, clean]
      have laterAsks : ¬(s.processControlPlaneUpdate p4Info batch).1.Quiet p4Info later :=
        fun laterQuiet => asks ⟨mt (analyze_eq_some_true_iff valid.1).mpr asked, laterQuiet⟩
      exact ih after stillClean (failed.trans_le (errorCount_le_process ..)) valid.2 laterAsks rest

/-- What a rejected batch leaves. -/
theorem process_of_rejected (rejected : s.Rejected p4Info batch) :
    (s.processControlPlaneUpdate p4Info batch).1 =
      { s with
        analysis := { s.analysis with
          controlPlaneConstraints := (s.convert p4Info batch).state }
        updateCount := s.updateCount + batch.length
        errorCount := s.errorCount + 1 } := by
  have rejected : (s.convert p4Info batch).symbolSet = none := rejected
  simp [processControlPlaneUpdate, FlayService.analyze, rejected]

/-- A rejected batch that stores nothing new does not influence a later run exactly when the process had
reported an error before, or nothing in the run asks for the program to be specialized. -/
theorem sameOutcome_iff_of_keptBy (rejected : s.Rejected p4Info batch)
    (distinct : s.analysis.controlPlaneConstraints.DistinctTables)
    (kept : s.analysis.controlPlaneConstraints.KeptBy p4Info batch) (valid : s.Valid p4Info later) :
    SameOutcome ((s.processControlPlaneUpdate p4Info batch).1.run p4Info later) (s.run p4Info later) ↔
      s.errorCount ≠ 0 ∨ s.Quiet p4Info later := by
  have left := process_of_rejected rejected
  have failed : 0 < (s.processControlPlaneUpdate p4Info batch).1.errorCount := by
    rw [left]
    exact Nat.succ_pos _
  have alike : s.Alike (s.processControlPlaneUpdate p4Info batch).1 := by
    rw [left, convert, kept.state distinct []]
    exact ⟨rfl, rfl, rfl, rfl⟩
  constructor
  · intro same
    by_contra harmful
    obtain ⟨clean, asks⟩ := not_or.mp harmful
    exact alike.results_ne (not_not.mp clean) failed valid asks same.results.symm
  · intro harmless
    have condition : (0 < s.errorCount ∧
        0 < (s.processControlPlaneUpdate p4Info batch).1.errorCount) ∨ s.Quiet p4Info later :=
      harmless.imp_left fun reported => ⟨Nat.pos_of_ne_zero reported, failed⟩
    obtain ⟨results, after⟩ := alike.run condition
    refine ⟨?_, ?_, results.symm, after.optimizedProgram.symm⟩
    · rw [after.analysis]
    · rw [after.analysis]
      exact ⟨fun _ => rfl, fun _ => rfl⟩

/-- A rejected batch that stores nothing new influences a later run exactly when the process had reported
no error before and something in the run asks for the program to be specialized. Where no table is
reached twice by the batch, one that stores something new always influences what comes later. -/
theorem sameOutcome_iff_of_rejected (rejected : s.Rejected p4Info batch)
    (distinct : s.analysis.controlPlaneConstraints.DistinctTables) :
    (s.analysis.controlPlaneConstraints.KeptBy p4Info batch → ∀ later, s.Valid p4Info later →
        (SameOutcome ((s.processControlPlaneUpdate p4Info batch).1.run p4Info later)
            (s.run p4Info later) ↔
          s.errorCount ≠ 0 ∨ s.Quiet p4Info later)) ∧
      (batch.Pairwise (ControlPlaneUpdate.Apart p4Info s.analysis.controlPlaneConstraints) →
        ((∀ later, s.Valid p4Info later →
            SameOutcome ((s.processControlPlaneUpdate p4Info batch).1.run p4Info later)
              (s.run p4Info later)) ↔
          s.analysis.controlPlaneConstraints.KeptBy p4Info batch ∧
            (s.errorCount ≠ 0 ∨ ∀ later, s.Valid p4Info later → s.Quiet p4Info later))) := by
  refine ⟨fun kept later valid => sameOutcome_iff_of_keptBy rejected distinct kept valid,
    fun apart => ⟨fun same => ?_, ?_⟩⟩
  · have constraints : (s.convert p4Info batch).state = s.analysis.controlPlaneConstraints := by
      have here := (same [] trivial).constraints
      rw [process_of_rejected rejected] at here
      exact here
    have kept := ControlPlaneConstraints.keptBy_of_state distinct apart constraints
    refine ⟨kept, or_iff_not_imp_left.mpr fun clean later valid => ?_⟩
    have harmless := (sameOutcome_iff_of_keptBy rejected distinct kept valid).mp (same later valid)
    exact harmless.resolve_left clean
  · rintro ⟨kept, harmless⟩ later valid
    exact (sameOutcome_iff_of_keptBy rejected distinct kept valid).mpr
      (harmless.imp_right fun quiet => quiet later valid)

end FlayService

end Service

section Rejection

open FlayService

attribute [local instance] exprSolver exprSolver.lawful IrOrder.literals

/-- A service for the table `t` with an entry that forwards the key 1. -/
def forwardService (errorCount : Nat) : FlayService where
  analysis := forwardAnalysis
  originalProgram := .apply missTable
  optimizedProgram := .apply missTable
  useSymbolSet := true
  errorCount := errorCount
  updateCount := 0
  respecializationCount := 0

/-- A batch that inserts the entry again. -/
def duplicateBatch : List ControlPlaneUpdate := [.p4Runtime (some (missMessage 2 1 false)) .insert]

/-- A batch that inserts an entry for the key 2 before it does. -/
def halfRejectedBatch : List ControlPlaneUpdate := forwardInsert :: duplicateBatch

theorem distinctTables_forwardConstraints : forwardConstraints.DistinctTables := by
  intro name associatedTables found
  have named : name ∈ OrderedMap.keys forwardConstraints := OrderedMap.mem_keys_of_find found
  obtain rfl : name = "t" := List.mem_singleton.mp named
  cases found

/-- A duplicate does no more harm in a process that has reported an error before, nor does it ahead of an
entry that changes no verdict. -/
theorem sameOutcome_duplicate :
    SameOutcome
        (((forwardService 1).processControlPlaneUpdate missP4Info duplicateBatch).1.run missP4Info
          [deleteBatch])
        ((forwardService 1).run missP4Info [deleteBatch]) ∧
      SameOutcome
        (((forwardService 0).processControlPlaneUpdate missP4Info duplicateBatch).1.run missP4Info
          [[forwardInsert]])
        ((forwardService 0).run missP4Info [[forwardInsert]]) := by
  have kept : forwardConstraints.KeptBy missP4Info duplicateBatch :=
    ⟨(convert_state_eq_iff distinctTables_forwardConstraints _).mp rfl, fun accepted => by cases accepted⟩
  have rejected : ∀ errorCount, (forwardService errorCount).Rejected missP4Info duplicateBatch :=
    fun _ => rfl
  constructor
  · have valid : (forwardService 1).Valid missP4Info [deleteBatch] := ⟨rfl, trivial⟩
    exact ((sameOutcome_iff_of_rejected (rejected 1) distinctTables_forwardConstraints).1 kept _
      valid).mpr (.inl (by decide))
  · have valid : (forwardService 0).Valid missP4Info [[forwardInsert]] := ⟨rfl, trivial⟩
    have quiet : ((forwardService 0).analyze missP4Info [forwardInsert]).2 = some false := rfl
    refine ((sameOutcome_iff_of_rejected (rejected 0) distinctTables_forwardConstraints).1 kept _
      valid).mpr (.inr ⟨fun asks => ?_, trivial⟩)
    have asked := (analyze_eq_some_true_iff valid.1).mpr asks
    rw [quiet] at asked
    cases asked

/-- A rejected batch keeps the entry inserted before the failure, and after it the deletion of an
entry, which changes a verdict, fails. -/
theorem rejected_batch_influences_delete :
    (forwardService 0).Rejected missP4Info halfRejectedBatch ∧
      (forwardService 0).Valid missP4Info [deleteBatch] ∧
      ((forwardService 0).run missP4Info [deleteBatch]).2 = [true] ∧
      ((forwardService 0).run missP4Info [deleteBatch]).1.analysis.isNodeReachable 1 = some false ∧
      (((forwardService 0).processControlPlaneUpdate missP4Info halfRejectedBatch).1.run missP4Info
        [deleteBatch]).1.analysis.isNodeReachable 1 = none ∧
      (((forwardService 0).processControlPlaneUpdate missP4Info duplicateBatch).1.run missP4Info
        [deleteBatch]).2 = [false] ∧
      ¬SameOutcome
        (((forwardService 0).processControlPlaneUpdate missP4Info halfRejectedBatch).1.run missP4Info
          [deleteBatch])
        ((forwardService 0).run missP4Info [deleteBatch]) := by
  refine ⟨rfl, ⟨rfl, trivial⟩, rfl, rfl, rfl, rfl, ?_⟩
  intro same
  have verdict := same.verdicts.reachability 1
  exact absurd verdict (by decide)

end Rejection

end Flay
