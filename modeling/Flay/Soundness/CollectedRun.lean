import Flay.ControlPlane.Footprint
import Flay.Interpreter.InterpreterRun
import Flay.Soundness.Service

/-! Runs of batches in which all that is taken from the tables is collected: the service then keeps the
verdicts and the program of a full recomputation, whatever program the interpreter has recorded. -/

namespace Flay

open Container TableExecutor

section Service

variable [Z3] [IrOrder]

/-- What an accepted batch brings to the tables is collected. -/
theorem gainsCollected_convertControlPlaneUpdates {p4Info : P4Info}
    {batch : List ControlPlaneUpdate} {constraints constraints' : ControlPlaneConstraints}
    {before symbolSet : SymbolSet}
    (accepted : convertControlPlaneUpdates p4Info batch constraints before =
      ⟨constraints', some symbolSet⟩) :
    before ⊆ symbolSet ∧ constraints.GainsCollected constraints' symbolSet := by
  induction batch generalizing constraints before with
  | nil =>
    cases accepted
    exact ⟨List.Subset.refl _, .refl _ _⟩
  | cons update batch ih =>
    rw [convertControlPlaneUpdates] at accepted
    split at accepted
    · cases accepted
    · rename_i used converted
      obtain ⟨subset, rest⟩ := ih accepted
      have step := gainsCollected_convertControlPlaneUpdate converted
      exact ⟨List.Subset.trans (List.subset_append_left _ _) subset,
        (step.mono (List.Subset.trans (List.subset_append_right _ _) subset)).trans rest⟩

/-- Nodes whose symbols are assigned anew depend on what is collected. -/
theorem Annotations.covered_of_collected {κ : Type} [DecidableEq κ] {type : κ → Ty}
    (annotations : Annotations type) {constraints constraints' : ControlPlaneConstraints}
    {symbolSet : SymbolSet} (cached : constraints.Cached) (gains : constraints.GainsCollected constraints' symbolSet)
    (losses : constraints.LossesCollected constraints' symbolSet) :
    annotations.Covered symbolSet constraints.assignmentSet constraints'.assignmentSet := by
  rintro k e found ⟨x, mem, different⟩
  exact mem_targetNodes.mpr ⟨x, ControlPlaneConstraints.mem_of_collected cached gains losses different,
    annotations.collected k e found x mem⟩

theorem cached_computeControlPlaneConstraints {p4Info : P4Info} {updates : List ControlPlaneUpdate}
    {constraints constraints' : ControlPlaneConstraints} (cached : constraints.Cached)
    (read : computeControlPlaneConstraints p4Info constraints updates = some constraints') :
    constraints'.Cached := by
  induction updates generalizing constraints with
  | nil =>
    cases read
    exact cached
  | cons update updates ih =>
    rw [computeControlPlaneConstraints] at read
    split at read
    · rename_i accepted
      obtain ⟨symbolSet, collected⟩ := Option.isSome_iff_exists.mp accepted
      exact ih (cached.of_gainsCollected
        (gainsCollected_convertControlPlaneUpdate (Updated.eq_mk collected))) read
    · cases read

/-- An analysis starts with the conditions of all entries, where the tables that the program gives
entries are applied. -/
theorem cached_of_initializeAnalysis {p4Info : P4Info} {analysis : DataPlaneAnalysis}
    {constraints : ControlPlaneConstraints} {configuration : List ControlPlaneUpdate}
    {s : PartialEvaluation} (keyed : constraints.EntriesKeyed analysis.tableKeyMatches)
    (initialized : PartialEvaluation.initializeAnalysis p4Info analysis constraints configuration =
      some s) : s.controlPlaneConstraints.Cached :=
  cached_computeControlPlaneConstraints keyed.cached
    (PartialEvaluation.initializeAnalysis_eq_some p4Info initialized).2.2

namespace FlayService

/-- Every batch is accepted, and what it takes from the tables is collected. -/
def Collects (p4Info : P4Info) (s : FlayService) : List (List ControlPlaneUpdate) → Prop
  | [] => True
  | batch :: later =>
    (∃ symbolSet, (s.convert p4Info batch).symbolSet = some symbolSet ∧
        s.analysis.controlPlaneConstraints.LossesCollected (s.convert p4Info batch).state
          symbolSet) ∧
      Collects p4Info (s.processControlPlaneUpdate p4Info batch).1 later

variable {annotations : ProgramAnnotations} {program : ControlStatement} {p4Info : P4Info}
  {s : FlayService}

theorem useSymbolSet_process (p4Info : P4Info) (s : FlayService) (batch : List ControlPlaneUpdate) :
    (s.processControlPlaneUpdate p4Info batch).1.useSymbolSet = s.useSymbolSet := by
  unfold processControlPlaneUpdate respecialize
  dsimp only
  split
  · rfl
  · split
    · split <;> rfl
    · rfl

/-- The batches are covered. -/
theorem Current.accepts [Z3.Local] (h : s.Current annotations program)
    (symbolSets : s.useSymbolSet = true) (cached : s.analysis.controlPlaneConstraints.Cached)
    {batches : List (List ControlPlaneUpdate)} (collects : s.Collects p4Info batches) :
    s.Accepts annotations p4Info batches := by
  induction batches generalizing s with
  | nil => trivial
  | cons batch later ih =>
    obtain ⟨⟨symbolSet, collected, losses⟩, rest⟩ := collects
    have gains := (gainsCollected_convertControlPlaneUpdates (Updated.eq_mk collected)).2
    have covers : s.Covers annotations p4Info batch := by
      intro used known
      obtain rfl : symbolSet = used := Option.some.inj (collected.symm.trans known)
      rw [recomputedSymbols, symbolSets]
      exact ⟨annotations.reachability.covered_of_collected cached gains losses,
        annotations.substitution.covered_of_collected cached gains losses⟩
    have taken : (s.convert p4Info batch).symbolSet.isSome := by
      rw [collected]
      rfl
    obtain ⟨-, current, constraints⟩ := h.process taken covers
    have symbolSets : (s.processControlPlaneUpdate p4Info batch).1.useSymbolSet = true := by
      rw [useSymbolSet_process, symbolSets]
    have cached : (s.processControlPlaneUpdate p4Info batch).1.analysis.controlPlaneConstraints.Cached := by
      rw [constraints]
      exact cached.of_gainsCollected gains
    exact ⟨⟨taken, covers⟩, ih current symbolSets cached rest⟩

/-- In every run whose batches collect what they take from the tables, every batch succeeds, and the
service has the verdicts and the program of a full recomputation under the constraints that the batches
lead to. -/
theorem agrees_of_collects [Z3.Local] {keyMatches : List (String × List TableMatchKey)}
    {constraints : ControlPlaneConstraints} (keyed : constraints.EntriesKeyed keyMatches)
    {configuration : List ControlPlaneUpdate} {analysis : PartialEvaluation}
    (initialized : PartialEvaluation.initializeAnalysis p4Info ⟨annotations, keyMatches⟩ constraints
      configuration = some analysis) {batches : List (List ControlPlaneUpdate)}
    (collects : (create analysis program true).Collects p4Info batches) :
    let r := (create analysis program true).run p4Info batches
    (∀ result ∈ r.2, result = true) ∧
      r.1.analysis.controlPlaneConstraints =
        configure p4Info analysis.controlPlaneConstraints batches ∧
      r.1.AgreesWithFullRecomputation ∧ r.1.analysis.Exact annotations := by
  have created : (create analysis program true).Current annotations program :=
    current_of_initializeAnalysis initialized true
  obtain ⟨results, current, constraints⟩ := created.run
    (created.accepts rfl (cached_of_initializeAnalysis keyed initialized) collects)
  exact ⟨results, constraints, current.agrees, current.tracks.exact current.upToDate⟩

end FlayService

end Service

section Examples

open FlayService

attribute [local instance] exprSolver exprSolver.lawful exprSolver.local IrOrder.literals

/-- The table with an entry that forwards the key 1, as the interpreter leaves it. -/
def keyedForwarding : TableConfiguration "t" :=
  missForwarding.setTableKeyMatch [.exact "t" "k" (.var (.dataPlane "h.k") (.bit 8))]

def keyedConstraints : ControlPlaneConstraints :=
  OrderedMap.empty.emplace "t" (.tableConfiguration keyedForwarding)

/-- The entry for the key 2 takes nothing from the table. -/
theorem lossesCollected_forwardInsert (symbolSet : SymbolSet) :
    keyedConstraints.LossesCollected
      (convertControlPlaneUpdates missP4Info [forwardInsert] keyedConstraints []).state symbolSet :=
  .assign rfl (TableConfiguration.lossesCollected_insert rfl symbolSet)

theorem entriesKeyed_forwardConstraints :
    forwardConstraints.EntriesKeyed missRecord.tableKeyMatches := by
  intro name t found
  have named : name ∈ OrderedMap.keys forwardConstraints := OrderedMap.mem_keys_of_find found
  obtain rfl : name = "t" := List.mem_singleton.mp named
  exact .inr List.mem_cons_self

theorem collects_forwardInsert {analysis : PartialEvaluation}
    (constraints : analysis.controlPlaneConstraints = keyedConstraints) :
    (create analysis missControl true).Collects missP4Info [[forwardInsert]] := by
  have converted : (create analysis missControl true).convert missP4Info [forwardInsert] =
      convertControlPlaneUpdates missP4Info [forwardInsert] keyedConstraints [] := by
    rw [convert, create, constraints]
  refine ⟨⟨[getTableActionChoice "t", getTableKey "t" "k" (.bit 8)], ?_, ?_⟩, trivial⟩
  · rw [converted]
    rfl
  · rw [converted]
    dsimp only [create]
    rw [constraints]
    exact lossesCollected_forwardInsert _

/-- The analysis of the control for a table with an entry. -/
def forwardingAnalysis : PartialEvaluation :=
  (PartialEvaluation.initializeAnalysis missP4Info ⟨missAnnotations, missRecord.tableKeyMatches⟩
    forwardConstraints []).get rfl

theorem agrees_forwardInsert :
    ((create forwardingAnalysis missControl true).run missP4Info
      [[forwardInsert]]).1.AgreesWithFullRecomputation := by
  have initialized : PartialEvaluation.initializeAnalysis missP4Info
      ⟨missAnnotations, missRecord.tableKeyMatches⟩ forwardConstraints [] =
        some forwardingAnalysis := (Option.some_get _).symm
  exact (agrees_of_collects entriesKeyed_forwardConstraints initialized (collects_forwardInsert rfl)).2.2.1

end Examples

end Flay
