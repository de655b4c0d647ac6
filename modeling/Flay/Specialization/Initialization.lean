import Flay.ControlPlane.KeyMatchOrder
import Flay.Specialization.PartialEvaluation

/-! How the analysis starts. The configuration file is read first, then the program is interpreted,
which gives the tables their key matches, and updates arrive after that. The constraints in the end do
not depend on where the file ends and the updates begin, nor on the order of updates of different
tables, and the verdicts do not either where each update collects what it is to collect. -/

namespace Flay

open Container

/-- What the interpretation of the program leaves: the annotations, and the key matches of the tables
in the order in which they are applied. -/
structure DataPlaneAnalysis where
  annotations : ProgramAnnotations
  tableKeyMatches : List (String × List TableMatchKey)

section Analysis

variable [Z3] [IrOrder]

/-- `FlayTarget::computeControlPlaneConstraints`: the initial constraints with the updates of the
configuration file, all of which are to be accepted. -/
def computeControlPlaneConstraints (p4Info : P4Info) (constraints : ControlPlaneConstraints) :
    List ControlPlaneUpdate → Option ControlPlaneConstraints
  | [] => some constraints
  | update :: updates =>
    let updated := convertControlPlaneUpdate p4Info constraints update
    if updated.symbolSet.isSome then computeControlPlaneConstraints p4Info updated.state updates
    else none

namespace PartialEvaluation

/-- `PartialEvaluation::initialize`. -/
def initializeAnalysis (p4Info : P4Info) (analysis : DataPlaneAnalysis)
    (constraints : ControlPlaneConstraints) (configuration : List ControlPlaneUpdate) :
    Option PartialEvaluation := do
  let constraints ← computeControlPlaneConstraints p4Info constraints configuration
  initializeMaps analysis.annotations (constraints.setTableKeyMatches analysis.tableKeyMatches)

/-- Updates that arrive one by one, all of which are to be accepted. -/
def processUpdates (p4Info : P4Info) (s : PartialEvaluation) :
    List ControlPlaneUpdate → Option PartialEvaluation
  | [] => some s
  | update :: updates =>
    let processed := s.processControlPlaneUpdate p4Info update
    if processed.2.isSome then processUpdates p4Info processed.1 updates else none

/-- Updates that arrive one by one, and whether each of them is accepted. -/
def processEach (p4Info : P4Info) :
    PartialEvaluation → List ControlPlaneUpdate → PartialEvaluation × List (ControlPlaneUpdate × Bool) :=
  Interleaving.runs fun s update =>
    let processed := s.processControlPlaneUpdate p4Info update
    (processed.1, processed.2.isSome)

end PartialEvaluation

/-- Every node whose annotation mentions a symbol that the update assigns anew depends on a symbol that
the update collects. An update that is rejected collects none. -/
def ProgramAnnotations.CoversOrKeeps (annotations : ProgramAnnotations) (p4Info : P4Info)
    (constraints : ControlPlaneConstraints) (update : ControlPlaneUpdate) : Prop :=
  let updated := convertControlPlaneUpdate p4Info constraints update
  annotations.reachability.Covered (updated.symbolSet.getD []) constraints.assignmentSet
      updated.state.assignmentSet ∧
    annotations.substitution.Covered (updated.symbolSet.getD []) constraints.assignmentSet
      updated.state.assignmentSet

def ProgramAnnotations.CoversEach (annotations : ProgramAnnotations) (p4Info : P4Info) :
    ControlPlaneConstraints → List ControlPlaneUpdate → Prop
  | _, [] => True
  | constraints, update :: updates =>
    annotations.CoversOrKeeps p4Info constraints update ∧
      annotations.CoversEach p4Info (convertControlPlaneUpdate p4Info constraints update).state updates

section Constraints

variable (p4Info : P4Info) (constraints : ControlPlaneConstraints)

theorem computeControlPlaneConstraints_append (l l' : List ControlPlaneUpdate) :
    computeControlPlaneConstraints p4Info constraints (l ++ l') =
      (computeControlPlaneConstraints p4Info constraints l).bind
        (computeControlPlaneConstraints p4Info · l') := by
  induction l generalizing constraints with
  | nil => rfl
  | cons update l ih =>
    rw [List.cons_append, computeControlPlaneConstraints, computeControlPlaneConstraints]
    cases (convertControlPlaneUpdate p4Info constraints update).symbolSet.isSome with
    | true => exact ih _
    | false => rfl

/-- A configuration file that is read after the key matches have been set. -/
theorem computeControlPlaneConstraints_setTableKeyMatches
    (tableKeyMatches : List (String × List TableMatchKey)) (l : List ControlPlaneUpdate) :
    computeControlPlaneConstraints p4Info (constraints.setTableKeyMatches tableKeyMatches) l =
      (computeControlPlaneConstraints p4Info constraints l).map
        (·.setTableKeyMatches tableKeyMatches) := by
  induction l generalizing constraints with
  | nil => rfl
  | cons update l ih =>
    rw [computeControlPlaneConstraints, computeControlPlaneConstraints, convert_setTableKeyMatches]
    by_cases accepted : (convertControlPlaneUpdate p4Info constraints update).symbolSet.isSome
    · simp only [Updated.map, accepted, if_true]
      exact ih _
    · simp only [Updated.map, accepted]
      rfl

end Constraints

namespace PartialEvaluation

variable (p4Info : P4Info) {annotations : ProgramAnnotations} {s s' : PartialEvaluation}

/-- What an update does to the constraints, to the annotations that the maps keep, and whether it is
accepted. -/
theorem Tracks.processControlPlaneUpdate (tracks : s.Tracks annotations)
    (update : ControlPlaneUpdate) :
    let updated := convertControlPlaneUpdate p4Info s.controlPlaneConstraints update
    (s.processControlPlaneUpdate p4Info update).1.controlPlaneConstraints = updated.state ∧
      (s.processControlPlaneUpdate p4Info update).1.Tracks annotations ∧
      (s.processControlPlaneUpdate p4Info update).2.isSome = updated.symbolSet.isSome := by
  dsimp only
  unfold PartialEvaluation.processControlPlaneUpdate
  dsimp only
  cases collected :
      (convertControlPlaneUpdate p4Info s.controlPlaneConstraints update).symbolSet with
  | none => exact ⟨rfl, ⟨tracks.reachability, tracks.substitution⟩, rfl⟩
  | some symbolSet =>
    have tracks' : Tracks { s with controlPlaneConstraints :=
        (convertControlPlaneUpdate p4Info s.controlPlaneConstraints update).state } annotations :=
      ⟨tracks.reachability, tracks.substitution⟩
    obtain ⟨s₁, rc, mc, checked, spec⟩ := exists_checkSymbols tracks' symbolSet
    dsimp only
    rw [checked]
    exact ⟨spec.constraints, spec.tracks, rfl⟩

theorem Tracks.processUpdates (tracks : s.Tracks annotations) (l : List ControlPlaneUpdate) :
    (s.processUpdates p4Info l).map controlPlaneConstraints =
        computeControlPlaneConstraints p4Info s.controlPlaneConstraints l ∧
      ∀ s', s.processUpdates p4Info l = some s' → s'.Tracks annotations := by
  induction l generalizing s with
  | nil =>
    refine ⟨rfl, fun s' done => ?_⟩
    cases done
    exact tracks
  | cons update l ih =>
    obtain ⟨constraints, tracks', accepted⟩ :=
      tracks.processControlPlaneUpdate p4Info update
    simp only [PartialEvaluation.processUpdates, computeControlPlaneConstraints, accepted]
    split
    · rw [← constraints]
      exact ih tracks'
    · exact ⟨rfl, fun _ done => by cases done⟩

theorem Tracks.processEach (tracks : s.Tracks annotations) (l : List ControlPlaneUpdate) :
    let converted := Interleaving.runs (convertStep p4Info) s.controlPlaneConstraints l
    (s.processEach p4Info l).1.controlPlaneConstraints = converted.1 ∧
      (s.processEach p4Info l).1.Tracks annotations ∧
      (s.processEach p4Info l).2 = converted.2.map fun report => (report.1, report.2.isSome) := by
  induction l generalizing s with
  | nil => exact ⟨rfl, tracks, rfl⟩
  | cons update l ih =>
    obtain ⟨constraints, tracks', accepted⟩ :=
      tracks.processControlPlaneUpdate p4Info update
    obtain ⟨rest, tracks'', reports⟩ := ih tracks'
    rw [constraints] at rest reports
    refine ⟨rest, tracks'', ?_⟩
    exact congrArg₂ List.cons (congrArg (update, ·) accepted) reports

/-- An update leaves the verdicts up to date where it covers what it changes. -/
theorem UpToDate.processControlPlaneUpdate [Z3.Local]
    (upToDate : s.UpToDate s.controlPlaneConstraints.assignmentSet) (tracks : s.Tracks annotations)
    {update : ControlPlaneUpdate}
    (covers : annotations.CoversOrKeeps p4Info s.controlPlaneConstraints update) :
    (s.processControlPlaneUpdate p4Info update).1.UpToDate
      (s.processControlPlaneUpdate p4Info update).1.controlPlaneConstraints.assignmentSet := by
  obtain ⟨constraints, -, told⟩ := tracks.processControlPlaneUpdate p4Info update
  cases collected :
      (convertControlPlaneUpdate p4Info s.controlPlaneConstraints update).symbolSet with
  | some symbolSet =>
    rw [collected, Option.isSome_some] at told
    obtain ⟨changeNeeded, asked⟩ := Option.isSome_iff_exists.mp told
    have covered : annotations.Covers p4Info s.controlPlaneConstraints update := by
      intro used known
      obtain rfl : symbolSet = used := Option.some.inj (collected.symm.trans known)
      rw [ProgramAnnotations.CoversOrKeeps, collected, Option.getD_some] at covers
      exact covers
    exact (upToDate_of_processControlPlaneUpdate tracks upToDate covered
      (Prod.ext rfl asked)).1.2
  | none =>
    rw [ProgramAnnotations.CoversOrKeeps, collected, Option.getD_none] at covers
    have nodes := upToDate_of_covered tracks.reachability upToDate.reachability covers.1
    have expressions := upToDate_of_covered tracks.substitution upToDate.substitution covers.2
    -- Nothing is recomputed, and no assignment that a node depends on has changed.
    have kept : (s.processControlPlaneUpdate p4Info update).1 = { s with controlPlaneConstraints :=
        (convertControlPlaneUpdate p4Info s.controlPlaneConstraints update).state } := by
      simp [PartialEvaluation.processControlPlaneUpdate, collected]
    rw [kept]
    exact ⟨fun k => nodes k List.not_mem_nil, fun k => expressions k List.not_mem_nil⟩

theorem UpToDate.processEach [Z3.Local]
    (upToDate : s.UpToDate s.controlPlaneConstraints.assignmentSet) (tracks : s.Tracks annotations)
    {l : List ControlPlaneUpdate}
    (covers : annotations.CoversEach p4Info s.controlPlaneConstraints l) :
    (s.processEach p4Info l).1.UpToDate
      (s.processEach p4Info l).1.controlPlaneConstraints.assignmentSet := by
  induction l generalizing s with
  | nil => exact upToDate
  | cons update l ih =>
    obtain ⟨constraints, tracks', -⟩ := tracks.processControlPlaneUpdate p4Info update
    obtain ⟨here, rest⟩ := covers
    rw [← constraints] at rest
    exact ih (upToDate.processControlPlaneUpdate p4Info tracks here) tracks' rest

/-- Updates that are all accepted lead where they lead one by one. -/
theorem processEach_of_processUpdates {l : List ControlPlaneUpdate}
    (processed : s.processUpdates p4Info l = some s') : (s.processEach p4Info l).1 = s' := by
  induction l generalizing s with
  | nil => exact Option.some.inj processed
  | cons update l ih =>
    rw [processUpdates] at processed
    split at processed
    · exact ih processed
    · cases processed

theorem exists_initializeMaps (annotations : ProgramAnnotations)
    (constraints : ControlPlaneConstraints) :
    ∃ s, initializeMaps annotations constraints = some s ∧ s.controlPlaneConstraints = constraints ∧
      s.Tracks annotations := by
  have tracks : Tracks ⟨constraints, .create annotations.reachability,
      .create annotations.substitution⟩ annotations :=
    ⟨Z3SolverMap.tracks_create _, Z3SolverMap.tracks_create _⟩
  obtain ⟨s, rc, mc, checked, spec⟩ := exists_checkForSemanticsChange tracks
  exact ⟨s, by rw [initializeMaps, checked]; rfl, spec.constraints, spec.tracks⟩

/-- A start that succeeds is one whose configuration file is accepted. -/
theorem initializeAnalysis_eq_some {analysis : DataPlaneAnalysis} {constraints : ControlPlaneConstraints}
    {configuration : List ControlPlaneUpdate}
    (started : initializeAnalysis p4Info analysis constraints configuration = some s) :
    s.Tracks analysis.annotations ∧ s.UpToDate s.controlPlaneConstraints.assignmentSet ∧
      computeControlPlaneConstraints p4Info (constraints.setTableKeyMatches analysis.tableKeyMatches)
        configuration = some s.controlPlaneConstraints := by
  rw [computeControlPlaneConstraints_setTableKeyMatches]
  cases read : computeControlPlaneConstraints p4Info constraints configuration with
  | none => simp [initializeAnalysis, read] at started
  | some configured =>
    obtain ⟨s₁, created, same, tracks⟩ := exists_initializeMaps analysis.annotations
      (configured.setTableKeyMatches analysis.tableKeyMatches)
    have unique : some s₁ = some s := by
      rw [← created, ← started, initializeAnalysis, read]
      rfl
    cases unique
    exact ⟨tracks, (upToDate_of_initializeMaps created).2, congrArg some same.symm⟩

theorem initializeAnalysis_isSome (analysis : DataPlaneAnalysis) (constraints : ControlPlaneConstraints)
    (configuration : List ControlPlaneUpdate) :
    (initializeAnalysis p4Info analysis constraints configuration).isSome =
      (computeControlPlaneConstraints p4Info
        (constraints.setTableKeyMatches analysis.tableKeyMatches) configuration).isSome := by
  rw [computeControlPlaneConstraints_setTableKeyMatches, Option.isSome_map]
  cases read : computeControlPlaneConstraints p4Info constraints configuration with
  | none => simp [initializeAnalysis, read]
  | some configured =>
    obtain ⟨s₁, created, -⟩ := exists_initializeMaps analysis.annotations
      (configured.setTableKeyMatches analysis.tableKeyMatches)
    have started : initializeAnalysis p4Info analysis constraints configuration = some s₁ := by
      rw [← created, initializeAnalysis, read]
      rfl
    simp [started]

/-- A configuration may be read from the file or arrive as updates: the analysis accepts it in both
cases or in neither, and in the end it has the same constraints, and the same verdicts where each update
covers what it changes. -/
theorem initializeAnalysis_append [Z3.Local] (analysis : DataPlaneAnalysis)
    (constraints : ControlPlaneConstraints) (configuration updates : List ControlPlaneUpdate) :
    let early := initializeAnalysis p4Info analysis constraints (configuration ++ updates)
    let late := (initializeAnalysis p4Info analysis constraints configuration).bind
      (processUpdates p4Info · updates)
    early.isSome = late.isSome ∧ ∀ s s', early = some s → late = some s' →
      s'.controlPlaneConstraints = s.controlPlaneConstraints ∧
        ((∀ s₀, initializeAnalysis p4Info analysis constraints configuration = some s₀ →
            analysis.annotations.CoversEach p4Info s₀.controlPlaneConstraints updates) →
          s.SameVerdicts s') := by
  dsimp only
  have appended := computeControlPlaneConstraints_append p4Info
    (constraints.setTableKeyMatches analysis.tableKeyMatches) configuration updates
  constructor
  · rw [initializeAnalysis_isSome, appended]
    cases started : initializeAnalysis p4Info analysis constraints configuration with
    | none =>
      have refused := initializeAnalysis_isSome p4Info analysis constraints configuration
      rw [started, Option.isSome_none, eq_comm, Option.isSome_eq_false_iff,
        Option.isNone_iff_eq_none] at refused
      rw [refused]
      rfl
    | some s =>
      obtain ⟨tracks, -, read⟩ := initializeAnalysis_eq_some p4Info started
      rw [read, Option.bind_some, Option.bind_some, ← (tracks.processUpdates p4Info updates).1,
        Option.isSome_map]
  · intro s s' early late
    obtain ⟨s₀, started, processed⟩ := Option.bind_eq_some_iff.mp late
    obtain ⟨tracks, upToDate, read⟩ := initializeAnalysis_eq_some p4Info early
    obtain ⟨tracks₀, upToDate₀, read₀⟩ := initializeAnalysis_eq_some p4Info started
    have same := (tracks₀.processUpdates p4Info updates).1
    rw [appended, read₀, Option.bind_some, ← same, processed, Option.map_some] at read
    have constraints : s'.controlPlaneConstraints = s.controlPlaneConstraints := Option.some.inj read
    refine ⟨constraints, fun covers => ?_⟩
    have arrived := processEach_of_processUpdates p4Info processed
    have tracks' := (tracks₀.processEach p4Info updates).2.1
    have upToDate' := upToDate₀.processEach p4Info tracks₀ (covers s₀ started)
    rw [arrived] at tracks' upToDate'
    exact (tracks.exact upToDate).sameVerdicts (tracks'.exact upToDate') constraints

/-- Two controllers send updates, each in its own order, and no table is reached by both. Whichever
way the updates arrive, after the start and what came before: the constraints are the same in the end,
the same updates are accepted, and the verdicts are the same where each update covers what it changes. -/
theorem processEach_interleaved [Z3.Local] {analysis : DataPlaneAnalysis}
    {constraints : ControlPlaneConstraints} {configuration : List ControlPlaneUpdate}
    {s₀ : PartialEvaluation}
    (started : initializeAnalysis p4Info analysis constraints configuration = some s₀)
    (earlier : List ControlPlaneUpdate) {l r w w' : List ControlPlaneUpdate}
    (apart : ∀ u ∈ l, ∀ v ∈ r,
      u.Apart p4Info (s₀.processEach p4Info earlier).1.controlPlaneConstraints v)
    (interleaved : Interleaving.Interleaved l r w) (interleaved' : Interleaving.Interleaved l r w') :
    let s := (s₀.processEach p4Info earlier).1
    (s.processEach p4Info w').1.controlPlaneConstraints =
        (s.processEach p4Info w).1.controlPlaneConstraints ∧
      (s.processEach p4Info w).2.Perm (s.processEach p4Info w').2 ∧
      (analysis.annotations.CoversEach p4Info s₀.controlPlaneConstraints earlier →
        analysis.annotations.CoversEach p4Info s.controlPlaneConstraints w →
        analysis.annotations.CoversEach p4Info s.controlPlaneConstraints w' →
          (s.processEach p4Info w).1.SameVerdicts (s.processEach p4Info w').1) := by
  dsimp only
  obtain ⟨tracks₀, upToDate₀, -⟩ := initializeAnalysis_eq_some p4Info started
  have tracks := (tracks₀.processEach p4Info earlier).2.1
  have same := (commute_convertStep p4Info _).sameRun interleaved interleaved' rfl apart
  obtain ⟨state, tracksL, reports⟩ := tracks.processEach p4Info w
  obtain ⟨state', tracksL', reports'⟩ := tracks.processEach p4Info w'
  have constraints := state'.trans (same.state.symm.trans state.symm)
  refine ⟨constraints, ?_, fun coversEarlier covers covers' => ?_⟩
  · rw [reports, reports']
    exact same.yields.map _
  · have upToDate := upToDate₀.processEach p4Info tracks₀ coversEarlier
    exact (tracksL.exact (upToDate.processEach p4Info tracks covers)).sameVerdicts
      (tracksL'.exact (upToDate.processEach p4Info tracks covers')) constraints

end PartialEvaluation

end Analysis

section Examples

attribute [local instance] exprSolver exprSolver.lawful exprSolver.local IrOrder.literals

/-- A second table, with the id 2. -/
def pairP4Info : P4Info :=
  { missP4Info with tables := [missP4Table, ⟨2, "u", [⟨1, "k", 8, .exact⟩], false, 0⟩] }

def pairConstraints : ControlPlaneConstraints :=
  OrderedMap.emplace forwardConstraints "u" (.tableConfiguration (.unconfigured
    ⟨ControlPlaneStateInitializer.computeDefaultActionConstraints "u" missTable.defaultAction⟩))

def pairAnalysis : DataPlaneAnalysis where
  annotations := forwardAnnotations
  tableKeyMatches := [("t", [.exact "t" "k" (.var (.dataPlane "h.k") (.bit 8))]),
    ("u", [.exact "u" "k" (.var (.dataPlane "h.l") (.bit 8))])]

/-- A message that forwards the key 1 in the second table. -/
def secondInsert : ControlPlaneUpdate :=
  .p4Runtime (some { missMessage 2 1 false with tableId := 2 }) .insert

/-- The node 1 depends on the action choice of the first table alone. -/
theorem covered_forwardAnnotations {symbolSet : SymbolSet} {before after : Z3ControlPlaneAssignmentSet}
    (choice : getTableActionChoice "t" ∈ symbolSet ∨
      before.find (getTableActionChoice "t") = after.find (getTableActionChoice "t")) :
    forwardAnnotations.reachability.Covered symbolSet before after ∧
      forwardAnnotations.substitution.Covered symbolSet before after := by
  constructor
  · rintro k e found ⟨x, mem, different⟩
    cases List.mem_singleton.mp (OrderedMap.find_eq_some.mp found)
    obtain rfl : x = getTableActionChoice "t" := List.mem_singleton.mp mem
    exact mem_targetNodes.mpr ⟨_, choice.resolve_right different, by decide⟩
  · intro k e found
    cases found

/-- The entry of the first table may be in the file or arrive as an update. -/
theorem initializeAnalysis_append_pair :
    let early := PartialEvaluation.initializeAnalysis pairP4Info pairAnalysis pairConstraints
      ([secondInsert] ++ [forwardInsert])
    let late := (PartialEvaluation.initializeAnalysis pairP4Info pairAnalysis pairConstraints
      [secondInsert]).bind (PartialEvaluation.processUpdates pairP4Info · [forwardInsert])
    early.isSome ∧ late.isSome ∧ ∀ s s', early = some s → late = some s' →
      s'.controlPlaneConstraints = s.controlPlaneConstraints ∧ s.SameVerdicts s' := by
  obtain ⟨-, same⟩ := PartialEvaluation.initializeAnalysis_append pairP4Info pairAnalysis
    pairConstraints [secondInsert] [forwardInsert]
  refine ⟨rfl, rfl, fun s s' early late => ?_⟩
  obtain ⟨constraints, verdicts⟩ := same s s' early late
  refine ⟨constraints, verdicts fun s₀ started => ⟨covered_forwardAnnotations (.inl ?_), trivial⟩⟩
  have known : s₀ = (PartialEvaluation.initializeAnalysis pairP4Info pairAnalysis pairConstraints
      [secondInsert]).get rfl := Option.some.inj (started.symm.trans (Option.some_get _).symm)
  subst known
  exact List.mem_cons_self

/-- The second insertion of the key in the second table is refused, before and after the insertion in
the first one. -/
theorem processEach_interleaved_pair :
    let s₀ := (PartialEvaluation.initializeAnalysis pairP4Info pairAnalysis pairConstraints []).get rfl
    let s := (s₀.processEach pairP4Info [secondInsert]).1
    (s.processEach pairP4Info [secondInsert, forwardInsert]).1.controlPlaneConstraints =
        (s.processEach pairP4Info [forwardInsert, secondInsert]).1.controlPlaneConstraints ∧
      (s.processEach pairP4Info [forwardInsert, secondInsert]).2.Perm
        (s.processEach pairP4Info [secondInsert, forwardInsert]).2 ∧
      (s.processEach pairP4Info [forwardInsert, secondInsert]).1.SameVerdicts
        (s.processEach pairP4Info [secondInsert, forwardInsert]).1 := by
  intro s₀ s
  have started : PartialEvaluation.initializeAnalysis pairP4Info pairAnalysis pairConstraints [] =
      some s₀ := (Option.some_get _).symm
  obtain ⟨constraints, accepted, verdicts⟩ := PartialEvaluation.processEach_interleaved pairP4Info
    (l := [forwardInsert]) (r := [secondInsert]) started [secondInsert]
    (by
      intro u hu v hv
      cases List.mem_singleton.mp hu
      cases List.mem_singleton.mp hv
      have apart : List.Disjoint ["t"] ["u"] := List.disjoint_singleton.mpr (by decide)
      exact apart)
    (.left (.right .nil)) (.right (.left .nil))
  refine ⟨constraints, accepted, verdicts ?_ ?_ ?_⟩
  · exact ⟨covered_forwardAnnotations (.inr rfl), trivial⟩
  · exact ⟨covered_forwardAnnotations (.inl List.mem_cons_self),
      covered_forwardAnnotations (.inr rfl), trivial⟩
  · exact ⟨covered_forwardAnnotations (.inr rfl),
      covered_forwardAnnotations (.inl List.mem_cons_self), trivial⟩

end Examples

end Flay
