import Flay.Soundness.Specialization
import Flay.Specialization.FullRecomputation

/-! The service from end to end: whatever batches of updates it takes, the program that it keeps specialized
does to a packet of the current configuration what the original program does. -/

namespace Flay

open Container TableExecutor

theorem Interpretation.find_reachabilityConditions {i : Interpretation} {node : Node}
    {cond : Expr .boolean} (content : i.content (.node node) = some ⟨.boolean, cond⟩) :
    (i.state.nodeAnnotationMap.reachabilityConditions i.objects).find node = some cond := by
  obtain ⟨m, mapped, value⟩ := Option.bind_eq_some_iff.mp content
  obtain ⟨address, known, rfl⟩ := Option.map_eq_some_iff.mp mapped
  obtain ⟨object, stored, same⟩ := Option.map_eq_some_iff.mp value
  obtain rfl : object = cond := eq_of_heq (Sigma.mk.inj same).2
  have found : i.state.nodeAnnotationMap.reachabilityMap.find node = some address := known
  rw [NodeAnnotationMap.reachabilityConditions, OrderedMap.find_mapValues, found, Option.map_some,
    List.getD_eq_getElem?_getD, stored, Option.getD_some]

theorem Interpretation.find_originalExpressions {i : Interpretation} {e : ExpressionNode}
    {value : Expr e.type} (content : i.content (.expression e) = some ⟨e.type, value⟩) :
    i.state.nodeAnnotationMap.originalExpressions.find e = some value := by
  obtain ⟨m, mapped, same⟩ := Option.bind_eq_some_iff.mp content
  obtain ⟨recorded, known, rfl⟩ := Option.map_eq_some_iff.mp mapped
  obtain rfl : recorded = value := eq_of_heq (Sigma.mk.inj (Option.some.inj same)).2
  rw [NodeAnnotationMap.originalExpressions, OrderedMap.find_mapValues]
  exact known

section Service

variable [Z3]

/-- A verdict that is up to date is the value of the annotation, for every packet of the configuration. -/
theorem Z3SolverMap.Tracks.eval_of_verdict [Z3.Lawful] {κ : Type} [DecidableEq κ] {type : κ → Ty}
    {m : Z3SolverMap type} {annotations : Annotations type}
    {assignmentSet : Z3ControlPlaneAssignmentSet} (tracks : m.Tracks annotations)
    (upToDate : m.UpToDate assignmentSet) {k : κ} {c : (type k).Val} (known : m.verdict k = some c)
    {value : Expr (type k)} (annotated : annotations.expressions.find k = some value) {ρ : Valuation}
    (configured : assignmentSet.Configured ρ) : value.eval ρ = c := by
  rw [upToDate.verdict] at known
  obtain ⟨e, found, verdict⟩ := Option.bind_eq_some_iff.mp known
  obtain ⟨value', annotated', original⟩ := tracks.original k e found
  obtain rfl := Option.some.inj (annotated.symm.trans annotated')
  rw [original] at verdict
  exact Flay.eval_of_verdict verdict configured

variable [IrOrder]

/-- The annotations are what an interpretation has recorded. -/
structure ProgramAnnotations.Records (annotations : ProgramAnnotations) (i : Interpretation) :
    Prop where
  reachability : annotations.reachability.expressions =
    i.state.nodeAnnotationMap.reachabilityConditions i.objects
  substitution : annotations.substitution.expressions = i.state.nodeAnnotationMap.originalExpressions

namespace FlayService

variable {annotations : ProgramAnnotations} {program : ControlStatement} {p4Info : P4Info}
  {s : FlayService}

/-- The verdicts and the constants of an analysis. -/
def verdicts (s : FlayService) : Verdicts := ⟨s.analysis.isNodeReachable, s.analysis.isExpressionConstant⟩

/-- The record of the interpretation confirms the verdicts of a service that is current, for every packet of
the configuration. -/
theorem Current.confirms [Z3.Lawful] (h : s.Current annotations program) {i : Interpretation}
    (records : annotations.Records i) {ρ : Valuation}
    (configured : s.analysis.controlPlaneConstraints.assignmentSet.Configured ρ) :
    i.Confirms ρ s.verdicts where
  reachability node cond content verdict known := by
    refine h.tracks.reachability.eval_of_verdict h.upToDate.reachability known ?_ configured
    rw [records.reachability]
    exact Interpretation.find_reachabilityConditions content
  constants e value c content known := by
    refine h.tracks.substitution.eval_of_verdict h.upToDate.substitution known ?_ configured
    rw [records.substitution]
    exact Interpretation.find_originalExpressions content

/-- A service that is current keeps a program that leaves every packet of the configuration as the
original program leaves it, where the passes do no harm. -/
theorem Current.alike [Z3.Lawful] (h : s.Current annotations program) {symbolicValue? : SymbolicValue}
    {i i' : Interpretation} (start : ∀ site, i.state.mapping site = none)
    (distinct : (program.visited P4Table.actionSites).Nodup)
    (analyzable : program.Analyzable (fun site => site ∈ program.visited P4Table.actionSites)
      i.state.env.keys)
    (interpreted : FlayStepper.statement (handlers symbolicValue?) program i = some i')
    (records : annotations.Records i') {ρ : Valuation} {w : World}
    (configured : s.analysis.controlPlaneConstraints.assignmentSet.Configured ρ)
    (activates : Activates ρ) (holds : i.state.Holds ρ)
    (values : ∀ x ∈ i.state.env.keys, i.state.value ρ x = some (w.env x))
    (spared : program.Spared ρ i.state.env.keys s.analysis.isNodeReachable w) :
    (s.optimizedProgram.exec (behavior ρ).handlers w).Alike i.state.env.keys
      (program.exec (behavior ρ).handlers w) := by
  obtain ⟨i'', ran, explained⟩ := statement_explains_of_start symbolicValue? activates start distinct
    analyzable (List.Subset.refl _)
  obtain rfl : i' = i'' := Option.some.inj (interpreted.symm.trans ran)
  have truthful : program.Truthful ρ s.verdicts w :=
    (explained w holds values).2 s.verdicts (h.confirms records configured)
  have kept : s.optimizedProgram =
      flaySpecializer s.verdicts.reachability s.verdicts.constants program := by
    rw [h.optimized, specialized, h.original]
    rfl
  rw [kept]
  exact statement_specialized activates program analyzable (.refl w) truthful spared

end FlayService

end Service

section Examples

attribute [local instance] exprSolver exprSolver.lawful exprSolver.local IrOrder.literals

/-- A control that stores the key where the table has an entry for it. -/
def missControl : ControlStatement :=
  .ifStatement 5 (.hit 6 missTable)
    (.assignment (t := .bit 8) "egress_port" (.path 7 "h.k" (.bit 8))) none

/-- The state of a packet ahead of the control. -/
def missState : Interpretation where
  state :=
    { env := portEnv
      executionCondition := none
      nodeAnnotationMap := .empty }
  objects := []
  tableKeyMatches := []

def missRecord : Interpretation :=
  (FlayStepper.statement (handlers literalValue) missControl missState).get rfl

def missAnnotations : ProgramAnnotations where
  reachability :=
    .create (missRecord.state.nodeAnnotationMap.reachabilityConditions missRecord.objects)
  substitution := .create missRecord.state.nodeAnnotationMap.originalExpressions

end Examples

end Flay
