import Flay.Specialization.PartialEvaluation
import Flay.Specialization.Specializer

/-! `FlayServiceBase` with its analysis: batches of updates, the program that it keeps specialized,
and the errors that the process has reported. -/

namespace Flay

open Container

section Service

variable [Z3] [IrOrder]

/-- The service. `errorCount` is the counter of the process. -/
structure FlayService where
  analysis : PartialEvaluation
  originalProgram : ControlStatement
  optimizedProgram : ControlStatement
  useSymbolSet : Bool
  errorCount : Nat
  updateCount : Nat
  respecializationCount : Nat

/-- The loop of `processControlPlaneUpdate` over a batch, up to the first update that is rejected. -/
def convertControlPlaneUpdates (p4Info : P4Info) :
    List ControlPlaneUpdate → ControlPlaneConstraints → SymbolSet → Updated ControlPlaneConstraints
  | [], constraints, symbolSet => ⟨constraints, some symbolSet⟩
  | update :: updates, constraints, symbolSet =>
    match convertControlPlaneUpdate p4Info constraints update with
    | ⟨constraints, none⟩ => ⟨constraints, none⟩
    | ⟨constraints, some used⟩ =>
      convertControlPlaneUpdates p4Info updates constraints (symbolSet ++ used)

namespace FlayService

/-- `PartialEvaluation::specializeProgram`, which returns nothing once an error has been reported. -/
def specializeProgram (s : FlayService) : Option ControlStatement :=
  if s.errorCount > 0 then none
  else
    some (flaySpecializer s.analysis.isNodeReachable s.analysis.isExpressionConstant
      s.originalProgram)

/-- The service with the program specialized anew, and whether that is a success. -/
def respecialize (s : FlayService) : FlayService × Bool :=
  match s.specializeProgram with
  | none => (s, false)
  | some optimizedProgram =>
    ({ s with optimizedProgram, respecializationCount := s.respecializationCount + 1 }, true)

/-- The constraints that a batch leaves, with the symbols it has used if it is accepted. -/
def convert (p4Info : P4Info) (s : FlayService) (batch : List ControlPlaneUpdate) :
    Updated ControlPlaneConstraints :=
  convertControlPlaneUpdates p4Info batch s.analysis.controlPlaneConstraints []

/-- `IncrementalAnalysis::processControlPlaneUpdate` of a batch up to the specialization: the
analysis, and whether the program is to be specialized. Without symbol sets it always is. Nothing
is told where an error is reported. -/
def analyze (p4Info : P4Info) (s : FlayService) (batch : List ControlPlaneUpdate) :
    PartialEvaluation × Option Bool :=
  let converted := s.convert p4Info batch
  let analysis := { s.analysis with controlPlaneConstraints := converted.state }
  match converted.symbolSet with
  | none => (analysis, none)
  | some symbolSet =>
    if s.useSymbolSet then
      match analysis.checkSymbolsForSemanticsChange symbolSet with
      | none => (analysis, none)
      | some (analysis, changeNeeded) => (analysis, some changeNeeded)
    else (analysis, some true)

/-- `processControlPlaneUpdate` of a batch, with whether it is a success. -/
def processControlPlaneUpdate (p4Info : P4Info) (s : FlayService)
    (batch : List ControlPlaneUpdate) : FlayService × Bool :=
  let s' : FlayService :=
    { s with
      analysis := (s.analyze p4Info batch).1
      updateCount := s.updateCount + batch.length }
  match (s.analyze p4Info batch).2 with
  | none => ({ s' with errorCount := s.errorCount + 1 }, false)
  | some changeNeeded => if changeNeeded then s'.respecialize else (s', true)

/-- The batches in turn, with the result of each. -/
def run (p4Info : P4Info) (s : FlayService) :
    List (List ControlPlaneUpdate) → FlayService × List Bool
  | [] => (s, [])
  | batch :: later =>
    let rest := run p4Info (s.processControlPlaneUpdate p4Info batch).1 later
    (rest.1, (s.processControlPlaneUpdate p4Info batch).2 :: rest.2)

end FlayService

end Service

end Flay
