import Flay.Lib.OrderedMap
import Flay.Ir.Expression
import Flay.Ir.Simplify
import Flay.Lib.SortedSet
import Flay.Ir.Z3
import Flay.Program.Semantics
import Flay.Specialization.ElimDeadCode
import Flay.Specialization.SwitchFilter
import Flay.ControlPlane.Assignment
import Flay.ControlPlane.Objects
import Flay.ControlPlane.Semantics
import Flay.ControlPlane.Initializer
import Flay.ControlPlane.Priority
import Flay.ControlPlane.Messages
import Flay.ControlPlane.Update
import Flay.ControlPlane.ActionArguments
import Flay.ControlPlane.Miss
import Flay.Lib.Recompute
import Flay.Specialization.SolverMap
import Flay.Specialization.PartialEvaluation
import Flay.Specialization.Service
import Flay.Specialization.AnalysisMap
import Flay.Specialization.FileOrder
import Flay.Interpreter.ExecutionState
import Flay.Interpreter.Simulation
import Flay.Interpreter.Reachability
import Flay.Interpreter.SwitchSimulation
import Flay.Interpreter.Control
import Flay.Interpreter.TableExecutor
import Flay.Interpreter.TableSimulation
import Flay.ControlPlane.Encodings
import Flay.ControlPlane.Fallback
import Flay.ControlPlane.EntryStore
import Flay.ControlPlane.ConstEntries
import Flay.ControlPlane.EntryMessages
import Flay.Interpreter.AnnotationRun
import Flay.Interpreter.StateRun
import Flay.Interpreter.InterpreterRun
import Flay.Lib.Acyclic
import Flay.Lib.Walks
import Flay.Program.Parser
import Flay.Program.ParserPaths
import Flay.Interpreter.ParserStepper
import Flay.Interpreter.ParserSimulation
import Flay.Interpreter.ParserTermination
import Flay.Interpreter.ParserNamespaces
import Flay.Interpreter.KeyResolution
import Flay.Interpreter.VariableNames
import Flay.Interpreter.KeyConstraints
import Flay.Specialization.FullRecomputation
import Flay.ControlPlane.Rejection
import Flay.ControlPlane.IdleUpdate
import Flay.Specialization.RejectedBatch
import Flay.ControlPlane.DefaultOverride
import Flay.Ir.DataPlaneVariables
import Flay.Ir.OverApproximation
import Flay.Specialization.DefaultReplacement
import Flay.Specialization.DroppedApplications
import Flay.Specialization.ReportedConstants
import Flay.Specialization.Preservation
import Flay.Program.Inline
import Flay.Interpreter.HeaderValidity
import Flay.Lib.Lockstep
import Flay.Interpreter.Draws
import Flay.Interpreter.Extract
import Flay.Interpreter.V1ModelExterns
import Flay.Lib.Interleaving
import Flay.ControlPlane.UpdateOrder
import Flay.ControlPlane.KeyMatchOrder
import Flay.Specialization.Initialization
import Flay.Interpreter.KeyOrder
import Flay.Soundness.CollectedRun
