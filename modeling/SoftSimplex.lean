import SoftSimplex.Json.Values
import SoftSimplex.Main
import SoftSimplex.Proofs.InsertedRow
import SoftSimplex.Proofs.ObjectiveWeights
import SoftSimplex.Proofs.PassBreakdowns
import SoftSimplex.Proofs.Refusal
import SoftSimplex.Proofs.RefusedOperations
import SoftSimplex.Proofs.RequiredRemoval
import SoftSimplex.Proofs.ToleratedRows
import SoftSimplex.Solver.Listing
import SoftSimplex.Proofs.BreakdownCauses
import SoftSimplex.Proofs.KeptRows
import SoftSimplex.Proofs.PivotRuns
import SoftSimplex.Proofs.RoundTrip
import SoftSimplex.Proofs.UntouchedRows
import SoftSimplex.Proofs.Locality
import SoftSimplex.Proofs.BookSteps
import SoftSimplex.Proofs.ReferenceCounts
import SoftSimplex.Proofs.StandingSymbols
import SoftSimplex.Proofs.AssignmentRepair
import SoftSimplex.Proofs.ConstraintShapes
import SoftSimplex.Proofs.StrongestFirst
import SoftSimplex.Proofs.AcceptedOperations
import SoftSimplex.Proofs.EvenColumns
import SoftSimplex.Proofs.ResizedColumns
import SoftSimplex.Proofs.PivotLimits
import SoftSimplex.Proofs.EditRegistry
import SoftSimplex.Proofs.RenamedRuns
import SoftSimplex.Proofs.PrimalTermination
import SoftSimplex.Proofs.DualPass
import SoftSimplex.Proofs.MarkerProjection
import SoftSimplex.Proofs.DirectInsertion
import SoftSimplex.Proofs.StoredCells
import SoftSimplex.Proofs.ChangeGenerations
import SoftSimplex.Proofs.FormulaMeaning
import SoftSimplex.Proofs.RowTolerance
import SoftSimplex.Proofs.PassPivots
import SoftSimplex.Proofs.CallerSymbols
