import Projector.Session
import Projector.Proofs.ReachableOutlines
import Projector.Proofs.ReachableProjections
import Projector.Proofs.ReachableOrders
import Projector.Proofs.ReachableCompressions
import Projector.Proofs.Relocations
import Projector.Proofs.ReachableSessions
import Projector.Proofs.Requests
import Projector.Proofs.KeptPrograms
import Projector.Proofs.ReachableEngines
import Projector.Proofs.EngineFaults
import Projector.Proofs.PrintedOutputs
import Projector.Proofs.Folders
import Projector.Proofs.LoadedDocuments
import Projector.Proofs.Reachability
import Projector.Proofs.ReachableReorders
import Projector.Proofs.ReachableMoves
import Projector.Proofs.ReturnedMoves
import Projector.Proofs.ReachableRows
import Projector.Proofs.ListHomes
import Projector.Proofs.ReachableMarks
import Projector.Proofs.ReachableIterations
import Projector.Proofs.Fallbacks
import Projector.Proofs.NestedSelections
import Projector.Proofs.ToggledSets
import Projector.Proofs.Schemas
import Projector.Proofs.Layouts
import Projector.Proofs.Contractions
import Projector.Proofs.ReachableDisplays
import Projector.Proofs.Confinement
import Projector.Proofs.WrittenDocuments
