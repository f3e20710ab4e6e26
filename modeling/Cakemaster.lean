import Cakemaster.Segment.AllocatorRuns
import Cakemaster.Segment.CatalogRuns
import Cakemaster.Segment.Ranking
import Cakemaster.Tenant.AdmissionRuns
import Cakemaster.Tenant.Distribution
import Cakemaster.Object.CommitReplay
import Cakemaster.Object.Controller
import Cakemaster.Object.EvictionCandidates
import Cakemaster.Object.EvictionSafety
import Cakemaster.Object.LeaseGrant
import Cakemaster.Object.PendingWrites
import Cakemaster.Object.Pruning
import Cakemaster.Object.ReadLinearizable
import Cakemaster.Object.SlotIndex
import Cakemaster.Object.VersionLife
import Cakemaster.Client.CleanupOwnership
import Cakemaster.Client.FencedCleanup
import Cakemaster.Client.GracefulRuns
import Cakemaster.Client.Publication
import Cakemaster.Client.QueueRuns
import Cakemaster.Client.SessionExpiry
import Cakemaster.Rpc.Delimited
import Cakemaster.Rpc.Delivery
import Cakemaster.Rpc.Multiplexing
import Cakemaster.Rpc.TypeLiteral
import Cakemaster.Codegen.SchemaLiterals
