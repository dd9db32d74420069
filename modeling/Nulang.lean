import Nulang.Unification
import Nulang.OrcaSafe
import Nulang.OrcaMailboxes
import Nulang.ResourceGate
import Nulang.CanonicalType
import Nulang.Durable
import Nulang.OrcaCollection
import Nulang.Confinement
import Nulang.WorkflowTimers
import Nulang.WorkflowSignals
import Nulang.WorkflowTail
import Nulang.WorkflowSaga
import Nulang.WorkflowReplay
import Nulang.WalPrefix
import Nulang.DurableEffect
import Nulang.Supervisor
import Nulang.OneHost
import Nulang.GrainHistory
import Nulang.Migration
import Nulang.Relocation
import Nulang.Directory
import Nulang.Minting
import Nulang.Expiry
import Nulang.ShadowReplica
import Nulang.Shrink
import Nulang.Removal
