import Blut.GraphCore.Registration
import Blut.GraphCore.LoweringContracts
import Blut.GraphCore.Propagation
import Blut.GraphCore.Materialize
import Blut.GraphCore.IdentityInjective
import Blut.Framework.Conditional
import Blut.Raft.Indices
import Blut.Raft.Authorisation
import Blut.Raft.Reconciliation
import Blut.Cloud.Exclusivity
import Blut.Framework.Lowering
import Blut.Framework.Restriction
import Blut.Framework.FusedChains
import Blut.Framework.LogicalHash
import Blut.Framework.Lifecycle
import Blut.Semantic.Preservation
import Blut.P2p.Budget
import Blut.P2p.Payload
import Blut.Registry.Promotion
import Blut.Lineage.Export
import Blut.Sensor.ExactlyOnce
import Blut.Config.Overrides
import Blut.Scheduler.Lock
import Blut.Raft.Records
import Blut.Hpo.Grid
import Blut.Jobs.Timestamp
