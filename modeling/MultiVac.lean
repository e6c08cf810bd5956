import MultiVac.Consensus.Equivocation
import MultiVac.Consensus.Agreement
import MultiVac.Base.WriteSet
import MultiVac.Wire.Integers
import MultiVac.Merkle.Shape
import MultiVac.Contract.Vm
import MultiVac.Contract.Calls
import MultiVac.Contract.CallOrder
import MultiVac.Chain.Issuance
import MultiVac.Chain.Reduce
import MultiVac.Chain.Stored
import MultiVac.Chain.LockUp
import MultiVac.Chain.TxPool
import MultiVac.Consensus.Quorum
import MultiVac.Consensus.Crossing
import MultiVac.Consensus.Fallback
import MultiVac.Consensus.Early
import MultiVac.Heartbeat.Manager
import MultiVac.Sync.Completion
import MultiVac.Storage.Crash
import MultiVac.Storage.ChainHeight
import MultiVac.Controller.ShardManager
import MultiVac.Ledger.DepositCoherence
import MultiVac.Consensus.Gradecast
import MultiVac.Consensus.Binding
import MultiVac.Chain.Proposed
