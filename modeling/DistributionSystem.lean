import DistributionSystem.Checker.Positions
import DistributionSystem.KV.Checked
import DistributionSystem.KV.Linear
import DistributionSystem.KV.Notify
import DistributionSystem.KV.Restore
import DistributionSystem.KV.Shutdown
import DistributionSystem.MapReduce.Distributed
import DistributionSystem.MapReduce.InvertedIndex
import DistributionSystem.Raft.Bookkeeping
import DistributionSystem.Raft.Compaction
import DistributionSystem.Raft.LeaderTerm
import DistributionSystem.Raft.Leadership
import DistributionSystem.Raft.LogTerms
import DistributionSystem.Raft.Progress
import DistributionSystem.Raft.TermWrap
import DistributionSystem.Rpc.Outcome
