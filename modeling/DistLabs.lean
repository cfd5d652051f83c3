import DistLabs.Support.Run
import DistLabs.Consensus.Effects
import DistLabs.Raft.Ranges
import DistLabs.Raft.ApplyStream
import DistLabs.Raft.CommitScan
import DistLabs.Raft.AppendRange
import DistLabs.Raft.Idempotence
import DistLabs.Raft.FastBackup
import DistLabs.Kvsrv.Cache
import DistLabs.Kvsrv.Tested
import DistLabs.Kvsrv.Deployed
import DistLabs.Mr.Ownership
import DistLabs.Mr.Sequential
import DistLabs.Mr.LateCommit
import DistLabs.Mr.WordCount
