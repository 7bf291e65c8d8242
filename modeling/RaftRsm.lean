import RaftRsm.Process.Interleave
import RaftRsm.Replication.Election
import RaftRsm.Replication.LogMatching
import RaftRsm.Replication.Completeness
import RaftRsm.Raft.Core
import RaftRsm.Raft.Cluster
import RaftRsm.Raft.Reading
import RaftRsm.Raft.Commit
import RaftRsm.Raft.Leading
import RaftRsm.Raft.Electing
import RaftRsm.Raft.Following
import RaftRsm.Raft.Refinement
import RaftRsm.Raft.Safety
import RaftRsm.Raft.Answers
import RaftRsm.Raft.Repair
import RaftRsm.Linear.History
import RaftRsm.Linear.Sessions
import RaftRsm.Rpc.Wire
import RaftRsm.StateMachine.KvStore
import RaftRsm.Raft.Origins
import RaftRsm.Client.Service
import RaftRsm.Raft.AppliedLog
import RaftRsm.Client.Nodes
import RaftRsm.Client.Linearizability
import RaftRsm.Client.KvClient
import RaftRsm.Client.Correlation
import RaftRsm.Selection.FirstLeast
import RaftRsm.StateMachine.OrderBook
import RaftRsm.StateMachine.PriceTime
import RaftRsm.StateMachine.BookView
import RaftRsm.Linear.Accepted
import RaftRsm.StateMachine.BookRuns
import RaftRsm.StateMachine.ExactlyOnce
import RaftRsm.StateMachine.ReferenceMatcher
import RaftRsm.StateMachine.ReferenceView
import RaftRsm.StateMachine.GoldenModel
import RaftRsm.Journal.Scan
import RaftRsm.Storage.Crc32c
import RaftRsm.Storage.DurableLog
import RaftRsm.Storage.Recovery
import RaftRsm.Rpc.Codec
import RaftRsm.Rpc.CodecLaws
import RaftRsm.Raft.Proposing
import RaftRsm.Transport.Outbound
import RaftRsm.Rpc.PooledDecoding
import RaftRsm.Transport.IoLoop
import RaftRsm.Storage.Replay
import RaftRsm.Raft.Batching
import RaftRsm.StateMachine.Matching
import RaftRsm.StateMachine.TimePriority
import RaftRsm.StateMachine.Restoring
import RaftRsm.Faults.KeySearch
import RaftRsm.Faults.Checker
import RaftRsm.Raft.HandOff
import RaftRsm.Client.GroupCommit
import RaftRsm.Client.Answering
import RaftRsm.Faults.Monitors
import RaftRsm.StateMachine.Grammar
import RaftRsm.StateMachine.ObResults
import RaftRsm.StateMachine.Accepting
import RaftRsm.Journal.Replace
import RaftRsm.Storage.DurableState
import RaftRsm.Raft.Splicing
import RaftRsm.Raft.Calls
import RaftRsm.Raft.Timers
import RaftRsm.Raft.Exactness
import RaftRsm.Buckets.LogLinear
import RaftRsm.Metrics.Histogram
import RaftRsm.Buckets.Ranked
import RaftRsm.Metrics.Quantiles
import RaftRsm.Checksum.ShiftRegister
import RaftRsm.Storage.BurstErrors
import RaftRsm.Process.Threads
import RaftRsm.Runtime.SpscRing
import RaftRsm.Runtime.MpscRing
import RaftRsm.Runtime.WakeGate
import RaftRsm.Faults.Delivery
import RaftRsm.Faults.Findings
import RaftRsm.Faults.Schedule
