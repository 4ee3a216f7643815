import RaftStore.Consensus.Invariant
import RaftStore.Lib.Uvarint
import RaftStore.Raft.Configuration
import RaftStore.Raft.Log
import RaftStore.Raft.ConfChange
import RaftStore.Raft.Node
import RaftStore.Raft.Handlers
import RaftStore.Raft.Driver
import RaftStore.Raft.Effect
import RaftStore.Raft.Trace
import RaftStore.Raft.Process
import RaftStore.Raft.Backing
import RaftStore.Raft.Validity
import RaftStore.Raft.Simulation
import RaftStore.Raft.Cluster
import RaftStore.Raft.Refinement
import RaftStore.Raft.ConfLog
import RaftStore.Raft.Safety
import RaftStore.Raft.FixedMembership
import RaftStore.Raft.JointMembership
import RaftStore.Raft.ReadSafety
import RaftStore.Raft.Durability
import RaftStore.Raft.PreVote
import RaftStore.Raft.Serving
import RaftStore.Raft.ConfInForce
import RaftStore.Raft.SnapshotInstall
import RaftStore.Kvstore.Encoding
import RaftStore.Kvstore.Store
import RaftStore.Kvstore.Sessions
import RaftStore.Kvstore.Restore
import RaftStore.Kvstore.ExactlyOnce
import RaftStore.Lib.BigEndian
import RaftStore.Lib.Cursor
import RaftStore.Storage.Codec
import RaftStore.Storage.Bolt
import RaftStore.Storage.BoltRefinement
import RaftStore.Raft.MatchSoundness
import RaftStore.Raft.Faults
import RaftStore.Node.Loop
import RaftStore.Node.Process
import RaftStore.Node.Turn
import RaftStore.Node.Stopping
import RaftStore.Raft.Acknowledged
import RaftStore.Raft.Reign
import RaftStore.Node.Membership
import RaftStore.Node.Applying
import RaftStore.Node.Cadence
import RaftStore.Node.Accounts
import RaftStore.Raft.Quorums
import RaftStore.Kvstore.Retries
import RaftStore.Raft.Indexes
import RaftStore.Raft.Appending
import RaftStore.Raft.ConfRefresh
import RaftStore.Raft.Reliable
import RaftStore.Raft.NeverFails
import RaftStore.Raft.Backup
import RaftStore.Raft.Repair
import RaftStore.Lib.Tickets
import RaftStore.Raft.Office
import RaftStore.Transport.Convert
import RaftStore.Sim.Checker
import RaftStore.Sim.Committed
import RaftStore.Chaos.Check
import RaftStore.Lib.Linearizable
import RaftStore.Raft.StrawPoll
import RaftStore.Raft.PollAnswers
import RaftStore.Raft.Proposing
import RaftStore.Node.System
import RaftStore.Node.Replies
import RaftStore.Clock.Fake
import RaftStore.Kvstore.Allocation
import RaftStore.Kvstore.Eviction
import RaftStore.Clock.Advance
import RaftStore.Clock.Timers
import RaftStore.Lib.Heap
import RaftStore.Lib.EventLoop
import RaftStore.Sim.Queue
import RaftStore.Sim.Image
import RaftStore.Sim.Simulation
import RaftStore.Lib.Along
import RaftStore.Sim.Schedule
import RaftStore.Raft.Images
import RaftStore.Raft.Addressees
import RaftStore.Raft.Hosted
import RaftStore.Sim.Sound
import RaftStore.Sim.Safe
import RaftStore.Sim.NoFinding
import RaftStore.Sim.Run
import RaftStore.Node.Agreement
import RaftStore.Node.Attending
import RaftStore.Node.Serving
import RaftStore.Node.History
import RaftStore.Node.Linearizable
import RaftStore.Kvstore.Service
