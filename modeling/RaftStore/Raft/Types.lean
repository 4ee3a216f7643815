import Mathlib.Algebra.Ring.Nat
import Mathlib.Data.List.Sort

/-! The data of the consensus core: identities, log entries, durable state, snapshots, messages and
errors.  Terms, indexes and tick counts are natural numbers; node ids and read ids are 64-bit
words, because they are written to the log and compared but never computed with.  Where a number
comes from outside and the code counts on from it, `InRange` says that this does not wrap. -/

namespace RaftStore.Raft

abbrev NodeID := UInt64

/-- The number and the one after it are 64-bit words. -/
abbrev InRange (i : ℕ) : Prop := i + 1 < 2 ^ 64

/-- No node: no vote cast, no leader known. -/
def None : NodeID := 0

/-- The role a node is currently playing. -/
inductive State
  | follower
  | preCandidate
  | candidate
  | leader
  deriving DecidableEq, Repr

def State.string : State → String
  | .follower => "follower"
  | .preCandidate => "pre-candidate"
  | .candidate => "candidate"
  | .leader => "leader"

inductive EntryType
  | normal
  | noOp
  | confChange
  deriving DecidableEq, Repr

structure LogEntry where
  term : ℕ := 0
  index : ℕ := 0
  type : EntryType := .normal
  command : List UInt8 := []
  deriving DecidableEq, Repr

/-- The state that has to survive a crash besides the log and the snapshot. -/
structure HardState where
  term : ℕ := 0
  vote : NodeID := None
  commit : ℕ := 0
  deriving DecidableEq, Repr

/-- The members of the cluster.  `oldVoters` is empty unless a membership change is in flight. -/
structure Configuration where
  voters : List NodeID := []
  oldVoters : List NodeID := []
  learners : List NodeID := []
  deriving DecidableEq, Repr

/-- An image of the state machine that stands in for the log up to `lastIncludedIndex`. -/
structure Snapshot where
  lastIncludedIndex : ℕ := 0
  lastIncludedTerm : ℕ := 0
  config : Configuration := {}
  data : List UInt8 := []
  deriving DecidableEq, Repr

def Snapshot.isEmpty (s : Snapshot) : Bool := s.lastIncludedIndex = 0

inductive MessageType
  | voteReq
  | voteResp
  | appendReq
  | appendResp
  | snapshotReq
  | snapshotResp
  /-- A byte on the wire that names no message. -/
  | unknown (byte : UInt8)
  deriving DecidableEq, Repr

/-- Every request and response, in one record; fields that a type does not use are zero. -/
structure Message where
  type : MessageType
  sender : NodeID := None
  dest : NodeID := None
  term : ℕ := 0
  preVote : Bool := false
  lastLogIndex : ℕ := 0
  lastLogTerm : ℕ := 0
  granted : Bool := false
  prevLogIndex : ℕ := 0
  prevLogTerm : ℕ := 0
  entries : List LogEntry := []
  leaderCommit : ℕ := 0
  success : Bool := false
  matchIndex : ℕ := 0
  conflictIndex : ℕ := 0
  conflictTerm : ℕ := 0
  readID : UInt64 := 0
  snapshot : Option Snapshot := none
  deriving DecidableEq, Repr

/-- The errors that callers compare against. -/
inductive Sentinel
  | compacted
  | unavailable
  | snapshotOutOfDate
  | ignoredMessage
  | notLeader
  | safetyViolation
  | nothingToSnapshot
  | readIndexUnavailable
  | confChangeInProgress
  | confChangeInvalid
  | emptyConfiguration
  deriving DecidableEq, Repr

def Sentinel.text : Sentinel → String
  | .compacted => "raft: requested index is compacted"
  | .unavailable => "raft: requested index is unavailable"
  | .snapshotOutOfDate => "raft: snapshot is out of date"
  | .ignoredMessage => "raft: message ignored"
  | .notLeader => "raft: not the leader"
  | .safetyViolation => "raft: safety violation"
  | .nothingToSnapshot => "raft: nothing applied to snapshot"
  | .readIndexUnavailable => "raft: read index not yet available"
  | .confChangeInProgress => "raft: a configuration change is already in progress"
  | .confChangeInvalid => "raft: invalid configuration change"
  | .emptyConfiguration => "raft: configuration has no voters"

/-- A returned error: its text and the sentinels it wraps. -/
structure Error where
  text : String
  wraps : List Sentinel := []
  deriving DecidableEq, Repr

def Sentinel.error (e : Sentinel) : Error := ⟨e.text, [e]⟩

/-- The error with context put before its text. -/
def Error.wrap (context : String) (e : Error) : Error := ⟨context ++ ": " ++ e.text, e.wraps⟩

def Error.is (e : Error) (target : Sentinel) : Bool := target ∈ e.wraps

/-- How a call can end other than by returning a result.  `outOfFuel` stands for a recursion deeper
than the model unfolds. -/
inductive Fail
  | error (e : Error)
  | panic (text : String)
  | outOfFuel
  deriving DecidableEq, Repr

end RaftStore.Raft
