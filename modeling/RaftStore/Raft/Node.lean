import RaftStore.Raft.Log
import RaftStore.Raft.ConfChange
import Mathlib.Logic.Function.Basic

/-! The state of one node, how it sends and persists, how it changes role, and how it derives the
configuration in force from its log. -/

namespace RaftStore.Raft

open Lib

/-- A node's settings.  `rand k` is the `k`-th number that the source of randomness yields. -/
structure Config where
  id : NodeID
  electionTick : ℕ
  heartbeatTick : ℕ
  preVote : Bool := false
  rand : ℕ → ℕ := fun _ => 0
  bootstrap : Configuration := {}
  maxApplyEntries : ℕ := 0
  maxEntriesPerMessage : ℕ := 0
  snapshotThreshold : ℕ := 0
  snapshotCatchUpEntries : ℕ := 0
  snapshotRetryHeartbeats : ℕ := 0

def Config.validate (c : Config) : Except Error Unit :=
  if c.id = None then .error ⟨"raft: node ID must not be zero", []⟩
  else if c.electionTick = 0 then .error ⟨"raft: ElectionTick must be positive", []⟩
  else if c.heartbeatTick = 0 then .error ⟨"raft: HeartbeatTick must be positive", []⟩
  else if c.heartbeatTick ≥ c.electionTick then
    .error ⟨s!"raft: HeartbeatTick ({c.heartbeatTick}) must be less than ElectionTick ({c.electionTick}), or followers will time out on a healthy leader", []⟩
  else .ok ()

/-- The leader's view of a peer: what it has confirmed, where to send next, and the boundary of a
snapshot on its way to it. -/
structure Progress where
  matched : ℕ := 0
  next : ℕ := 0
  pendingSnapshot : ℕ := 0
  snapshotTicks : ℕ := 0
  deriving DecidableEq, Repr

/-- A confirmed read barrier. -/
structure ReadState where
  id : UInt64
  index : ℕ
  deriving DecidableEq, Repr

/-- A read barrier that waits for a quorum to confirm the leader. -/
structure ReadRequest where
  id : UInt64
  index : ℕ
  acks : NodeID → Bool

/-- One node.  `draws` counts the random numbers used so far.  `journal` is read by no function: it
keeps every message ever put in the outbox, with what was on disk at that moment. -/
structure RawNode where
  id : NodeID
  cfg : Config
  term : ℕ := 0
  vote : NodeID := None
  persisted : HardState := {}
  log : RaftLog := {}
  state : State := .follower
  lead : NodeID := None
  conf : Configuration := {}
  confIndex : ℕ := 0
  bootstrap : Configuration := {}
  votes : NodeID → Option Bool := fun _ => none
  progress : Option (NodeID → Option Progress) := none
  electionElapsed : ℕ := 0
  heartbeatElapsed : ℕ := 0
  randomizedElectionTimeout : ℕ := 0
  pendingReads : List ReadRequest := []
  readStates : List ReadState := []
  appliedSnapshot : Option Snapshot := none
  msgs : List Message := []
  draws : ℕ := 0
  journal : List (Message × MemoryStorage) := []

/-- The calls on a node.  A failed call leaves the state it failed in. -/
abbrev Core := EStateM Fail RawNode

def onLog {α : Type} (x : LogM α) : Core α := onPart RawNode.log (fun l r => { r with log := l }) x

def Fail.wrap (context : String) : Fail → Fail
  | .error e => .error (e.wrap context)
  | f => f

def wrapping {α : Type} (context : String) (x : Core α) : Core α := mapFail (Fail.wrap context) x

def HardState.string (hs : HardState) : String :=
  s!"\x7bterm={hs.term} vote={hs.vote} commit={hs.commit}\x7d"

namespace RawNode

/-- The leader's view of a peer, if it is tracked. -/
def peer (r : RawNode) (id : NodeID) : Option Progress := r.progress.bind (· id)

def setPeer (r : RawNode) (id : NodeID) (p : Progress) : RawNode :=
  { r with progress := r.progress.map fun prs => Function.update prs id (some p) }

/-- The message as it leaves the node. -/
def stamp (r : RawNode) (m : Message) : Message :=
  { m with sender := r.id, term := if m.term = 0 then r.term else m.term }

def send (r : RawNode) (m : Message) : RawNode :=
  { r with msgs := r.msgs ++ [r.stamp m], journal := r.journal ++ [(r.stamp m, r.log.mem)] }

def hardState (r : RawNode) : HardState := ⟨r.term, r.vote, r.log.committed⟩

def resetRandomizedElectionTimeout (r : RawNode) : RawNode :=
  { r with
    randomizedElectionTimeout := r.cfg.electionTick + r.cfg.rand r.draws % r.cfg.electionTick
    draws := r.draws + 1 }

def dropPendingReads (r : RawNode) : RawNode := { r with pendingReads := [], readStates := [] }

/-- Moves the node to a term and clears what belongs to the term before. -/
def reset (r : RawNode) (term : ℕ) : RawNode :=
  let r := if r.term ≠ term then { r with term, vote := None } else r
  let r := { r with lead := None, electionElapsed := 0, heartbeatElapsed := 0 }
  let r := r.resetRandomizedElectionTimeout
  let r := { r with votes := fun _ => none, progress := none }
  r.dropPendingReads

theorem reset_eq (r : RawNode) (term : ℕ) :
    r.reset term = { r with
      term, vote := if r.term = term then r.vote else None, lead := None
      electionElapsed := 0, heartbeatElapsed := 0
      randomizedElectionTimeout := r.cfg.electionTick + r.cfg.rand r.draws % r.cfg.electionTick
      draws := r.draws + 1, votes := fun _ => none, progress := none
      pendingReads := [], readStates := [] } := by
  by_cases h : r.term = term
  · subst h
    simp [reset, resetRandomizedElectionTimeout, dropPendingReads]
  · simp [reset, resetRandomizedElectionTimeout, dropPendingReads, h]

def becomeFollower (r : RawNode) (term : ℕ) (lead : NodeID) : RawNode :=
  { r.reset term with state := .follower, lead }

/-- The node in a straw poll: neither its term nor its vote changes. -/
def polling (r : RawNode) : RawNode :=
  { r with state := .preCandidate, votes := fun _ => none,
           lead := None }.resetRandomizedElectionTimeout

/-- The node as a candidate of the next term. -/
def standing (r : RawNode) : RawNode :=
  { r.reset (r.term + 1) with state := .candidate, vote := r.id }

/-- The node as it takes over the leadership of its term, with every member tracked. -/
def leading (r : RawNode) : RawNode :=
  { r.reset r.term with
    state := .leader
    lead := r.id
    progress := some fun id =>
      if id ∈ r.conf.members then
        some { next := r.log.lastIndex + 1, matched := if id = r.id then r.log.lastIndex else 0 }
      else none }

def promotable (r : RawNode) : Bool := r.conf.isVoter r.id

end RawNode

/-- Writes term, vote and commit index if any of them changed. -/
def persistHardState : Core Unit := do
  let r ← get
  if r.hardState = r.persisted then pure ()
  else do
    wrapping s!"raft: persisting hard state {r.hardState.string}"
      (onLog (RaftLog.onDisk (Disk.write (·.setHardState r.hardState))))
    modify fun r' => { r' with persisted := r.hardState }

def becomePreCandidate : Core Unit := do
  let r ← get
  if r.state = .leader then throw (.panic "raft: leader cannot become pre-candidate")
  else set r.polling

def becomeCandidate : Core Unit := do
  let r ← get
  if r.state = .leader then throw (.panic "raft: leader cannot become candidate")
  else set r.standing

/-! ### The configuration in force -/

/-- The configuration of the last configuration entry at or below an index, with its index. -/
def RaftLog.lastConfEntry (l : RaftLog) : ℕ → Except Error (Option (Configuration × ℕ))
  | 0 => .ok none
  | i + 1 =>
    if i + 1 < l.firstIndex then .ok none
    else
      match l.mem.getEntry (i + 1) with
      | .error _ => .ok none
      | .ok entry =>
        if entry.type ≠ .confChange then l.lastConfEntry i
        else
          match ConfChange.decode entry.command with
          | .error e => .error (e.wrap s!"raft: decoding configuration at index {i + 1}")
          | .ok cc => .ok (some (cc.config, i + 1))

namespace RawNode

/-- Adds tracking for new members and drops it for departed ones, but never for a leader itself. -/
def refreshProgress (r : RawNode) : RawNode :=
  match r.progress with
  | none => r
  | some prs =>
    let members := r.conf.members
    let fresh := fun id =>
      { next := r.log.lastIndex + 1,
        matched := if id = r.id then r.log.lastIndex else 0 : Progress }
    { r with
      progress := some fun id =>
        if id ∈ members then some ((prs id).getD (fresh id))
        else if id = r.id ∧ r.state = .leader then prs id
        else none }

def setConfiguration (r : RawNode) (conf : Configuration) (index : ℕ) : RawNode :=
  if r.conf = conf ∧ r.confIndex = index then r
  else
    let r := { r with conf, confIndex := index }
    if r.state = .leader then r.refreshProgress else r

/-- Recomputes the configuration from the log: the last configuration entry, or else the snapshot's
configuration, or else the one the node was started with. -/
def refreshConfiguration (r : RawNode) : Except Error RawNode :=
  match r.log.lastConfEntry r.log.lastIndex with
  | .error e => .error e
  | .ok (some (conf, i)) => .ok (r.setConfiguration conf i)
  | .ok none =>
    let snap := r.log.mem.snapshot
    if !snap.config.isEmpty then .ok (r.setConfiguration snap.config snap.lastIncludedIndex)
    else .ok (r.setConfiguration r.bootstrap 0)

/-- Whether an append of these entries can have changed the configuration. -/
def confChanged (r : RawNode) (entries : List LogEntry) : Bool :=
  r.confIndex > r.log.lastIndex ||
    entries.any fun e => e.type = .confChange || (r.confIndex > 0 && e.index ≤ r.confIndex)

/-- A leader that no longer votes stops leading, once the change that removed it is committed. -/
def stepDownIfRemoved (r : RawNode) : RawNode :=
  if r.state ≠ .leader || r.conf.isJoint || r.conf.isVoter r.id then r
  else if r.confIndex > r.log.committed then r
  else r.becomeFollower r.term None

end RawNode

/-- Runs a computation of the next state that may fail, and then leaves the state as it is. -/
def tryUpdate (f : RawNode → Except Error RawNode) : Core Unit := do
  let r ← get
  match f r with
  | .error e => throw (.error e)
  | .ok r' => set r'

def refreshConfigurationIfNeeded (entries : List LogEntry) : Core Unit := do
  let r ← get
  if !r.confChanged entries then pure () else tryUpdate RawNode.refreshConfiguration

namespace RawNode

/-- Creates a node, recovering what the storage holds. -/
def new (cfg : Config) (storage : Disk) : Except Error RawNode :=
  match cfg.validate with
  | .error e => .error e
  | .ok () =>
    let hs := storage.mem.hardState
    let snap := storage.mem.snapshot
    let r : RawNode :=
      { id := cfg.id, cfg, term := hs.term, vote := hs.vote, persisted := hs,
        log := RaftLog.new storage, bootstrap := cfg.bootstrap, conf := cfg.bootstrap }
    let r := if !snap.config.isEmpty then
        { r with conf := snap.config, confIndex := snap.lastIncludedIndex } else r
    match r.refreshConfiguration with
    | .error e => .error e
    | .ok r => .ok (r.becomeFollower r.term None)

end RawNode

end RaftStore.Raft
