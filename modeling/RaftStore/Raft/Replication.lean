import RaftStore.Raft.Node

/-! What a leader does: it sends entries and snapshots, commits what a quorum has acknowledged,
appends proposals and membership changes, and confirms reads. -/

namespace RaftStore.Raft

open Lib

def defaultMaxEntriesPerMessage : ℕ := 64
def defaultSnapshotRetryHeartbeats : ℕ := 10

namespace RawNode

/-! ### Sending -/

def sendSnapshot (r : RawNode) (dest : NodeID) : RawNode :=
  match r.peer dest with
  | none => r
  | some pr =>
    if pr.pendingSnapshot ≠ 0 then r
    else
      let snap := r.log.mem.snapshot
      if snap.isEmpty then r
      else
        (r.setPeer dest { pr with pendingSnapshot := snap.lastIncludedIndex, snapshotTicks := 0 }).send
          { type := .snapshotReq, dest, snapshot := some snap }

def maxEntriesPerMessage (r : RawNode) : ℕ :=
  if r.cfg.maxEntriesPerMessage > 0 then r.cfg.maxEntriesPerMessage
  else defaultMaxEntriesPerMessage

/-- The entries to send to a peer from `next` on. -/
def entriesFrom (r : RawNode) (next : ℕ) : Except Error (List LogEntry) :=
  let last := r.log.lastIndex
  if next ≤ last then r.log.entries next (min (last + 1) (next + r.maxEntriesPerMessage))
  else .ok []

def sendAppendWithRead (r : RawNode) (dest : NodeID) (readID : UInt64) : RawNode :=
  match r.peer dest with
  | none => r
  | some pr =>
    if pr.pendingSnapshot ≠ 0 then r
    else
      let prevIndex := pr.next - 1
      match r.log.term prevIndex with
      | .error _ => r.sendSnapshot dest
      | .ok prevTerm =>
        match r.entriesFrom pr.next with
        | .error _ => r
        | .ok entries =>
          r.send { type := .appendReq, dest, prevLogIndex := prevIndex, prevLogTerm := prevTerm,
                   entries, leaderCommit := r.log.committed, readID }

def sendAppend (r : RawNode) (dest : NodeID) : RawNode := r.sendAppendWithRead dest 0

def broadcastAppend (r : RawNode) : RawNode := (r.conf.peers r.id).foldl sendAppend r

/-- Counts a heartbeat against the snapshot that is on its way to a peer. -/
def expirePendingSnapshot (retryAfter : ℕ) (r : RawNode) (id : NodeID) : RawNode :=
  match r.peer id with
  | none => r
  | some pr =>
    if pr.pendingSnapshot = 0 then r
    else if pr.snapshotTicks + 1 ≥ retryAfter then
      r.setPeer id { pr with pendingSnapshot := 0, snapshotTicks := 0 }
    else r.setPeer id { pr with snapshotTicks := pr.snapshotTicks + 1 }

/-- Lets a snapshot be sent again when its reply has not come for long enough. -/
def expirePendingSnapshots (r : RawNode) : RawNode :=
  r.conf.members.foldl (expirePendingSnapshot
    (if r.cfg.snapshotRetryHeartbeats = 0 then defaultSnapshotRetryHeartbeats
      else r.cfg.snapshotRetryHeartbeats)) r

/-! ### Reads -/

def committedInCurrentTerm (r : RawNode) : Bool :=
  if r.log.committed = 0 then false
  else
    match r.log.term r.log.committed with
    | .error _ => false
    | .ok term => term = r.term

/-- The pending reads after a peer confirmed one of them, and the read that this completes. -/
def ackReadIn (conf : Configuration) (sender : NodeID) (readID : UInt64) :
    List ReadRequest → List ReadRequest × List ReadState
  | [] => ([], [])
  | req :: rest =>
    if req.id ≠ readID then
      let (pending, states) := ackReadIn conf sender readID rest
      (req :: pending, states)
    else
      let req := { req with acks := Function.update req.acks sender true }
      if conf.hasQuorum req.acks then (rest, [⟨req.id, req.index⟩]) else (req :: rest, [])

def ackRead (r : RawNode) (sender : NodeID) (readID : UInt64) : RawNode :=
  let (pending, states) := ackReadIn r.conf sender readID r.pendingReads
  { r with pendingReads := pending, readStates := r.readStates ++ states }

end RawNode

/-- Begins a linearizable read. -/
def readIndex (id : UInt64) : Core Unit := do
  let r ← get
  if r.state ≠ .leader then throw (.error Sentinel.notLeader.error)
  else if !r.committedInCurrentTerm then throw (.error Sentinel.readIndexUnavailable.error)
  else
    let req : ReadRequest := { id, index := r.log.committed, acks := fun n => n = r.id }
    if r.conf.hasQuorum req.acks then
      set { r with readStates := r.readStates ++ [ReadState.mk req.id req.index] }
    else
      let r := { r with pendingReads := r.pendingReads ++ [req] }
      set ((r.conf.peers r.id).foldl (fun r peer => r.sendAppendWithRead peer id) r)

/-! ### The commit rule, and appending

Committing may leave a joint configuration, which appends an entry, which may commit.  The three
functions are written with the next one as a parameter, and `propose` ties the knot: it unfolds
`n` times, and an entry that leaves a joint configuration is never followed by another. -/

/-- Advances the commit index as far as a quorum has matched, but only to an entry of the leader's
own term. -/
def maybeAdvanceCommitWith (maybeLeaveJoint : Core Unit) : Core Bool := do
  let r ← get
  if r.state ≠ .leader then pure false
  else
    let candidate := r.conf.committedIndex fun id => ((r.peer id).map Progress.matched).getD 0
    if candidate ≤ r.log.committed then pure false
    else
      match r.log.term candidate with
      | .error e => throw (.error (e.wrap s!"raft: term of commit candidate {candidate}"))
      | .ok term =>
        if term ≠ r.term then pure false
        else do
          onLog (RaftLog.commitTo candidate)
          persistHardState
          maybeLeaveJoint
          modify RawNode.stepDownIfRemoved
          pure true

/-- Appends the second half of a membership change once the first half is committed. -/
def maybeLeaveJointWith (propose : LogEntry → Core ℕ) : Core Unit := do
  let r ← get
  if r.state ≠ .leader || !r.conf.isJoint then pure ()
  else if r.confIndex > r.log.committed then pure ()
  else
    match r.conf.leaveJoint with
    | .error e => throw (.error (e.wrap "raft: leaving joint configuration"))
    | .ok cc =>
      tryCatch (do let _ ← propose { type := .confChange, command := cc.encode })
        fun
        | .error e => if e.is .notLeader then pure () else throw (.error e)
        | f => throw f

/-- Appends an entry of the leader's term to its log. -/
def appendOwn (e : LogEntry) : Core ℕ := do
  let r ← get
  let e := { e with term := r.term, index := r.log.lastIndex + 1 }
  onLog (RaftLog.append [e])
  (if e.type = .confChange then tryUpdate RawNode.refreshConfiguration else pure ())
  modify fun r =>
    match r.peer r.id with
    | none => r
    | some self => r.setPeer r.id { self with matched := e.index, next := e.index + 1 }
  pure e.index

def proposeWith (maybeAdvanceCommit : Core Bool) (e : LogEntry) : Core ℕ := do
  let r ← get
  if r.state ≠ .leader then throw (.error Sentinel.notLeader.error)
  else do
    let index ← appendOwn e
    let _ ← maybeAdvanceCommit
    modify RawNode.broadcastAppend
    pure index

def proposeN : ℕ → LogEntry → Core ℕ
  | 0, _ => throw .outOfFuel
  | n + 1, e => proposeWith (maybeAdvanceCommitWith (maybeLeaveJointWith (proposeN n))) e

def maybeLeaveJoint : Core Unit := maybeLeaveJointWith (proposeN 1)

def maybeAdvanceCommit : Core Bool := maybeAdvanceCommitWith maybeLeaveJoint

def propose (e : LogEntry) : Core ℕ := proposeWith maybeAdvanceCommit e

/-- Begins a membership change toward `target`. -/
def proposeConfChange (target : Configuration) : Core ℕ := do
  let r ← get
  if r.state ≠ .leader then throw (.error Sentinel.notLeader.error)
  else if r.conf.isJoint then throw (.error Sentinel.confChangeInProgress.error)
  else if r.confIndex > r.log.committed then throw (.error Sentinel.confChangeInProgress.error)
  else if !r.committedInCurrentTerm then throw (.error Sentinel.readIndexUnavailable.error)
  else
    match r.conf.enterJoint target with
    | .error e =>
      throw (.error ⟨Sentinel.confChangeInvalid.text ++ ": " ++ e.text, .confChangeInvalid :: e.wraps⟩)
    | .ok cc => propose { type := .confChange, command := cc.encode }

/-! ### Responses -/

namespace RawNode

/-- The leader's own last entry of a term, at or below an index. -/
def lastIndexOfTerm (r : RawNode) (term : ℕ) : ℕ → Option ℕ
  | 0 => none
  | i + 1 =>
    if i + 1 < r.log.firstIndex then none
    else
      match r.log.term (i + 1) with
      | .error _ => none
      | .ok t => if t = term then some (i + 1)
        else if t < term then none
        else r.lastIndexOfTerm term i

/-- Where to resume for a peer that refused an append. -/
def nextAfterRejection (r : RawNode) (pr : Progress) (m : Message) : ℕ :=
  if m.conflictTerm > 0 then
    match r.lastIndexOfTerm m.conflictTerm r.log.lastIndex with
    | some idx => idx + 1
    | none => m.conflictIndex
  else if m.conflictIndex > 0 then m.conflictIndex
  else pr.next - 1

/-- Backs up for a peer that refused and tries again, but never goes below what it confirmed. -/
def backUp (r : RawNode) (pr : Progress) (m : Message) : RawNode :=
  let next := max 1 (r.nextAfterRejection pr m)
  let next := if next ≤ pr.matched then pr.matched + 1 else next
  if next < pr.next then (r.setPeer m.sender { pr with next }).sendAppend m.sender else r

end RawNode

/-- What a successful append response and a successful snapshot response have in common: record
what the peer holds, commit if that decides it, and keep feeding the peer. -/
def recordMatch (pr : Progress) (m : Message) : Core Unit := do
  let r ← get
  if m.matchIndex > pr.matched then do
    set (r.setPeer m.sender { pr with matched := m.matchIndex, next := m.matchIndex + 1 })
    let advanced ← maybeAdvanceCommit
    modify fun r =>
      if advanced then r.broadcastAppend
      else if m.matchIndex + 1 ≤ r.log.lastIndex then r.sendAppend m.sender
      else r
  else set (if pr.next ≤ r.log.lastIndex then r.sendAppend m.sender else r)

def handleAppendResponse (m : Message) : Core Unit := do
  let r ← get
  if r.state ≠ .leader then
    throw (.error (Sentinel.ignoredMessage.error.wrap "raft: append response to non-leader"))
  else
    match r.peer m.sender with
    | none =>
      throw (.error (Sentinel.ignoredMessage.error.wrap
        s!"raft: append response from untracked peer {m.sender}"))
    | some pr => do
      let r := if m.readID ≠ 0 then r.ackRead m.sender m.readID else r
      set r
      if m.success then recordMatch pr m else set (r.backUp pr m)

def handleSnapshotResponse (m : Message) : Core Unit := do
  let r ← get
  if r.state ≠ .leader then
    throw (.error (Sentinel.ignoredMessage.error.wrap "raft: snapshot response to non-leader"))
  else
    match r.peer m.sender with
    | none =>
      throw (.error (Sentinel.ignoredMessage.error.wrap
        s!"raft: snapshot response from untracked peer {m.sender}"))
    | some pr => do
      let pr := { pr with pendingSnapshot := 0, snapshotTicks := 0 }
      set (r.setPeer m.sender pr)
      if !m.success then pure () else recordMatch pr m

end RaftStore.Raft
