import RaftStore.Raft.Replication

/-! What a node does with requests and with the clock: elections, appends, snapshots, and the calls
by which a driver runs it. -/

namespace RaftStore.Raft

open Lib

/-! ### Elections -/

/-- Takes over as leader: tracks every member, appends an empty entry of the new term, and tells
everyone. -/
def becomeLeader : Core Unit := do
  let r ← get
  if r.state = .follower then
    throw (.panic "raft: follower cannot become leader without campaigning")
  else do
    let noop : LogEntry := { term := r.term, index := r.log.lastIndex + 1, type := .noOp }
    set r.leading
    wrapping "raft: appending no-op on election" (onLog (RaftLog.append [noop]))
    let r ← get
    (match r.peer r.id with
      | none =>
        throw (.panic "runtime error: invalid memory address or nil pointer dereference")
      | some self =>
        set (r.setPeer r.id { self with matched := noop.index, next := noop.index + 1 }))
    let _ ← maybeAdvanceCommit
    persistHardState
    modify RawNode.broadcastAppend

/-- The first answer of a peer counts. -/
def RawNode.recordVote (r : RawNode) (sender : NodeID) (granted : Bool) : RawNode :=
  match r.votes sender with
  | some _ => r
  | none => { r with votes := Function.update r.votes sender (some granted) }

/-- Acts on a campaign that is decided, and reports whether it is.  A straw poll that succeeds is
followed by `campaign`, the real election. -/
def tallyVotesWith (campaign : Core Unit) : Core Bool := do
  let r ← get
  if r.conf.hasQuorum fun id => r.votes id = some true then
    if r.state = .preCandidate then do
      campaign
      pure true
    else do
      becomeLeader
      pure true
  else if r.conf.quorumImpossible fun id => r.votes id = some false then do
    set (r.becomeFollower r.term None)
    pure true
  else pure false

/-- The requests of a campaign for a term. -/
def RawNode.requestVotes (r : RawNode) (campaignTerm : ℕ) (preVote : Bool) (lastTerm : ℕ) :
    RawNode :=
  (r.conf.peers r.id).foldl (fun r' peer =>
    if !r.conf.isVoter peer then r'
    else
      r'.send { type := .voteReq, dest := peer, term := campaignTerm, preVote,
                lastLogIndex := r.log.lastIndex, lastLogTerm := lastTerm }) r

def campaignWith (campaign : Core Unit) (preVote : Bool) : Core Unit := do
  let r ← get
  if !r.promotable then pure ()
  else do
    (if preVote then becomePreCandidate
      else do
        becomeCandidate
        persistHardState)
    let r ← get
    let campaignTerm := if preVote then r.term + 1 else r.term
    set (r.recordVote r.id true)
    let done ← tallyVotesWith campaign
    if done then pure ()
    else do
      let lastTerm ← reads fun r => r.log.lastTerm
      modify fun r => r.requestVotes campaignTerm preVote lastTerm

/-- A campaign nests at most once: a straw poll, then the election. -/
def campaignN : ℕ → Bool → Core Unit
  | 0, _ => throw .outOfFuel
  | n + 1, preVote => campaignWith (campaignN n false) preVote

def campaign (preVote : Bool) : Core Unit := campaignN 2 preVote

def tallyVotes : Core Bool := tallyVotesWith (campaignN 1 false)

/-- Everything that decides a vote except the comparison of logs. -/
def RawNode.canVote (r : RawNode) (m : Message) : Bool :=
  if m.preVote then
    if m.term ≤ r.term then false
    else r.lead = None || r.electionElapsed ≥ r.randomizedElectionTimeout
  else if r.vote = m.sender then true
  else if r.vote = None && r.lead = None then true
  else false

/-- Records a vote that is granted, and answers. -/
def answerVote (r : RawNode) (m : Message) (granted : Bool) : Core Unit := do
  (if granted && !m.preVote then do
      set { r with vote := m.sender, electionElapsed := 0 }
      persistHardState
    else pure ())
  modify fun r =>
    r.send { type := .voteResp, dest := m.sender,
             term := if m.preVote && granted then m.term else r.term,
             preVote := m.preVote, granted }

def handleVoteRequest (m : Message) : Core Unit := do
  let r ← get
  let granted ← (if r.canVote m then reads fun r => r.log.isUpToDate m.lastLogIndex m.lastLogTerm
    else pure false)
  answerVote r m granted

def handleVoteResponse (m : Message) : Core Unit := do
  let r ← get
  if m.preVote && r.state ≠ .preCandidate then
    throw (.error (Sentinel.ignoredMessage.error.wrap
      s!"raft: pre-vote response in state {r.state.string}"))
  else if !m.preVote && r.state ≠ .candidate then
    throw (.error (Sentinel.ignoredMessage.error.wrap
      s!"raft: vote response in state {r.state.string}"))
  else do
    set (r.recordVote m.sender m.granted)
    let _ ← tallyVotes

/-! ### Appends and snapshots -/

/-- A request from the leader of the term ends a campaign and names the leader. -/
def RawNode.hear (r : RawNode) (m : Message) : RawNode :=
  let r := { r with electionElapsed := 0 }
  let r := if r.state ≠ .follower then r.becomeFollower m.term m.sender else r
  { r with lead := m.sender }

def handleAppendRequest (m : Message) : Core Unit := do
  modify fun r => r.hear m
  let r ← get
  if m.prevLogIndex < r.log.committed then
    set (r.send { type := .appendResp, dest := m.sender, success := true,
                  matchIndex := r.log.committed, readID := m.readID })
  else do
    let lastNew ← onLog (RaftLog.maybeAppend m.prevLogIndex m.prevLogTerm m.leaderCommit m.entries)
    match lastNew with
    | none =>
      modify fun r =>
        let hint := r.log.conflictHint m.prevLogIndex
        r.send { type := .appendResp, dest := m.sender, success := false,
                 conflictIndex := hint.1, conflictTerm := hint.2, readID := m.readID }
    | some lastNew => do
      refreshConfigurationIfNeeded m.entries
      persistHardState
      modify fun r => r.send { type := .appendResp, dest := m.sender, success := true,
                               matchIndex := lastNew, readID := m.readID }

/-- The response to a snapshot that the log already covers. -/
def RawNode.sendCovered (r : RawNode) (dest : NodeID) : RawNode :=
  r.send { type := .snapshotResp, dest, success := true, matchIndex := r.log.committed }

/-- Installs a snapshot; `false` when the storage has a later one. -/
def installSnapshot (m : Message) (snap : Snapshot) : Core Bool :=
  tryCatch
    (do
      onLog (RaftLog.restore snap)
      pure true)
    fun
    | .error e =>
      if e.is .snapshotOutOfDate then do
        modify fun r => r.sendCovered m.sender
        pure false
      else throw (.error (e.wrap s!"raft: restoring snapshot at {snap.lastIncludedIndex}"))
    | f => throw f

def handleSnapshotRequest (m : Message) : Core Unit := do
  modify fun r => r.hear m
  match m.snapshot with
  | none =>
    throw (.error (Sentinel.ignoredMessage.error.wrap
      s!"raft: snapshot message from {m.sender} carries none"))
  | some snap => do
    let r ← get
    if snap.lastIncludedIndex ≤ r.log.committed then set (r.sendCovered m.sender)
    else do
      let installed ← installSnapshot m snap
      if !installed then pure ()
      else do
        modify fun r =>
          if !snap.config.isEmpty then r.setConfiguration snap.config snap.lastIncludedIndex else r
        modify fun r => { r with appliedSnapshot := some snap }
        persistHardState
        modify fun r => r.send { type := .snapshotResp, dest := m.sender, success := true,
                                 matchIndex := snap.lastIncludedIndex }

def RawNode.shouldSnapshot (r : RawNode) : Bool :=
  if r.cfg.snapshotThreshold = 0 || r.log.applied = 0 then false
  else if r.log.applied < r.log.firstIndex then false
  else r.log.applied - r.log.firstIndex + 1 ≥ r.cfg.snapshotThreshold

/-- Folds everything applied so far into a snapshot and compacts the log behind it. -/
def createSnapshot (data : List UInt8) : Core Snapshot := do
  let r ← get
  let applied := r.log.applied
  if applied = 0 then throw (.error Sentinel.nothingToSnapshot.error)
  else
    match r.log.term applied with
    | .error e => throw (.error (e.wrap s!"raft: term at applied index {applied}"))
    | .ok term => do
      let snap : Snapshot := { lastIncludedIndex := applied, lastIncludedTerm := term,
                               config := r.conf, data }
      mapFail (fun
          | .error e => if e.is .snapshotOutOfDate then .error e
            else .error (e.wrap s!"raft: saving snapshot at {applied}")
          | f => f)
        (onLog (RaftLog.onDisk (Disk.write (·.saveSnapshot snap))))
      let keep := r.cfg.snapshotCatchUpEntries
      if keep > 0 ∧ applied ≤ keep then pure snap
      else do
        let compactTo := if keep > 0 then applied - keep else applied
        let r ← get
        if compactTo ≤ r.log.firstIndex - 1 then pure snap
        else do
          wrapping s!"raft: compacting to {compactTo}" (onLog (RaftLog.compact compactTo))
          pure snap

/-! ### The clock -/

def tickElection : Core Unit := do
  modify fun r => { r with electionElapsed := r.electionElapsed + 1 }
  let r ← get
  if !r.promotable || r.electionElapsed < r.randomizedElectionTimeout then pure ()
  else do
    set { r with electionElapsed := 0 }
    campaign r.cfg.preVote

/-- Sends another confirmation round for every read that still waits. -/
def RawNode.resendReads (r : RawNode) : RawNode :=
  r.pendingReads.foldl (fun r req =>
    (r.conf.peers r.id).foldl (fun r peer => r.sendAppendWithRead peer req.id) r) r

def tickHeartbeat : Core Unit := do
  modify fun r => { r with heartbeatElapsed := r.heartbeatElapsed + 1
                           electionElapsed := r.electionElapsed + 1 }
  let r ← get
  if r.heartbeatElapsed < r.cfg.heartbeatTick then pure ()
  else
    set ({ r with heartbeatElapsed := 0 : RawNode }).expirePendingSnapshots.broadcastAppend.resendReads

def tick : Core Unit := do
  let r ← get
  if r.state = .leader then tickHeartbeat else tickElection

/-! ### Messages -/

/-- A message of a later term: the node adopts the term, except for pre-votes. -/
def stepHigherTerm (m : Message) : Core Unit := do
  let r ← get
  if m.type = .voteReq ∧ m.preVote then pure ()
  else if m.type = .voteResp ∧ m.preVote ∧ m.granted then pure ()
  else do
    set (r.becomeFollower m.term
      (if m.type = .appendReq ∨ m.type = .snapshotReq then m.sender else None))
    persistHardState

/-- A message of an earlier term: a leader or a candidate is told the current one. -/
def stepLowerTerm (m : Message) : Core Unit := do
  let r ← get
  set (match m.type with
    | .appendReq | .snapshotReq => r.send { type := .appendResp, dest := m.sender, success := false }
    | .voteReq =>
      r.send { type := .voteResp, dest := m.sender, granted := false, preVote := m.preVote }
    | _ => r)
  throw (.error (Sentinel.ignoredMessage.error.wrap
    s!"raft: term {m.term} below current {r.term}"))

def dispatch (m : Message) : Core Unit :=
  match m.type with
  | .voteReq => handleVoteRequest m
  | .voteResp => handleVoteResponse m
  | .appendReq => handleAppendRequest m
  | .appendResp => handleAppendResponse m
  | .snapshotReq => handleSnapshotRequest m
  | .snapshotResp => handleSnapshotResponse m
  | .unknown byte =>
    throw (.error (Sentinel.ignoredMessage.error.wrap
      s!"raft: unhandled message type unknown-message({byte})"))

def step (m : Message) : Core Unit := do
  let r ← get
  if m.dest ≠ r.id && m.dest ≠ None then
    throw (.error (Sentinel.ignoredMessage.error.wrap
      s!"raft: message addressed to {m.dest} delivered to {r.id}"))
  else if m.term > r.term then do
    stepHigherTerm m
    dispatch m
  else if m.term < r.term then stepLowerTerm m
  else dispatch m

end RaftStore.Raft
