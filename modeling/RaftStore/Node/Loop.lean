import RaftStore.Raft.Driver

/-! The process around a node: one loop that takes an event, hands it to the core, and flushes what
the core produced to the network, the state machine and the waiting clients.  The state machine is a
parameter.  What clients, the network and the state machine get to see is kept in lists, in the order
in which it happens; these lists, and the list of the core's states, are read by no function. -/

namespace RaftStore.Loop

open Lib Raft

def errStopped : Error := ⟨"node: stopped", []⟩

/-- Leadership changed before the proposal committed; it may still be applied. -/
def errProposalDropped : Error := ⟨"node: proposal dropped, leadership changed", []⟩

def errNotLeader : Error := Sentinel.notLeader.error

/-- A state machine that can be captured and rebuilt. -/
structure Snapshotter (σ : Type) where
  snapshot : σ → Except Error (List UInt8)
  restore : σ → List UInt8 → ℕ → Except Error σ

/-- The application that the log is replicated for, with states `σ` and responses `ρ`. -/
structure StateMachine (σ ρ : Type) where
  apply : σ → LogEntry → Except Error (ρ × σ)
  snapshotter : Option (Snapshotter σ) := none

/-! ### Settings -/

structure Config where
  id : NodeID
  peers : List NodeID := []
  bootstrap : List NodeID := []
  electionTick : ℕ := 0
  heartbeatTick : ℕ := 0
  preVote : Bool := false
  maxEntriesPerMessage : ℕ := 0
  maxApplyEntries : ℕ := 0
  snapshotThreshold : ℕ := 0
  snapshotCatchUpEntries : ℕ := 0
  rand : ℕ → ℕ := fun _ => 0

def Config.withDefaults (c : Config) : Except Error Config :=
  if c.id = None then .error ⟨"node: ID must not be zero", []⟩
  else
    .ok { c with
      electionTick := if c.electionTick = 0 then 10 else c.electionTick
      heartbeatTick := if c.heartbeatTick = 0 then 2 else c.heartbeatTick }

/-- The initial voters: those named, or else every peer and the node itself. -/
def Config.voters (c : Config) : List NodeID :=
  if c.bootstrap.length = 0 then if c.id ∈ c.peers then c.peers else c.peers ++ [c.id]
  else c.bootstrap

/-- The settings of the core. -/
def Config.core (c : Config) : Raft.Config where
  id := c.id
  electionTick := c.electionTick
  heartbeatTick := c.heartbeatTick
  preVote := c.preVote
  rand := c.rand
  bootstrap := .new c.voters
  maxApplyEntries := c.maxApplyEntries
  maxEntriesPerMessage := c.maxEntriesPerMessage
  snapshotThreshold := c.snapshotThreshold
  snapshotCatchUpEntries := c.snapshotCatchUpEntries

/-! ### The process -/

/-- A client write that the loop has taken; `ticket` stands for the channel of its reply. -/
structure Proposal where
  ticket : ℕ
  cmd : List UInt8

/-- A proposal that has been appended and waits to be applied.  The term is kept because an index
alone does not name an entry. -/
structure Awaiting where
  term : ℕ
  p : Proposal

/-- What a proposal is answered with: the index and the state machine's response, or an error. -/
abbrev ProposeResult (ρ : Type) := Except Error (ℕ × Option ρ)

/-- What a read is answered with: the index that it must observe, or an error. -/
abbrev ReadResult := Except Error ℕ

structure Status where
  id : NodeID
  state : State
  term : ℕ
  lead : NodeID
  commitIndex : ℕ
  appliedIndex : ℕ
  lastIndex : ℕ
  config : Configuration
  matched : List (NodeID × ℕ)

/-- A call on the state machine that returned no error, or the hand-over of a captured state to the
core while `applied` entries were applied. -/
inductive AppCall (ρ : Type)
  | apply (e : LogEntry) (response : ρ)
  | restore (data : List UInt8) (index : ℕ)
  | snapshot (data : List UInt8)
  | createSnapshot (applied : ℕ) (data : List UInt8)

structure Node (σ ρ : Type) where
  rn : RawNode
  app : σ
  pending : Std.ExtTreeMap ℕ Awaiting := ∅
  /-- The tickets of the waiting reads, by the id under which the core knows them. -/
  pendingReads : Std.ExtTreeMap UInt64 ℕ := ∅
  readSeq : UInt64 := 0
  lastState : State
  lastTerm : ℕ
  /-- The commands of the proposals taken so far; a proposal's ticket is its place here. -/
  proposed : List (List UInt8) := []
  /-- The number of reads taken so far. -/
  asked : ℕ := 0
  sent : List Message := []
  replies : List (ℕ × ProposeResult ρ) := []
  readReplies : List (ℕ × ReadResult) := []
  confReplies : List (Except Error ℕ) := []
  statuses : List Status := []
  calls : List (AppCall ρ) := []
  trace : List RawNode := []

/-- The programs of the loop.  An error ends the loop; a panic ends the process. -/
abbrev NodeM (σ ρ : Type) := EStateM Fail (Node σ ρ)

variable {σ ρ α : Type}

/-- A call on the core. -/
def onCore (x : Core α) : NodeM σ ρ α :=
  onPart Node.rn (fun rn n => { n with rn, trace := n.trace ++ [rn] }) x

namespace Node

def reply (n : Node σ ρ) (p : Proposal) (result : ProposeResult ρ) : Node σ ρ :=
  { n with replies := n.replies ++ [(p.ticket, result)] }

def replyRead (n : Node σ ρ) (ticket : ℕ) (result : ReadResult) : Node σ ρ :=
  { n with readReplies := n.readReplies ++ [(ticket, result)] }

def failPending (n : Node σ ρ) (err : Error) : Node σ ρ :=
  { n with
    pending := ∅
    replies := n.replies ++ n.pending.toList.map fun w => (w.2.p.ticket, .error err) }

def failReads (n : Node σ ρ) (err : Error) : Node σ ρ :=
  { n with
    pendingReads := ∅
    readReplies := n.readReplies ++ n.pendingReads.toList.map fun w => (w.2, .error err) }

/-- Answers whoever proposed the entry that is now applied. -/
def resolve (n : Node σ ρ) (e : LogEntry) (response : Option ρ) : Node σ ρ :=
  match n.pending[e.index]? with
  | none => n
  | some w =>
    let n := { n with pending := n.pending.erase e.index }
    if w.term ≠ e.term then n.reply w.p (.error errProposalDropped)
    else n.reply w.p (.ok (e.index, response))

/-- Answers a read that the core has confirmed. -/
def resolveRead (n : Node σ ρ) (state : ReadState) : Node σ ρ :=
  match n.pendingReads[state.id]? with
  | none => n
  | some ticket =>
    { n with pendingReads := n.pendingReads.erase state.id }.replyRead ticket (.ok state.index)

def statusLocked (n : Node σ ρ) : Status where
  id := n.rn.id
  state := n.rn.state
  term := n.rn.term
  lead := n.rn.lead
  commitIndex := n.rn.log.committed
  appliedIndex := n.rn.log.applied
  lastIndex := n.rn.log.lastIndex
  config := n.rn.conf
  matched :=
    if n.rn.state = .leader then
      n.rn.conf.members.filterMap fun id => (n.rn.peer id).map fun pr => (id, pr.matched)
    else []

/-- A node that has stopped leading cannot say what became of the proposals that it holds. -/
def noteRole (n : Node σ ρ) : Node σ ρ :=
  if n.rn.state ≠ n.lastState ∨ n.rn.term ≠ n.lastTerm then
    let n' := if n.lastState = .leader ∧ n.rn.state ≠ .leader then
        (n.failPending errProposalDropped).failReads errNotLeader else n
    { n' with lastState := n.rn.state, lastTerm := n.rn.term }
  else n

end Node

/-! ### Flushing -/

section Flush

variable (sm : StateMachine σ ρ)

def resolveReads : NodeM σ ρ Unit := do
  let states ← onCore readStates
  modify fun n => states.foldl Node.resolveRead n

/-- A snapshot that arrived replaces the state machine. -/
def restoreSnapshot : NodeM σ ρ Unit := do
  match ← onCore snapshotToApply with
  | none => pure ()
  | some snap =>
    match sm.snapshotter with
    | none => throw (.error ⟨s!"received a snapshot at index {snap.lastIncludedIndex} but the state machine cannot restore from one", []⟩)
    | some snapshotter => do
      let n ← get
      match snapshotter.restore n.app snap.data snap.lastIncludedIndex with
      | .error e =>
        throw (.error (e.wrap s!"restoring snapshot at index {snap.lastIncludedIndex}"))
      | .ok app =>
        let restored : Node σ ρ :=
          { n with app, calls := n.calls ++ [.restore snap.data snap.lastIncludedIndex] }
        set (restored.failPending errProposalDropped)

/-- Only normal entries carry something for the application. -/
def applyEntry (e : LogEntry) : NodeM σ ρ Unit := do
  let n ← get
  if e.type = .normal then
    match sm.apply n.app e with
    | .error err => throw (.error (err.wrap s!"applying index {e.index}"))
    | .ok (response, app) =>
      let applied : Node σ ρ := { n with app, calls := n.calls ++ [.apply e response] }
      set (applied.resolve e (some response))
  else set (n.resolve e none)

def applyEntries : List LogEntry → NodeM σ ρ Unit
  | [] => pure ()
  | e :: rest => do
    applyEntry sm e
    applyEntries rest

/-- Applies batch after batch; `fuel` bounds the number of batches. -/
def applyBatches : ℕ → NodeM σ ρ Unit
  | 0 => pure ()
  | fuel + 1 => do
    let n ← get
    if !n.rn.log.hasEntriesToApply then pure ()
    else
      match n.rn.log.entriesToApply n.rn.cfg.maxApplyEntries with
      | .error e => throw (.error (e.wrap "reading committed entries"))
      | .ok entries =>
        match entries.getLast? with
        | none => pure ()
        | some last => do
          applyEntries sm entries
          onCore (applyTo last.index)
          applyBatches fuel

/-- A batch is not empty, so there are no more batches than entries to apply. -/
def applyCommitted : NodeM σ ρ Unit := do
  let n ← get
  applyBatches sm (n.rn.log.committed - n.rn.log.applied)

/-- Folds the log into the state machine once it has grown enough. -/
def maybeSnapshot : NodeM σ ρ Unit := do
  let n ← get
  if !n.rn.shouldSnapshot then pure ()
  else
    match sm.snapshotter with
    | none => pure ()
    | some snapshotter =>
      match snapshotter.snapshot n.app with
      | .error e => throw (.error (e.wrap "capturing the state machine"))
      | .ok data => do
        let calls : List (AppCall ρ) := [.snapshot data, .createSnapshot n.rn.log.applied data]
        set { n with calls := n.calls ++ calls }
        tryCatch (do let _ ← onCore (createSnapshot data))
          fun
          | .error e =>
            if e.is .nothingToSnapshot || e.is .snapshotOutOfDate then pure ()
            else throw (.error (e.wrap "creating snapshot"))
          | f => throw f

def flush : NodeM σ ρ Unit := do
  let msgs ← onCore messages
  modify fun n => { n with sent := n.sent ++ msgs }
  resolveReads
  restoreSnapshot sm
  applyCommitted sm
  maybeSnapshot sm
  modify Node.noteRole

end Flush

/-! ### Events -/

/-- What the loop can receive. -/
inductive Event
  | stop
  /-- The transport has closed. -/
  | closed
  | tick
  | message (m : Message)
  | propose (cmd : List UInt8)
  | read
  | confChange (target : Configuration)
  | status

def handlePropose (cmd : List UInt8) : NodeM σ ρ Unit := do
  let n ← get
  let p : Proposal := ⟨n.proposed.length, cmd⟩
  set { n with proposed := n.proposed ++ [cmd] }
  tryCatch
    (do
      let index ← onCore (propose { type := .normal, command := cmd })
      modify fun n => { n with pending := n.pending.insert index ⟨n.rn.term, p⟩ })
    fun
    | .error e => modify fun n => n.reply p (.error e)
    | f => throw f

def handleRead : NodeM σ ρ Unit := do
  let n ← get
  let id := n.readSeq + 1
  set { n with readSeq := id, asked := n.asked + 1 }
  tryCatch
    (do
      onCore (readIndex id)
      modify fun n' => { n' with pendingReads := n'.pendingReads.insert id n.asked })
    fun
    | .error e => modify fun n' => n'.replyRead n.asked (.error e)
    | f => throw f

def handleConfChange (target : Configuration) : NodeM σ ρ Unit :=
  tryCatch
    (do
      let index ← onCore (proposeConfChange target)
      modify fun n => { n with confReplies := n.confReplies ++ [.ok index] })
    fun
    | .error e => modify fun n => { n with confReplies := n.confReplies ++ [.error e] }
    | f => throw f

def fatal (what : String) : Fail → Fail := Fail.wrap s!"node: failed during {what}"

/-- The program with its errors reported as fatal. -/
def during (what : String) (x : NodeM σ ρ α) : NodeM σ ρ α := mapFail (fatal what) x

/-- What the loop does with an event before it flushes. -/
def handle : Event → NodeM σ ρ Unit
  | .stop | .closed => throw (.error errStopped)
  | .tick => during "tick" (onCore tick)
  | .message m =>
    tryCatch (onCore (step m)) fun
      | .error e =>
        if e.is .ignoredMessage then pure ()
        else throw (fatal "step" (.error e))
      | f => throw f
  | .propose cmd => handlePropose cmd
  | .read => handleRead
  | .confChange target => handleConfChange target
  | .status => modify fun n => { n with statuses := n.statuses ++ [n.statusLocked] }

/-- One turn of the loop. -/
def turn (sm : StateMachine σ ρ) (e : Event) : NodeM σ ρ Unit := do
  handle e
  during "flush" (flush sm)

/-- How a turn ends: the loop goes on, the loop has ended and everyone who waited has been told, or
the process has died of a panic. -/
inductive Outcome (σ ρ : Type)
  | running (n : Node σ ρ)
  | exited (n : Node σ ρ)
  | panicked (n : Node σ ρ)

def Outcome.of : EStateM.Result Fail (Node σ ρ) Unit → Outcome σ ρ
  | .ok _ n => .running n
  | .error (.error e) n => .exited ((n.failPending e).failReads e)
  | .error _ n => .panicked n

def Outcome.node : Outcome σ ρ → Node σ ρ
  | .running n | .exited n | .panicked n => n

def Node.withFaults (n : Node σ ρ) (faults : List Bool) : Node σ ρ :=
  { n with rn := n.rn.withFaults faults }

/-- A turn in which the given storage writes fail. -/
def Node.run (sm : StateMachine σ ρ) (n : Node σ ρ) (e : Event) (faults : List Bool) : Outcome σ ρ :=
  .of (turn sm e (n.withFaults faults))

/-! ### Starting -/

/-- Rebuilds the state machine from the node's own snapshot. -/
def restoreFromDisk (sm : StateMachine σ ρ) (snap : Snapshot) (n : Node σ ρ) :
    Except Error (Node σ ρ) :=
  if snap.isEmpty then .ok n
  else
    match sm.snapshotter with
    | none => .error ⟨s!"node: storage holds a snapshot at index {snap.lastIncludedIndex} but the state machine cannot restore from one, so this node cannot recover its state", []⟩
    | some snapshotter =>
      match snapshotter.restore n.app snap.data snap.lastIncludedIndex with
      | .error e => .error (e.wrap s!"node: restoring snapshot at index {snap.lastIncludedIndex}")
      | .ok app =>
        .ok { n with app, calls := n.calls ++ [.restore snap.data snap.lastIncludedIndex] }

/-- Creates a node from its storage, with a state machine in the state `app`. -/
def start (sm : StateMachine σ ρ) (app : σ) (cfg : Config) (storage : MemoryStorage) :
    Except Error (Node σ ρ) :=
  match cfg.withDefaults with
  | .error e => .error e
  | .ok cfg =>
    match RawNode.new cfg.core { mem := storage } with
    | .error e => .error e
    | .ok rn =>
      restoreFromDisk sm storage.snapshot
        { rn, app, lastState := rn.state, lastTerm := rn.term, trace := [rn] }

end RaftStore.Loop
