import RaftStore.Lib.EventLoop
import RaftStore.Raft.Driver
import RaftStore.Sim.Checker
import RaftStore.Sim.Image
import RaftStore.Sim.Queue
import Mathlib.Algebra.Order.Ring.Rat

/-! The simulator: a cluster whose clocks, network, crashes and clients are driven by one queue of
events and one source of random numbers.  Rates are rational numbers, and times are numbers of 64 bits:
an event is scheduled at what the machine makes of the sum of the time and a delay. -/

namespace RaftStore.Sim

open Lib Raft

/-! ### Settings -/

/-- How hostile the simulated world is. -/
structure Faults where
  dropRate : ℚ := 0
  duplicateRate : ℚ := 0
  minLatency : ℤ := 0
  maxLatency : ℤ := 0
  reorderRate : ℚ := 0
  reorderMax : ℤ := 0
  partitionRate : ℚ := 0
  partitionMin : ℤ := 0
  partitionMax : ℤ := 0
  crashRate : ℚ := 0
  restartMin : ℤ := 0
  restartMax : ℤ := 0
  diskLossRate : ℚ := 0
  membershipRate : ℚ := 0
  faultInterval : ℤ := 0

def defaultFaults : Faults where
  dropRate := 2 / 100
  duplicateRate := 2 / 100
  minLatency := 1
  maxLatency := 30
  reorderRate := 2 / 100
  reorderMax := 200
  partitionRate := 15 / 100
  partitionMin := 200
  partitionMax := 2000
  crashRate := 15 / 100
  restartMin := 100
  restartMax := 3000
  membershipRate := 5 / 100
  faultInterval := 250

/-- `rng k` is the `k`-th number that the source seeded with `seed` yields. -/
structure Config where
  seed : ℤ := 0
  rng : ℕ → ℕ := fun _ => 0
  nodes : ℤ := 0
  duration : ℤ := 0
  tickInterval : ℤ := 0
  electionTick : ℕ := 0
  heartbeatTick : ℕ := 0
  preVote : Bool := false
  writeInterval : ℤ := 0
  snapshotThreshold : ℕ := 0
  snapshotCatchUpEntries : ℕ := 0
  faults : Faults := {}

def defaultConfig (seed : ℤ) (rng : ℕ → ℕ) : Config where
  seed
  rng
  nodes := 5
  duration := 30000
  tickInterval := 10
  electionTick := 10
  heartbeatTick := 2
  preVote := true
  writeInterval := 20
  snapshotThreshold := 50
  snapshotCatchUpEntries := 10
  faults := defaultFaults

def Config.withDefaults (c : Config) : Config :=
  { c with
    nodes := if c.nodes = 0 then 5 else c.nodes
    duration := if c.duration = 0 then 30000 else c.duration
    tickInterval := if c.tickInterval = 0 then 10 else c.tickInterval
    electionTick := if c.electionTick = 0 then 10 else c.electionTick
    heartbeatTick := if c.heartbeatTick = 0 then 2 else c.heartbeatTick
    snapshotThreshold := if c.snapshotThreshold = 0 then 50 else c.snapshotThreshold
    faults := { c.faults with
      faultInterval := if c.faults.faultInterval = 0 then 250 else c.faults.faultInterval
      maxLatency := if c.faults.maxLatency = 0 then c.faults.minLatency else c.faults.maxLatency } }

/-! ### The state -/

/-- Two groups of nodes that cannot exchange messages. -/
structure Partition where
  sideB : NodeID → Bool
  expires : ℤ

def blocks (part : Option Partition) (sender dest : NodeID) : Bool :=
  match part with
  | none => false
  | some p => p.sideB sender != p.sideB dest

/-- What the checker does not look at: `applied` is the state machine, and `restoredFrom` the boundary
of the last snapshot installed. -/
structure Member where
  crashes : ℕ := 0
  restarts : ℕ := 0
  restoredFrom : ℕ := 0
  applied : List LogEntry := []

structure Stats where
  sent : ℕ := 0
  dropped : ℕ := 0
  duplicated : ℕ := 0
  partitions : ℕ := 0
  snapshots : ℕ := 0
  snapshotsSent : ℕ := 0
  membershipChanges : ℕ := 0

/-- `draws` counts the random numbers used. -/
structure Simulation extends Simulator where
  cfg : Config
  draws : ℕ := 0
  queue : EventQueue := {}
  members : NodeID → Member := fun _ => {}
  conf : Configuration := {}
  part : Option Partition := none
  checker : Checker := {}
  writeSeq : ℕ := 0
  stats : Stats := {}

/-- How a run can end early: with an error or a panic, or where a number no longer fits into the 64
bits that the code has for it. -/
inductive Halt
  | fail (f : Fail)
  | overflow

abbrev SimM := EStateM Halt Simulation

namespace Simulation

def count (s : Simulation) (f : Stats → Stats) : Simulation := { s with stats := f s.stats }

def setMember (s : Simulation) (id : NodeID) (f : Member → Member) : Simulation :=
  { s with members := Function.update s.members id (f (s.members id)) }

def setNode (s : Simulation) (id : NodeID) (f : Node → Node) : Simulation :=
  { s with nodes := Function.update s.nodes id (f (s.nodes id)) }

/-- The process of a node after it has drawn from the source; its storage is the node's. -/
def put (s : Simulation) (id : NodeID) (r : RawNode) : Simulation :=
  { s.setNode id fun n => { n with rn := some r, storage := r.log.mem } with
    draws := s.draws + r.draws }

/-- The process with the simulator's source, from the present draw on.  Its storage does not fail. -/
def lend (s : Simulation) (r : RawNode) : RawNode :=
  { r with
    cfg := { r.cfg with rand := fun k => s.cfg.rng (s.draws + k) }
    draws := 0
    log := { r.log with storage := { r.log.storage with faults := [] } } }

def raftConfig (s : Simulation) (id : NodeID) : Raft.Config where
  id
  electionTick := s.cfg.electionTick
  heartbeatTick := s.cfg.heartbeatTick
  preVote := s.cfg.preVote
  rand := fun k => s.cfg.rng (s.draws + k)
  bootstrap := s.conf
  snapshotThreshold := s.cfg.snapshotThreshold
  snapshotCatchUpEntries := s.cfg.snapshotCatchUpEntries

def liveNodes (s : Simulation) : ℕ := s.ids.countP fun id => !(s.nodes id).crashed

def quorum (s : Simulation) : ℕ := s.ids.length / 2 + 1

/-- The first node that believes it leads. -/
def leader (s : Simulation) : Option NodeID :=
  s.ids.find? fun id => (s.nodes id).rn.any fun r => r.state = .leader

end Simulation

open Simulation

/-- A sum or a difference of times as the machine computes it: it wraps at 64 bits. -/
def int64 (x : ℤ) : ℤ := x.bmod (2 ^ 64)

/-! ### Random numbers -/

def draw : SimM ℕ := do
  let s ← get
  set { s with draws := s.draws + 1 }
  pure (s.cfg.rng s.draws)

/-- A number below `n`. -/
def intn (n : ℤ) : SimM ℤ := do
  if n ≤ 0 then throw (.fail (.panic "invalid argument to Intn"))
  else do
    let x ← draw
    pure (x % n)

/-- Whether a number in [0, 1) is below the rate. -/
def chance (rate : ℚ) : SimM Bool := do
  let x ← draw
  pure ((x % 9007199254740992 : ℕ) / 9007199254740992 < rate)

/-- A number in [0, n]; nothing is drawn unless `n` is positive. -/
def randRange (n : ℤ) : SimM ℤ := do
  if n ≤ 0 then pure 0 else intn (n + 1)

/-! ### The network -/

def schedule (time : ℤ) (kind : EventKind) : SimM Unit :=
  modify fun s => { s with queue := s.queue.schedule (int64 time) kind }

def latency : SimM ℤ := do
  let s ← get
  let f := s.cfg.faults
  let x ← randRange (int64 (f.maxLatency - f.minLatency))
  let d := f.minLatency + x
  if f.reorderRate > 0 then do
    if ← chance f.reorderRate then do
      let extra ← randRange f.reorderMax
      pure (d + extra)
    else pure d
  else pure d

/-- Decides what the network does to a message. -/
def route (m : Message) : SimM Unit := do
  modify fun s => s.count fun st => { st with sent := st.sent + 1 }
  let s ← get
  if blocks s.part m.sender m.dest then
    modify fun s => s.count fun st => { st with dropped := st.dropped + 1 }
  else do
    if ← chance s.cfg.faults.dropRate then
      modify fun s => s.count fun st => { st with dropped := st.dropped + 1 }
    else do
      let delay ← latency
      schedule (s.now + delay) (.deliver m)
      if ← chance s.cfg.faults.duplicateRate then do
        let extra ← latency
        schedule (s.now + delay + extra) (.deliver m)
        modify fun s => s.count fun st => { st with duplicated := st.duplicated + 1 }
      else pure ()

def routeAll : List Message → SimM Unit
  | [] => pure ()
  | m :: rest => do
    (if m.type = .snapshotReq then
      modify fun s => s.count fun st => { st with snapshotsSent := st.snapshotsSent + 1 }
    else pure ())
    route m
    routeAll rest

/-! ### Nodes -/

/-- A call on a process. -/
def call {α : Type} (id : NodeID) (r : RawNode) (x : Core α) : SimM (Except Error α) := do
  let s ← get
  match x (s.lend r) with
  | .ok a r' => do
    set (s.put id r')
    pure (.ok a)
  | .error (.error e) r' => do
    set (s.put id r')
    pure (.error e)
  | .error f r' => do
    set (s.put id r')
    throw (.fail f)

/-- The node with an id.  An id that no node has gives a nil pointer. -/
def lookup (id : NodeID) : SimM Node := do
  let s ← get
  if id ∈ s.ids then pure (s.nodes id)
  else throw (.fail (.panic "runtime error: invalid memory address or nil pointer dereference"))

/-- Installs the image of a snapshot as the state machine. -/
def restore (id : NodeID) (snap : Snapshot) (context : String) : SimM Unit := do
  match decodeStateMachine snap.data with
  | .error e => throw (.fail (.error ⟨s!"sim: node {id} restoring {context}snapshot at {snap.lastIncludedIndex}: {e}", []⟩))
  | .ok applied =>
    modify fun s => s.setMember id fun m =>
      { m with applied, restoredFrom := snap.lastIncludedIndex }

/-- Builds a process over what is in the storage. -/
def start (id : NodeID) : SimM Unit := do
  let s ← get
  let n := s.nodes id
  match RawNode.new (s.raftConfig id) { mem := n.storage } with
  | .error e => throw (.fail (.error (e.wrap s!"sim: starting node {id}")))
  | .ok r => do
    set (s.put id r)
    if n.storage.snapshot.isEmpty then pure ()
    else restore id n.storage.snapshot "its "

def restoreSnapshot (id : NodeID) : SimM Unit := do
  let s ← get
  match (s.nodes id).rn with
  | none => pure ()
  | some r => do
    match ← call id r snapshotToApply with
    | .ok (some snap) => restore id snap ""
    | _ => pure ()

/-- Feeds committed entries to the state machine, batch after batch; `fuel` bounds the number of
batches. -/
def drainBatches (id : NodeID) : ℕ → SimM Unit
  | 0 => pure ()
  | fuel + 1 => do
    let s ← get
    match (s.nodes id).rn with
    | none => pure ()
    | some r =>
      if !r.log.hasEntriesToApply then pure ()
      else
        match r.committedEntries with
        | .error e => throw (.fail (.error (e.wrap s!"sim: node {id} reading committed entries")))
        | .ok entries =>
          match entries.getLast? with
          | none => pure ()
          | some last => do
            modify fun s => s.setMember id fun m => { m with applied := m.applied ++ entries }
            let _ ← call id r (applyTo last.index)
            drainBatches id fuel

/-- A batch is not empty, so there are no more batches than entries to apply. -/
def drainApplied (id : NodeID) : SimM Unit := do
  let s ← get
  match (s.nodes id).rn with
  | none => pure ()
  | some r => drainBatches id (r.log.committed - r.log.applied)

/-- Compacts a node's log once it has grown past the threshold. -/
def maybeSnapshot (id : NodeID) : SimM Unit := do
  let s ← get
  match (s.nodes id).rn with
  | none => pure ()
  | some r =>
    if !r.shouldSnapshot then pure ()
    else do
      let applied := (s.members id).applied
      if ¬ Fits applied then throw .overflow
      else do
        match ← call id r (createSnapshot (stateMachineImage applied)) with
        | .error e =>
          if e.is .nothingToSnapshot || e.is .snapshotOutOfDate then pure ()
          else throw (.fail (.error (e.wrap s!"sim: node {id} creating snapshot")))
        | .ok _ => modify fun s => s.count fun st => { st with snapshots := st.snapshots + 1 }

/-- Takes what a node has produced: messages, a snapshot, committed entries. -/
def after (id : NodeID) : SimM Unit := do
  let s ← get
  match (s.nodes id).rn with
  | none => pure ()
  | some r => do
    match ← call id r messages with
    | .ok msgs => do
      routeAll msgs
      restoreSnapshot id
      drainApplied id
      maybeSnapshot id
    | .error e => throw (.fail (.error e))

/-! ### Events -/

def applyTick (id : NodeID) : SimM Unit := do
  let n ← lookup id
  let s ← get
  schedule (s.now + s.cfg.tickInterval) (.tick id)
  match n.rn with
  | none => pure ()
  | some r => do
    match ← call id r tick with
    | .error e => throw (.fail (.error (e.wrap s!"sim: tick on node {id}")))
    | .ok _ => after id

def messageText : MessageType → String
  | .voteReq => "vote-req"
  | .voteResp => "vote-resp"
  | .appendReq => "append-req"
  | .appendResp => "append-resp"
  | .snapshotReq => "snapshot-req"
  | .snapshotResp => "snapshot-resp"
  | .unknown byte => s!"unknown-message({byte})"

def applyDeliver (m : Message) : SimM Unit := do
  let n ← lookup m.dest
  match n.rn with
  | none => pure ()
  | some r => do
    match ← call m.dest r (step m) with
    | .error e =>
      if e.is .ignoredMessage then pure ()
      else throw (.fail (.error (e.wrap s!"sim: step {messageText m.type} on node {m.dest}")))
    | .ok _ => after m.dest

/-- Stops a process, unless that would leave fewer than a quorum. -/
def applyCrash (id : NodeID) : SimM Unit := do
  let n ← lookup id
  let s ← get
  if n.crashed then pure ()
  else if s.liveNodes - 1 < s.quorum then pure ()
  else do
    set ((s.setNode id fun n => { n with rn := none }).setMember id fun m =>
      { m with applied := [], crashes := m.crashes + 1 })
    let x ← randRange (int64 (s.cfg.faults.restartMax - s.cfg.faults.restartMin))
    let lose ← chance s.cfg.faults.diskLossRate
    schedule (s.now + (s.cfg.faults.restartMin + x)) (.restart id lose)

def applyRestart (id : NodeID) (loseDisk : Bool) : SimM Unit := do
  let n ← lookup id
  if !n.crashed then pure ()
  else do
    (if loseDisk then
      modify fun s => (s.setNode id fun n => { n with storage := {} }).setMember id fun m =>
        { m with applied := [] }
    else pure ())
    start id
    modify fun s => (s.setNode id fun n => { n with restartedSinceCheck := true }).setMember id fun m =>
      { m with restarts := m.restarts + 1 }
    after id

def applyHeal : SimM Unit := modify fun s => { s with part := none }

/-- Puts each node on a side of its own choosing. -/
def chooseSides : List NodeID → SimM (NodeID → Bool)
  | [] => pure fun _ => false
  | id :: ids => do
    let x ← intn 2
    let sideB ← chooseSides ids
    pure (if x = 0 then Function.update sideB id true else sideB)

def startPartition : SimM Unit := do
  let s ← get
  let sideB ← chooseSides s.ids
  let count := s.ids.countP fun id => sideB id
  if count = 0 ∨ count = s.ids.length then pure ()
  else do
    let x ← randRange (int64 (s.cfg.faults.partitionMax - s.cfg.faults.partitionMin))
    let dur := s.cfg.faults.partitionMin + x
    modify fun s => { s with part := some { sideB, expires := int64 (s.now + dur) } }.count fun st =>
      { st with partitions := st.partitions + 1 }
    schedule (s.now + dur) .heal

/-- The voters that the next change of membership aims at, if there is one. -/
def chooseVoters (voters : List NodeID) : SimM (Option (List NodeID)) := do
  let s ← get
  let shrink ← (if voters.length > s.ids.length / 2 + 1 then do
      let x ← intn 2
      pure (decide (x = 0))
    else pure false)
  if shrink then do
    let k ← intn voters.length
    let victim := voters.getD k.toNat None
    pure (some (voters.filter (· ≠ victim)))
  else do
    let absent := s.ids.filter (· ∉ voters)
    if absent.length = 0 then pure none
    else do
      let k ← intn absent.length
      pure (some (voters ++ [absent.getD k.toNat None]))

/-- Asks the leader to add or remove a voter. -/
def changeMembership : SimM Unit := do
  let s ← get
  match s.leader with
  | none => pure ()
  | some id =>
    match (s.nodes id).rn with
    | none => pure ()
    | some r =>
      if r.conf.isJoint then pure ()
      else do
        match ← chooseVoters r.conf.voters with
        | none => pure ()
        | some voters =>
          let target := Configuration.new voters
          match target.validate with
          | .error _ => pure ()
          | .ok _ => do
            match ← call id r (proposeConfChange target) with
            | .error _ => pure ()
            | .ok _ => do
              modify fun s => s.count fun st =>
                { st with membershipChanges := st.membershipChanges + 1 }
              after id

/-- The one place where faults are introduced. -/
def applyFaultDecision : SimM Unit := do
  let s ← get
  schedule (s.now + s.cfg.faults.faultInterval) .partition
  (if s.part.isNone then do
      if ← chance s.cfg.faults.partitionRate then startPartition else pure ()
    else pure ())
  (do if ← chance s.cfg.faults.membershipRate then changeMembership else pure ())
  if ← chance s.cfg.faults.crashRate then do
    let k ← intn s.ids.length
    applyCrash (s.ids.getD k.toNat None)
  else pure ()

/-- The bytes of "w" and a number. -/
def writeCommand (n : ℕ) : List UInt8 :=
  119 :: (Nat.toDigits 10 n).map fun c => UInt8.ofNat c.toNat

/-- Offers a write to every node that believes it leads. -/
def writeTo : List NodeID → SimM Unit
  | [] => pure ()
  | id :: ids => do
    let s ← get
    (match (s.nodes id).rn with
      | none => pure ()
      | some r =>
        if r.state ≠ .leader then pure ()
        else do
          modify fun s => { s with writeSeq := s.writeSeq + 1 }
          let cmd := writeCommand (s.writeSeq + 1)
          match ← call id r (propose { type := .normal, command := cmd }) with
          | .error _ => pure ()
          | .ok _ => after id)
    writeTo ids

def applyClientWrite : SimM Unit := do
  let s ← get
  schedule (s.now + s.cfg.writeInterval) .clientWrite
  writeTo s.ids

def apply (ev : Event) : SimM Unit :=
  match ev.kind with
  | .tick id => applyTick id
  | .deliver m => applyDeliver m
  | .crash id => applyCrash id
  | .restart id loseDisk => applyRestart id loseDisk
  | .partition => applyFaultDecision
  | .heal => applyHeal
  | .clientWrite => applyClientWrite

/-! ### The end of a run -/

/-- What a run can find: a breach that the checker reports, or state machines that disagree. -/
inductive Finding
  | violation (v : Violation)
  | divergence (detail : String) (seed time : ℤ)

section Digest

variable (sum256 : List UInt8 → List UInt8)

/-- The entry that a state machine was given last for an index. -/
def byIndex (applied : List LogEntry) (i : ℕ) : Option LogEntry :=
  applied.reverse.find? fun e => e.index = i

/-- Compares what `b` was given with what `a` was given for the same indexes. -/
def compareApplied (a b : NodeID) (applied : List LogEntry) : List LogEntry → Option String
  | [] => none
  | eb :: rest =>
    match byIndex applied eb.index with
    | none => compareApplied a b applied rest
    | some ea =>
      if ea.term ≠ eb.term ∨ sum256 ea.command ≠ sum256 eb.command then
        some s!"nodes {a} and {b} applied different commands at index {eb.index}: term {ea.term} ({shortDigest (sum256 ea.command)}) vs term {eb.term} ({shortDigest (sum256 eb.command)})"
      else compareApplied a b applied rest

def compareAppliedWith (applied : NodeID → List LogEntry) (a : NodeID) : List NodeID → Option String
  | [] => none
  | b :: rest =>
    match compareApplied sum256 a b (applied a) (applied b) with
    | some detail => some detail
    | none => compareAppliedWith applied a rest

/-- No two nodes have applied different commands at one index. -/
def checkStateMachinesAgree (applied : NodeID → List LogEntry) : List NodeID → Option String
  | [] => none
  | a :: rest =>
    match compareAppliedWith sum256 applied a rest with
    | some detail => some detail
    | none => checkStateMachinesAgree applied rest

/-- The checks that are made once. -/
def final : SimM (Option Finding) := do
  let s ← get
  match checkLogMatching sum256 { checker := s.checker, sim := s.toSimulator } with
  | .error v _ => pure (some (.violation v))
  | .ok _ _ =>
    pure ((checkStateMachinesAgree sum256 (fun id => (s.members id).applied) s.ids).map fun detail =>
      .divergence detail s.cfg.seed s.now)

/-- The next event, unless the run is over. -/
def turn : SimM (Option (Option Finding)) := do
  let s ← get
  match s.queue.pop with
  | none => pure (some none)
  | some (ev, queue) => do
    set { s with queue }
    if ev.time > s.cfg.duration then pure (some none)
    else do
      modify fun s => { s with now := ev.time }
      apply ev
      let s ← get
      match observe sum256 { checker := s.checker, sim := s.toSimulator } with
      | .ok _ w => do
        set { s with toSimulator := w.sim, checker := w.checker }
        pure none
      | .error v w => do
        set { s with toSimulator := w.sim, checker := w.checker }
        pure (some (some (.violation v)))

structure Report where
  violation : Option Finding
  virtualTime : ℤ
  crashes : ℕ
  restarts : ℕ
  stats : Stats

def report (violation : Option Finding) : SimM Report := do
  let s ← get
  pure { violation
         virtualTime := s.now
         crashes := (s.ids.map fun id => (s.members id).crashes).foldl (· + ·) 0
         restarts := (s.ids.map fun id => (s.members id).restarts).foldl (· + ·) 0
         stats := s.stats }

def scheduleTicks : List NodeID → SimM Unit
  | [] => pure ()
  | id :: ids => do
    let s ← get
    let x ← intn s.cfg.tickInterval
    schedule (x + 1) (.tick id)
    scheduleTicks ids

/-- What is scheduled when a run begins. -/
def begin : SimM Unit := do
  let s ← get
  scheduleTicks s.ids
  schedule s.cfg.faults.faultInterval .partition
  if s.cfg.writeInterval > 0 then schedule s.cfg.writeInterval .clientWrite else pure ()

/-- Runs the simulation to its end; `fuel` bounds the number of events. -/
def run (fuel : ℕ) : SimM Report := do
  begin
  let found ← iterate (turn sum256) (.fail .outOfFuel) fuel
  match found with
  | some v => report (some v)
  | none => do
    let found ← final sum256
    report found

end Digest

/-- The ids of the nodes, from one on. -/
def nodeIDs (n : ℕ) : List NodeID :=
  ((List.range n).map fun i => UInt64.ofNat (i + 1)).insertionSort (· ≤ ·)

def startAll : List NodeID → SimM Unit
  | [] => pure ()
  | id :: ids => do
    start id
    startAll ids

/-- Before any node is started. -/
def Simulation.blank (cfg : Config) (ids : List NodeID) : Simulation where
  ids
  nodes _ := {}
  cfg
  conf := Configuration.new ids
  checker := { seed := cfg.seed }

def Simulation.new (cfg : Config) : Except Halt Simulation :=
  let cfg := cfg.withDefaults
  if cfg.nodes < 1 then
    .error (.fail (.error ⟨s!"sim: need at least one node, got {cfg.nodes}", []⟩))
  else
    let ids := nodeIDs cfg.nodes.toNat
    match startAll ids (.blank cfg ids) with
    | .ok _ s => .ok s
    | .error e _ => .error e

end RaftStore.Sim
