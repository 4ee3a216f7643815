import RaftStore.Raft.Handlers

/-! A node and its driver: the calls the driver makes, and a process that is started from its
storage, called, stopped by an error, and crashed. -/

namespace RaftStore.Raft

open Lib

def RawNode.committedEntries (r : RawNode) : Except Error (List LogEntry) :=
  r.log.entriesToApply r.cfg.maxApplyEntries

def applyTo (i : ℕ) : Core Unit := onLog (RaftLog.appliedTo i)

/-- Drains the outbox. -/
def messages : Core (List Message) := do
  let r ← get
  set { r with msgs := [] }
  pure r.msgs

/-- Drains the confirmed reads. -/
def readStates : Core (List ReadState) := do
  let r ← get
  set { r with readStates := [] }
  pure r.readStates

def snapshotToApply : Core (Option Snapshot) := do
  let r ← get
  set { r with appliedSnapshot := none }
  pure r.appliedSnapshot

/-- The calls of a driver. -/
inductive Call
  | tick
  | step (m : Message)
  | propose (cmd : List UInt8)
  | proposeConfChange (target : Configuration)
  | readIndex (id : UInt64)
  | readStates
  | messages
  | applyTo (i : ℕ)
  | createSnapshot (data : List UInt8)
  | snapshotToApply
  | campaign

namespace Call

def run : Call → Core Unit
  | .tick => Raft.tick
  | .step m => Raft.step m
  | .propose cmd => do let _ ← Raft.propose { type := .normal, command := cmd }
  | .proposeConfChange target => do let _ ← Raft.proposeConfChange target
  | .readIndex id => Raft.readIndex id
  | .readStates => do let _ ← Raft.readStates
  | .messages => do let _ ← Raft.messages
  | .applyTo i => Raft.applyTo i
  | .createSnapshot data => do let _ ← Raft.createSnapshot data
  | .snapshotToApply => do let _ ← Raft.snapshotToApply
  | .campaign => do
    let r ← get
    Raft.campaign r.cfg.preVote

/-- Where a call leaves the node, also when it fails. -/
def outcome (c : Call) (r : RawNode) : RawNode :=
  match c.run r with
  | .ok _ r' => r'
  | .error _ r' => r'

/-- Whether the process ends when the call fails so: on a panic, and on an error of the clock, of a
campaign or of a message unless the message was merely ignored. -/
def stops : Call → Fail → Bool
  | .tick, .error e | .step _, .error e | .campaign, .error e => !e.is .ignoredMessage
  | _, .error _ => false
  | _, _ => true

end Call

/-- A node's place in the cluster: a running process, or the storage that it left behind. -/
inductive Slot
  | down (storage : MemoryStorage)
  | up (r : RawNode)

/-- What can happen to it.  A call comes with the storage writes that are to fail in it. -/
inductive Act
  | start (cfg : Config)
  | crash
  | call (c : Call) (faults : List Bool)

def RawNode.withFaults (r : RawNode) (faults : List Bool) : RawNode :=
  { r with log := { r.log with storage := { r.log.storage with faults } } }

namespace Slot

def node? : Slot → Option RawNode
  | .up r => some r
  | .down _ => none

/-- The process after a call. -/
def after (c : Call) : EStateM.Result Fail RawNode Unit → Slot
  | .ok _ r => .up r
  | .error e r => if c.stops e then .down r.log.mem else .up r

def act : Slot → Act → Slot
  | .down st, .start cfg =>
    match RawNode.new cfg { mem := st } with
    | .ok r => .up r
    | .error _ => .down st
  | .up r, .crash => .down r.log.mem
  | .up r, .call c faults => after c (c.run (r.withFaults faults))
  | s, _ => s

end Slot

end RaftStore.Raft
