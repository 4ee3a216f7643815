import RaftStore.Storage.Codec
import RaftStore.Raft.Frame
import RaftStore.Raft.Process

/-! The wire form of messages.  What the protobuf library makes of a message is left out: a wire
message stands for its bytes. -/

namespace RaftStore.Transport

open Lib Raft Codec

structure PbVoteRequest where
  term : UInt64 := 0
  candidateId : UInt64 := 0
  lastLogIndex : UInt64 := 0
  lastLogTerm : UInt64 := 0
  preVote : Bool := false
  deriving DecidableEq, Repr

structure PbVoteResponse where
  term : UInt64 := 0
  voteGranted : Bool := false
  preVote : Bool := false
  deriving DecidableEq, Repr

structure PbAppendRequest where
  term : UInt64 := 0
  leaderId : UInt64 := 0
  prevLogIndex : UInt64 := 0
  prevLogTerm : UInt64 := 0
  entries : List PbLogEntry := []
  leaderCommit : UInt64 := 0
  readId : UInt64 := 0
  deriving DecidableEq, Repr

structure PbAppendResponse where
  term : UInt64 := 0
  success : Bool := false
  matchIndex : UInt64 := 0
  conflictIndex : UInt64 := 0
  conflictTerm : UInt64 := 0
  readId : UInt64 := 0
  deriving DecidableEq, Repr

structure PbSnapshotRequest where
  term : UInt64 := 0
  leaderId : UInt64 := 0
  snapshot : Option PbSnapshot := none
  deriving DecidableEq, Repr

structure PbSnapshotResponse where
  term : UInt64 := 0
  success : Bool := false
  matchIndex : UInt64 := 0
  deriving DecidableEq, Repr

inductive PbPayload
  | voteRequest (r : PbVoteRequest)
  | voteResponse (r : PbVoteResponse)
  | appendRequest (r : PbAppendRequest)
  | appendResponse (r : PbAppendResponse)
  | snapshotRequest (r : PbSnapshotRequest)
  | snapshotResponse (r : PbSnapshotResponse)
  deriving DecidableEq, Repr

/-- A message on the wire.  It has no payload when it was sent by a version that knows others. -/
structure PbMessage where
  sender : UInt64 := 0
  dest : UInt64 := 0
  payload : Option PbPayload := none
  deriving DecidableEq, Repr

def toProto (m : Message) : Except Error PbMessage :=
  let envelope (payload : PbPayload) : PbMessage :=
    { sender := m.sender, dest := m.dest, payload := some payload }
  match m.type with
  | .voteReq =>
    .ok (envelope (.voteRequest
      { term := .ofNat m.term, candidateId := m.sender, lastLogIndex := .ofNat m.lastLogIndex,
        lastLogTerm := .ofNat m.lastLogTerm, preVote := m.preVote }))
  | .voteResp =>
    .ok (envelope (.voteResponse
      { term := .ofNat m.term, voteGranted := m.granted, preVote := m.preVote }))
  | .appendReq =>
    .ok (envelope (.appendRequest
      { term := .ofNat m.term, leaderId := m.sender, prevLogIndex := .ofNat m.prevLogIndex,
        prevLogTerm := .ofNat m.prevLogTerm, entries := m.entries.map entryToProto,
        leaderCommit := .ofNat m.leaderCommit, readId := m.readID }))
  | .appendResp =>
    .ok (envelope (.appendResponse
      { term := .ofNat m.term, success := m.success, matchIndex := .ofNat m.matchIndex,
        conflictIndex := .ofNat m.conflictIndex, conflictTerm := .ofNat m.conflictTerm,
        readId := m.readID }))
  | .snapshotReq =>
    match m.snapshot with
    | none => .error ⟨s!"transport: snapshot message from {m.sender} carries no snapshot", []⟩
    | some snap =>
      .ok (envelope (.snapshotRequest
        { term := .ofNat m.term, leaderId := m.sender, snapshot := some (snapshotToProto snap) }))
  | .snapshotResp =>
    .ok (envelope (.snapshotResponse
      { term := .ofNat m.term, success := m.success, matchIndex := .ofNat m.matchIndex }))
  | .unknown byte =>
    .error ⟨s!"transport: cannot encode message type unknown-message({byte})", []⟩

/-- The sender that the envelope names, or else the one that the payload names. -/
def envelopeSender (envelope body : NodeID) : NodeID := if envelope = None then body else envelope

def fromProto : Option PbMessage → Except Error Message
  | none => .error ⟨"transport: nil message", []⟩
  | some p =>
    match p.payload with
    | some (.voteRequest r) =>
      .ok { type := .voteReq, sender := envelopeSender p.sender r.candidateId, dest := p.dest,
            term := r.term.toNat, lastLogIndex := r.lastLogIndex.toNat,
            lastLogTerm := r.lastLogTerm.toNat, preVote := r.preVote }
    | some (.voteResponse r) =>
      .ok { type := .voteResp, sender := p.sender, dest := p.dest, term := r.term.toNat,
            granted := r.voteGranted, preVote := r.preVote }
    | some (.appendRequest r) =>
      .ok { type := .appendReq, sender := envelopeSender p.sender r.leaderId, dest := p.dest,
            term := r.term.toNat, prevLogIndex := r.prevLogIndex.toNat,
            prevLogTerm := r.prevLogTerm.toNat, leaderCommit := r.leaderCommit.toNat,
            readID := r.readId, entries := r.entries.map entryFromProto }
    | some (.appendResponse r) =>
      .ok { type := .appendResp, sender := p.sender, dest := p.dest, term := r.term.toNat,
            success := r.success, matchIndex := r.matchIndex.toNat,
            conflictIndex := r.conflictIndex.toNat, conflictTerm := r.conflictTerm.toNat,
            readID := r.readId }
    | some (.snapshotRequest r) =>
      .ok { type := .snapshotReq, sender := envelopeSender p.sender r.leaderId, dest := p.dest,
            term := r.term.toNat,
            snapshot := some (match r.snapshot with
              | none => {}
              | some snap => snapshotFromProto snap) }
    | some (.snapshotResponse r) =>
      .ok { type := .snapshotResp, sender := p.sender, dest := p.dest, term := r.term.toNat,
            success := r.success, matchIndex := r.matchIndex.toNat }
    | none => .error ⟨s!"transport: message from {p.sender} has no recognized payload", []⟩

/-! ### Round trips -/

/-- The fields that a message of a type has; all others are zero. -/
def carried (m : Message) : Message :=
  let base : Message := { type := m.type, sender := m.sender, dest := m.dest, term := m.term }
  match m.type with
  | .voteReq => { base with preVote := m.preVote, lastLogIndex := m.lastLogIndex,
                            lastLogTerm := m.lastLogTerm }
  | .voteResp => { base with preVote := m.preVote, granted := m.granted }
  | .appendReq => { base with prevLogIndex := m.prevLogIndex, prevLogTerm := m.prevLogTerm,
                              entries := m.entries, leaderCommit := m.leaderCommit,
                              readID := m.readID }
  | .appendResp => { base with success := m.success, matchIndex := m.matchIndex,
                               conflictIndex := m.conflictIndex, conflictTerm := m.conflictTerm,
                               readID := m.readID }
  | .snapshotReq => { base with snapshot := m.snapshot }
  | .snapshotResp => { base with success := m.success, matchIndex := m.matchIndex }
  | .unknown _ => base

/-- The node reads no other field: a message and what is carried of it have the same effect on every
node. -/
theorem step_carried (m : Message) : step (carried m) = step m := by
  obtain ⟨type, sender, dest, term, preVote, lli, llt, granted, pli, plt, entries, lc, success, mi, ci,
    ct, readID, snapshot⟩ := m
  cases type <;> rfl

/-- The numbers of a message fit into words, and a snapshot's configuration is normalized. -/
structure MessageWords (m : Message) : Prop where
  term : m.term < 2 ^ 64
  lastLogIndex : m.lastLogIndex < 2 ^ 64
  lastLogTerm : m.lastLogTerm < 2 ^ 64
  prevLogIndex : m.prevLogIndex < 2 ^ 64
  prevLogTerm : m.prevLogTerm < 2 ^ 64
  entries : ∀ e ∈ m.entries, EntryWords e
  leaderCommit : m.leaderCommit < 2 ^ 64
  matchIndex : m.matchIndex < 2 ^ 64
  conflictIndex : m.conflictIndex < 2 ^ 64
  conflictTerm : m.conflictTerm < 2 ^ 64
  snapshot : ∀ s, m.snapshot = some s → SnapshotWords s

/-- The type of the message has a wire form, and a snapshot request has its snapshot. -/
structure Encodable (m : Message) : Prop where
  known : ∀ byte, m.type ≠ .unknown byte
  snapshot : m.type = .snapshotReq → m.snapshot.isSome = true

theorem envelopeSender_self (id : NodeID) : envelopeSender id id = id := ite_self id

theorem entries_round_trip {entries : List LogEntry} (h : ∀ e ∈ entries, EntryWords e) :
    (entries.map entryToProto).map entryFromProto = entries := by
  calc (entries.map entryToProto).map entryFromProto
      = entries.map fun e => entryFromProto (entryToProto e) := List.map_map
    _ = entries.map id := List.map_congr_left fun e he => entryFromProto_toProto (h e he)
    _ = entries := List.map_id entries

theorem fromProto_toProto {m : Message} (hw : MessageWords m) (he : Encodable m) :
    ∃ p, toProto m = .ok p ∧ fromProto (some p) = .ok (carried m) := by
  cases hty : m.type with
  | voteReq =>
    refine ⟨_, by simp only [toProto, hty]; rfl, ?_⟩
    simp only [fromProto, carried, hty, envelopeSender_self, UInt64.toNat_ofNat_of_lt' hw.term,
      UInt64.toNat_ofNat_of_lt' hw.lastLogIndex, UInt64.toNat_ofNat_of_lt' hw.lastLogTerm]
  | voteResp =>
    refine ⟨_, by simp only [toProto, hty]; rfl, ?_⟩
    simp only [fromProto, carried, hty, UInt64.toNat_ofNat_of_lt' hw.term]
  | appendReq =>
    refine ⟨_, by simp only [toProto, hty]; rfl, ?_⟩
    simp only [fromProto, carried, hty, envelopeSender_self, UInt64.toNat_ofNat_of_lt' hw.term,
      UInt64.toNat_ofNat_of_lt' hw.prevLogIndex, UInt64.toNat_ofNat_of_lt' hw.prevLogTerm,
      UInt64.toNat_ofNat_of_lt' hw.leaderCommit, entries_round_trip hw.entries]
  | appendResp =>
    refine ⟨_, by simp only [toProto, hty]; rfl, ?_⟩
    simp only [fromProto, carried, hty, UInt64.toNat_ofNat_of_lt' hw.term,
      UInt64.toNat_ofNat_of_lt' hw.matchIndex, UInt64.toNat_ofNat_of_lt' hw.conflictIndex,
      UInt64.toNat_ofNat_of_lt' hw.conflictTerm]
  | snapshotReq =>
    obtain ⟨snap, hsnap⟩ := Option.isSome_iff_exists.mp (he.snapshot hty)
    refine ⟨_, by simp only [toProto, hty, hsnap]; rfl, ?_⟩
    simp only [fromProto, carried, hty, hsnap, envelopeSender_self,
      UInt64.toNat_ofNat_of_lt' hw.term, snapshotFromProto_toProto (hw.snapshot snap hsnap)]
  | snapshotResp =>
    refine ⟨_, by simp only [toProto, hty]; rfl, ?_⟩
    simp only [fromProto, carried, hty, UInt64.toNat_ofNat_of_lt' hw.term,
      UInt64.toNat_ofNat_of_lt' hw.matchIndex]
  | unknown byte => exact absurd hty (he.known byte)

/-! ### What is in an outbox -/

/-- A node only sends messages that have a wire form, and sets no field that their type does not
have. -/
theorem encodable_of_sendable {c : Call} {r : RawNode} {m : Message} (h : Sendable c r m) :
    Encodable (r.stamp m) ∧ carried (r.stamp m) = r.stamp m := by
  cases h with
  | snapshot => exact ⟨⟨nofun, fun _ => rfl⟩, rfl⟩
  | _ => exact ⟨⟨nofun, nofun⟩, rfl⟩

theorem encodable_of_outbox {acts : List Act} {r : RawNode}
    (hr : (Slot.down {}).run acts = .up r) {m : Message} (hm : m ∈ r.msgs) :
    Encodable m ∧ carried m = m := by
  have hall : ∀ m ∈ r.msgs, Encodable m ∧ carried m = m := by
    refine Slot.of_delivered (I := fun r => ∀ m ∈ r.msgs, Encodable m ∧ carried m = m)
      (D := fun _ => True) (fun _ _ => trivial) hr ?_ ?_
    · intro c r r' _ _ h he
      exact he.frame.2.1.msgs h fun m hm => encodable_of_sendable hm
    · intro cfg st r hnew m hm
      rw [(RawNode.started_of_new hnew).msgs] at hm
      exact nomatch hm
  exact hall m hm

/-- A message survives the wire: it is encoded, and what is decoded carries every field that a node
reads and sets no other.  For the messages that a node puts in its outbox this is the message
itself. -/
theorem message_survives_wire (m : Message) (hw : MessageWords m) :
    (Encodable m → ∃ p, toProto m = .ok p ∧ fromProto (some p) = .ok (carried m) ∧
        step (carried m) = step m) ∧
      ∀ acts r, (Slot.down {}).run acts = .up r → m ∈ r.msgs →
        ∃ p, toProto m = .ok p ∧ fromProto (some p) = .ok m := by
  refine ⟨fun he => ?_, fun acts r hr hm => ?_⟩
  · obtain ⟨p, hto, hfrom⟩ := fromProto_toProto hw he
    exact ⟨p, hto, hfrom, step_carried m⟩
  · obtain ⟨he, hcarried⟩ := encodable_of_outbox hr hm
    obtain ⟨p, hto, hfrom⟩ := fromProto_toProto hw he
    rw [hcarried] at hfrom
    exact ⟨p, hto, hfrom⟩

/-- A snapshot with a joint configuration and a learner, on its way to node 4. -/
def jointSnapshot : Message where
  type := .snapshotReq
  sender := 1
  dest := 4
  term := 9
  snapshot := some
    { lastIncludedIndex := 77, lastIncludedTerm := 9, data := [1, 2]
      config := { voters := [1, 2, 3], oldVoters := [1, 4], learners := [8] } }

theorem message_survives_wire_jointSnapshot :
    ∃ p, toProto jointSnapshot = .ok p ∧ fromProto (some p) = .ok jointSnapshot := by
  have hwords : MessageWords jointSnapshot := by
    refine ⟨by decide, by decide, by decide, by decide, by decide, nofun, by decide, by decide,
      by decide, by decide, fun s hs => ?_⟩
    cases hs
    exact ⟨by decide, by decide, ⟨by decide, by decide, by decide,
      List.forall_mem_singleton.mpr (by decide)⟩⟩
  obtain ⟨p, hto, hfrom, -⟩ := (message_survives_wire jointSnapshot hwords).1 ⟨nofun, fun _ => rfl⟩
  exact ⟨p, hto, hfrom⟩

end RaftStore.Transport
