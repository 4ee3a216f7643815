import RaftStore.Raft.Driver
import Mathlib.Logic.Relation

/-! What a call can do to a node, one effect at a time.  A change of term or vote is one effect
together with the write that makes it durable, so that between two effects the node and its storage
agree.  Every invariant of the node is proved once, by cases on the effect. -/

namespace RaftStore.Raft

open Lib

/-- What holds of a node between calls, whatever messages it has been given. -/
structure RawNode.Wf (r : RawNode) : Prop where
  id_ne : r.id ≠ None
  log : r.log.OK
  synced : r.persisted = r.log.mem.hardState
  term_eq : r.log.mem.hardState.term = r.term
  vote_eq : r.log.mem.hardState.vote = r.vote
  commit_le : r.log.mem.hardState.commit ≤ r.log.committed
  lead_self : r.state = .leader → r.lead = r.id
  tracked : r.progress.isSome → r.state = .leader
  next_pos : ∀ id p, r.peer id = some p → 1 ≤ p.next
  reads : r.state ≠ .leader → r.pendingReads = [] ∧ r.readStates = []

namespace RawNode

def withMem (r : RawNode) (mem : MemoryStorage) : RawNode :=
  { r with log := { r.log with storage := { r.log.storage with mem } } }

/-- The node with its term, vote and commit index on disk. -/
def saved (r : RawNode) : RawNode :=
  { r.withMem { r.log.mem with hardState := r.hardState } with persisted := r.hardState }

/-- The node with its configuration recomputed, if the log can be read. -/
def refreshed (r : RawNode) : RawNode :=
  match r.refreshConfiguration with
  | .ok r' => r'
  | .error _ => r

def refreshedIfNeeded (r : RawNode) (entries : List LogEntry) : RawNode :=
  if r.confChanged entries then r.refreshed else r

/-- The node with an entry after its last. -/
def extended (r : RawNode) (e : LogEntry) : RawNode :=
  let r' := r.withMem { r.log.mem with ents := r.log.mem.ents ++ [e] }
  if e.type = .confChange then r'.refreshed else r'

/-- The node with a received snapshot in place of its log. -/
def restored (r : RawNode) (snap : Snapshot) (mem : MemoryStorage) : RawNode :=
  let r' := { r with log := { r.log with
    storage := { r.log.storage with mem },
    committed := snap.lastIncludedIndex, applied := snap.lastIncludedIndex } }
  if !snap.config.isEmpty then r'.setConfiguration snap.config snap.lastIncludedIndex else r'

def matchOf (r : RawNode) (id : NodeID) : ℕ := ((r.peer id).map Progress.matched).getD 0

/-- The change that a configuration entry may carry: the leader has committed an entry of its term
and its own configuration, and enters or leaves a joint configuration. -/
structure Proposes (c : Call) (r : RawNode) (cc : ConfChange) : Prop where
  committed : r.committedInCurrentTerm = true
  settled : r.confIndex ≤ r.log.committed
  change : (∃ target, c = .proposeConfChange target ∧ r.conf.enterJoint target = .ok cc) ∨
    r.conf.leaveJoint = .ok cc

/-- The call delivers an answer to the node's campaign: to its poll while it polls, for its own term
while it stands. -/
def CountsVote (c : Call) (r : RawNode) (sender : NodeID) (granted : Bool) : Prop :=
  ∃ m, c = .step m ∧ m.type = .voteResp ∧ m.sender = sender ∧ m.granted = granted ∧
    (m.dest = r.id ∨ m.dest = None) ∧
    (r.state = .candidate ∧ m.preVote = false ∧ m.term = r.term ∨
      r.state = .preCandidate ∧ m.preVote = true ∧ r.term ≤ m.term)

/-- The node deals with the message: it is for this node, and not of an earlier term. -/
def Admits (r : RawNode) (m : Message) : Prop := (m.dest = r.id ∨ m.dest = None) ∧ r.term ≤ m.term

/-- The log holds what the append request carries. -/
def HoldsRequest (r : RawNode) (req : Message) : Prop :=
  r.log.matchTerm req.prevLogIndex req.prevLogTerm = true ∧
    ∀ e ∈ req.entries, r.log.matchTerm e.index e.term = true

end RawNode

open RawNode

/-- The calls in which a leader may append to its log. -/
def Call.appends : Call → Bool
  | .tick | .campaign | .propose _ | .proposeConfChange _ => true
  | .step m => m.type = .voteResp ∨ m.type = .appendResp ∨ m.type = .snapshotResp
  | _ => false

/-- The calls in which a node may start a campaign. -/
def Call.campaigns : Call → Bool
  | .tick | .campaign => true
  | _ => false

/-- The calls in which a node may win an election. -/
def Call.elects : Call → Bool
  | .tick | .campaign => true
  | .step m => m.type = .voteResp
  | _ => false

theorem Call.appends_of_elects {c : Call} (h : c.elects = true) : c.appends = true := by
  cases c with
  | step m =>
    simp only [Call.elects, decide_eq_true_eq] at h
    simp [Call.appends, h]
  | tick => rfl
  | campaign => rfl
  | _ => cases h

/-- The messages that a node may put in its outbox during a call. -/
inductive Sendable (c : Call) (r : RawNode) : Message → Prop
  | pollReq (dest : NodeID) (lastTerm : ℕ) : r.state = .preCandidate →
      Sendable c r { type := .voteReq, dest, term := r.term + 1, preVote := true,
                     lastLogIndex := r.log.lastIndex, lastLogTerm := lastTerm }
  | pollResp (req : Message) (term : ℕ) (granted : Bool) : c = .step req →
      req.type = .voteReq → req.preVote = true → (req.dest = r.id ∨ req.dest = None) →
      (granted = true → term = req.term ∧ r.term < req.term) →
      (granted = false → term = 0 ∨ term = r.term) →
      Sendable c r { type := .voteResp, dest := req.sender, term, preVote := true, granted }
  | voteReq (dest : NodeID) (lastTerm : ℕ) : r.state = .candidate → r.log.lastTerm = .ok lastTerm →
      Sendable c r { type := .voteReq, dest, term := r.term, preVote := false,
                     lastLogIndex := r.log.lastIndex, lastLogTerm := lastTerm }
  | refuse (dest : NodeID) (term : ℕ) : term = 0 ∨ term = r.term →
      Sendable c r { type := .voteResp, dest, term, preVote := false, granted := false }
  | grant (req : Message) : c = .step req → req.sender = r.vote →
      Sendable c r { type := .voteResp, dest := req.sender, term := r.term, preVote := false,
                     granted := true }
  | append (dest : NodeID) (pr : Progress) (prevTerm : ℕ) (entries : List LogEntry)
      (readID : UInt64) : r.peer dest = some pr → r.log.term (pr.next - 1) = .ok prevTerm →
      r.entriesFrom pr.next = .ok entries → (readID = 0 ∨ ∃ req ∈ r.pendingReads, req.id = readID) →
      Sendable c r { type := .appendReq, dest, prevLogIndex := pr.next - 1, prevLogTerm := prevTerm,
                     entries, leaderCommit := r.log.committed, readID }
  | snapshot (dest : NodeID) (pr : Progress) : r.peer dest = some pr →
      r.log.mem.snapshot.isEmpty = false →
      Sendable c r { type := .snapshotReq, dest, snapshot := some r.log.mem.snapshot }
  | stale (dest : NodeID) : Sendable c r { type := .appendResp, dest, success := false }
  | reject (req : Message) (conflictIndex conflictTerm : ℕ) : c = .step req →
      req.type = .appendReq → req.term = r.term →
      Sendable c r { type := .appendResp, dest := req.sender, success := false, conflictIndex,
                     conflictTerm, readID := req.readID }
  | ack (req : Message) (k : ℕ) : c = .step req → req.type = .appendReq → req.term = r.term →
      k = r.log.committed ∨ k = req.prevLogIndex + req.entries.length ∧
        (Contiguous (req.prevLogIndex + 1) req.entries → r.HoldsRequest req) →
      Sendable c r { type := .appendResp, dest := req.sender, success := true, matchIndex := k,
                     readID := req.readID }
  | snapshotAck (req : Message) : c = .step req → req.type = .snapshotReq → req.term = r.term →
      Sendable c r { type := .snapshotResp, dest := req.sender, success := true,
                     matchIndex := r.log.committed }

/-- One effect of a call. -/
inductive Effect (c : Call) (r : RawNode) : RawNode → Prop
  /-- Timers, random draws, storage faults, and the snapshot for the application. -/
  | quiet (a b d k : ℕ) (s : Option Snapshot) (faults : List Bool) :
      Effect c r { r with
        electionElapsed := a, heartbeatElapsed := b, randomizedElectionTimeout := d, draws := k,
        appliedSnapshot := s, log := { r.log with storage := { r.log.storage with faults } } }
  | hear (lead : NodeID) : r.state ≠ .leader → Effect c r { r with lead }
  | adopt (m : Message) (lead : NodeID) : c = .step m → r.term < m.term →
      Effect c r (r.becomeFollower m.term lead).saved
  | resign (lead : NodeID) : Effect c r (r.becomeFollower r.term lead)
  | poll : c.campaigns = true → r.state ≠ .leader → r.promotable = true → Effect c r r.polling
  | stand : c.campaigns = true ∨ r.state = .preCandidate → r.state ≠ .leader →
      r.promotable = true → Effect c r r.standing.saved
  | tally (sender : NodeID) (granted : Bool) : r.votes sender = none →
      (c.campaigns = true ∨ r.state = .candidate) ∧ sender = r.id ∧ granted = true ∨
        r.CountsVote c sender granted →
      r.state ≠ .leader →
      Effect c r { r with votes := Function.update r.votes sender (some granted) }
  | grant (m : Message) : c = .step m → m.type = .voteReq → m.preVote = false → m.term = r.term →
      r.canVote m = true → r.log.isUpToDate m.lastLogIndex m.lastLogTerm = .ok true →
      Effect c r { r with vote := m.sender, electionElapsed := 0 : RawNode }.saved
  | lead : r.state = .candidate → r.conf.hasQuorum (fun id => r.votes id = some true) = true →
      c.elects = true → Effect c r r.leading
  | extend (e : LogEntry) : c.appends = true → r.state = .leader → e.term = r.term →
      e.index = r.log.lastIndex + 1 →
      (e.type = .confChange → ∃ cc, r.Proposes c cc ∧ e.command = cc.encode) →
      Effect c r (r.extended e)
  | ownMatch (p : Progress) : r.peer r.id = some p → c.appends = true →
      Effect c r (r.setPeer r.id
        { p with matched := r.log.lastIndex, next := r.log.lastIndex + 1 })
  | setMatch (m : Message) (p : Progress) : c = .step m →
      m.type = .appendResp ∨ m.type = .snapshotResp → m.success = true → m.term = r.term →
      r.peer m.sender = some p → p.matched < m.matchIndex →
      Effect c r (r.setPeer m.sender { p with matched := m.matchIndex, next := m.matchIndex + 1 })
  | setNext (id : NodeID) (p p' : Progress) : r.peer id = some p → p'.matched = p.matched →
      1 ≤ p'.next → p'.next ≤ p.next → (p.matched < p.next → p.matched < p'.next) →
      Effect c r (r.setPeer id p')
  | commit (i : ℕ) : r.state = .leader → i = r.conf.committedIndex r.matchOf →
      r.log.committed < i → i ≤ r.log.lastIndex → r.log.term i = .ok r.term →
      Effect c r { r with log := { r.log with committed := i } }
  | persist : Effect c r r.saved
  | follow (m : Message) (l : RaftLog) (committed : ℕ) : c = .step m → m.type = .appendReq →
      m.term = r.term → r.state = .follower → r.log.committed ≤ m.prevLogIndex →
      r.log.matchTerm m.prevLogIndex m.prevLogTerm = true →
      r.log.Spliced m.prevLogIndex m.entries l → committed ≤ l.lastIndex →
      committed = r.log.committed ∨ r.log.committed < committed ∧
        committed = min m.leaderCommit (m.prevLogIndex + m.entries.length) →
      Effect c r ({ r with log := { l with committed } }.refreshedIfNeeded m.entries)
  | restore (m : Message) (snap : Snapshot) (mem : MemoryStorage) : c = .step m →
      m.type = .snapshotReq → m.term = r.term → r.state = .follower → m.snapshot = some snap →
      r.log.committed < snap.lastIncludedIndex → r.log.mem.saveSnapshot snap = .ok mem →
      r.Admits m → Effect c r (r.restored snap mem)
  | send (m : Message) : Sendable c r m → Effect c r (r.send m)
  | openRead (id : UInt64) : c = .readIndex id → r.state = .leader →
      r.committedInCurrentTerm = true →
      Effect c r { r with
        pendingReads := r.pendingReads ++ [⟨id, r.log.committed, fun n => n = r.id⟩] }
  | readNow (id : UInt64) : c = .readIndex id → r.state = .leader →
      r.committedInCurrentTerm = true → r.conf.hasQuorum (fun n => n = r.id) = true →
      Effect c r { r with readStates := r.readStates ++ [⟨id, r.log.committed⟩] }
  | ackRead (m : Message) : c = .step m → m.type = .appendResp → m.term = r.term →
      r.state = .leader → m.readID ≠ 0 → Effect c r (r.ackRead m.sender m.readID)
  | drainReads : c = .readStates → Effect c r { r with readStates := [] }
  | apply (i : ℕ) : c = .applyTo i → r.log.applied ≤ i → i ≤ r.log.committed →
      Effect c r { r with log := { r.log with applied := i } }
  | saveSnapshot (data : List UInt8) (term : ℕ) (mem : MemoryStorage) : c = .createSnapshot data →
      r.log.term r.log.applied = .ok term → r.log.applied ≠ 0 →
      r.log.mem.saveSnapshot ⟨r.log.applied, term, r.conf, data⟩ = .ok mem →
      Effect c r (r.withMem mem)
  | compact (upto : ℕ) (mem : MemoryStorage) (data : List UInt8) : c = .createSnapshot data →
      upto ≤ r.log.mem.snapshot.lastIncludedIndex → r.log.mem.snapshot.config = r.conf →
      r.log.mem.compact upto = .ok mem →
      Effect c r (r.withMem mem)
  | drain : c = .messages → Effect c r { r with msgs := [] }

/-- What a call can do, effect after effect. -/
abbrev Reach (c : Call) : RawNode → RawNode → Prop := Relation.ReflTransGen (Effect c)

/-! ### The node and its storage stay in order -/

namespace RawNode

/-- `r'` differs from `r` in the configuration at most, and in the peers tracked for it: a peer that
was not tracked before has confirmed nothing, or is the node itself. -/
structure Reconf (r r' : RawNode) : Prop where
  eq : r' = { r with conf := r'.conf, confIndex := r'.confIndex, progress := r'.progress }
  isSome : r'.progress.isSome = r.progress.isSome
  peer : ∀ id p, r'.peer id = some p → r.peer id = some p ∨
    p.next = r.log.lastIndex + 1 ∧ p.matched = if id = r.id then r.log.lastIndex else 0

theorem Reconf.refl (r : RawNode) : r.Reconf r := ⟨rfl, rfl, fun _ _ h => Or.inl h⟩

theorem setConfiguration_reconf (r : RawNode) (conf : Configuration) (i : ℕ) :
    r.Reconf (r.setConfiguration conf i) := by
  simp only [setConfiguration]
  split
  · exact .refl r
  · split
    · simp only [refreshProgress]
      split
      · exact ⟨rfl, rfl, fun _ _ h => Or.inl h⟩
      · rename_i prs hprs
        change r.progress = some prs at hprs
        refine ⟨rfl, by simp [hprs], fun id p hp => ?_⟩
        simp only [peer, Option.bind_some] at hp ⊢
        rw [hprs]
        split at hp
        · cases hid : prs id with
          | none =>
            rw [hid] at hp
            cases hp
            exact Or.inr ⟨rfl, rfl⟩
          | some q =>
            rw [hid] at hp
            exact Or.inl (by simpa [hid] using hp)
        · split at hp
          · exact Or.inl hp
          · exact nomatch hp
    · exact ⟨rfl, rfl, fun _ _ h => Or.inl h⟩

theorem refreshConfiguration_reconf {r r' : RawNode} (h : r.refreshConfiguration = .ok r') :
    r.Reconf r' := by
  simp only [refreshConfiguration] at h
  split at h
  · exact nomatch h
  · cases h
    exact setConfiguration_reconf _ _ _
  · split at h <;> cases h <;> exact setConfiguration_reconf _ _ _

theorem refreshed_reconf (r : RawNode) : r.Reconf r.refreshed := by
  unfold refreshed
  split
  · rename_i r' h
    exact refreshConfiguration_reconf h
  · exact .refl r

theorem refreshedIfNeeded_reconf (r : RawNode) (entries : List LogEntry) :
    r.Reconf (r.refreshedIfNeeded entries) := by
  unfold refreshedIfNeeded
  split
  · exact refreshed_reconf r
  · exact .refl r

theorem Reconf.wf {r r' : RawNode} (h : r.Reconf r') (hr : r.Wf) : r'.Wf := by
  obtain ⟨heq, hsome, hpeer⟩ := h
  have hstate : r'.state = r.state := by rw [heq]
  have hlog : r'.log = r.log := by rw [heq]
  have hpers : r'.persisted = r.persisted := by rw [heq]
  refine ⟨?_, hlog ▸ hr.log, ?_, ?_, ?_, ?_, ?_, ?_, ?_, ?_⟩
  · rw [heq]; exact hr.id_ne
  · rw [hpers, hlog]; exact hr.synced
  · rw [hlog, heq]; exact hr.term_eq
  · rw [hlog, heq]; exact hr.vote_eq
  · rw [hlog]; exact hr.commit_le
  · rw [hstate, heq]; exact hr.lead_self
  · rw [hsome, hstate]; exact hr.tracked
  · intro id p hp
    rcases hpeer id p hp with hp | ⟨hn, _⟩
    · exact hr.next_pos id p hp
    · omega
  · rw [hstate, heq]; exact hr.reads

theorem Wf.leader_of_peer {r : RawNode} (hr : r.Wf) {id : NodeID} {p : Progress}
    (hp : r.peer id = some p) : r.state = .leader := by
  refine hr.tracked ?_
  cases hpr : r.progress with
  | none => simp [peer, hpr] at hp
  | some prs => rfl

theorem peer_setPeer (r : RawNode) (id id' : NodeID) (p : Progress) :
    (r.setPeer id p).peer id' =
      if id' = id then r.progress.map fun _ => p else r.peer id' := by
  simp only [peer, setPeer]
  cases r.progress with
  | none => simp
  | some prs =>
    by_cases h : id' = id
    · subst h; simp
    · simp [h]

theorem peer_setPeer_self {r : RawNode} {id : NodeID} {p : Progress} (hp : r.peer id = some p)
    (q : Progress) : (r.setPeer id q).peer id = some q := by
  rw [peer_setPeer, if_pos rfl]
  cases hprs : r.progress with
  | none => simp [peer, hprs] at hp
  | some _ => rfl

/-- Tracking is changed only for a tracked peer. -/
theorem Wf.setPeer {r : RawNode} (hr : r.Wf) {id : NodeID} {p : Progress} (hp : 1 ≤ p.next) :
    (r.setPeer id p).Wf where
  id_ne := hr.id_ne
  log := hr.log
  synced := hr.synced
  term_eq := hr.term_eq
  vote_eq := hr.vote_eq
  commit_le := hr.commit_le
  lead_self := hr.lead_self
  tracked h := hr.tracked (by simpa [RawNode.setPeer] using h)
  next_pos id' p' h := by
    rw [peer_setPeer] at h
    split at h
    · cases hpr : r.progress with
      | none => simp [hpr] at h
      | some prs =>
        rw [hpr] at h
        cases h
        exact hp
    · exact hr.next_pos id' p' h
  reads := hr.reads

/-- The log may change as long as it stays in order and keeps the hard state and the commit. -/
theorem Wf.withLog {r : RawNode} (hr : r.Wf) {l : RaftLog} (hl : l.OK)
    (hh : l.mem.hardState = r.log.mem.hardState) (hc : r.log.committed ≤ l.committed) :
    ({ r with log := l } : RawNode).Wf where
  id_ne := hr.id_ne
  log := hl
  synced := by rw [hh]; exact hr.synced
  term_eq := by rw [hh]; exact hr.term_eq
  vote_eq := by rw [hh]; exact hr.vote_eq
  commit_le := by rw [hh]; exact hr.commit_le.trans hc
  lead_self := hr.lead_self
  tracked := hr.tracked
  next_pos := hr.next_pos
  reads := hr.reads

theorem Wf.concat {r : RawNode} (hr : r.Wf) {e : LogEntry} (hi : e.index = r.log.lastIndex + 1) :
    (r.withMem { r.log.mem with ents := r.log.mem.ents ++ [e] }).Wf := by
  have hsplice : { r.log.mem with ents := r.log.mem.ents ++ [e] } =
      r.log.mem.splice e.index [e] := by
    have hlast : r.log.lastIndex = r.log.mem.offset + r.log.mem.ents.length := rfl
    rw [MemoryStorage.splice, List.take_of_length_le (by omega)]
  rw [hsplice]
  have hle := hr.log.committed_le
  exact hr.withLog (hr.log.splice (by omega) hi.le (.cons rfl (.nil _))) rfl le_rfl

theorem Wf.followed {r : RawNode} (hr : r.Wf) {prev committed : ℕ} {ents : List LogEntry}
    {l : RaftLog} (hsp : r.log.Spliced prev ents l) (h1 : r.log.committed ≤ committed)
    (h2 : committed ≤ l.lastIndex) : ({ r with log := { l with committed } } : RawNode).Wf := by
  have hlc : l.committed = r.log.committed := by cases hsp <;> rfl
  have hlh : l.mem.hardState = r.log.mem.hardState := by cases hsp <;> rfl
  exact hr.withLog ((hsp.ok hr.log).commit (by omega) h2) hlh h1

theorem Wf.replaced {r : RawNode} (hr : r.Wf) {snap : Snapshot} {mem : MemoryStorage}
    (hlt : r.log.committed < snap.lastIncludedIndex) (hsave : r.log.mem.saveSnapshot snap = .ok mem) :
    ({ r with log := { r.log with
      storage := { r.log.storage with mem },
      committed := snap.lastIncludedIndex, applied := snap.lastIncludedIndex } } : RawNode).Wf :=
  hr.withLog (hr.log.restore _ hsave) (RaftLog.saveSnapshot_ok hsave).2.1 hlt.le

/-- A node that is written to disk is in order when its log is. -/
theorem Wf.of_saved {r : RawNode} (hid : r.id ≠ None) (hl : r.log.OK)
    (hlead : r.state = .leader → r.lead = r.id) (htr : r.progress.isSome → r.state = .leader)
    (hnext : ∀ id p, r.peer id = some p → 1 ≤ p.next)
    (hreads : r.state ≠ .leader → r.pendingReads = [] ∧ r.readStates = []) : r.saved.Wf where
  id_ne := hid
  log := ⟨hl.inOrder, hl.base_le, hl.snap_le, hl.applied_le, hl.committed_le⟩
  synced := rfl
  term_eq := rfl
  vote_eq := rfl
  commit_le := le_rfl
  lead_self := hlead
  tracked := htr
  next_pos := hnext
  reads := hreads

end RawNode

theorem Effect.wf {c : Call} {r r' : RawNode} (h : Effect c r r') (hr : r.Wf) : r'.Wf := by
  cases h with
  | quiet a b d k s faults =>
    exact ⟨hr.id_ne, hr.log.faulted faults, hr.synced, hr.term_eq, hr.vote_eq, hr.commit_le,
      hr.lead_self, hr.tracked, hr.next_pos, hr.reads⟩
  | hear lead hs =>
    exact ⟨hr.id_ne, hr.log, hr.synced, hr.term_eq, hr.vote_eq, hr.commit_le,
      fun h => absurd h hs, hr.tracked, hr.next_pos, hr.reads⟩
  | adopt m lead hc ht =>
    rw [becomeFollower, reset_eq]
    exact Wf.of_saved hr.id_ne hr.log nofun nofun nofun fun _ => ⟨rfl, rfl⟩
  | resign lead =>
    rw [becomeFollower, reset_eq, if_pos rfl]
    exact ⟨hr.id_ne, hr.log, hr.synced, hr.term_eq, hr.vote_eq, hr.commit_le, nofun, nofun, nofun,
      fun _ => ⟨rfl, rfl⟩⟩
  | poll _ hs =>
    exact ⟨hr.id_ne, hr.log, hr.synced, hr.term_eq, hr.vote_eq, hr.commit_le, nofun,
      fun h => absurd (hr.tracked h) hs, hr.next_pos, fun _ => hr.reads hs⟩
  | stand _ hs =>
    rw [standing, reset_eq]
    exact Wf.of_saved hr.id_ne hr.log nofun nofun nofun fun _ => ⟨rfl, rfl⟩
  | tally sender granted hv hg hs =>
    exact ⟨hr.id_ne, hr.log, hr.synced, hr.term_eq, hr.vote_eq, hr.commit_le, hr.lead_self,
      hr.tracked, hr.next_pos, hr.reads⟩
  | grant m =>
    exact Wf.of_saved hr.id_ne hr.log hr.lead_self hr.tracked hr.next_pos hr.reads
  | lead hs hq =>
    rw [leading, reset_eq, if_pos rfl]
    refine ⟨hr.id_ne, hr.log, hr.synced, hr.term_eq, hr.vote_eq, hr.commit_le, fun _ => rfl,
      fun _ => rfl, fun id p hp => ?_, fun h => absurd rfl h⟩
    simp only [peer, Option.bind_some] at hp
    split at hp
    · cases hp
      simp
    · exact nomatch hp
  | extend e ha hs ht hi hcc =>
    have hw := hr.concat hi
    rw [extended]
    split
    · exact (refreshed_reconf _).wf hw
    · exact hw
  | ownMatch p hp => exact hr.setPeer (by simp)
  | setMatch m p => exact hr.setPeer (by simp)
  | setNext id p p' hp hm hn _ _ => exact hr.setPeer hn
  | commit i hs hi hlt hle ht => exact hr.withLog (hr.log.commit hlt.le hle) rfl hlt.le
  | persist => exact Wf.of_saved hr.id_ne hr.log hr.lead_self hr.tracked hr.next_pos hr.reads
  | follow m l committed hc hty hm hs hp hmt hsp hle hcm =>
    exact (refreshedIfNeeded_reconf _ _).wf (hr.followed hsp (by omega) hle)
  | restore m snap mem hc hty hm hs hsn hlt hsave =>
    rw [restored]
    split
    · exact (setConfiguration_reconf _ _ _).wf (hr.replaced hlt hsave)
    · exact hr.replaced hlt hsave
  | send m hm =>
    exact ⟨hr.id_ne, hr.log, hr.synced, hr.term_eq, hr.vote_eq, hr.commit_le, hr.lead_self,
      hr.tracked, hr.next_pos, hr.reads⟩
  | openRead id hc hs =>
    exact ⟨hr.id_ne, hr.log, hr.synced, hr.term_eq, hr.vote_eq, hr.commit_le, hr.lead_self,
      hr.tracked, hr.next_pos, fun h => absurd hs h⟩
  | readNow id hc hs =>
    exact ⟨hr.id_ne, hr.log, hr.synced, hr.term_eq, hr.vote_eq, hr.commit_le, hr.lead_self,
      hr.tracked, hr.next_pos, fun h => absurd hs h⟩
  | ackRead m hc hty hm hs =>
    exact ⟨hr.id_ne, hr.log, hr.synced, hr.term_eq, hr.vote_eq, hr.commit_le, hr.lead_self,
      hr.tracked, hr.next_pos, fun h => absurd hs h⟩
  | drainReads hc =>
    exact ⟨hr.id_ne, hr.log, hr.synced, hr.term_eq, hr.vote_eq, hr.commit_le, hr.lead_self,
      hr.tracked, hr.next_pos, fun h => ⟨(hr.reads h).1, rfl⟩⟩
  | apply i hc h1 h2 =>
    exact hr.withLog ⟨hr.log.inOrder, hr.log.base_le, hr.log.snap_le.trans h1, h2,
      hr.log.committed_le⟩ rfl le_rfl
  | saveSnapshot data term mem hc ht h0 hsave =>
    obtain ⟨h1, h2, h3, _, _⟩ := hr.log.restore r.log.storage.faults hsave
    obtain ⟨hb, he⟩ := RaftLog.saveSnapshot_own h0 ht hsave
    refine hr.withLog ⟨h1, h2, h3, hr.log.applied_le, ?_⟩ (RaftLog.saveSnapshot_ok hsave).2.1 le_rfl
    change r.log.committed ≤ mem.base.index + mem.ents.length
    rw [hb, he]
    exact hr.log.committed_le
  | compact upto mem data hc hu hcf hcm =>
    refine hr.withLog (hr.log.compact hu hcm) ?_ le_rfl
    rcases MemoryStorage.compact_ok hr.log.inOrder hcm with ⟨-, rfl⟩ | ⟨_, _, hh, _⟩
    · rfl
    · exact hh
  | drain =>
    exact ⟨hr.id_ne, hr.log, hr.synced, hr.term_eq, hr.vote_eq, hr.commit_le, hr.lead_self,
      hr.tracked, hr.next_pos, hr.reads⟩

theorem Reach.wf {c : Call} {r r' : RawNode} (h : Reach c r r') (hr : r.Wf) : r'.Wf := by
  induction h with
  | refl => exact hr
  | tail _ he ih => exact he.wf ih

end RaftStore.Raft
