import RaftStore.Raft.Images
import RaftStore.Raft.Reliable

/-! What a call adds to a node.  Messages go to the peers of a leader, to the sender of the message that
is answered, or to the members of the configuration, and never to the node itself; the entries that
they carry are the node's.  Entries come from the leader's messages or are the node's own: the one
that is proposed, and others that mean nothing to the application. -/

namespace RaftStore.Raft

open Lib Consensus RawNode

variable {α β : Type} {S : NodeID → Prop} {E : LogEntry → Prop} {r r' : RawNode}

/-! ### The log -/

/-- Every entry of the log was there before or satisfies `E`. -/
def Gains (E : LogEntry → Prop) (l l' : RaftLog) : Prop :=
  ∀ e ∈ l'.mem.ents, e ∈ l.mem.ents ∨ E e

instance : IsPreorder RaftLog (Gains E) where
  refl _ _ h := Or.inl h
  trans _ _ _ h h' e he := (h' e he).elim (h e) Or.inr

theorem gains_write {f : MemoryStorage → Except Error MemoryStorage} {l : RaftLog}
    (h : ∀ mem, f l.mem = .ok mem → ∀ e ∈ mem.ents, e ∈ l.mem.ents ∨ E e) :
    Along (Gains E) (RaftLog.onDisk (Disk.write f)) l :=
  RaftLog.meets_onDisk (fun mem _ hf => h mem hf) fun _ _ _ he => Or.inl he

theorem gains_setHardState (hs : HardState) {l : RaftLog} :
    Along (Gains E) (RaftLog.onDisk (Disk.write (·.setHardState hs))) l := by
  refine gains_write fun mem h => ?_
  rw [MemoryStorage.setHardState] at h
  split at h
  · cases h
  · cases h
    exact fun _ he => Or.inl he

theorem mem_appendEntries {m m' : MemoryStorage} {entries : List LogEntry}
    (h : m.appendEntries entries = .ok m') : ∀ e ∈ m'.ents, e ∈ m.ents ∨ e ∈ entries := by
  intro x hx
  cases entries with
  | nil =>
    cases h
    exact Or.inl hx
  | cons e rest =>
    rw [MemoryStorage.appendEntries] at h
    split at h
    · cases h
    · split at h
      · cases h
        exact Or.inl hx
      · generalize hes : (if e.index ≤ m.offset then (e :: rest).drop (m.offset + 1 - e.index)
          else e :: rest) = es at h
        generalize (if e.index ≤ m.offset then m.offset + 1 else e.index) = first at h
        have hsub : ∀ x ∈ es, x ∈ e :: rest := by
          rw [← hes]
          split
          · exact fun _ h => List.mem_of_mem_drop h
          · exact fun _ h => h
        dsimp only at h
        split at h
        · cases h
        · cases h
          exact (List.mem_append.mp hx).imp List.mem_of_mem_take (hsub x)

theorem gains_append {ents : List LogEntry} {l : RaftLog} (hE : ∀ e ∈ ents, E e) :
    Along (Gains E) (RaftLog.append ents) l := by
  cases ents with
  | nil => exact .pure _
  | cons e rest =>
    refine .get_bind ?_
    split
    · exact .throw _
    · exact gains_write fun mem h x hx => (mem_appendEntries h x hx).imp_right (hE x)

theorem gains_commitTo {i : ℕ} {l : RaftLog} : Along (Gains E) (RaftLog.commitTo i) l := by
  refine .get_bind ?_
  split
  · exact .pure _
  · split
    · exact .throw _
    · exact .set fun _ he => Or.inl he

theorem gains_maybeAppend {prevIdx prevTerm leaderCommit : ℕ} {ents : List LogEntry} {l : RaftLog}
    (hE : ∀ e ∈ ents, E e) :
    Along (Gains E) (RaftLog.maybeAppend prevIdx prevTerm leaderCommit ents) l := by
  refine .get_bind ?_
  split
  · exact .pure _
  · refine .bind ?_ fun _ _ => .bind gains_commitTo fun _ _ => .pure _
    split
    · exact .pure _
    · split
      · exact .throw _
      · split
        · exact .throw _
        · exact gains_append fun e he => hE e (List.mem_of_mem_drop he)

theorem mem_saveSnapshot {m m' : MemoryStorage} {snap : Snapshot} (h : m.saveSnapshot snap = .ok m') :
    ∀ e ∈ m'.ents, e ∈ m.ents := by
  intro e he
  rw [MemoryStorage.saveSnapshot] at h
  split at h
  · cases h
  · split at h
    · cases h
      exact he
    · cases h
      cases he

theorem gains_restore {snap : Snapshot} {l : RaftLog} : Along (Gains E) (RaftLog.restore snap) l := by
  refine .get_bind ?_
  split
  · exact .throw _
  · refine .bind (gains_write fun mem h e he => Or.inl (mem_saveSnapshot h e he)) fun _ _ => ?_
    exact .modify fun _ he => Or.inl he

theorem gains_compact {upto : ℕ} {l : RaftLog} : Along (Gains E) (RaftLog.compact upto) l := by
  refine .get_bind ?_
  split
  · exact .throw _
  · refine gains_write fun mem h e he => Or.inl ?_
    rw [MemoryStorage.compact] at h
    split at h
    · cases h
      exact he
    · split at h
      · cases h
      · cases h
        exact List.mem_of_mem_drop he

/-! ### The node -/

/-- What was added to the node's outbox goes, apart from what a leader sends to other nodes, to nodes
in `S`, and carries entries of the node or of `E`; what was added to its log is in `E`. -/
structure Posts (S : NodeID → Prop) (E : LogEntry → Prop) (r r' : RawNode) : Prop where
  id : r'.id = r.id
  msgs : ∀ m ∈ r'.msgs, m ∈ r.msgs ∨
    ((m.type = .appendReq ∨ m.type = .snapshotReq) ∧ m.dest ≠ r.id ∨ S m.dest) ∧
      ∀ e ∈ m.entries, e ∈ r.log.mem.ents ∨ E e
  log : Gains E r.log r'.log

/-- Neither the configuration nor the outbox nor the log has changed. -/
structure Silent (r r' : RawNode) : Prop where
  id : r'.id = r.id
  conf : r'.conf = r.conf
  msgs : r'.msgs = r.msgs
  log : Gains (fun _ => False) r.log r'.log

instance : IsPreorder RawNode (Posts S E) where
  refl r := ⟨rfl, fun _ h => Or.inl h, refl_of (Gains E) r.log⟩
  trans r r' r'' h h' := by
    refine ⟨h'.id.trans h.id, fun m hm => ?_, trans_of (Gains E) h.log h'.log⟩
    rcases h'.msgs m hm with hm | ⟨hto, hes⟩
    · exact h.msgs m hm
    · exact Or.inr ⟨h.id ▸ hto, fun e he => (hes e he).elim (h.log e) Or.inr⟩

instance : IsPreorder RawNode Silent where
  refl r := ⟨rfl, rfl, rfl, refl_of (Gains _) r.log⟩
  trans _ _ _ h h' := ⟨h'.id.trans h.id, h'.conf.trans h.conf, h'.msgs.trans h.msgs,
    trans_of (Gains _) h.log h'.log⟩

theorem Posts.refl (r : RawNode) : Posts S E r r := refl_of (Posts S E) r

theorem Posts.trans {r'' : RawNode} (h : Posts S E r r') (h' : Posts S E r' r'') : Posts S E r r'' :=
  trans_of (Posts S E) h h'

theorem Posts.of_eq (hid : r'.id = r.id) (hm : r'.msgs = r.msgs) (hl : r'.log = r.log) :
    Posts S E r r' :=
  ⟨hid, fun _ h => Or.inl (hm ▸ h), fun _ he => Or.inl (hl ▸ he)⟩

theorem Silent.of_log (hid : r'.id = r.id) (hc : r'.conf = r.conf) (hm : r'.msgs = r.msgs)
    (hl : r'.log = r.log) : Silent r r' :=
  ⟨hid, hc, hm, fun _ he => Or.inl (hl ▸ he)⟩

theorem Silent.posts (h : Silent r r') : Posts S E r r' :=
  ⟨h.id, fun _ hm => Or.inl (h.msgs ▸ hm), fun e he => (h.log e he).imp_right False.elim⟩

theorem posts_send {m : Message}
    (hm : (m.type = .appendReq ∨ m.type = .snapshotReq) ∧ m.dest ≠ r.id ∨ S m.dest)
    (he : ∀ e ∈ m.entries, e ∈ r.log.mem.ents) : Posts S E r (r.send m) := by
  refine ⟨rfl, fun m' hm' => ?_, fun _ he => Or.inl he⟩
  rcases List.mem_append.mp hm' with hm' | hm'
  · exact Or.inl hm'
  · rw [List.mem_singleton.mp hm']
    exact Or.inr ⟨hm, fun e h => Or.inl (he e h)⟩

theorem posts_reply {m : Message} (hm : S m.dest) (he : m.entries = []) : Posts S E r (r.send m) := by
  refine posts_send (Or.inr hm) ?_
  rw [he]
  rintro _ ⟨⟩

/-- What is done for each of some nodes, none of which is the node itself. -/
theorem posts_foldl {f : RawNode → β → RawNode} {l : List β}
    (h : ∀ r', r'.id = r.id → ∀ b ∈ l, Posts S E r' (f r' b)) : Posts S E r (l.foldl f r) := by
  induction l generalizing r with
  | nil => exact .refl r
  | cons b l ih =>
    have hb := h r rfl b List.mem_cons_self
    exact hb.trans (ih fun r' hid b' hb' => h r' (hid.trans hb.id) b' (List.mem_cons_of_mem b hb'))

theorem ne_of_mem_peers {conf : Configuration} {self v : NodeID} (h : v ∈ conf.peers self) :
    v ≠ self := by
  simpa using (List.mem_filter.mp h).2

theorem mem_members_of_mem_peers {conf : Configuration} {self v : NodeID} (h : v ∈ conf.peers self) :
    v ∈ conf.members :=
  (List.mem_filter.mp h).1

/-! ### What a leader sends -/

theorem posts_sendSnapshot {dest : NodeID} (hd : dest ≠ r.id ∨ S dest) :
    Posts S E r (r.sendSnapshot dest) := by
  simp only [sendSnapshot]
  split
  · exact .refl r
  · rename_i pr _
    split
    · exact .refl r
    · split
      · exact .refl r
      · have hset : Posts S E r (r.setPeer dest { pr with
            pendingSnapshot := r.log.mem.snapshot.lastIncludedIndex, snapshotTicks := 0 }) :=
          .of_eq rfl rfl rfl
        exact hset.trans (posts_send (hd.imp_left fun hd => ⟨Or.inr rfl, hd⟩) (by rintro _ ⟨⟩))

theorem posts_sendAppendWithRead {dest : NodeID} (hd : dest ≠ r.id ∨ S dest) (readID : UInt64) :
    Posts S E r (r.sendAppendWithRead dest readID) := by
  simp only [sendAppendWithRead]
  split
  · exact .refl r
  · split
    · exact .refl r
    · split
      · exact posts_sendSnapshot hd
      · split
        · exact .refl r
        · rename_i entries hes
          exact posts_send (hd.imp_left fun hd => ⟨Or.inl rfl, hd⟩) (mem_entriesFrom hes)

theorem posts_sendAppend {dest : NodeID} (hd : dest ≠ r.id ∨ S dest) :
    Posts S E r (r.sendAppend dest) :=
  posts_sendAppendWithRead hd 0

theorem posts_toPeers (readID : UInt64) :
    Posts S E r ((r.conf.peers r.id).foldl (fun r peer => r.sendAppendWithRead peer readID) r) :=
  posts_foldl fun _ hid _ hd =>
    posts_sendAppendWithRead (Or.inl (hid ▸ ne_of_mem_peers hd)) readID

theorem posts_broadcastAppend : Posts S E r r.broadcastAppend := posts_toPeers 0

theorem posts_resendReads : Posts S E r r.resendReads :=
  posts_foldl fun _ _ _ _ => posts_toPeers _

theorem posts_expirePendingSnapshot (retryAfter : ℕ) (id : NodeID) :
    Posts S E r (expirePendingSnapshot retryAfter r id) := by
  rw [expirePendingSnapshot]
  split
  · exact .refl r
  · split
    · exact .refl r
    · split
      · exact .of_eq rfl rfl rfl
      · exact .of_eq rfl rfl rfl

theorem posts_expirePendingSnapshots : Posts S E r r.expirePendingSnapshots :=
  posts_foldl fun _ _ id _ => posts_expirePendingSnapshot _ id

theorem posts_stepDownIfRemoved : Posts S E r r.stepDownIfRemoved := by
  rw [stepDownIfRemoved]
  split
  · exact .refl r
  · split
    · exact .refl r
    · rw [becomeFollower, reset_eq]
      exact .of_eq rfl rfl rfl

/-! ### Appending and committing -/

theorem silent_persistHardState : Along Silent persistHardState r := by
  refine .get_bind ?_
  split
  · exact .pure _
  · have hwrite : Along (Gains fun _ => False)
        (RaftLog.onDisk (Disk.write (·.setHardState r.hardState))) r.log :=
      gains_setHardState r.hardState
    refine .bind (.mapFail (.inPart hwrite fun l hl => ⟨rfl, rfl, rfl, hl⟩)) fun _ _ => ?_
    exact .modify (.of_log rfl rfl rfl rfl)

theorem posts_persistHardState : Along (Posts S E) persistHardState r :=
  silent_persistHardState.mono fun _ h => h.posts

theorem posts_onLog {x : LogM α} (h : Along (Gains E) x r.log) : Along (Posts S E) (onLog x) r :=
  .inPart h fun _ hl => ⟨rfl, fun _ hm => Or.inl hm, hl⟩

theorem posts_setConfiguration (conf : Configuration) (i : ℕ) :
    Posts S E r (r.setConfiguration conf i) := by
  rw [(setConfiguration_reconf r conf i).eq]
  exact .of_eq rfl rfl rfl

theorem posts_refresh : Along (Posts S E) (tryUpdate refreshConfiguration) r := by
  refine .get_bind ?_
  split
  · exact .throw _
  · rename_i r' h
    refine .set ?_
    simp only [refreshConfiguration] at h
    split at h
    · cases h
    · cases h
      exact posts_setConfiguration _ _
    · split at h <;> cases h <;> exact posts_setConfiguration _ _

/-- An entry gets the leader's term and the next index. -/
def RawNode.own (r : RawNode) (e : LogEntry) : LogEntry :=
  { e with term := r.term, index := r.log.lastIndex + 1 }

theorem posts_appendOwn {e : LogEntry} (he : E (r.own e)) : Along (Posts S E) (appendOwn e) r := by
  refine .get_bind (.bind (posts_onLog (gains_append ?_)) fun _ r1 => .bind ?_ fun _ r2 =>
    .bind (.modify ?_) fun _ _ => .pure _)
  · intro x hx
    rw [List.mem_singleton.mp hx]
    exact he
  · split
    · exact posts_refresh
    · exact .pure _
  · split
    · exact .refl r2
    · exact .of_eq rfl rfl rfl

theorem posts_maybeAdvanceCommitWith {lj : Core Unit} (hlj : ∀ r', Along (Posts S E) lj r') :
    Along (Posts S E) (maybeAdvanceCommitWith lj) r := by
  refine .get_bind ?_
  split
  · exact .pure _
  · dsimp only
    split
    · exact .pure _
    · split
      · exact .throw _
      · split
        · exact .pure _
        · refine .bind (posts_onLog gains_commitTo) fun _ _ => .bind posts_persistHardState fun _ _ => ?_
          refine .bind (hlj _) fun _ _ => ?_
          exact .bind (.modify posts_stepDownIfRemoved) fun _ _ => .pure _

theorem posts_maybeLeaveJointWith {propose : LogEntry → Core ℕ}
    (hp : ∀ e r', e.type ≠ .normal → Along (Posts S E) (propose e) r') :
    Along (Posts S E) (maybeLeaveJointWith propose) r := by
  refine .get_bind ?_
  split
  · exact .pure _
  · split
    · exact .pure _
    · split
      · exact .throw _
      · refine .tryCatch (.bind (hp _ _ (by rintro ⟨⟩)) fun _ _ => .pure _) fun e r' _ => ?_
        split
        · split
          · exact .pure _
          · exact .throw _
        · exact .throw _

theorem posts_proposeWith {advance : Core Bool} {e : LogEntry} (he : E (r.own e))
    (ha : ∀ r', Along (Posts S E) advance r') : Along (Posts S E) (proposeWith advance e) r := by
  refine .get_bind ?_
  split
  · exact .throw _
  · refine .bind (posts_appendOwn he) fun _ _ => .bind (ha _) fun _ _ => ?_
    exact .bind (.modify posts_broadcastAppend) fun _ _ => .pure _

-- What a node appends without being asked to means nothing to the application.
variable (hE : ∀ e : LogEntry, e.type ≠ .normal → E e)

include hE

theorem posts_proposeN (n : ℕ) {e : LogEntry} (he : E (r.own e)) :
    Along (Posts S E) (proposeN n e) r := by
  induction n generalizing e r with
  | zero => exact .throw _
  | succ n ih =>
    exact posts_proposeWith he fun _ => posts_maybeAdvanceCommitWith fun _ =>
      posts_maybeLeaveJointWith fun _ _ hty => ih (hE _ hty)

theorem posts_maybeAdvanceCommit : Along (Posts S E) maybeAdvanceCommit r :=
  posts_maybeAdvanceCommitWith fun _ => posts_maybeLeaveJointWith fun _ _ hty =>
    posts_proposeN hE 1 (hE _ hty)

theorem posts_propose {e : LogEntry} (he : E (r.own e)) : Along (Posts S E) (propose e) r :=
  posts_proposeWith he fun _ => posts_maybeAdvanceCommit hE

theorem posts_proposeConfChange {target : Configuration} :
    Along (Posts S E) (proposeConfChange target) r := by
  refine .get_bind ?_
  split
  · exact .throw _
  · split
    · exact .throw _
    · split
      · exact .throw _
      · split
        · exact .throw _
        · split
          · exact .throw _
          · exact posts_propose hE (hE _ (by rintro ⟨⟩))

/-! ### Responses -/

theorem posts_recordMatch {pr : Progress} {m : Message} (hm : S m.sender) :
    Along (Posts S E) (recordMatch pr m) r := by
  refine .get_bind ?_
  split
  · refine .set_bind (.of_eq rfl rfl rfl) (.bind (posts_maybeAdvanceCommit hE) fun _ r' => .modify ?_)
    split
    · exact posts_broadcastAppend
    · split
      · exact posts_sendAppend (Or.inr hm)
      · exact .refl r'
  · refine .set ?_
    split
    · exact posts_sendAppend (Or.inr hm)
    · exact .refl r

omit hE in
theorem posts_backUp {pr : Progress} {m : Message} (hm : S m.sender) :
    Posts S E r (r.backUp pr m) := by
  simp only [backUp]
  generalize (if max 1 (r.nextAfterRejection pr m) ≤ pr.matched then pr.matched + 1
    else max 1 (r.nextAfterRejection pr m)) = next
  split
  · have h1 : Posts S E r (r.setPeer m.sender { pr with next }) := .of_eq rfl rfl rfl
    exact h1.trans (posts_sendAppend (Or.inr hm))
  · exact .refl r

theorem posts_handleAppendResponse {m : Message} (hm : S m.sender) :
    Along (Posts S E) (handleAppendResponse m) r := by
  refine .get_bind ?_
  split
  · exact .throw _
  · split
    · exact .throw _
    · dsimp only
      refine .set_bind ?_ ?_
      · split
        · exact .of_eq rfl rfl rfl
        · exact .refl r
      · split
        · exact posts_recordMatch hE hm
        · exact .set (posts_backUp hm)

theorem posts_handleSnapshotResponse {m : Message} (hm : S m.sender) :
    Along (Posts S E) (handleSnapshotResponse m) r := by
  refine .get_bind ?_
  split
  · exact .throw _
  · split
    · exact .throw _
    · refine .set_bind (.of_eq rfl rfl rfl) ?_
      split
      · exact .pure _
      · exact posts_recordMatch hE hm

/-! ### Elections -/

theorem posts_becomeLeader : Along (Posts S E) becomeLeader r := by
  refine .get_bind ?_
  split
  · exact .throw _
  · refine .set_bind (by rw [leading, reset_eq]; exact .of_eq rfl rfl rfl) ?_
    refine .bind (.mapFail (posts_onLog (gains_append ?_))) fun _ r1 =>
      .get_bind (.bind ?_ fun _ _ => ?_)
    · intro x hx
      rw [List.mem_singleton.mp hx]
      exact hE _ (by rintro ⟨⟩)
    · split
      · exact .throw _
      · exact .set (.of_eq rfl rfl rfl)
    · refine .bind (posts_maybeAdvanceCommit hE) fun _ _ => ?_
      exact .bind posts_persistHardState fun _ _ => .modify posts_broadcastAppend

omit hE in
theorem silent_recordVote (sender : NodeID) (granted : Bool) :
    Silent r (r.recordVote sender granted) := by
  rw [recordVote]
  split
  · exact .of_log rfl rfl rfl rfl
  · exact .of_log rfl rfl rfl rfl

/-- As long as the campaign is undecided nothing has happened. -/
theorem posts_tallyVotesWith {campaign : Core Unit} (hc : Along (Posts S E) campaign r) :
    Meets (tallyVotesWith campaign) r (fun done r' => Posts S E r r' ∧ (done = false → r' = r))
      fun _ r' => Posts S E r r' := by
  refine Meets.bind ?_
  rw [meets_get]
  split
  · split
    · exact Meets.bind (Meets.mono hc (fun _ _ h => ⟨h, by rintro ⟨⟩⟩) fun _ _ h => h)
    · exact Meets.bind (Meets.mono (posts_becomeLeader hE) (fun _ _ h => ⟨h, by rintro ⟨⟩⟩) fun _ _ h => h)
  · split
    · refine Meets.bind ?_
      rw [meets_set, becomeFollower, reset_eq]
      exact ⟨.of_eq rfl rfl rfl, by rintro ⟨⟩⟩
    · exact ⟨.refl r, fun _ => rfl⟩

omit hE in
theorem posts_requestVotes {campaignTerm lastTerm : ℕ} {preVote : Bool}
    (hS : ∀ v ∈ r.conf.members, v ≠ r.id → S v) :
    Posts S E r (r.requestVotes campaignTerm preVote lastTerm) := by
  refine posts_foldl fun r' _ peer hp => ?_
  split
  · exact .refl r'
  · exact posts_reply (hS peer (mem_members_of_mem_peers hp) (ne_of_mem_peers hp)) rfl

theorem posts_campaignWith {campaign : Core Unit} {preVote : Bool}
    (hS : ∀ v ∈ r.conf.members, v ≠ r.id → S v)
    (hc : ∀ r', r'.conf = r.conf → r'.id = r.id → Along (Posts S E) campaign r') :
    Along (Posts S E) (campaignWith campaign preVote) r := by
  refine .get_bind ?_
  split
  · exact .pure _
  · have hbegin : Along Silent (if preVote then becomePreCandidate else do
        becomeCandidate
        persistHardState) r := by
      split
      · refine .get_bind ?_
        split
        · exact .throw _
        · exact .set (.of_log rfl rfl rfl rfl)
      · refine .bind (.get_bind ?_) fun _ _ => silent_persistHardState
        split
        · exact .throw _
        · exact .set (by rw [standing, reset_eq]; exact .of_log rfl rfl rfl rfl)
    refine Meets.bind (Meets.mono hbegin (fun _ r1 h1 => ?_) fun _ _ h => h.posts)
    rw [meets_bind, meets_get, meets_bind, meets_set, meets_bind]
    have h2 : Silent r (r1.recordVote r1.id true) := trans_of Silent h1 (silent_recordVote _ _)
    refine Meets.mono (posts_tallyVotesWith hE (hc _ h2.conf h2.id)) (fun done r3 h3 => ?_)
      fun _ _ h => h2.posts.trans h
    split
    · exact h2.posts.trans h3.1
    · rename_i hdone
      obtain rfl := h3.2 (Bool.not_eq_true _ ▸ hdone)
      rw [meets_bind, meets_reads]
      refine ⟨fun lastTerm _ => h2.posts.trans (posts_requestVotes ?_), fun _ _ => h2.posts⟩
      rwa [h2.conf, h2.id]

theorem posts_campaignN (n : ℕ) {preVote : Bool} (hS : ∀ v ∈ r.conf.members, v ≠ r.id → S v) :
    Along (Posts S E) (campaignN n preVote) r := by
  induction n generalizing preVote r with
  | zero => exact .throw _
  | succ n ih => exact posts_campaignWith hE hS fun r' hc hid => ih (hc ▸ hid ▸ hS)

theorem posts_handleVoteResponse {m : Message} (hS : ∀ v ∈ r.conf.members, v ≠ r.id → S v) :
    Along (Posts S E) (handleVoteResponse m) r := by
  refine .get_bind ?_
  split
  · exact .throw _
  · split
    · exact .throw _
    · have hvote : Silent r (r.recordVote m.sender m.granted) := silent_recordVote _ _
      have hcamp : Along (Posts S E) (campaignN 1 false) (r.recordVote m.sender m.granted) :=
        posts_campaignN hE 1 (hvote.conf ▸ hvote.id ▸ hS)
      refine .set_bind hvote.posts (.bind ?_ fun _ _ => .pure _)
      exact Meets.mono (posts_tallyVotesWith hE hcamp) (fun _ _ h => h.1) fun _ _ h => h

omit hE in
theorem posts_handleVoteRequest {m : Message} (hm : S m.sender) :
    Along (Posts S E) (handleVoteRequest m) r := by
  have hreply : ∀ granted : Bool, Along (Posts S E) (answerVote r m granted) r := by
    intro granted
    refine .bind ?_ fun _ _ => .modify (posts_reply hm rfl)
    split
    · exact .set_bind (.of_eq rfl rfl rfl) posts_persistHardState
    · exact .pure _
  refine .get_bind (Meets.bind ?_)
  split
  · rw [meets_reads]
    exact ⟨fun granted _ => hreply granted, fun _ _ => .refl r⟩
  · exact hreply false

/-! ### Requests of a leader -/

section

omit hE

theorem posts_hear (m : Message) : Posts S E r (r.hear m) := by
  simp only [hear]
  split
  · rw [becomeFollower, reset_eq]
    exact .of_eq rfl rfl rfl
  · exact .of_eq rfl rfl rfl

theorem posts_handleAppendRequest {m : Message} (hm : S m.sender) (hes : ∀ e ∈ m.entries, E e) :
    Along (Posts S E) (handleAppendRequest m) r := by
  refine .bind (.modify (posts_hear m)) fun _ r1 => .get_bind ?_
  split
  · exact .set (posts_reply hm rfl)
  · refine .bind (posts_onLog (gains_maybeAppend hes)) fun lastNew r2 => ?_
    split
    · exact .modify (posts_reply hm rfl)
    · have hrefresh : Along (Posts S E) (refreshConfigurationIfNeeded m.entries) r2 := by
        refine .get_bind ?_
        split
        · exact .pure _
        · exact posts_refresh
      refine .bind hrefresh fun _ _ => .bind posts_persistHardState fun _ _ => ?_
      exact .modify (posts_reply hm rfl)

theorem posts_installSnapshot {m : Message} {snap : Snapshot} (hm : S m.sender) :
    Along (Posts S E) (installSnapshot m snap) r := by
  refine .tryCatch (.bind (posts_onLog gains_restore) fun _ _ => .pure _) fun e r' _ => ?_
  cases e with
  | error e =>
    dsimp only
    split
    · exact .bind (.modify (posts_reply hm rfl)) fun _ _ => .pure _
    · exact .throw _
  | panic text => exact .throw _
  | outOfFuel => exact .throw _

theorem posts_handleSnapshotRequest {m : Message} (hm : S m.sender) :
    Along (Posts S E) (handleSnapshotRequest m) r := by
  refine .bind (.modify (posts_hear m)) fun _ r1 => ?_
  split
  · exact .throw _
  · refine .get_bind ?_
    split
    · exact .set (posts_reply hm rfl)
    · refine .bind (posts_installSnapshot hm) fun installed r2 => ?_
      split
      · exact .pure _
      · refine .bind (.modify ?_) fun _ _ => .bind (.modify (.of_eq rfl rfl rfl)) fun _ _ =>
          .bind posts_persistHardState fun _ _ => .modify (posts_reply hm rfl)
        split
        · exact posts_setConfiguration _ _
        · exact .refl r2

theorem posts_readIndex {id : UInt64} : Along (Posts S E) (readIndex id) r := by
  refine .get_bind ?_
  split
  · exact .throw _
  · split
    · exact .throw _
    · dsimp only
      split
      · exact .set (.of_eq rfl rfl rfl)
      · have h1 : Posts S E r { r with pendingReads :=
            r.pendingReads ++ [⟨id, r.log.committed, fun n => n = r.id⟩] } := .of_eq rfl rfl rfl
        exact .set (h1.trans (posts_toPeers id))

theorem posts_createSnapshot {data : List UInt8} : Along (Posts S E) (createSnapshot data) r := by
  have hsave : ∀ snap : Snapshot, ∀ r' : RawNode,
      Along (Posts S E) (onLog (RaftLog.onDisk (Disk.write (·.saveSnapshot snap)))) r' :=
    fun snap r' => posts_onLog (gains_write fun mem h e he => Or.inl (mem_saveSnapshot h e he))
  refine .get_bind ?_
  dsimp only
  split
  · exact .throw _
  · split
    · exact .throw _
    · refine .bind (.mapFail (hsave _ _)) fun _ _ => ?_
      split
      · exact .pure _
      · generalize (if r.cfg.snapshotCatchUpEntries > 0 then
          r.log.applied - r.cfg.snapshotCatchUpEntries else r.log.applied) = compactTo
        refine .get_bind ?_
        split
        · exact .pure _
        · exact .bind (.mapFail (posts_onLog gains_compact)) fun _ _ => .pure _

theorem posts_applyTo {i : ℕ} : Along (Posts S E) (applyTo i) r := by
  refine posts_onLog (.get_bind ?_)
  split
  · exact .pure _
  · split
    · exact .throw _
    · exact .set fun _ he => Or.inl he

end

/-! ### The calls -/

theorem posts_tick (hS : ∀ v ∈ r.conf.members, v ≠ r.id → S v) : Along (Posts S E) tick r := by
  refine .get_bind ?_
  split
  · refine .bind (.modify (.of_eq rfl rfl rfl)) fun _ r1 => .get_bind ?_
    split
    · exact .pure _
    · refine .set ?_
      have h1 : Posts S E r1 { r1 with heartbeatElapsed := 0 } := .of_eq rfl rfl rfl
      exact ((h1.trans posts_expirePendingSnapshots).trans posts_broadcastAppend).trans
        posts_resendReads
  · refine Meets.bind ?_
    rw [meets_modify, meets_bind, meets_get]
    split
    · exact .of_eq rfl rfl rfl
    · rw [meets_bind, meets_set]
      exact Along.after (.of_eq rfl rfl rfl) (posts_campaignN hE 2 hS)

theorem posts_dispatch {m : Message} (hm : S m.sender) (hes : ∀ e ∈ m.entries, E e)
    (hS : ∀ v ∈ r.conf.members, v ≠ r.id → S v) : Along (Posts S E) (dispatch m) r := by
  rw [dispatch]
  split
  · exact posts_handleVoteRequest hm
  · exact posts_handleVoteResponse hE hS
  · exact posts_handleAppendRequest hm hes
  · exact posts_handleAppendResponse hE hm
  · exact posts_handleSnapshotRequest hm
  · exact posts_handleSnapshotResponse hE hm
  · exact .throw _

omit hE in
theorem silent_stepHigherTerm {m : Message} : Along Silent (stepHigherTerm m) r := by
  refine .get_bind ?_
  split
  · exact .pure _
  · split
    · exact .pure _
    · refine .set_bind ?_ silent_persistHardState
      rw [becomeFollower, reset_eq]
      exact .of_log rfl rfl rfl rfl

theorem posts_step {m : Message} (hS : ∀ v ∈ r.conf.members, v ≠ r.id → S v)
    (hm : m.dest = r.id ∨ m.dest = None → S m.sender) (hes : ∀ e ∈ m.entries, E e) :
    Along (Posts S E) (step m) r := by
  refine .get_bind ?_
  split
  · exact .throw _
  · rename_i hdest
    have hm := hm (by simpa [imp_iff_not_or, not_not] using hdest)
    split
    · refine Meets.bind (Meets.mono silent_stepHigherTerm (fun _ r1 h1 => ?_) fun _ _ h => h.posts)
      exact Along.after h1.posts (posts_dispatch hE hm hes (h1.conf ▸ h1.id ▸ hS))
    · split
      · refine .get_bind (.set_bind ?_ (.throw _))
        split
        · exact posts_reply hm rfl
        · exact posts_reply hm rfl
        · exact posts_reply hm rfl
        · exact .refl r
      · exact posts_dispatch hE hm hes hS

/-- What a call adds is what it was given, or means nothing to the application. -/
theorem Call.posts (c : Call) (hS : ∀ v ∈ r.conf.members, v ≠ r.id → S v)
    (hm : ∀ m, c = .step m → m.dest = r.id ∨ m.dest = None → S m.sender)
    (hes : ∀ m, c = .step m → ∀ e ∈ m.entries, E e)
    (hcmd : ∀ cmd, c = .propose cmd → E (r.own { type := .normal, command := cmd })) :
    Along (Posts S E) c.run r := by
  cases c with
  | tick => exact posts_tick hE hS
  | step m => exact posts_step hE hS (hm m rfl) (hes m rfl)
  | propose cmd => exact .bind (posts_propose hE (hcmd cmd rfl)) fun _ _ => .pure _
  | proposeConfChange target => exact .bind (posts_proposeConfChange hE) fun _ _ => .pure _
  | readIndex id => exact posts_readIndex
  | readStates => exact .of_eq rfl rfl rfl
  | messages => exact ⟨rfl, by rintro _ ⟨⟩, refl_of (Gains E) r.log⟩
  | applyTo i => exact posts_applyTo
  | createSnapshot data => exact .bind posts_createSnapshot fun _ _ => .pure _
  | snapshotToApply => exact .of_eq rfl rfl rfl
  | campaign => exact .get_bind (posts_campaignN hE 2 hS)

end RaftStore.Raft
