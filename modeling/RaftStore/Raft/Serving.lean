import RaftStore.Raft.Process

/-! What a leader sends to a peer: the entries from `next` on, or its snapshot when they are gone.
The consistency check at index 0 succeeds even when the log has been compacted, so a peer that needs
the very first entry of a compacted log is sent nothing. -/

namespace RaftStore.Raft

open RawNode

/-- The message is the append request that brings a peer from `next` on: the leader's entries from
there, as many as there are and fit in one message. -/
structure RawNode.Appends (r : RawNode) (next : ℕ) (m : Message) : Prop where
  type : m.type = .appendReq
  prevLogIndex : m.prevLogIndex = next - 1
  prevLogTerm : r.log.term (next - 1) = .ok m.prevLogTerm
  length : m.entries.length = min r.log.lastIndex (next + r.maxEntriesPerMessage - 1) + 1 - next
  entries : ∀ k e, m.entries[k]? = some e → r.log.mem.getEntry (next + k) = .ok e

/-- The message is the leader's snapshot, for a peer whose entries have been compacted away. -/
structure RawNode.Ships (r : RawNode) (next : ℕ) (m : Message) : Prop where
  compacted : next < r.log.firstIndex
  type : m.type = .snapshotReq
  snapshot : m.snapshot = some r.log.mem.snapshot

/-- Sending to a peer puts exactly one message in the outbox, and it is the right one. -/
def RawNode.Serves (r : RawNode) (dest : NodeID) (next : ℕ) : Prop :=
  ∃ m, (r.sendAppend dest).msgs = r.msgs ++ [m] ∧ m.dest = dest ∧
    (r.Appends next m ∨ r.Ships next m)

section

variable {r : RawNode} {dest : NodeID} {pr : Progress}

theorem maxEntriesPerMessage_pos (r : RawNode) : 1 ≤ r.maxEntriesPerMessage := by
  simp only [maxEntriesPerMessage, defaultMaxEntriesPerMessage]
  split <;> omega

theorem not_serves_of_silent {next : ℕ} (h : r.sendAppend dest = r) : ¬ r.Serves dest next := by
  rintro ⟨m, hm, -⟩
  rw [h] at hm
  simpa using congrArg List.length hm

/-- The entries that a peer within the log needs are sent when the log still has them. -/
theorem serves_entries (hp : r.peer dest = some pr) (h0 : pr.pendingSnapshot = 0)
    (h1 : r.log.firstIndex ≤ pr.next) (h2 : pr.next ≤ r.log.lastIndex + 1) :
    r.Serves dest pr.next := by
  have hfirst : r.log.firstIndex = r.log.mem.offset + 1 := rfl
  obtain ⟨t, ht⟩ := RaftLog.term_ok (l := r.log) (i := pr.next - 1) (by omega) (by omega)
  have hmax := maxEntriesPerMessage_pos r
  obtain ⟨es, hes, hlen, hat⟩ : ∃ es, r.entriesFrom pr.next = .ok es ∧
      es.length = min r.log.lastIndex (pr.next + r.maxEntriesPerMessage - 1) + 1 - pr.next ∧
      ∀ k e, es[k]? = some e → r.log.mem.getEntry (pr.next + k) = .ok e := by
    simp only [entriesFrom]
    split
    · rw [RaftLog.entries, if_neg (by omega), if_neg (by omega)]
      obtain ⟨es, hes, hlen, hat⟩ := MemoryStorage.entries_eq_ok (m := r.log.mem) pr.next
        (min (r.log.lastIndex + 1) (pr.next + r.maxEntriesPerMessage)) h1 (min_le_left _ _)
        (by omega)
      exact ⟨es, hes, by omega, hat⟩
    · exact ⟨[], rfl, by rw [List.length_nil]; omega, by simp⟩
  let m : Message :=
    { type := .appendReq, dest, prevLogIndex := pr.next - 1, prevLogTerm := t, entries := es,
      leaderCommit := r.log.committed, readID := 0 }
  refine ⟨r.stamp m, ?_, rfl, Or.inl ⟨rfl, rfl, ht, hlen, hat⟩⟩
  simp only [sendAppend, sendAppendWithRead, hp, h0, ne_eq, not_true_eq_false, if_false, ht, hes]
  rfl

/-- A peer behind the log is sent the snapshot, unless it needs the log from its beginning. -/
theorem serves_snapshot (hr : r.Wf) (hp : r.peer dest = some pr) (h0 : pr.pendingSnapshot = 0)
    (h1 : 2 ≤ pr.next) (h2 : pr.next < r.log.firstIndex) : r.Serves dest pr.next := by
  have hfirst : r.log.firstIndex = r.log.mem.offset + 1 := rfl
  have hbase : r.log.mem.offset ≤ r.log.mem.snapshot.lastIncludedIndex := hr.log.base_le
  have hterm : ∃ e, r.log.term (pr.next - 1) = .error e := by
    rw [RaftLog.term, if_neg (by omega), MemoryStorage.term, if_pos (by omega)]
    exact ⟨_, rfl⟩
  obtain ⟨e, hterm⟩ := hterm
  have hsnap : r.log.mem.snapshot.isEmpty = false := by
    simp only [Snapshot.isEmpty, decide_eq_false_iff_not]
    omega
  refine ⟨r.stamp { type := .snapshotReq, dest, snapshot := some r.log.mem.snapshot }, ?_, rfl,
    Or.inr ⟨h2, rfl, rfl⟩⟩
  simp only [sendAppend, sendAppendWithRead, sendSnapshot, hp, h0, ne_eq, not_true_eq_false,
    if_false, hterm, hsnap, Bool.false_eq_true]
  rfl

/-- Beyond the log nothing is right: the snapshot may be sent, but nothing has been compacted. -/
theorem not_serves_beyond (hp : r.peer dest = some pr) (h0 : pr.pendingSnapshot = 0)
    (h : r.log.lastIndex + 1 < pr.next) : ¬ r.Serves dest pr.next := by
  have hlast : r.log.lastIndex = r.log.mem.offset + r.log.mem.ents.length := rfl
  have hfirst : r.log.firstIndex = r.log.mem.offset + 1 := rfl
  have hterm : ∃ e, r.log.term (pr.next - 1) = .error e := by
    rw [RaftLog.term, if_neg (by omega), MemoryStorage.term, if_neg (by omega), if_pos]
    · exact ⟨_, rfl⟩
    · change _ > r.log.lastIndex
      omega
  obtain ⟨e, hterm⟩ := hterm
  have hsend : r.sendAppend dest = r.sendSnapshot dest := by
    simp only [sendAppend, sendAppendWithRead, hp, h0, ne_eq, not_true_eq_false, if_false, hterm]
  cases hsnap : r.log.mem.snapshot.isEmpty with
  | true =>
    refine not_serves_of_silent (hsend.trans ?_)
    simp only [sendSnapshot, hp, h0, ne_eq, not_true_eq_false, if_false, hsnap, if_true]
  | false =>
    rintro ⟨m, hm, -, hkind⟩
    have hm' : (r.sendAppend dest).msgs = r.msgs ++
        [r.stamp { type := .snapshotReq, dest, snapshot := some r.log.mem.snapshot }] := by
      rw [hsend]
      simp only [sendSnapshot, hp, h0, ne_eq, not_true_eq_false, if_false, hsnap,
        Bool.false_eq_true]
      rfl
    obtain rfl := List.singleton_inj.mp (List.append_cancel_left (hm.symm.trans hm'))
    rcases hkind with h | h
    · cases h.type
    · have := h.compacted
      omega

/-- The check at index 0 passes, but the entries after it cannot be read. -/
theorem not_serves_first (hp : r.peer dest = some pr) (h0 : pr.pendingSnapshot = 0)
    (h1 : pr.next = 1) (h2 : r.log.firstIndex ≠ 1) : ¬ r.Serves dest pr.next := by
  have hlast : r.log.lastIndex = r.log.mem.offset + r.log.mem.ents.length := rfl
  have hfirst : r.log.firstIndex = r.log.mem.offset + 1 := rfl
  have hmax := maxEntriesPerMessage_pos r
  have hents : ∃ e, r.entriesFrom pr.next = .error e := by
    simp only [entriesFrom]
    rw [if_pos (by omega), RaftLog.entries, if_neg (by omega), if_neg (by omega),
      MemoryStorage.entries, if_neg (by omega), if_pos]
    · exact ⟨_, rfl⟩
    · change _ < r.log.firstIndex
      omega
  obtain ⟨e, hents⟩ := hents
  have hterm : r.log.term (pr.next - 1) = .ok 0 := by rw [h1]; rfl
  refine not_serves_of_silent ?_
  simp only [sendAppend, sendAppendWithRead, hp, h0, ne_eq, not_true_eq_false, if_false, hterm,
    hents]

end

/-! ### The next index of a peer -/

/-- No peer is expected to need more than what follows the log, or what follows `k`. -/
def RawNode.NextWithin (k : ℕ) (r : RawNode) : Prop :=
  ∀ id p, r.peer id = some p → p.next ≤ max k r.log.lastIndex + 1

section

variable {c : Call} {k : ℕ} {r r' : RawNode}

theorem nextWithin_of_none (h : r.progress = none) : r.NextWithin k := by
  intro id p hp
  rw [peer, h] at hp
  cases hp

theorem RawNode.NextWithin.setPeer (h : r.NextWithin k) {id : NodeID} {p : Progress}
    (hp : p.next ≤ max k r.log.lastIndex + 1) : (r.setPeer id p).NextWithin k := by
  intro v q hq
  rw [peer_setPeer] at hq
  split at hq
  · obtain ⟨_, -, rfl⟩ := Option.map_eq_some_iff.mp hq
    exact hp
  · exact h v q hq

/-- A new configuration takes up peers at the end of the log. -/
theorem RawNode.NextWithin.reconf {r₁ : RawNode} (h : r₁.NextWithin k) (hrec : r₁.Reconf r') :
    r'.NextWithin k := by
  intro id p hp
  have hlog : r'.log = r₁.log := by rw [hrec.eq]
  rw [hlog]
  rcases hrec.peer id p hp with hp | ⟨hnext, -⟩
  · exact h id p hp
  · omega

theorem RawNode.NextWithin.withMem (h : r.NextWithin k) {mem : MemoryStorage}
    (hm : r.log.mem.lastIndex ≤ mem.lastIndex) : (r.withMem mem).NextWithin k := by
  intro id p hp
  have hle := h id p hp
  change p.next ≤ max k mem.lastIndex + 1
  change p.next ≤ max k r.log.mem.lastIndex + 1 at hle
  omega

/-- Only what a peer says it holds can bring its next index past the end of the log. -/
theorem RawNode.NextWithin.effect (h : r.NextWithin k) (hr : r.Wf)
    (hm : ∀ m, c = .step m → m.matchIndex ≤ k) (he : Effect c r r') : r'.NextWithin k := by
  have hfollower : ∀ r₁ : RawNode, r.state = .follower → r₁.Reconf r' →
      r₁.progress = r.progress → r'.NextWithin k := by
    intro r₁ hs hrec hpr
    refine NextWithin.reconf (nextWithin_of_none ?_) hrec
    rw [hpr, ← Option.not_isSome_iff_eq_none]
    intro hsome
    have := hr.tracked hsome
    rw [hs] at this
    cases this
  cases he with
  | adopt m lead hc ht =>
    rw [becomeFollower, reset_eq]
    exact nextWithin_of_none rfl
  | resign lead =>
    rw [becomeFollower, reset_eq]
    exact nextWithin_of_none rfl
  | stand =>
    rw [standing, reset_eq]
    exact nextWithin_of_none rfl
  | lead hst hq =>
    rw [leading, reset_eq, if_pos rfl]
    intro id p hp
    simp only [peer, Option.bind_some] at hp
    split at hp
    · cases hp
      exact Nat.succ_le_succ (le_max_right _ _)
    · cases hp
  | extend e ha hst ht hi =>
    have hgrown : (r.withMem { r.log.mem with ents := r.log.mem.ents ++ [e] }).NextWithin k := by
      refine h.withMem ?_
      simp [MemoryStorage.lastIndex, MemoryStorage.offset]
    rw [extended]
    split
    · exact hgrown.reconf (refreshed_reconf _)
    · exact hgrown
  | ownMatch p hp => exact h.setPeer (Nat.succ_le_succ (le_max_right _ _))
  | setMatch m p hc =>
    exact h.setPeer (Nat.succ_le_succ ((hm m hc).trans (le_max_left _ _)))
  | setNext id p p' hp _ _ hle => exact h.setPeer (hle.trans (h id p hp))
  | follow m l committed hc hty ht hst => exact hfollower _ hst (refreshedIfNeeded_reconf _ _) rfl
  | restore m snap mem hc hty ht hst => exact hfollower _ hst (restored_reconf ..) rfl
  | saveSnapshot data term mem hc ht h0 hsave =>
    obtain ⟨hb, he⟩ := RaftLog.saveSnapshot_own h0 ht hsave
    refine h.withMem ?_
    rw [MemoryStorage.lastIndex, MemoryStorage.lastIndex, MemoryStorage.offset, MemoryStorage.offset,
      hb, he]
  | compact upto mem data hc hu hcf hcm =>
    refine h.withMem ?_
    rcases MemoryStorage.compact_ok hr.log.inOrder hcm with ⟨-, rfl⟩ | ⟨h1, h2, -, -, hb, -, hen⟩
    · exact le_rfl
    · simp only [MemoryStorage.lastIndex, MemoryStorage.offset] at h1 h2 hen ⊢
      rw [hb, hen, List.length_drop]
      omega
  | _ => exact h

theorem nextWithin_of_run {acts : List Act} (hacts : ∀ m, Delivered acts m → m.matchIndex ≤ k)
    (hr : (Slot.down {}).run acts = .up r) : r.NextWithin k :=
  Slot.of_delivered hacts hr (fun _ _ _ hw hc h he => h.effect hw hc he) fun _ _ _ hnew =>
    nextWithin_of_none (started_of_new hnew).progress

end

/-- A tracked peer is served exactly when it is not beyond the log, and does not need the first
entry of a log that has been compacted.  The next index of the peer is a word, as the code has it, as
long as no message confirms the last index that a word can hold and the log leaves room for a
message. -/
theorem sendAppend_serves_iff {acts : List Act} (hacts : ∀ m, Delivered acts m → InRange m.matchIndex)
    {r : RawNode} (hr : (Slot.down {}).run acts = .up r)
    (hlog : InRange (r.log.lastIndex + r.maxEntriesPerMessage)) {dest : NodeID} {pr : Progress}
    (hp : r.peer dest = some pr) (h0 : pr.pendingSnapshot = 0) :
    pr.next < 2 ^ 64 ∧ (r.Serves dest pr.next ↔
      pr.next ≤ r.log.lastIndex + 1 ∧ (2 ≤ pr.next ∨ r.log.firstIndex = 1)) := by
  have hw := Slot.wf_of_run hr
  have hpos := hw.next_pos dest pr hp
  have hword : pr.next < 2 ^ 64 := by
    have hnext := nextWithin_of_run (k := 2 ^ 64 - 2)
      (fun m hm => by have := hacts m hm; simp only [InRange] at this; omega) hr dest pr hp
    simp only [InRange] at hlog
    omega
  refine ⟨hword, ?_⟩
  constructor
  · intro hs
    refine ⟨?_, ?_⟩
    · by_contra hgt
      exact not_serves_beyond hp h0 (by omega) hs
    · by_contra hone
      simp only [not_or] at hone
      exact not_serves_first hp h0 (by omega) hone.2 hs
  · rintro ⟨hle, hnext⟩
    by_cases hfirst : r.log.firstIndex ≤ pr.next
    · exact serves_entries hp h0 hfirst hle
    · exact serves_snapshot hw hp h0 (by omega) (by omega)

/-- The first of three nodes is elected and commits its empty entry with the second; the third has
not answered. -/
def elected : List Act :=
  [.start { id := 1, electionTick := 2, heartbeatTick := 1, bootstrap := { voters := [1, 2, 3] } },
   .call .tick [], .call .tick [],
   .call (.step { type := .voteResp, sender := 2, dest := 1, term := 1, granted := true }) [],
   .call (.step { type := .appendResp, sender := 2, dest := 1, term := 1, success := true,
                  matchIndex := 1 }) []]

theorem sendAppend_serves_elected :
    ∃ r pr, (Slot.down {}).run elected = .up r ∧ r.state = .leader ∧ r.peer 3 = some pr ∧
      r.Serves 3 pr.next := by
  have hacts : ∀ m, Delivered elected m → InRange m.matchIndex := by
    rintro m ⟨faults, hm⟩
    simp only [elected, List.mem_cons, List.not_mem_nil, or_false, reduceCtorEq, Act.call.injEq,
      Call.step.injEq, false_or, false_and] at hm
    rcases hm with ⟨rfl, -⟩ | ⟨rfl, -⟩ <;> decide
  obtain ⟨r, hr, ht⟩ := Slot.exists_up (s := (Slot.down {}).run elected)
    (fun r => r.state = .leader ∧ r.log.firstIndex = 1 ∧
      InRange (r.log.lastIndex + r.maxEntriesPerMessage) ∧ ((r.peer 3).any fun pr =>
      pr.pendingSnapshot = 0 ∧ pr.next ≤ r.log.lastIndex + 1)) (by decide +kernel)
  simp only [decide_eq_true_eq, Option.any_eq_true] at ht
  obtain ⟨hl, hf, hroom, pr, hp, h0, hle⟩ := ht
  exact ⟨r, pr, hr, hl, hp,
    (sendAppend_serves_iff hacts hr hroom hp h0).2.mpr ⟨hle, Or.inr hf⟩⟩

/-- Once the leader has compacted its log, the third node is never sent anything. -/
theorem sendAppend_silent :
    ∃ r pr, (Slot.down {}).run (elected ++ [.call (.applyTo 1) [], .call (.createSnapshot []) []]) =
      .up r ∧ r.state = .leader ∧ r.peer 3 = some pr ∧ pr.pendingSnapshot = 0 ∧ pr.next = 1 ∧
      r.log.mem.snapshot.lastIncludedIndex = 1 ∧ ¬ r.Serves 3 pr.next ∧
      (r.sendAppend 3).msgs = r.msgs := by
  obtain ⟨r, hr, ht⟩ := Slot.exists_up
    (s := (Slot.down {}).run (elected ++ [.call (.applyTo 1) [], .call (.createSnapshot []) []]))
    (fun r => r.state = .leader ∧ r.log.firstIndex = 2 ∧
      r.log.mem.snapshot.lastIncludedIndex = 1 ∧ (r.sendAppend 3).msgs = r.msgs ∧
      ((r.peer 3).any fun pr => pr.pendingSnapshot = 0 ∧ pr.next = 1)) (by decide)
  simp only [decide_eq_true_eq, Option.any_eq_true] at ht
  obtain ⟨hl, hf, hsnap, hsame, pr, hp, h0, h1⟩ := ht
  exact ⟨r, pr, hr, hl, hp, h0, h1, hsnap, not_serves_first hp h0 h1 (by omega), hsame⟩

end RaftStore.Raft
