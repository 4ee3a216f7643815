import RaftStore.Raft.Process
import RaftStore.Raft.Frame

/-! Nothing is promised before it is on disk.  The journal of a node pairs every message it has put
in its outbox with the storage of that moment; what the message promises must already be there. -/

namespace RaftStore.Raft

open Lib RawNode

/-- The log or the snapshot reaches as far as `k`. -/
def MemoryStorage.Reaches (st : MemoryStorage) (k : ℕ) : Prop :=
  k ≤ st.lastIndex ∨ k ≤ st.snapshot.lastIncludedIndex

/-- An append request whose entries are not the ones right after the entry that it names. -/
def Message.Malformed (m : Message) : Prop :=
  m.type = .appendReq ∧ ¬Contiguous (m.prevLogIndex + 1) m.entries

/-- The storage holds what the message promises: the term it was sent in, the vote it grants, and
the log that it acknowledges.  How far the log reaches is not promised by the answer to a malformed
request among those that were delivered. -/
structure Backed (delivered : Message → Prop) (m : Message) (st : MemoryStorage) : Prop where
  term : m.preVote = false → m.term ≤ st.hardState.term
  vote : m.type = .voteResp → m.granted = true → m.preVote = false →
    m.term < st.hardState.term ∨ m.term = st.hardState.term ∧ st.hardState.vote = m.dest
  reply : m.type = .appendResp ∨ m.type = .snapshotResp → m.success = true →
    m.term ≤ st.hardState.term
  snapshot : m.type = .snapshotResp → m.success = true → st.Reaches m.matchIndex
  append : m.type = .appendResp → m.success = true → st.Reaches m.matchIndex ∨
    ∃ req, delivered req ∧ req.Malformed ∧ m.dest = req.sender ∧
      m.matchIndex = req.prevLogIndex + req.entries.length

section

variable {D : Message → Prop} {c : Call} {r r' : RawNode}

/-- A log that holds a request reaches as far as the request. -/
theorem RawNode.HoldsRequest.le_lastIndex {req : Message} (h : r.HoldsRequest req)
    (hc : Contiguous (req.prevLogIndex + 1) req.entries) :
    req.prevLogIndex + req.entries.length ≤ r.log.lastIndex := by
  obtain ⟨hprev, hents⟩ := h
  rcases List.eq_nil_or_concat req.entries with hnil | ⟨init, e, heq⟩
  · rw [hnil, List.length_nil, Nat.add_zero]
    exact RaftLog.le_lastIndex_of_term (RaftLog.matchTerm_eq.mp hprev)
  · rw [List.concat_eq_append] at heq
    have hidx : e.index = req.prevLogIndex + 1 + init.length :=
      hc init.length e (by simp [heq])
    have hle : e.index ≤ r.log.lastIndex :=
      RaftLog.le_lastIndex_of_term (RaftLog.matchTerm_eq.mp (hents e (by simp [heq])))
    rw [heq, List.length_append, List.length_singleton]
    omega

/-- What promises nothing but its term. -/
theorem backed_of_term {m : Message} {st : MemoryStorage} (ht : m.term ≤ st.hardState.term)
    (hg : m.granted = false) (hs : m.success = false) : Backed D m st where
  term _ := ht
  vote _ h := by
    rw [hg] at h
    cases h
  reply _ h := by
    rw [hs] at h
    cases h
  snapshot _ h := by
    rw [hs] at h
    cases h
  append _ h := by
    rw [hs] at h
    cases h

theorem backed_ack {m : Message} {st : MemoryStorage} (ht : m.term ≤ st.hardState.term)
    (hty : m.type ≠ .voteResp) (hk : st.Reaches m.matchIndex) : Backed D m st where
  term _ := ht
  vote h := absurd h hty
  reply _ _ := ht
  snapshot _ _ := hk
  append _ _ := .inl hk

/-- A node only sends what its storage backs. -/
theorem Sendable.backed (hr : r.Wf) (hD : ∀ m, c = .step m → D m) {m : Message}
    (hm : Sendable c r m) : Backed D (r.stamp m) r.log.mem := by
  have hterm : ∀ t, t = 0 ∨ t = r.term → (if t = 0 then r.term else t) ≤ r.log.mem.hardState.term := by
    intro t ht
    rw [hr.term_eq]
    split <;> omega
  cases hm with
  | pollReq => exact ⟨nofun, nofun, nofun, nofun, nofun⟩
  | pollResp => exact ⟨nofun, nofun, nofun, nofun, nofun⟩
  | voteReq => exact backed_of_term (hterm _ (Or.inr rfl)) rfl rfl
  | refuse dest term ht => exact backed_of_term (hterm _ ht) rfl rfl
  | grant req hreq hvote =>
    refine ⟨fun _ => hterm _ (Or.inr rfl), fun _ _ _ => Or.inr ⟨?_, ?_⟩, nofun, nofun, nofun⟩
    · rw [hr.term_eq]
      simp [stamp]
    · exact hr.vote_eq.trans hvote.symm
  | append => exact backed_of_term (hterm _ (Or.inl rfl)) rfl rfl
  | snapshot => exact backed_of_term (hterm _ (Or.inl rfl)) rfl rfl
  | stale => exact backed_of_term (hterm _ (Or.inl rfl)) rfl rfl
  | reject => exact backed_of_term (hterm _ (Or.inl rfl)) rfl rfl
  | ack req k hreq hty ht hk =>
    rcases hk with rfl | ⟨rfl, hholds⟩
    · exact backed_ack (hterm _ (Or.inl rfl)) nofun (.inl hr.log.committed_le)
    · by_cases hcont : Contiguous (req.prevLogIndex + 1) req.entries
      · exact backed_ack (hterm _ (Or.inl rfl)) nofun (.inl ((hholds hcont).le_lastIndex hcont))
      · refine ⟨fun _ => hterm _ (Or.inl rfl), nofun, fun _ _ => hterm _ (Or.inl rfl), nofun,
          fun _ _ => .inr ⟨req, hD req hreq, ⟨hty, hcont⟩, rfl, rfl⟩⟩
  | snapshotAck => exact backed_ack (hterm _ (Or.inl rfl)) nofun (.inl hr.log.committed_le)

/-- The outbox is remembered in the journal, and the journal is backed. -/
structure Durable (D : Message → Prop) (r : RawNode) : Prop where
  journal : ∀ p ∈ r.journal, Backed D p.1 p.2
  recorded : ∀ m ∈ r.msgs, ∃ st, (m, st) ∈ r.journal

theorem Durable.effect (h : Durable D r) (hr : r.Wf) (hD : ∀ m, c = .step m → D m)
    (he : Effect c r r') : Durable D r' :=
  ⟨he.outbox.journal h.journal fun _ hm => hm.backed hr hD, he.outbox.recorded h.recorded⟩

theorem Durable.reach (h : Durable D r) (hr : r.Wf) (hD : ∀ m, c = .step m → D m)
    (hk : Reach c r r') : Durable D r' := by
  induction hk with
  | refl => exact h
  | tail hb he ih => exact ih.effect (Reach.wf hb hr) hD he

/-- Also in a call that ends the process, nothing was sent that is not backed. -/
theorem Durable.outcome (h : Durable D r) (hr : r.Wf) (hD : ∀ m, c = .step m → D m)
    (faults : List Bool) : ∀ p ∈ (c.outcome (r.withFaults faults)).journal, Backed D p.1 p.2 := by
  have h1 := reach_withFaults (c := c) r faults
  have hd := h.reach hr hD h1
  refine Call.outcome_of_meets (P := fun r' => ∀ p ∈ r'.journal, Backed D p.1 p.2)
    (Meets.mono (c.meets_run (h1.wf hr)) (fun _ _ hk => (hd.reach (h1.wf hr) hD hk).journal)
      fun e r' hk => ?_)
  split at hk
  · obtain ⟨r'', hr'', -, hj, -⟩ := hk
    rw [← hj]
    exact (hd.reach (h1.wf hr) hD hr'').journal
  · exact (hd.reach (h1.wf hr) hD hk).journal

/-- In every run a node that runs is durable. -/
theorem Durable.run {acts : List Act} (hD : ∀ m, Delivered acts m → D m)
    (hr : (Slot.down {}).run acts = .up r) : Durable D r := by
  refine Slot.of_delivered hD hr (fun _ _ _ hw hc h he => h.effect hw hc he) fun _ _ _ hnew => ?_
  have hst := started_of_new hnew
  refine ⟨?_, ?_⟩
  · rw [hst.journal]
    exact fun _ h => nomatch h
  · rw [hst.msgs]
    exact fun _ h => nomatch h

end

end RaftStore.Raft
