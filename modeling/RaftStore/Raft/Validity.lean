import RaftStore.Raft.Backing
import RaftStore.Consensus.Invariant

/-! What a message says about the past.  A message that was ever sent stays true: it speaks of the
history only, and the history only grows.  So it does not matter when, how often or in which order
messages are delivered. -/

namespace RaftStore.Raft

open Consensus

abbrev Past := History NodeID LogEntry

/-- The rules of membership for these nodes and entries. -/
structure Membership where
  isConf : LogEntry → Prop
  admits : List LogEntry → LogEntry → Prop
  Quorum : List LogEntry → Set NodeID → Prop
  overlap : ∀ l l', Compatible LogEntry.term isConf admits l l' →
    ∀ Q Q', Quorum l Q → Quorum l' Q' → (Q ∩ Q').Nonempty

abbrev Membership.rules (M : Membership) : Rules NodeID LogEntry :=
  ⟨LogEntry.term, M.isConf, M.admits, M.Quorum, M.overlap⟩

/-- At least `k` entries were committed by term `t`. -/
def CommittedBy (H : Past) (t k : ℕ) : Prop :=
  k = 0 ∨ ∃ t0 q l, t0 ≤ t ∧ H.commit t0 q l ∧ k ≤ q.length

/-- The node has acknowledged the first `k` entries of the log of term `t`'s leader. -/
def Acked (H : Past) (v : NodeID) (t k : ℕ) : Prop :=
  ∃ n p, H.leader t = some n ∧ p <+: H.log t ∧ p.length = k ∧ ∀ q, q <+: p → H.ack v t q

/-- `p` is a beginning of the log of term `t`'s leader. -/
structure Led (H : Past) (t : ℕ) (p : List LogEntry) : Prop where
  contiguous : Contiguous 1 p
  leader : ∃ n, H.leader t = some n
  le : p <+: H.log t

def Holds (H : Past) (m : Message) : Prop :=
  match m.type with
  | .voteReq => m.preVote = false → ∃ cl, H.cand m.term m.sender = some cl ∧
      m.lastLogIndex = cl.length ∧ m.lastLogTerm = lastTerm LogEntry.term cl
  | .voteResp => m.preVote = false → m.granted = true →
      m.dest ≠ None ∧ ∃ vl, H.vote m.sender m.term = some (m.dest, vl)
  | .appendReq => H.leader m.term = some m.sender ∧ CommittedBy H m.term m.leaderCommit ∧
      ∃ p, Led H m.term p ∧ p.length = m.prevLogIndex + m.entries.length ∧
        m.entries = p.drop m.prevLogIndex ∧ m.prevLogTerm = termAt p m.prevLogIndex
  | .appendResp | .snapshotResp => m.success = true → Acked H m.sender m.term m.matchIndex
  | .snapshotReq => (∃ n, H.leader m.term = some n) ∧ ∀ snap, m.snapshot = some snap →
      CommittedBy H m.term snap.lastIncludedIndex ∧
        ∃ p, Led H m.term p ∧ p.length = snap.lastIncludedIndex ∧
          snap.lastIncludedTerm = lastTerm LogEntry.term p
  | .unknown _ => True

/-- The message comes from a node, and what it says is true. -/
structure Valid (H : Past) (m : Message) : Prop where
  sender_ne : m.sender ≠ None
  holds : Holds H m

variable {H H' : Past} {v : NodeID}

theorem CommittedBy.mono {t k : ℕ} (h : CommittedBy H t k) (hg : Grows v H H') :
    CommittedBy H' t k := by
  rcases h with h | ⟨t0, q, l, h0, hc, hk⟩
  · exact Or.inl h
  · exact Or.inr ⟨t0, q, l, h0, hg.commit hc, hk⟩

theorem CommittedBy.le {t k k' : ℕ} (h : CommittedBy H t k) (hk : k' ≤ k) : CommittedBy H t k' := by
  rcases h with h | ⟨t0, q, l, h0, hc, hq⟩
  · exact Or.inl (by omega)
  · exact Or.inr ⟨t0, q, l, h0, hc, hk.trans hq⟩

theorem Acked.mono {u : NodeID} {t k : ℕ} (h : Acked H u t k) (hg : Grows v H H') :
    Acked H' u t k := by
  obtain ⟨n, p, hn, hp, hk, ha⟩ := h
  exact ⟨n, p, hg.leader hn, hp.trans (hg.log hn), hk, fun q hq => hg.ack (ha q hq)⟩

theorem Led.mono {t : ℕ} {p : List LogEntry} (h : Led H t p) (hg : Grows v H H') : Led H' t p := by
  obtain ⟨hc, ⟨n, hn⟩, hp⟩ := h
  exact ⟨hc, ⟨n, hg.leader hn⟩, hp.trans (hg.log hn)⟩

theorem Holds.mono {m : Message} (h : Holds H m) (hg : Grows v H H') : Holds H' m := by
  unfold Holds at h ⊢
  split <;> rename_i hty <;> simp only [hty] at h
  · intro hp
    obtain ⟨cl, hc, h1, h2⟩ := h hp
    exact ⟨cl, hg.cand hc, h1, h2⟩
  · intro hp hgr
    obtain ⟨hd, vl, hv⟩ := h hp hgr
    exact ⟨hd, vl, hg.vote hv⟩
  · obtain ⟨hn, hc, p, hp, h1, h2, h3⟩ := h
    exact ⟨hg.leader hn, hc.mono hg, p, hp.mono hg, h1, h2, h3⟩
  · exact fun hsucc => (h hsucc).mono hg
  · exact fun hsucc => (h hsucc).mono hg
  · obtain ⟨⟨n, hn⟩, h⟩ := h
    refine ⟨⟨n, hg.leader hn⟩, fun snap hs => ?_⟩
    obtain ⟨hc, p, hp, h1, h2⟩ := h snap hs
    exact ⟨hc.mono hg, p, hp.mono hg, h1, h2⟩
  · trivial

theorem Valid.mono {m : Message} (h : Valid H m) (hg : Grows v H H') : Valid H' m :=
  ⟨h.sender_ne, h.holds.mono hg⟩

namespace Valid

variable {m : Message}

theorem voteReq (h : Valid H m) (hty : m.type = .voteReq) (hp : m.preVote = false) :
    ∃ cl, H.cand m.term m.sender = some cl ∧
      m.lastLogIndex = cl.length ∧ m.lastLogTerm = lastTerm LogEntry.term cl := by
  have := h.holds
  simp only [Holds, hty] at this
  exact this hp

theorem voteResp (h : Valid H m) (hty : m.type = .voteResp) (hp : m.preVote = false)
    (hgr : m.granted = true) :
    m.dest ≠ None ∧ ∃ vl, H.vote m.sender m.term = some (m.dest, vl) := by
  have := h.holds
  simp only [Holds, hty] at this
  exact this hp hgr

theorem appendReq (h : Valid H m) (hty : m.type = .appendReq) :
    H.leader m.term = some m.sender ∧ CommittedBy H m.term m.leaderCommit ∧
      ∃ p, Led H m.term p ∧ p.length = m.prevLogIndex + m.entries.length ∧
        m.entries = p.drop m.prevLogIndex ∧ m.prevLogTerm = termAt p m.prevLogIndex := by
  have := h.holds
  simpa only [Holds, hty] using this

theorem response (h : Valid H m) (hty : m.type = .appendResp ∨ m.type = .snapshotResp)
    (hs : m.success = true) : Acked H m.sender m.term m.matchIndex := by
  have := h.holds
  rcases hty with hty | hty <;> simp only [Holds, hty] at this <;> exact this hs

theorem snapshotReq (h : Valid H m) (hty : m.type = .snapshotReq) :
    (∃ n, H.leader m.term = some n) ∧ ∀ snap, m.snapshot = some snap →
      CommittedBy H m.term snap.lastIncludedIndex ∧
        ∃ p, Led H m.term p ∧ p.length = snap.lastIncludedIndex ∧
          snap.lastIncludedTerm = lastTerm LogEntry.term p := by
  have := h.holds
  simpa only [Holds, hty] using this

end Valid

/-! ### What a request tells a node -/

section Requests

variable {M : Membership} {x : Node LogEntry}

/-- What a node knows to be committed is in the log of its term's leader. -/
theorem done_prefix_log (hH : H.OK M.rules) (hx : NodeOK M.rules H v x) {n : NodeID}
    (hn : H.leader x.term = some n) : x.done <+: H.log x.term := by
  by_cases hne : x.done = []
  · rw [hne]
    exact List.nil_prefix
  · obtain ⟨t, p, l, ht, hc, hp⟩ := hx.done_ok hne
    exact hp.trans (hH.commit_prefix_log ht hc hn)

theorem committedBy_of_done (hx : NodeOK M.rules H v x) {k : ℕ} (hk : k ≤ x.done.length) :
    CommittedBy H x.term k := by
  by_cases hne : x.done = []
  · rw [hne] at hk
    exact Or.inl (Nat.le_zero.mp hk)
  · obtain ⟨t, p, l, ht, hc, hp⟩ := hx.done_ok hne
    exact Or.inr ⟨t, p, l, ht, hc, hk.trans hp.length_le⟩

/-- A node that has the same term as the leader at an index has the same log up to it. -/
theorem take_eq_of_term (hH : H.OK M.rules) (hx : NodeOK M.rules H v x) {t : ℕ} {p : List LogEntry}
    (hp : Led H t p) {i : ℕ} (hi : i ≤ x.log.length) (hip : i ≤ p.length)
    (ht : termAt x.log i = termAt p i) : x.log.take i = p.take i := by
  obtain ⟨n, hn⟩ := hp.leader
  exact hx.path.take_eq ((hH.log_path hn).shorter hp.le) hi hip ht

end Requests

end RaftStore.Raft
