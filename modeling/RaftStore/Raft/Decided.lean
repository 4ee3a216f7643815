import RaftStore.Raft.ReadSafety

/-! What a cluster has decided: the entries up to some commit, in their order.  What is decided at two
moments of a run never differs but in length, and it grows only by entries that are newer than
whatever was decided before. -/

namespace RaftStore.Raft

open Consensus RawNode Cluster

/-- The entries are the first ones of what some leader has committed. -/
def Decided (w : World NodeID LogEntry) (p : List LogEntry) : Prop :=
  p = [] ∨ ∃ t q l, w.hist.commit t q l ∧ p <+: q

/-- The entry stands at its index in the log of its term's leader. -/
def Entered (w : World NodeID LogEntry) (e : LogEntry) : Prop :=
  (w.hist.leader e.term).isSome ∧ ∃ q, q.length + 1 = e.index ∧ q ++ [e] <+: w.hist.log e.term

section

variable {M : Membership} {w w' : World NodeID LogEntry} {p q : List LogEntry} {e e' : LogEntry}

theorem Decided.nil (w : World NodeID LogEntry) : Decided w [] := Or.inl rfl

theorem Decided.later (h : Decided w p) (hl : Later w w') : Decided w' p := by
  rcases h with rfl | ⟨t, q, l, hc, hp⟩
  · exact .nil w'
  · exact Or.inr ⟨t, q, l, hl.commit hc, hp⟩

theorem Decided.shorter (h : Decided w p) (hq : q <+: p) : Decided w q := by
  rcases h with rfl | ⟨t, p', l, hc, hp⟩
  · rw [List.prefix_nil.mp hq]
    exact .nil w
  · exact Or.inr ⟨t, p', l, hc, hq.trans hp⟩

theorem Decided.total (hw : Inv M.rules w) (hp : Decided w p) (hq : Decided w q) :
    p <+: q ∨ q <+: p := by
  rcases hp with rfl | ⟨t, p', l, hc, hp⟩
  · exact Or.inl (List.nil_prefix)
  · rcases hq with rfl | ⟨t', q', l', hc', hq⟩
    · exact Or.inr (List.nil_prefix)
    · rcases hw.hist.commit_total hc hc' with h | h
      · exact List.prefix_or_prefix_of_prefix (hp.trans h) hq
      · exact List.prefix_or_prefix_of_prefix hp (hq.trans h)

theorem Decided.prefix_of_length_le (hw : Inv M.rules w) (hp : Decided w p) (hq : Decided w q)
    (hle : p.length ≤ q.length) : p <+: q := by
  rcases hp.total hw hq with h | h
  · exact h
  · rw [h.eq_of_length_le hle]

theorem Decided.path (hw : Inv M.rules w) (hp : Decided w p) : w.hist.Path M.rules p := by
  rcases hp with rfl | ⟨t, q, l, hc, hp⟩
  · intro q e hq
    simp at hq
  · obtain ⟨n, Q, hn, hpl, hl, -⟩ := hw.hist.committed hc
    exact (hw.hist.log_path hn).shorter (hp.trans (hpl.trans hl))

/-- What is decided above an entry that its leader had not yet appended is newer than everything that
was decided then. -/
theorem Decided.length_le_of_new (hw : Inv M.rules w) (hw' : Inv M.rules w') (hl : Later w w')
    (hp : Decided w p) (hq : Decided w' (q ++ [e])) (hnew : (w.hist.log e.term).length ≤ q.length) :
    p.length ≤ q.length := by
  by_contra hlt
  have hpre : q ++ [e] <+: p := hq.prefix_of_length_le hw' (hp.later hl) (by simp; omega)
  have := (hp.path hw q e hpre).2.length_le
  simp at this
  omega

theorem Entered.later (h : Entered w e) (hl : Later w w') : Entered w' e := by
  obtain ⟨hlead, q, hq, hlog⟩ := h
  obtain ⟨n, hn⟩ := Option.isSome_iff_exists.mp hlead
  exact ⟨Option.isSome_iff_exists.mpr ⟨n, hl.leader hn⟩, q, hq, hlog.trans (hl.log hn)⟩

theorem Entered.length_le (h : Entered w e) : e.index ≤ (w.hist.log e.term).length := by
  obtain ⟨-, q, hq, hlog⟩ := h
  have := hlog.length_le
  simp at this
  omega

/-- An index and a term name one entry. -/
theorem Decided.eq_of_entered (hw : Inv M.rules w) (hq : Decided w (q ++ [e])) (h : Entered w e')
    (hi : e'.index = q.length + 1) (ht : e'.term = e.term) : e' = e := by
  obtain ⟨-, q', hq', hlog'⟩ := h
  have hlog := (hq.path hw q e (List.prefix_refl _)).2
  rw [ht] at hlog'
  have hlen : (q' ++ [e']).length = (q ++ [e]).length := by simp; omega
  have heq := (List.prefix_of_prefix_length_le hlog' hlog hlen.le).eq_of_length hlen
  exact (List.append_inj' heq rfl).2 |> List.singleton_inj.mp

end

/-! ### What a node knows of it -/

section

variable {G : Regime} {c : Cluster} {w : World NodeID LogEntry} {n : NodeID} {r : RawNode}

theorem Refines.decided_done (h : Refines G c w) (n : NodeID) : Decided w (w.node n).done := by
  by_cases hne : (w.node n).done = []
  · exact Or.inl hne
  · obtain ⟨t, p, l, -, hc, hp⟩ := (h.inv.node n).done_ok hne
    exact Or.inr ⟨t, p, l, hc, hp⟩

/-- What a node has to apply is decided, and follows what it has applied. -/
theorem Refines.decided_batch (h : Refines G c w) (hn : c.node? n = some r) {p es : List LogEntry}
    (hp : Decided w p) (hlen : p.length = r.log.applied) (hes : r.committedEntries = .ok es) :
    Decided w (p ++ es) ∧ Contiguous (p.length + 1) es ∧ ∀ e ∈ es, e ∈ r.log.mem.ents := by
  obtain ⟨rfl, hwf, -, hs⟩ := h.up hn
  obtain ⟨es', hes', hle, -, hat⟩ := RaftLog.entriesToApply_ok hwf.log r.cfg.maxApplyEntries
  rw [committedEntries, hes'] at hes
  cases hes
  have hdone := hs.length_done hwf
  have hpre : p <+: (w.node r.id).done := by
    refine hp.prefix_of_length_le h.inv (h.decided_done r.id) ?_
    omega
  obtain ⟨rest, hrest⟩ := hpre
  refine ⟨(h.decided_done r.id).shorter ?_, fun k e hk => ?_, fun e he => ?_⟩
  · rw [← hrest, List.prefix_append_right_inj]
    -- entry by entry, the batch is what is next in the node's log
    have hget : ∀ k < es.length, es[k]? = rest[k]? := by
      intro k hk
      obtain ⟨-, hentry⟩ := hat k es[k] (List.getElem?_eq_getElem hk)
      obtain ⟨-, hlog⟩ := hs.backs.getEntry.mp (show r.log.mem.getEntry (r.log.applied + k + 1) = _ by
        rw [show r.log.applied + k + 1 = r.log.applied + 1 + k by omega, hentry])
      have : (w.node r.id).done[p.length + k]? = some es[k] := by
        rw [hs.done, List.getElem?_take, if_pos (by omega), hlen]
        exact hlog
      rw [← hrest, List.getElem?_append_right (by omega), Nat.add_sub_cancel_left] at this
      rw [List.getElem?_eq_getElem hk, this]
    refine List.prefix_iff_eq_take.mpr (List.ext_getElem? fun k => ?_)
    rw [List.getElem?_take]
    split
    · exact hget k ‹_›
    · exact List.getElem?_eq_none (by omega)
  · rw [hlen]
    exact (hat k e hk).1
  · obtain ⟨k, hk⟩ := List.mem_iff_getElem?.mp he
    obtain ⟨j, -, hj⟩ := getElem_of_getEntry (hat k e hk).2
    exact List.mem_of_getElem? hj

theorem entered_of_backs {M : Membership} (hw : Inv M.rules w) {mem : MemoryStorage}
    (hb : Backs (w.node n).log mem) {e : LogEntry} (he : e ∈ mem.ents) : Entered w e := by
  obtain ⟨i, hi, hget⟩ := hb.getElem?_of_mem he
  obtain ⟨hlt, hget⟩ := List.getElem?_eq_some_iff.mp hget
  have hpre : (w.node n).log.take i ++ [e] <+: (w.node n).log := by
    rw [← hget, List.take_append_getElem]
    exact List.take_prefix ..
  obtain ⟨hlead, hlog⟩ := (hw.node n).path _ e hpre
  exact ⟨hlead, _, by rw [List.length_take]; omega, hlog⟩

theorem Refines.entered (h : Refines G c w) (hn : c.node? n = some r) {e : LogEntry}
    (he : e ∈ r.log.mem.ents) : Entered w e :=
  entered_of_backs h.inv (h.up hn).2.2.2.backs he

/-- What a process has left on disk. -/
theorem Refines.entered_down (h : Refines G c w) {st : MemoryStorage} (hn : c.slot n = .down st)
    {e : LogEntry} (he : e ∈ st.ents) : Entered w e := by
  have hs := h.slot n
  rw [hn] at hs
  exact entered_of_backs h.inv hs.2.2.backs he

/-- The log of a leader is its term's. -/
theorem Refines.length_log (h : Refines G c w) (hn : c.node? n = some r) (hl : r.state = .leader) :
    (w.hist.log r.term).length = r.log.lastIndex := by
  rw [← (h.leader hn hl).2]
  obtain ⟨rfl, -, -, hs⟩ := h.up hn
  exact hs.backs.lastIndex.symm

end

/-- A leader that has committed in its term, and that a quorum without a later term stands by, knows
of everything that is decided. -/
theorem decided_le_of_quorum {boot : Configuration} {hn : boot.Normalized} {hs : boot.Sized}
    {c : Cluster} {w : World NodeID LogEntry} {n : NodeID} {r : RawNode}
    (hw : Refines (reading boot hn hs) c w) (hr : c.node? n = some r)
    (hlead : r.state = .leader) (hcur : r.committedInCurrentTerm = true) {conf : Configuration}
    {g : NodeID → Bool} (ha : Among boot conf) (hq : conf.hasQuorum g = true)
    (hg : ∀ u, g u = true → (w.node u).term ≤ r.term) {p : List LogEntry} (hp : Decided w p) :
    p.length ≤ r.log.committed := by
  rcases hp with rfl | ⟨t, q, l, hc, hp⟩
  · exact Nat.zero_le _
  · exact hp.length_le.trans (commit_le_of_quorum hw hr hlead hcur ha hq hg hc)

end RaftStore.Raft
