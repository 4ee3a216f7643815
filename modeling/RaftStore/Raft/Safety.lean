import RaftStore.Raft.Refinement

/-! What the abstract protocol guarantees, read back on the nodes of a cluster: one leader a term,
agreement on what is committed, leaders that hold it, and logs that match. -/

namespace RaftStore.Raft

open Consensus RawNode

/-- The log of a node, whether it runs or not. -/
def Slot.log : Slot → RaftLog
  | .up r => r.log
  | .down st => { storage := { mem := st } }

/-- The term of a node, whether it runs or not. -/
def Slot.term : Slot → ℕ
  | .up r => r.term
  | .down st => st.hardState.term

section

variable {G : Regime} {c c' : Cluster} {w : World NodeID LogEntry}

theorem Refines.up (h : Refines G c w) {n : NodeID} {r : RawNode} (hn : c.node? n = some r) :
    r.id = n ∧ r.Wf ∧ G.node r ∧ Sim w.hist r (w.node n) := by
  have hs := h.slot n
  rwa [Cluster.node?_eq_some.mp hn] at hs

theorem Refines.leader (h : Refines G c w) {n : NodeID} {r : RawNode} (hn : c.node? n = some r)
    (hl : r.state = .leader) :
    w.hist.leader r.term = some n ∧ (w.node n).log = w.hist.log r.term := by
  obtain ⟨rfl, -, -, hs⟩ := h.up hn
  exact hs.leader_log h.inv hl

theorem Refines.backs (h : Refines G c w) (n : NodeID) :
    Backs (w.node n).log (c.slot n).log.mem ∧ (w.node n).term = (c.slot n).term := by
  have hs := h.slot n
  cases heq : c.slot n with
  | up r =>
    rw [heq] at hs
    obtain ⟨-, -, -, hs⟩ := hs
    exact ⟨hs.backs, hs.term⟩
  | down st =>
    rw [heq] at hs
    obtain ⟨-, -, hs⟩ := hs
    exact ⟨hs.backs, hs.term⟩

/-- An entry at or below a node's commit index is in a committed prefix. -/
theorem Refines.committed (h : Refines G c w) {n : NodeID} {r : RawNode} (hn : c.node? n = some r)
    {i : ℕ} {e : LogEntry} (hi : i + 1 ≤ r.log.committed)
    (he : r.log.mem.getEntry (i + 1) = .ok e) :
    ∃ t p l, t ≤ r.term ∧ w.hist.commit t p l ∧ p[i]? = some e := by
  obtain ⟨rfl, hr, -, hs⟩ := h.up hn
  obtain ⟨-, hget⟩ := hs.backs.getEntry.mp he
  have hlen := hs.length_done hr
  have hne : (w.node r.id).done ≠ [] := by
    intro hnil
    rw [hnil, List.length_nil] at hlen
    omega
  obtain ⟨t, p, l, ht, hc, hp⟩ := (h.inv.node r.id).done_ok hne
  refine ⟨t, p, l, hs.term ▸ ht, hc, ?_⟩
  have hdone : (w.node r.id).done[i]? = some e := by
    rw [hs.done, List.getElem?_take, if_pos (by omega)]
    exact hget
  obtain ⟨rest, rfl⟩ := hp
  rw [List.getElem?_append_left (by omega), hdone]

/-- Two moments of a run have a common future in the abstract protocol. -/
theorem Regime.moments (G : Regime) (hm : Cluster.Moments G.boot G.calls c c') :
    ∃ w w' wl, Refines G c w ∧ Refines G c' w' ∧ Inv G.M.rules wl ∧ Later w wl ∧ Later w' wl := by
  rcases hm with ⟨h1, h2⟩ | ⟨h1, h2⟩
  · obtain ⟨w, -, hw⟩ := (Refines.start G).run h1
    obtain ⟨w', hl, hw'⟩ := hw.run h2
    exact ⟨w, w', w', hw, hw', hw'.inv, hl, .refl w'⟩
  · obtain ⟨w', -, hw'⟩ := (Refines.start G).run h1
    obtain ⟨w, hl, hw⟩ := hw'.run h2
    exact ⟨w, w', w, hw, hw', hw.inv, .refl w, hl⟩

theorem Regime.one_leader (G : Regime) (hm : Cluster.Moments G.boot G.calls c c') {n n' : NodeID}
    {r r' : RawNode} (hn : c.node? n = some r) (hn' : c'.node? n' = some r')
    (hl : r.state = .leader) (hl' : r'.state = .leader) (ht : r.term = r'.term) : n = n' := by
  obtain ⟨w, w', wl, hw, hw', -, h1, h2⟩ := G.moments hm
  have := h1.leader (hw.leader hn hl).1
  rw [ht, h2.leader (hw'.leader hn' hl').1] at this
  exact (Option.some.inj this).symm

theorem Regime.committed_agree (G : Regime) (hm : Cluster.Moments G.boot G.calls c c')
    {n n' : NodeID} {r r' : RawNode} (hn : c.node? n = some r) (hn' : c'.node? n' = some r')
    {i : ℕ} {e e' : LogEntry} (hi : i ≤ r.log.committed) (he : r.log.mem.getEntry i = .ok e)
    (hi' : i ≤ r'.log.committed) (he' : r'.log.mem.getEntry i = .ok e') : e = e' := by
  obtain ⟨w, w', wl, hw, hw', hinv, h1, h2⟩ := G.moments hm
  cases i with
  | zero => exact absurd he (by simp [MemoryStorage.getEntry, MemoryStorage.firstIndex])
  | succ i =>
    obtain ⟨t, p, l, -, hc, hp⟩ := hw.committed hn hi he
    obtain ⟨t', p', l', -, hc', hp'⟩ := hw'.committed hn' hi' he'
    have hlt := (List.getElem?_eq_some_iff.mp hp).1
    have hlt' := (List.getElem?_eq_some_iff.mp hp').1
    refine Option.some.inj ?_
    rw [← hp, ← hp']
    rcases hinv.hist.commit_total (h1.commit hc) (h2.commit hc') with ⟨rest, rfl⟩ | ⟨rest, rfl⟩
    · rw [List.getElem?_append_left hlt]
    · rw [List.getElem?_append_left hlt']

/-- An index and a term name one entry, in whichever logs it is found, at whichever moments with a
common future. -/
theorem Refines.one_entry {w' wl : World NodeID LogEntry} (hw : Refines G c w)
    (hw' : Refines G c' w') (h1 : Later w wl) (h2 : Later w' wl) {n n' : NodeID} {r r' : RawNode}
    (hn : c.node? n = some r) (hn' : c'.node? n' = some r') {e e' : LogEntry}
    (he : e ∈ r.log.mem.ents) (he' : e' ∈ r'.log.mem.ents) (hi : e.index = e'.index)
    (ht : e.term = e'.term) : e = e' := by
  obtain ⟨rfl, -, -, hs⟩ := hw.up hn
  obtain ⟨rfl, -, -, hs'⟩ := hw'.up hn'
  obtain ⟨i, hei, hget⟩ := hs.backs.getElem?_of_mem he
  obtain ⟨j, hej, hget'⟩ := hs'.backs.getElem?_of_mem he'
  obtain rfl : i = j := by omega
  have hpath := h1.path (hw.inv.node r.id).path
  have hpath' := h2.path (hw'.inv.node r'.id).path
  have hterm : termAt (w.node r.id).log (i + 1) = termAt (w'.node r'.id).log (i + 1) := by
    rw [termAt_succ hget, termAt_succ hget', ht]
  have htake := hpath.take_eq hpath' (List.getElem?_eq_some_iff.mp hget).1
    (List.getElem?_eq_some_iff.mp hget').1 hterm
  have hlast := congrArg (·[i]?) htake
  simp only [List.getElem?_take_of_lt (Nat.lt_succ_self i)] at hlast
  rw [hget, hget'] at hlast
  exact Option.some.inj hlast

/-- A leader of a later term holds what is committed, or a snapshot of it. -/
theorem Regime.leader_holds (G : Regime) (hm : Cluster.Moments G.boot G.calls c c')
    {n n' : NodeID} {r r' : RawNode} (hn : c.node? n = some r) (hn' : c'.node? n' = some r')
    {i : ℕ} {e : LogEntry} (hi : i ≤ r.log.committed) (he : r.log.mem.getEntry i = .ok e)
    (hl' : r'.state = .leader) (ht : r.term < r'.term) :
    r'.log.mem.getEntry i = .ok e ∨ i ≤ r'.log.mem.snapshot.lastIncludedIndex := by
  obtain ⟨w, w', wl, hw, hw', hinv, h1, h2⟩ := G.moments hm
  cases i with
  | zero => exact Or.inr (Nat.zero_le _)
  | succ i =>
    obtain ⟨t, p, l, ht0, hc, hp⟩ := hw.committed hn hi he
    obtain ⟨hld, hlog⟩ := hw'.leader hn' hl'
    obtain ⟨el, own, hcand, hel, -⟩ := hw'.inv.hist.led hld
    have hpel : p <+: el := hinv.hist.complete r'.term el trivial
      ⟨n', h2.leader hld, h2.cand hcand⟩ t p l (ht0.trans_lt ht) (h1.commit hc)
    obtain ⟨rfl, hr', -, hs'⟩ := hw'.up hn'
    by_cases hbase : r'.log.mem.base.index ≤ i
    · refine Or.inl (hs'.backs.getEntry.mpr ⟨hbase, ?_⟩)
      have hlt := (List.getElem?_eq_some_iff.mp hp).1
      obtain ⟨rest, rfl⟩ := hpel
      rw [hlog, hel, List.append_assoc, List.getElem?_append_left hlt, hp]
    · have := hr'.log.base_le
      exact Or.inr (by omega)

/-- Each node's log is in order, with terms that do not go down and do not exceed its own. -/
theorem Refines.log_order (h : Refines G c w) (n : NodeID) :
    Contiguous (c.slot n).log.firstIndex (c.slot n).log.mem.ents ∧
      (c.slot n).log.mem.ents.Pairwise (fun a b => a.term ≤ b.term) ∧
      ∀ e ∈ (c.slot n).log.mem.ents, e.term ≤ (c.slot n).term := by
  obtain ⟨hb, ht⟩ := h.backs n
  have hx := h.inv.node n
  rw [hb.ents, ← ht]
  refine ⟨?_, hx.mono.sublist (List.drop_sublist ..), fun e he => hx.term_le e (List.mem_of_mem_drop he)⟩
  have := hb.contiguous.drop (c.slot n).log.mem.base.index
  rwa [Nat.add_comm] at this

theorem Refines.log_match (h : Refines G c w) {n n' : NodeID} {i j t : ℕ} {e e' : LogEntry}
    (ht : (c.slot n).log.term i = .ok t) (ht' : (c.slot n').log.term i = .ok t) (hj : j ≤ i)
    (he : (c.slot n).log.mem.getEntry j = .ok e) (he' : (c.slot n').log.mem.getEntry j = .ok e') :
    e = e' := by
  obtain ⟨hb, -⟩ := h.backs n
  obtain ⟨hb', -⟩ := h.backs n'
  obtain ⟨hi, hterm⟩ := RaftLog.term_eq hb ht
  obtain ⟨hi', hterm'⟩ := RaftLog.term_eq hb' ht'
  have htake := (h.inv.node n).path.take_eq (h.inv.node n').path hi hi'
    (hterm.symm.trans hterm')
  cases j with
  | zero => exact absurd he (by simp [MemoryStorage.getEntry, MemoryStorage.firstIndex])
  | succ j =>
    obtain ⟨-, hget⟩ := hb.getEntry.mp he
    obtain ⟨-, hget'⟩ := hb'.getEntry.mp he'
    have hj' : j < i := by omega
    refine Option.some.inj ?_
    rw [← hget, ← hget', ← List.getElem?_take_of_lt hj', htake, List.getElem?_take_of_lt hj']

end

end RaftStore.Raft
