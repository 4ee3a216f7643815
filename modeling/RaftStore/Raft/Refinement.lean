import RaftStore.Raft.Simulation
import RaftStore.Raft.Cluster
import RaftStore.Raft.Frame

/-! A run of the cluster is a run of the abstract protocol.  What a cluster may do is given by a
`Regime`: which calls the drivers make, what then holds of every node, storage and message, and why
the configuration that a node counts with is the one that the rules of membership demand. -/

namespace RaftStore.Raft

open Consensus RawNode

/-- A way to run a cluster, and what holds of its parts in every run. -/
structure Regime where
  M : Membership
  boot : Configuration
  calls : Cluster → NodeID → Call → Prop
  node : RawNode → Prop
  disk : MemoryStorage → Prop
  msg : Message → Prop
  sent : ∀ {c n m}, calls c n (.step m) → m ∈ c.net
  fresh : disk {}
  start : ∀ {cfg st r}, st.OK → disk st → cfg.bootstrap = boot → new cfg { mem := st } = .ok r →
    node r
  stop : ∀ {r}, node r → disk r.log.mem
  msgs : ∀ {r}, node r → ∀ m ∈ r.msgs, msg m
  effect : ∀ {cl n c r r'}, calls cl n c → r.Wf → node r → (∀ m, c = .step m → msg m) →
    Effect c r r' → node r'
  quorum : ∀ {r l g}, node r → Backs l r.log.mem → r.conf.hasQuorum g = true →
    M.Quorum l {v | g v = true}
  admits : ∀ {cl n c r l e}, calls cl n c → r.Wf → node r → Backs l r.log.mem →
    r.state = .leader → e.term = r.term →
    (e.type = .confChange → ∃ cc, r.Proposes c cc ∧ e.command = cc.encode) →
    M.admits l e ∧ (M.isConf e → e.type = .confChange ∧
      Covers M.isConf (l.take r.log.committed) l)

/-- The same, for drivers that make fewer calls. -/
def Regime.restrict (G : Regime) (calls : Cluster → NodeID → Call → Prop)
    (h : ∀ {c n k}, calls c n k → G.calls c n k) : Regime :=
  { G with
    calls
    sent := fun hc => G.sent (h hc)
    effect := fun hc => G.effect (h hc)
    admits := fun hc => G.admits (h hc) }

/-- What a node that does not run has left behind. -/
structure Stopped (H : Past) (n : NodeID) (st : MemoryStorage) (x : Node LogEntry) : Prop where
  backs : Backs x.log st
  term : x.term = st.hardState.term
  role : x.role = .follower
  vote : st.hardState.vote = None ∧ H.vote n x.term = none ∨
    st.hardState.vote ≠ None ∧ ∃ vl, H.vote n x.term = some (st.hardState.vote, vl)
  commit_le : st.hardState.commit ≤ x.done.length
  snap_le : st.snapshot.lastIncludedIndex ≤ x.done.length

theorem Stopped.other {H H' : Past} {n v : NodeID} {st : MemoryStorage} {x : Node LogEntry}
    (h : Stopped H n st x) (hg : Grows v H H') (hv : n ≠ v) : Stopped H' n st x := by
  refine ⟨h.backs, h.term, h.role, ?_, h.commit_le, h.snap_le⟩
  rcases h.vote with ⟨h1, h2⟩ | ⟨h1, vl, h2⟩
  · exact Or.inl ⟨h1, hg.vote_none hv h2⟩
  · exact Or.inr ⟨h1, vl, hg.vote h2⟩

section

variable {M : Membership} {w : World NodeID LogEntry} {r : RawNode}

/-- A crash: the abstract node keeps everything but its role. -/
theorem Sim.stop (hr : r.Wf) (hs : Sim w.hist r (w.node r.id)) :
    ∃ w', Steps M.rules r.id w w' ∧ Stopped w'.hist r.id r.log.mem (w'.node r.id) := by
  refine ⟨_, .single .resign, ?_⟩
  simp only [World.put_self, World.put_hist]
  have hlen := hs.length_done hr
  refine ⟨hs.backs, hs.term.trans hr.term_eq.symm, rfl, ?_, ?_, ?_⟩
  · rw [hr.vote_eq, hs.term]
    exact hs.vote
  · exact hr.commit_le.trans hlen.ge
  · exact (hr.log.snap_le.trans hr.log.applied_le).trans hlen.ge

/-- A restart: the node may know less to be committed than before. -/
theorem Stopped.start {n : NodeID} {st : MemoryStorage} {cfg : Config} (hw : Inv M.rules w)
    (hs : Stopped w.hist n st (w.node n)) (hr : r.Started cfg { mem := st }) (hn : r.id = n) :
    ∃ w', Steps M.rules n w w' ∧ Sim w'.hist r (w'.node n) := by
  subst hn
  have hlen : r.log.committed ≤ (w.node r.id).done.length := by
    rw [hr.log]
    change (if st.hardState.commit > st.snapshot.lastIncludedIndex then
      min st.hardState.commit st.lastIndex else st.snapshot.lastIncludedIndex) ≤ _
    have h1 := hs.commit_le
    have h2 := hs.snap_le
    split <;> omega
  have hsim : Sim w.hist r { w.node r.id with
      done := (w.node r.id).log.take r.log.committed, role := .follower } := by
    have hpeer : ∀ v, r.peer v = none := fun v => by simp [peer, hr.progress]
    refine ⟨?_, ?_, rfl, by rw [hr.state]; rfl, ?_, ?_, ?_, ?_, ?_, ?_⟩
    · rw [hr.log]
      exact hs.backs
    · rw [hr.term]
      exact hs.term
    · rw [hr.vote, hr.term, ← hs.term]
      exact hs.vote
    · rw [hr.state]
      rintro ⟨⟩
    · rw [hr.state]
      rintro ⟨⟩
    · rw [hr.state]
      rintro ⟨⟩
    · intro v p hp
      rw [hpeer] at hp
      cases hp
    · rw [hr.msgs]
      rintro _ ⟨⟩
  by_cases hne : (w.node r.id).done = []
  · refine ⟨_, .single .forget, ?_⟩
    simp only [World.put_self, World.put_hist]
    have h0 : r.log.committed = 0 := by simpa [hne] using hlen
    rwa [h0, List.take_zero] at hsim
  · obtain ⟨t, q, l, ht, hc, hq⟩ := (hw.node r.id).done_ok hne
    have hdl := (hw.node r.id).done_le
    have htake : (w.node r.id).log.take r.log.committed <+: (w.node r.id).done :=
      List.prefix_of_prefix_length_le (List.take_prefix ..) hdl
        (by rw [List.length_take]; omega)
    refine ⟨_, .single (.learn t ((w.node r.id).log.take r.log.committed) q l (List.take_prefix ..)
      ht hc (htake.trans hq) fun h => ?_), ?_⟩
    · rw [hs.role] at h
      cases h
    · simp only [World.put_self, World.put_hist]
      rw [← hs.role] at hsim
      exact hsim

end

section

variable {G : Regime} {w : World NodeID LogEntry}

/-- A sequence of effects is matched by a sequence of actions. -/
theorem Reach.advances {cl : Cluster} {n : NodeID} {c : Call} {r r' : RawNode} (h : Reach c r r')
    (hc : G.calls cl n c) (hw : Inv G.M.rules w) (hr : r.Wf) (hG : G.node r)
    (hs : Sim w.hist r (w.node r.id)) (hmsg : ∀ m, c = .step m → Valid w.hist m ∧ G.msg m) :
    G.node r' ∧ Advances G.M w r r' := by
  induction h with
  | refl => exact ⟨hG, .none hs⟩
  | tail hb he ih =>
    rename_i b r'
    obtain ⟨hGb, w1, hsteps, hsim⟩ := ih
    obtain ⟨hw1, hmoves⟩ := Steps.inv_moves hw hsteps
    have hwb := Reach.wf hb hr
    have hid := Reach.id_eq hb
    rw [← hid] at hsim
    refine ⟨G.effect hc hwb hGb (fun m hm => (hmsg m hm).2) he, ?_⟩
    obtain ⟨w2, hsteps2, hsim2⟩ := he.advances hw1 hwb hsim
      (fun m hm => (hmsg m hm).1.mono hmoves.grows) (fun g => G.quorum hGb hsim.backs)
      (fun e => G.admits hc hwb hGb hsim.backs)
    rw [hid] at hsteps2 hsim2
    exact ⟨w2, hsteps.trans hsteps2, hsim2⟩

/-- What runs in a place, or is left there, is what the abstract node stands for. -/
def SlotSim (G : Regime) (H : Past) (n : NodeID) (x : Node LogEntry) : Slot → Prop
  | .up r => r.id = n ∧ r.Wf ∧ G.node r ∧ Sim H r x
  | .down st => st.OK ∧ G.disk st ∧ Stopped H n st x

theorem SlotSim.other {H H' : Past} {n v : NodeID} {x : Node LogEntry} {s : Slot}
    (h : SlotSim G H n x s) (hg : Grows v H H') (hv : n ≠ v) : SlotSim G H' n x s := by
  cases s with
  | up r =>
    obtain ⟨rfl, hr, hG, hs⟩ := h
    exact ⟨rfl, hr, hG, hs.other hg hv⟩
  | down st =>
    obtain ⟨hok, hG, hs⟩ := h
    exact ⟨hok, hG, hs.other hg hv⟩

/-- Whatever happens to a node is matched by actions of its counterpart. -/
theorem SlotSim.act {cl : Cluster} {n : NodeID} {s : Slot} {a : Act} (hw : Inv G.M.rules w)
    (hs : SlotSim G w.hist n (w.node n) s) (hp : cl.Permits G.boot G.calls n a)
    (hnet : ∀ m ∈ cl.net, Valid w.hist m ∧ G.msg m) :
    ∃ w', Steps G.M.rules n w w' ∧ SlotSim G w'.hist n (w'.node n) (s.act a) := by
  cases s with
  | down st =>
    obtain ⟨hok, hG, hst⟩ := hs
    cases a with
    | start cfg =>
      obtain ⟨hid, hboot⟩ := hp
      simp only [Slot.act]
      cases hn : new cfg { mem := st } with
      | error e => exact ⟨w, .refl, hok, hG, hst⟩
      | ok r =>
        have hr := started_of_new hn
        have hrid := hr.id.trans hid
        obtain ⟨w', hsteps, hsim⟩ := hst.start hw hr hrid
        exact ⟨w', hsteps, hrid, hr.wf hok, G.start hok hG hboot hn, hsim⟩
    | crash => exact ⟨w, .refl, hok, hG, hst⟩
    | call c faults => exact ⟨w, .refl, hok, hG, hst⟩
  | up r =>
    obtain ⟨rfl, hr, hG, hsim⟩ := hs
    have hstop : ∀ {w' r'}, Steps G.M.rules r.id w w' → r'.id = r.id → r'.Wf → G.node r' →
        Sim w'.hist r' (w'.node r.id) →
        ∃ w', Steps G.M.rules r.id w w' ∧
          SlotSim G w'.hist r.id (w'.node r.id) (.down r'.log.mem) := by
      intro w' r' hsteps hid hr' hG' hsim'
      rw [← hid] at hsim'
      obtain ⟨w'', hsteps', hst⟩ := hsim'.stop (M := G.M) hr'
      rw [hid] at hsteps' hst
      exact ⟨w'', hsteps.trans hsteps', hr'.mem_ok, G.stop hG', hst⟩
    cases a with
    | start cfg => exact ⟨w, .refl, rfl, hr, hG, hsim⟩
    | crash => exact hstop .refl rfl hr hG hsim
    | call c faults =>
      have hmsg : ∀ m, c = .step m → Valid w.hist m ∧ G.msg m := by
        rintro m rfl
        exact hnet m (G.sent hp)
      have h := Slot.act_call hr c faults
      split at h <;> rename_i heq <;> rw [heq]
      · rename_i r'
        obtain ⟨hG', w', hsteps, hsim'⟩ := Reach.advances h hp hw hr hG hsim hmsg
        exact ⟨w', hsteps, Reach.id_eq h, Reach.wf h hr, hG', hsim'⟩
      · obtain ⟨r', hr', rfl⟩ := h
        obtain ⟨hG', w', hsteps, hsim'⟩ := Reach.advances hr' hp hw hr hG hsim hmsg
        exact hstop hsteps (Reach.id_eq hr') (Reach.wf hr' hr) hG' hsim'

/-- The cluster is a state of the abstract protocol. -/
structure Refines (G : Regime) (c : Cluster) (w : World NodeID LogEntry) : Prop where
  inv : Inv G.M.rules w
  slot : ∀ n, SlotSim G w.hist n (w.node n) (c.slot n)
  net : ∀ m ∈ c.net, Valid w.hist m ∧ G.msg m

theorem Refines.start (G : Regime) : Refines G {} World.start where
  inv := inv_start
  slot _ := ⟨.empty, G.fresh, .empty, rfl, rfl, Or.inl ⟨rfl, rfl⟩, le_rfl, le_rfl⟩
  net := nofun

theorem Refines.ok {c : Cluster} (hw : Refines G c w) (n : NodeID) : (c.slot n).OK := by
  have hs := hw.slot n
  cases hslot : c.slot n with
  | up r =>
    rw [hslot] at hs
    exact hs.2.1
  | down st =>
    rw [hslot] at hs
    exact hs.1

theorem Refines.released {c : Cluster} (h : Refines G c w) {n : NodeID} {a : Act} {m : Message}
    (hm : m ∈ Cluster.released (c.slot n) a) : Valid w.hist m ∧ G.msg m := by
  obtain ⟨r, faults, hslot, -, hm⟩ := Cluster.mem_released hm
  have hs := h.slot n
  rw [hslot] at hs
  obtain ⟨-, -, hG, hsim⟩ := hs
  exact ⟨hsim.msgs m hm, G.msgs hG m hm⟩

theorem Refines.step {c c' : Cluster} (h : Refines G c w) (hstep : c.Step G.boot G.calls c') :
    ∃ w', Later w w' ∧ Refines G c' w' := by
  obtain ⟨n, a, hp, rfl⟩ := hstep
  obtain ⟨w', hsteps, hs⟩ := (h.slot n).act h.inv hp h.net
  obtain ⟨hw', hmoves⟩ := Steps.inv_moves h.inv hsteps
  refine ⟨w', hmoves.later, hw', Cluster.forall_slot_act.mpr ⟨hs, fun u hu => ?_⟩, fun m hm => ?_⟩
  · rw [hmoves.others u hu]
    exact (h.slot u).other hmoves.grows hu
  · have : Valid w.hist m ∧ G.msg m := by
      rcases List.mem_append.mp hm with hm | hm
      · exact h.net m hm
      · exact h.released hm
    exact ⟨this.1.mono hmoves.grows, this.2⟩

theorem Refines.run {c c' : Cluster} (h : Refines G c w) (hrun : c.Run G.boot G.calls c') :
    ∃ w', Later w w' ∧ Refines G c' w' := by
  induction hrun with
  | refl => exact ⟨w, .refl w, h⟩
  | tail _ hstep ih =>
    obtain ⟨w1, hl, h1⟩ := ih
    obtain ⟨w2, hl2, h2⟩ := h1.step hstep
    exact ⟨w2, hl.trans hl2, h2⟩

/-! ### Invariants of one node -/

/-- `I` holds of node `n` while it runs and `J` of its storage when it is down.  An effect has to
keep `I` only where the abstract protocol allows it. -/
structure Regime.Keeps (G : Regime) (n : NodeID) (I : RawNode → Prop) (J : MemoryStorage → Prop) :
    Prop where
  effect : ∀ {cl k w r r'}, G.calls cl n k → Inv G.M.rules w → r.id = n → r.Wf → G.node r →
    Sim w.hist r (w.node n) → (∀ m, k = .step m → Valid w.hist m ∧ G.msg m) → I r →
    Effect k r r' → I r'
  stop : ∀ {r}, r.Wf → I r → J r.log.mem
  start : ∀ {cfg st r}, st.OK → J st → cfg.bootstrap = G.boot → new cfg { mem := st } = .ok r → I r

theorem Regime.Keeps.act {n : NodeID} {I : RawNode → Prop} {J : MemoryStorage → Prop}
    (hk : G.Keeps n I J) {c : Cluster} {a : Act} (h : Refines G c w)
    (hp : c.Permits G.boot G.calls n a) (hs : (c.slot n).Sat I J) :
    ((c.slot n).act a).Sat I J := by
  have hslot := h.slot n
  refine hs.act (h.ok n) ?_ (fun r hr hI => hk.stop hr hI) ?_
  · rintro r₀ k faults hr₀ rfl - r r' hreach hr hI he
    rw [hr₀] at hslot
    obtain ⟨rfl, hw₀, hG, hsim⟩ := hslot
    have hmsg : ∀ m, k = .step m → Valid w.hist m ∧ G.msg m := by
      rintro m rfl
      exact h.net m (G.sent hp)
    -- the abstract state just before the effect
    obtain ⟨hG', w', hsteps, hsim'⟩ := Reach.advances hreach hp h.inv hw₀ hG hsim hmsg
    obtain ⟨hw', hmoves⟩ := Steps.inv_moves h.inv hsteps
    exact hk.effect hp hw' (Reach.id_eq hreach) hr hG' hsim'
      (fun m hm => ⟨(hmsg m hm).1.mono hmoves.grows, (hmsg m hm).2⟩) hI he
  · rintro cfg st r - rfl hst hJ hnew
    exact hk.start hst hJ hp.2 hnew

theorem Regime.Keeps.run {n : NodeID} {I : RawNode → Prop} {J : MemoryStorage → Prop}
    (hk : G.Keeps n I J) {c c' : Cluster} (h : Refines G c w) (hs : (c.slot n).Sat I J)
    (hrun : c.Run G.boot G.calls c') : (c'.slot n).Sat I J := by
  induction hrun with
  | refl => exact hs
  | @tail b c' hb hstep ih =>
    obtain ⟨w', -, hw'⟩ := h.run hb
    obtain ⟨u, a, hp, rfl⟩ := hstep
    by_cases hu : n = u
    · subst hu
      simpa [Cluster.act] using hk.act hw' hp ih
    · simpa [Cluster.act, hu] using ih

end

end RaftStore.Raft
