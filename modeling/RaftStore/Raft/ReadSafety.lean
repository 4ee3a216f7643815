import RaftStore.Raft.FixedMembership

/-! Read barriers.  A leader that a quorum has answered after the read was requested was, at that
moment, not yet deposed by any term that had committed something it does not know of.  Which answers
belong to which read is told by the read's id: `ReadsKnown` says that nobody has seen an id of the
current leadership before it was used, and `Tracking` follows one read from its request on. -/

namespace RaftStore.Raft

open Consensus RawNode Cluster

theorem fixedCalls_of_readCalls {c : Cluster} {n : NodeID} {k : Call} (h : readCalls c n k) :
    fixedCalls c n k := by
  cases k <;> first | exact h | trivial

/-- Runs in which nobody changes the membership, and every read has its own id. -/
def reading (boot : Configuration) (hn : boot.Normalized) (hs : boot.Sized) : Regime :=
  (fixed boot hn hs).restrict readCalls fixedCalls_of_readCalls

/-! ### What one call does to reads -/

/-- Confirming a read changes only reads of that id, and completes one only on a quorum. -/
theorem ackReadIn_spec (conf : Configuration) (sender : NodeID) (readID : UInt64)
    (reqs : List ReadRequest) :
    (∀ req' ∈ (ackReadIn conf sender readID reqs).1, req' ∈ reqs ∨ ∃ req ∈ reqs, req.id = readID ∧
      req' = { req with acks := Function.update req.acks sender true }) ∧
    ∀ rs ∈ (ackReadIn conf sender readID reqs).2, ∃ req ∈ reqs, req.id = readID ∧
      rs = ⟨req.id, req.index⟩ ∧
      conf.hasQuorum (Function.update req.acks sender true) = true := by
  induction reqs with
  | nil => exact ⟨nofun, nofun⟩
  | cons req rest ih =>
    obtain ⟨ih1, ih2⟩ := ih
    rw [ackReadIn]
    split
    · refine ⟨fun req' h => ?_, fun rs h => ?_⟩
      · rcases List.mem_cons.mp h with rfl | h
        · exact Or.inl List.mem_cons_self
        · rcases ih1 req' h with h | ⟨x, hx, h⟩
          · exact Or.inl (List.mem_cons_of_mem _ h)
          · exact Or.inr ⟨x, List.mem_cons_of_mem _ hx, h⟩
      · obtain ⟨x, hx, h⟩ := ih2 rs h
        exact ⟨x, List.mem_cons_of_mem _ hx, h⟩
    · rename_i hid
      dsimp only
      split
      · rename_i hq
        refine ⟨fun req' h => Or.inl (List.mem_cons_of_mem _ h), fun rs h => ?_⟩
        exact ⟨req, List.mem_cons_self, not_not.mp hid, List.mem_singleton.mp h, hq⟩
      · refine ⟨fun req' h => ?_, nofun⟩
        rcases List.mem_cons.mp h with rfl | h
        · exact Or.inr ⟨req, List.mem_cons_self, not_not.mp hid, rfl⟩
        · exact Or.inl (List.mem_cons_of_mem _ h)

/-- Where the read id of a message comes from: a request that the call was given, or the node's own
reads. -/
def Sourced (c : Call) (me : NodeID) (ids : List UInt64) (m : Message) : Prop :=
  m.type = .appendReq ∧ m.sender = me ∧ m.readID ∈ ids ∨
    ∃ req, c = .step req ∧ req.readID = m.readID ∧ req.term = m.term

/-- The node's reads have ids among `ids`, and so has every message since `old`. -/
structure ReadNode (c : Call) (me : NodeID) (ids : List UInt64) (old : List Message)
    (r : RawNode) : Prop where
  id_eq : r.id = me
  pending : ∀ req ∈ r.pendingReads, req.id ∈ ids
  states : ∀ rs ∈ r.readStates, rs.id ∈ ids
  msgs : ∀ m ∈ r.msgs, m ∈ old ∨ m.readID = 0 ∨ Sourced c me ids m

section ReadNode

variable {c : Call} {me : NodeID} {ids : List UInt64} {old : List Message} {r r' : RawNode}

theorem ReadNode.sendable (h : ReadNode c me ids old r) {m : Message} (hm : Sendable c r m) :
    m.readID = 0 ∨ Sourced c me ids (r.stamp m) := by
  cases hm with
  | append dest pr prevTerm entries readID _ _ _ hread =>
    rcases hread with h0 | ⟨req, hreq, hid⟩
    · exact Or.inl h0
    · exact Or.inr (Or.inl ⟨rfl, h.id_eq, hid ▸ h.pending req hreq⟩)
  | reject req ci ct hc _ ht => exact Or.inr (Or.inr ⟨req, hc, rfl, ht⟩)
  | ack req k hc _ ht => exact Or.inr (Or.inr ⟨req, hc, rfl, ht⟩)
  | _ => exact Or.inl rfl

theorem ReadNode.effect (h : ReadNode c me ids old r) (hids : ∀ id, c = .readIndex id → id ∈ ids)
    (he : Effect c r r') : ReadNode c me ids old r' := by
  have hid : r'.id = me := he.id_eq.trans h.id_eq
  have hmsgs := he.outbox.msgs h.msgs fun m hm => Or.inr (h.sendable hm)
  cases he.reads with
  | same _ _ hp hs => exact ⟨hid, hp ▸ h.pending, hs ▸ h.states, hmsgs⟩
  | dropped _ _ hp hs => exact ⟨hid, hp ▸ nofun, hs ▸ nofun, hmsgs⟩
  | opened id hc =>
    refine ⟨hid, fun req hreq => ?_, h.states, hmsgs⟩
    rcases List.mem_append.mp hreq with hreq | hreq
    · exact h.pending req hreq
    · rw [List.mem_singleton.mp hreq]
      exact hids id hc
  | answered id hc =>
    refine ⟨hid, h.pending, fun rs hrs => ?_, hmsgs⟩
    rcases List.mem_append.mp hrs with hrs | hrs
    · exact h.states rs hrs
    · rw [List.mem_singleton.mp hrs]
      exact hids id hc
  | confirmed m =>
    obtain ⟨h1, h2⟩ := ackReadIn_spec r.conf m.sender m.readID r.pendingReads
    refine ⟨hid, fun req hreq => ?_, fun rs hrs => ?_, hmsgs⟩
    · rcases h1 req hreq with hreq | ⟨req', hreq', -, rfl⟩
      · exact h.pending req hreq
      · exact h.pending req' hreq'
    · rcases List.mem_append.mp hrs with hrs | hrs
      · exact h.states rs hrs
      · obtain ⟨req, hreq, -, rfl, -⟩ := h2 rs hrs
        exact h.pending req hreq
  | drained => exact ⟨hid, h.pending, nofun, hmsgs⟩

theorem ReadNode.reach (h : ReadNode c me ids old r) (hids : ∀ id, c = .readIndex id → id ∈ ids)
    (hr : Reach c r r') : ReadNode c me ids old r' := by
  induction hr with
  | refl => exact h
  | tail _ he ih => exact ih.effect hids he

end ReadNode

/-! ### Which ids have been seen -/

/-- The id that the message carries was given to the leader of the message's term, and if that is
still the leader, in its present life. -/
def Issued (c : Cluster) (w : World NodeID LogEntry) (m : Message) : Prop :=
  ∃ u, w.hist.leader m.term = some u ∧ ∀ r, c.node? u = some r → r.state = .leader →
    r.term = m.term → m.readID ∈ c.reads u

structure ReadsKnown (c : Cluster) (w : World NodeID LogEntry) : Prop where
  pending : ∀ n r, c.node? n = some r → ∀ req ∈ r.pendingReads, req.id ∈ c.reads n
  states : ∀ n r, c.node? n = some r → ∀ rs ∈ r.readStates, rs.id ∈ c.reads n
  net : ∀ m ∈ c.net, m.readID ≠ 0 → Issued c w m
  msgs : ∀ n r, c.node? n = some r → ∀ m ∈ r.msgs, m.readID ≠ 0 → Issued c w m

section

variable {G : Regime} {c : Cluster} {w w' : World NodeID LogEntry} {n : NodeID} {a : Act}

theorem Issued.act {m : Message} (h : Issued c w m) (hw : Refines G c w) (hl : Later w w')
    (hw' : Refines G (c.act n a) w') : Issued (c.act n a) w' m := by
  obtain ⟨u, hu, hreads⟩ := h
  refine ⟨u, hl.leader hu, fun r' hr' hlead hterm => ?_⟩
  by_cases hun : u = n
  · subst hun
    -- The leader has been leading the term all along.
    obtain ⟨-, -, -, hs'⟩ := hw'.up hr'
    obtain ⟨hrole, ht⟩ := hl.regain hu (by rw [hs'.role, hlead]; rfl) (hs'.term.trans hterm)
    have hs := hw.slot u
    cases hslot : c.slot u with
    | down st =>
      rw [hslot] at hs
      obtain ⟨-, -, hs⟩ := hs
      rw [hs.role] at hrole
      exact nomatch hrole
    | up r =>
      rw [hslot] at hs
      obtain ⟨-, -, -, hs⟩ := hs
      have hr := node?_eq_some.mpr hslot
      rw [hs.role, State.role_leader] at hrole
      exact reads_act_self hr (hreads r hr hrole (hs.term.symm.trans ht))
  · rw [node?_act_ne hun] at hr'
    rw [reads_act_ne hun]
    exact hreads r' hr' hlead hterm

/-- A new message's id is known, because the reads and the messages of before were. -/
theorem ReadsKnown.msg {r r' : RawNode} {k : Call} {m : Message} (h : ReadsKnown c w)
    (hw : Refines G c w) (hl : Later w w') (hw' : Refines G (c.act n a) w')
    (hr : c.node? n = some r) (hr' : (c.act n a).node? n = some r')
    (hnet : ∀ req, k = .step req → req ∈ c.net)
    (hn : ReadNode k n ((c.act n a).reads n) r.msgs r') (hm : m ∈ r'.msgs) (h0 : m.readID ≠ 0) :
    Issued (c.act n a) w' m := by
  rcases hn.msgs m hm with hold | hz | ⟨hty, hsend, hid⟩ | ⟨req, hreq, hid, ht⟩
  · exact (h.msgs n r hr m hold h0).act hw hl hw'
  · exact absurd hz h0
  · obtain ⟨-, -, -, hs'⟩ := hw'.up hr'
    obtain ⟨hlead, -⟩ := (hs'.msgs m hm).appendReq hty
    rw [hsend] at hlead
    exact ⟨n, hlead, fun _ _ _ _ => hid⟩
  · have := (h.net req (hnet req hreq) (hid ▸ h0)).act hw hl hw'
    rwa [Issued, hid, ht] at this

theorem readsAfter_call {r : RawNode} {k : Call} {faults : List Bool} (hr : c.node? n = some r) :
    (c.act n (.call k faults)).reads n = readsAfter (c.reads n) (.up r) (.call k faults) := by
  simp only [Cluster.act, Function.update_self, node?_eq_some.mp hr]

theorem mem_reads_of_call {r : RawNode} {id : UInt64} {faults : List Bool}
    (hr : c.node? n = some r) : id ∈ (c.act n (.call (.readIndex id) faults)).reads n := by
  rw [readsAfter_call hr]
  exact List.mem_cons_self

theorem ReadsKnown.step (h : ReadsKnown c w) (hw : Refines G c w) (hl : Later w w')
    (hw' : Refines G (c.act n a) w') (hp : c.Permits G.boot G.calls n a) :
    ReadsKnown (c.act n a) w' := by
  have hall : ∀ u r', (c.act n a).node? u = some r' →
      (∀ req ∈ r'.pendingReads, req.id ∈ (c.act n a).reads u) ∧
      (∀ rs ∈ r'.readStates, rs.id ∈ (c.act n a).reads u) ∧
      ∀ m ∈ r'.msgs, m.readID ≠ 0 → Issued (c.act n a) w' m := by
    intro u r' hr'
    by_cases hu : u = n
    · subst hu
      rcases node?_act_self (hw.ok u) hr' with ⟨cfg, st, -, -, hnew⟩ | hr | ⟨r, k, faults, hr, rfl, hk⟩
      · have hst := started_of_new hnew
        rw [hst.pendingReads, hst.readStates, hst.msgs]
        exact ⟨fun _ h => (nomatch h), fun _ h => (nomatch h), fun _ h => (nomatch h)⟩
      · exact ⟨fun req hreq => reads_act_self hr (h.pending u r' hr req hreq),
          fun rs hrs => reads_act_self hr (h.states u r' hr rs hrs),
          fun m hm h0 => (h.msgs u r' hr m hm h0).act hw hl hw'⟩
      · have hread : ReadNode k u ((c.act u (.call k faults)).reads u) r.msgs r' := by
          refine ReadNode.reach (r := r) ⟨(hw.up hr).1, ?_, ?_, fun m hm => Or.inl hm⟩ ?_ hk
          · exact fun req hreq => reads_act_self hr (h.pending u r hr req hreq)
          · exact fun rs hrs => reads_act_self hr (h.states u r hr rs hrs)
          · rintro id rfl
            exact mem_reads_of_call hr
        refine ⟨hread.pending, hread.states, fun m hm h0 => ?_⟩
        refine h.msg hw hl hw' hr hr' ?_ hread hm h0
        rintro req rfl
        exact G.sent hp
    · rw [node?_act_ne hu] at hr'
      rw [reads_act_ne hu]
      exact ⟨h.pending u r' hr', h.states u r' hr',
        fun m hm h0 => (h.msgs u r' hr' m hm h0).act hw hl hw'⟩
  refine ⟨fun u r' hr' => (hall u r' hr').1, fun u r' hr' => (hall u r' hr').2.1, fun m hm h0 => ?_,
    fun u r' hr' => (hall u r' hr').2.2⟩
  rcases List.mem_append.mp hm with hm | hm
  · exact (h.net m hm h0).act hw hl hw'
  · obtain ⟨r, faults, hslot, -, hm⟩ := mem_released hm
    exact (h.msgs n r (node?_eq_some.mpr hslot) m hm h0).act hw hl hw'

/-- In every run, ids are known as they should be. -/
theorem Regime.readsKnown (G : Regime) (hrun : Run G.boot G.calls {} c) :
    ∃ w, Refines G c w ∧ ReadsKnown c w := by
  induction hrun with
  | refl =>
    exact ⟨World.start, .start G, ⟨fun _ _ h => (nomatch h), fun _ _ h => (nomatch h),
      fun _ h => (nomatch h), fun _ _ h => (nomatch h)⟩⟩
  | tail _ hstep ih =>
    obtain ⟨w, hw, hk⟩ := ih
    obtain ⟨w', hl, hw'⟩ := hw.step hstep
    obtain ⟨n, a, hp, rfl⟩ := hstep
    exact ⟨w', hw', hk.step hw hl hw' hp⟩

end

/-! ### Following one read -/

/-- A read: who was asked in which term, with which id and commit index, what every node's term was
at that moment, and whether the read was accepted. -/
structure Query where
  node : NodeID
  term : ℕ
  id : UInt64
  index : ℕ
  terms : NodeID → ℕ
  accepted : Prop

namespace Query

variable (q : Query) (boot : Configuration)

/-- An answer to the read comes from a node that had no later term when the read was requested. -/
def Fresh (m : Message) : Prop :=
  q.accepted → m.type = .appendResp → m.term = q.term → m.readID = q.id → q.terms m.sender ≤ q.term

/-- The node that was asked waits for answers, or has had a quorum of them. -/
structure Tracked (r : RawNode) : Prop where
  pending : ∀ req ∈ r.pendingReads, req.id = q.id →
    q.accepted ∧ r.term = q.term ∧ req.index = q.index ∧
      ∀ v, req.acks v = true → q.terms v ≤ q.term
  states : ∀ rs ∈ r.readStates, rs.id = q.id →
    q.accepted ∧ r.term = q.term ∧ rs.index = q.index ∧
      ∃ conf g, Among boot conf ∧ conf.hasQuorum g = true ∧
        ∀ v, g v = true → q.terms v ≤ q.term

end Query

section Query

variable {q : Query} {boot : Configuration} {c : Call} {r r' : RawNode}

/-- A node answers with its own term. -/
theorem Query.fresh_send (ht : q.terms r.id ≤ r.term) {m : Message} (hm : Sendable c r m) :
    q.Fresh (r.stamp m) := by
  intro _ hty hterm _
  cases hm with
  | stale => exact hterm ▸ ht
  | reject => exact hterm ▸ ht
  | ack => exact hterm ▸ ht
  | _ => exact nomatch hty

theorem Query.fresh_reach (ht : q.terms r.id ≤ r.term) (h : ∀ m ∈ r.msgs, q.Fresh m)
    (hk : Reach c r r') : ∀ m ∈ r'.msgs, q.Fresh m := by
  have key : q.terms r'.id ≤ r'.term ∧ ∀ m ∈ r'.msgs, q.Fresh m := by
    induction hk with
    | refl => exact ⟨ht, h⟩
    | tail _ he ih =>
      refine ⟨?_, he.outbox.msgs ih.2 fun m hm => fresh_send ih.1 hm⟩
      rw [he.id_eq]
      exact ih.1.trans he.term_le
  exact key.2

theorem Query.Tracked.effect (h : q.Tracked boot r) (hconf : Among boot r.conf)
    (hid : ∀ id, c = .readIndex id → id ≠ q.id) (hmsg : ∀ m, c = .step m → q.Fresh m)
    (he : Effect c r r') : q.Tracked boot r' := by
  cases he.reads with
  | same _ ht hp hs =>
    refine ⟨?_, ?_⟩
    · rw [ht, hp]
      exact h.pending
    · rw [ht, hs]
      exact h.states
  | dropped _ _ hp hs => exact ⟨hp ▸ nofun, hs ▸ nofun⟩
  | opened id hc =>
    refine ⟨fun req hreq hreqid => ?_, h.states⟩
    rcases List.mem_append.mp hreq with hreq | hreq
    · exact h.pending req hreq hreqid
    · rw [List.mem_singleton.mp hreq] at hreqid
      exact absurd hreqid (hid id hc)
  | answered id hc =>
    refine ⟨h.pending, fun rs hrs hrsid => ?_⟩
    rcases List.mem_append.mp hrs with hrs | hrs
    · exact h.states rs hrs hrsid
    · rw [List.mem_singleton.mp hrs] at hrsid
      exact absurd hrsid (hid id hc)
  | confirmed m hc hty ht =>
    obtain ⟨h1, h2⟩ := ackReadIn_spec r.conf m.sender m.readID r.pendingReads
    -- A confirmed read has the id of the message, so the message is an answer to it.
    have hacks : ∀ req ∈ r.pendingReads, req.id = m.readID → req.id = q.id →
        q.accepted ∧ r.term = q.term ∧ req.index = q.index ∧
          ∀ v, Function.update req.acks m.sender true v = true → q.terms v ≤ q.term := by
      intro req hreq hm hq
      obtain ⟨hacc, hterm, hidx, hack⟩ := h.pending req hreq hq
      refine ⟨hacc, hterm, hidx, fun v hv => ?_⟩
      by_cases hvs : v = m.sender
      · rw [hvs]
        exact hmsg m hc hacc hty (ht.trans hterm) (hm.symm.trans hq)
      · rw [Function.update_of_ne hvs] at hv
        exact hack v hv
    refine ⟨fun req hreq hreqid => ?_, fun rs hrs hrsid => ?_⟩
    · rcases h1 req hreq with hreq | ⟨req', hreq', hm, rfl⟩
      · exact h.pending req hreq hreqid
      · exact hacks req' hreq' hm hreqid
    · rcases List.mem_append.mp hrs with hrs | hrs
      · exact h.states rs hrs hrsid
      · obtain ⟨req, hreq, hm, rfl, hq⟩ := h2 rs hrs
        obtain ⟨hacc, hterm, hidx, hack⟩ := hacks req hreq hm hrsid
        exact ⟨hacc, hterm, hidx, r.conf, _, hconf, hq, hack⟩
  | drained => exact ⟨h.pending, nofun⟩

theorem Query.Tracked.reach (hs : boot.Sized) {cl : Cluster} {n : NodeID}
    (h : q.Tracked boot r) (hc : readCalls cl n c) (hr : r.Wf) (hf : FixedNode boot r)
    (hid : ∀ id, c = .readIndex id → id ≠ q.id)
    (hmsg : ∀ m, c = .step m → q.Fresh m ∧ FixedMsg boot m) (hk : Reach c r r') :
    q.Tracked boot r' := by
  have key : FixedNode boot r' ∧ q.Tracked boot r' := by
    induction hk with
    | refl => exact ⟨hf, h⟩
    | tail hb he ih =>
      refine ⟨ih.1.effect hs (fixedCalls_of_readCalls hc) (Reach.wf hb hr)
        (fun m hm => (hmsg m hm).2) he, ih.2.effect ih.1.conf hid (fun m hm => (hmsg m hm).1) he⟩
  exact key.2

end Query

/-- The read is followed through the cluster, as long as the node that was asked lives. -/
structure Tracking (q : Query) (boot : Configuration) (life : ℕ) (c : Cluster) : Prop where
  net : ∀ m ∈ c.net, q.Fresh m
  msgs : ∀ u r, c.node? u = some r → ∀ m ∈ r.msgs, q.Fresh m
  life_le : life ≤ c.starts q.node
  node : c.starts q.node = life →
    q.id ∈ c.reads q.node ∧ ∀ r, c.node? q.node = some r → q.Tracked boot r

section Tracking

variable {q : Query} {boot : Configuration} {hn : boot.Normalized} {hs : boot.Sized} {c : Cluster}
  {w : World NodeID LogEntry} {life : ℕ}

theorem reads_act_down {n : NodeID} {st : MemoryStorage} {a : Act} (hslot : c.slot n = .down st)
    (hlife : (c.act n a).starts n = c.starts n) : (c.act n a).reads n = c.reads n := by
  cases a with
  | start cfg =>
    have := starts_lt_act cfg hslot
    omega
  | _ => simp [Cluster.act, hslot, readsAfter]

theorem Tracking.step (h : Tracking q boot life c) (hw : Refines (reading boot hn hs) c w)
    (hterm : ∀ u, q.terms u ≤ (w.node u).term) {n : NodeID} {a : Act}
    (hp : c.Permits boot readCalls n a) : Tracking q boot life (c.act n a) := by
  have hterm' : ∀ u r, c.node? u = some r → q.terms r.id ≤ r.term := by
    intro u r hr
    obtain ⟨rfl, -, -, hsim⟩ := hw.up hr
    exact (hterm r.id).trans hsim.term.le
  have hfresh : ∀ {k}, readCalls c n k → ∀ m, k = .step m → q.Fresh m ∧ FixedMsg boot m := by
    rintro k hk m rfl
    exact ⟨h.net m hk, (hw.net m hk).2⟩
  refine ⟨fun m hm => ?_, fun u r' hr' => ?_, h.life_le.trans (starts_le_act ..), fun hlife => ?_⟩
  · rcases List.mem_append.mp hm with hm | hm
    · exact h.net m hm
    · obtain ⟨r, faults, hslot, -, hm⟩ := mem_released hm
      exact h.msgs n r (node?_eq_some.mpr hslot) m hm
  · by_cases hu : u = n
    · subst hu
      rcases node?_act_self (hw.ok u) hr' with ⟨cfg, st, -, -, hnew⟩ | hr | ⟨r, k, faults, hr, rfl, hk⟩
      · rw [(started_of_new hnew).msgs]
        exact fun _ h => nomatch h
      · exact h.msgs u r' hr
      · exact Query.fresh_reach (hterm' u r hr) (h.msgs u r hr) hk
    · rw [node?_act_ne hu] at hr'
      exact h.msgs u r' hr'
  · have hle := starts_le_act c n q.node a
    have hlife' : c.starts q.node = life := by
      have := h.life_le
      omega
    obtain ⟨hread, htrack⟩ := h.node hlife'
    by_cases hq : q.node = n
    · subst hq
      refine ⟨?_, fun r' hr' => ?_⟩
      · cases hslot : c.slot q.node with
        | down st =>
          rw [reads_act_down hslot (hlife.trans hlife'.symm)]
          exact hread
        | up r => exact reads_act_self (node?_eq_some.mpr hslot) hread
      · rcases node?_act_self (hw.ok _) hr' with
          ⟨cfg, st, hslot, rfl, -⟩ | hr | ⟨r, k, faults, hr, rfl, hk⟩
        · have := starts_lt_act cfg hslot
          omega
        · exact htrack r' hr
        · obtain ⟨-, hwf, hf, -⟩ := hw.up hr
          refine Query.Tracked.reach hs (htrack r hr) hp hwf hf ?_ (hfresh hp) hk
          rintro id rfl heq
          exact hp.2 (heq ▸ hread)
    · rw [reads_act_ne hq, node?_act_ne hq]
      exact ⟨hread, htrack⟩

theorem Tracking.run {w₀ : World NodeID LogEntry} {c' : Cluster}
    (h : Tracking q boot life c) (hw : Refines (reading boot hn hs) c w)
    (hterm : ∀ u, q.terms u = (w₀.node u).term) (hl : Later w₀ w) (hrun : Run boot readCalls c c') :
    Tracking q boot life c' := by
  have key : Tracking q boot life c' ∧ ∃ w', Refines (reading boot hn hs) c' w' ∧ Later w₀ w' := by
    induction hrun with
    | refl => exact ⟨h, w, hw, hl⟩
    | tail _ hstep ih =>
      obtain ⟨ht, w1, hw1, hl1⟩ := ih
      obtain ⟨w2, hl2, hw2⟩ := hw1.step hstep
      obtain ⟨n, a, hp, rfl⟩ := hstep
      exact ⟨ht.step hw1 (fun u => (hterm u).le.trans (hl1.term_le u)) hp, w2, hw2, hl1.trans hl2⟩
  exact key.1

end Tracking

/-! ### The request -/

/-- Sending changes neither the reads nor the term. -/
theorem Query.Tracked.sends {q : Query} {boot : Configuration} {r : RawNode}
    (h : q.Tracked boot r) (peers : List NodeID) (id : UInt64) :
    q.Tracked boot (peers.foldl (fun r peer => r.sendAppendWithRead peer id) r) := by
  induction peers generalizing r with
  | nil => exact h
  | cons peer peers ih =>
    refine ih ?_
    change q.Tracked boot (r.sendAppendWithRead peer id)
    unfold sendAppendWithRead
    split
    · exact h
    · split
      · exact h
      · dsimp only
        split
        · unfold sendSnapshot
          split
          · exact h
          · split
            · exact h
            · dsimp only
              split
              · exact h
              · exact ⟨h.pending, h.states⟩
        · split
          · exact h
          · exact ⟨h.pending, h.states⟩

/-- The read as it is requested of a node in a world. -/
def Query.of (w : World NodeID LogEntry) (n : NodeID) (r : RawNode) (id : UInt64) : Query where
  node := n
  term := r.term
  id := id
  index := r.log.committed
  terms u := (w.node u).term
  accepted := r.state = .leader ∧ r.committedInCurrentTerm = true

open Lib in
theorem Query.tracked_readIndex {boot : Configuration} {w : World NodeID LogEntry} {n : NodeID}
    {r : RawNode} {id : UInt64} (hconf : Among boot r.conf)
    (hterm : (w.node r.id).term ≤ r.term) (hp : ∀ req ∈ r.pendingReads, req.id ≠ id)
    (hst : ∀ rs ∈ r.readStates, rs.id ≠ id) :
    Meets (readIndex id) r (fun _ r' => (Query.of w n r id).Tracked boot r')
      fun _ r' => (Query.of w n r id).Tracked boot r' := by
  have hold : (Query.of w n r id).Tracked boot r :=
    ⟨fun req hreq hid => absurd hid (hp req hreq), fun rs hrs hid => absurd hid (hst rs hrs)⟩
  have hself : ∀ v, decide (v = r.id) = true → (w.node v).term ≤ r.term := by
    intro v hv
    rw [of_decide_eq_true hv]
    exact hterm
  rw [readIndex, meets_bind, meets_get]
  split
  · exact hold
  · rename_i hlead
    split
    · exact hold
    · rename_i hcur
      have hacc : (Query.of w n r id).accepted := ⟨not_not.mp hlead, by simpa using hcur⟩
      dsimp only
      split
      · rename_i hq
        refine ⟨hold.pending, fun rs hrs hid => ?_⟩
        rcases List.mem_append.mp hrs with hrs | hrs
        · exact hold.states rs hrs hid
        · rw [List.mem_singleton.mp hrs]
          exact ⟨hacc, rfl, rfl, r.conf, _, hconf, hq, hself⟩
      · rw [meets_set]
        refine Query.Tracked.sends (r := { r with pendingReads := _ }) ?_ _ _
        refine ⟨fun req hreq hid => ?_, hold.states⟩
        rcases List.mem_append.mp hreq with hreq | hreq
        · exact hold.pending req hreq hid
        · rw [List.mem_singleton.mp hreq]
          exact ⟨hacc, rfl, rfl, hself⟩

section

variable {boot : Configuration} {hn : boot.Normalized} {hs : boot.Sized} {c : Cluster}
  {w : World NodeID LogEntry} {n : NodeID} {r : RawNode} {id : UInt64}

/-- Before the read was requested nobody had seen its id in this leadership. -/
theorem Issued.fresh (hw : Refines (reading boot hn hs) c w) (hr : c.node? n = some r)
    (hid : id ≠ 0) (hfree : id ∉ c.reads n) {m : Message}
    (hm : m.readID ≠ 0 → Issued c w m) : (Query.of w n r id).Fresh m := by
  rintro ⟨hlead, -⟩ - hterm hrid
  obtain ⟨u, hu, hreads⟩ := hm (by rw [hrid]; exact hid)
  have hleader := (hw.leader hr hlead).1
  rw [hterm] at hu
  obtain rfl : n = u := Option.some.inj (hleader.symm.trans hu)
  have := hreads r hr hlead hterm.symm
  rw [hrid] at this
  exact absurd this hfree

open Lib in
theorem tracking_readIndex (h : ReadsKnown c w) (hw : Refines (reading boot hn hs) c w)
    (hr : c.node? n = some r) (hid : id ≠ 0) (hfree : id ∉ c.reads n) (faults : List Bool) :
    Tracking (Query.of w n r id) boot (c.starts n) (c.act n (.call (.readIndex id) faults)) := by
  have hterm' : ∀ u r, c.node? u = some r → (w.node r.id).term ≤ r.term := by
    intro u r hr
    obtain ⟨rfl, -, -, hsim⟩ := hw.up hr
    exact hsim.term.le
  have hstarts : (c.act n (.call (.readIndex id) faults)).starts n = c.starts n := by
    simp [Cluster.act, startsAfter]
  refine ⟨fun m hm => ?_, fun u r' hr' m hm => ?_, hstarts.ge, fun _ => ⟨mem_reads_of_call hr, ?_⟩⟩
  · rcases List.mem_append.mp hm with hm | hm
    · exact Issued.fresh hw hr hid hfree (h.net m hm)
    · obtain ⟨_, _, _, hcall, _⟩ := mem_released hm
      cases hcall
  · by_cases hu : u = n
    · subst hu
      rcases node?_act_self (hw.ok u) hr' with ⟨_, _, _, hcall, _⟩ | hr1 | ⟨r1, k, _, hr1, hcall, hk⟩
      · cases hcall
      · exact Issued.fresh hw hr hid hfree (h.msgs u r' hr1 m hm)
      · exact Query.fresh_reach (hterm' u r1 hr1)
          (fun m hm => Issued.fresh hw hr hid hfree (h.msgs u r1 hr1 m hm)) hk m hm
    · rw [node?_act_ne hu] at hr'
      exact Issued.fresh hw hr hid hfree (h.msgs u r' hr' m hm)
  · intro r' hr'
    obtain ⟨-, -, hf, -⟩ := hw.up hr
    have hmeets : Meets (readIndex id) (r.withFaults faults)
        (fun _ r' => (Query.of w n r id).Tracked boot r')
        fun _ r' => (Query.of w n r id).Tracked boot r' :=
      Query.tracked_readIndex (r := r.withFaults faults) hf.conf (hterm' n r hr)
      (fun req hreq heq => hfree (heq ▸ h.pending n r hr req hreq))
      (fun rs hrs heq => hfree (heq ▸ h.states n r hr rs hrs))
    change (c.act n _).node? n = some r' at hr'
    rw [node?_eq_some] at hr'
    simp only [Cluster.act, Function.update_self, node?_eq_some.mp hr] at hr'
    change Slot.after _ (readIndex id (r.withFaults faults)) = .up r' at hr'
    unfold Meets at hmeets
    split at hmeets <;> rename_i heq <;> rw [heq] at hr'
    · cases hr'
      exact hmeets
    · simp only [Slot.after] at hr'
      split at hr'
      · cases hr'
      · cases hr'
        exact hmeets

/-- A leader that has committed in its term, and that a quorum without a later term stands by, knows
of every commit. -/
theorem commit_le_of_quorum (hw : Refines (reading boot hn hs) c w) (hr : c.node? n = some r)
    (hlead : r.state = .leader) (hcur : r.committedInCurrentTerm = true) {conf : Configuration}
    {g : NodeID → Bool} (ha : Among boot conf) (hq : conf.hasQuorum g = true)
    (hg : ∀ u, g u = true → (w.node u).term ≤ r.term) {t : ℕ} {p l : List LogEntry}
    (hc : w.hist.commit t p l) : p.length ≤ r.log.committed := by
  obtain ⟨hld, hlog⟩ := hw.leader hr hlead
  obtain ⟨rfl, hwf, -, hsim⟩ := hw.up hr
  obtain ⟨hne, hlast⟩ := hsim.done_of_current hwf hcur
  rw [← hsim.length_done hwf]
  rcases Nat.lt_trichotomy t r.term with hlt | rfl | hgt
  · -- Committed before the leader's term: the leader was elected with it.
    obtain ⟨el, he⟩ := hw.inv.hist.exists_elected (Option.isSome_iff_exists.mpr ⟨_, hld⟩)
    have hpel := (hw.inv.hist.complete _ el trivial he t p l hlt hc).length_le
    have hdone := (hw.inv.node r.id).done_le
    rw [hlog] at hdone
    have := hw.inv.hist.elected_lt he hdone hne (hlast.trans hsim.term)
    omega
  · exact ((hw.inv.node r.id).lead_commit (by rw [hsim.role, hlead]; rfl) p l
      (by rw [hsim.term]; exact hc)).length_le
  · -- Committed in a later term: one of the quorum had voted in it.
    obtain ⟨m, -, hm, -⟩ := hw.inv.hist.committed hc
    obtain ⟨el, Q, -, ⟨conf', g', ha', hq', rfl⟩, hvotes⟩ := hw.inv.hist.won hm
    obtain ⟨u, hu, hu'⟩ := Configuration.overlaps_of_voters
      ((ha.voters hn).trans (ha'.voters hn).symm) g g' hq hq'
    obtain ⟨vl, hvote, -⟩ := hvotes u hu'
    have h1 := (hw.inv.node u).vote_le hvote
    have h2 := hg u hu
    omega

theorem committed_le_of_quorum (hw : Refines (reading boot hn hs) c w) (hr : c.node? n = some r)
    (hlead : r.state = .leader) (hcur : r.committedInCurrentTerm = true) {conf : Configuration}
    {g : NodeID → Bool} (ha : Among boot conf) (hq : conf.hasQuorum g = true)
    (hg : ∀ u, g u = true → (w.node u).term ≤ r.term) {v : NodeID} {rv : RawNode}
    (hv : c.node? v = some rv) : rv.log.committed ≤ r.log.committed := by
  obtain ⟨rfl, hwfv, -, hsimv⟩ := hw.up hv
  rw [← hsimv.length_done hwfv]
  by_cases hnil : (w.node rv.id).done = []
  · rw [hnil]
    exact Nat.zero_le _
  obtain ⟨t, p, l, -, hc, hp⟩ := (hw.inv.node rv.id).done_ok hnil
  exact hp.length_le.trans (commit_le_of_quorum hw hr hlead hcur ha hq hg hc)

end

/-- Read-index linearizability: what ReadStates returns for a read covers every commit that any node
knew of when the read was requested, and the node still leads the term in which it was. -/
theorem read_index_linearizable (boot : Configuration) (hn : boot.Normalized) (hs : boot.Sized)
    {c c' : Cluster} (hrun : Run boot readCalls {} c) {n : NodeID} {r : RawNode}
    (hr : c.node? n = some r) {id : UInt64} {faults : List Bool}
    (hcall : readCalls c n (.readIndex id))
    (hrun' : Run boot readCalls (c.act n (.call (.readIndex id) faults)) c')
    (hlife : c'.starts n = c.starts n) {r' r'' : RawNode} (hr' : c'.node? n = some r')
    {states : List ReadState} (hret : readStates r' = .ok states r'') {rs : ReadState}
    (hrs : rs ∈ states) (hid : rs.id = id) :
    (∀ v rv, c.node? v = some rv → rv.log.committed ≤ rs.index) ∧
      r'.state = .leader ∧ r'.term = r.term := by
  obtain ⟨w, hw, hknown⟩ := (reading boot hn hs).readsKnown hrun
  have htrack := tracking_readIndex hknown hw hr hcall.1 hcall.2 faults
  obtain ⟨w1, hl1, hw1⟩ := hw.step ⟨n, .call (.readIndex id) faults, hcall, rfl⟩
  have htrack' := htrack.run hw1 (fun _ => rfl) hl1 hrun'
  obtain ⟨-, hnode⟩ := htrack'.node hlife
  cases hret
  obtain ⟨⟨hlead, hcur⟩, hterm, hidx, conf, g, ha, hq, hg⟩ := (hnode r' hr').states rs hrs hid
  refine ⟨fun v rv hv => ?_, ?_, hterm⟩
  · rw [hidx]
    exact committed_le_of_quorum hw hr hlead hcur ha hq hg hv
  · by_contra hst
    obtain ⟨w', -, hw'⟩ := hw1.run hrun'
    rw [((hw'.up hr').2.1.reads hst).2] at hrs
    exact nomatch hrs

/-- The leader's read barrier is answered by the second node. -/
def barrier : List Event := [.act 1 (.call .messages []), .deliver 2 11, .act 2 (.call .messages []),
  .deliver 1 13]

theorem read_index_linearizable_barrier :
    ∃ r r' states r'', (({} : Cluster).plays election).node? 1 = some r ∧
      (((({} : Cluster).plays election).act 1 (.call (.readIndex 7) [])).plays barrier).node? 1 =
        some r' ∧ readStates r' = .ok states r'' ∧ ⟨7, 1⟩ ∈ states ∧
      ∀ v rv, (({} : Cluster).plays election).node? v = some rv → rv.log.committed ≤ 1 := by
  have hrun : Run trio readCalls {} (({} : Cluster).plays election) := run_plays (by decide +kernel)
  have hcall : readCalls (({} : Cluster).plays election) 1 (.readIndex 7) := by decide +kernel
  have hrun' : Run trio readCalls ((({} : Cluster).plays election).act 1 (.call (.readIndex 7) []))
      (((({} : Cluster).plays election).act 1 (.call (.readIndex 7) [])).plays barrier) :=
    run_plays (by decide +kernel)
  obtain ⟨r, hr, -⟩ := exists_node (c := ({} : Cluster).plays election) (n := 1) (fun _ => true)
    (by decide +kernel)
  obtain ⟨r', hr', ht⟩ := exists_node
    (c := ((({} : Cluster).plays election).act 1 (.call (.readIndex 7) [])).plays barrier) (n := 1)
    (fun r => ⟨7, 1⟩ ∈ r.readStates) (by decide +kernel)
  have hmem : ⟨7, 1⟩ ∈ r'.readStates := by simpa using ht
  have h := read_index_linearizable trio trio_normalized trio_sized hrun hr hcall hrun'
    (by decide +kernel) hr' rfl hmem rfl
  exact ⟨r, r', _, _, hr, hr', rfl, hmem, h.1⟩

end RaftStore.Raft
