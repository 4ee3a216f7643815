import RaftStore.Raft.Hosted
import RaftStore.Sim.Image
import RaftStore.Sim.Schedule

/-! The simulated cluster as a state of the protocol.  Each state machine holds the entries that were
committed, up to the node's applied index, and every snapshot is an image of such a history. -/

namespace RaftStore.Sim

open Lib Consensus Raft

/-! ### Histories -/

/-- The entries are the first ones that were committed, but for their kinds. -/
def Settled (w : World NodeID LogEntry) (es : List LogEntry) : Prop :=
  ∀ k e, es[k]? = some e → e.index = k + 1 ∧
    ∃ t p l e', w.hist.commit t p l ∧ p[k]? = some e' ∧ strip e' = strip e

/-- The snapshot holds the image of a history that ends where it does. -/
def IsImage (w : World NodeID LogEntry) (snap : Snapshot) : Prop :=
  ∃ es, es.length = snap.lastIncludedIndex ∧ Settled w es ∧ Fits es ∧
    snap.data = stateMachineImage es

section

variable {w w' : World NodeID LogEntry} {es es' : List LogEntry} {k : ℕ} {e e' : LogEntry}

theorem Settled.nil (w : World NodeID LogEntry) : Settled w [] := fun _ _ h => nomatch h

theorem Settled.later (h : Settled w es) (hl : Later w w') : Settled w' es := by
  intro k e hk
  obtain ⟨hi, t, p, l, e', hc, hp, he⟩ := h k e hk
  exact ⟨hi, t, p, l, e', hl.commit hc, hp, he⟩

theorem IsImage.later {snap : Snapshot} (h : IsImage w snap) (hl : Later w w') : IsImage w' snap := by
  obtain ⟨es, hlen, hes, hfits, hdata⟩ := h
  exact ⟨es, hlen, hes.later hl, hfits, hdata⟩

theorem Settled.map_strip (h : Settled w es) : Settled w (es.map strip) := by
  intro k e hk
  rw [List.getElem?_map, Option.map_eq_some_iff] at hk
  obtain ⟨e₀, hk, rfl⟩ := hk
  exact h k e₀ hk

theorem Settled.append (h : Settled w es) (h' : ∀ k e, es'[k]? = some e → e.index = es.length + 1 + k ∧
    ∃ t p l, w.hist.commit t p l ∧ p[es.length + k]? = some e) : Settled w (es ++ es') := by
  intro k e hk
  rcases Nat.lt_or_ge k es.length with hlt | hge
  · rw [List.getElem?_append_left hlt] at hk
    exact h k e hk
  · rw [List.getElem?_append_right hge] at hk
    obtain ⟨hi, t, p, l, hc, hp⟩ := h' _ e hk
    refine ⟨by omega, t, p, l, e, hc, ?_, rfl⟩
    rwa [Nat.add_sub_cancel' hge] at hp

/-- What two histories hold at a place is the same. -/
theorem Settled.agree {M : Membership} (hw : Inv M.rules w) (h : Settled w es) (h' : Settled w es')
    (hk : es[k]? = some e) (hk' : es'[k]? = some e') : strip e = strip e' := by
  obtain ⟨-, t, p, l, x, hc, hp, hx⟩ := h k e hk
  obtain ⟨-, t', p', l', x', hc', hp', hx'⟩ := h' k e' hk'
  have hlt := (List.getElem?_eq_some_iff.mp hp).1
  have hlt' := (List.getElem?_eq_some_iff.mp hp').1
  have heq : p[k]? = p'[k]? := by
    rcases hw.hist.commit_total hc hc' with ⟨rest, rfl⟩ | ⟨rest, rfl⟩
    · rw [List.getElem?_append_left hlt]
    · rw [List.getElem?_append_left hlt']
  rw [hp, hp'] at heq
  rw [← hx, ← hx', Option.some.inj heq]

end

/-! ### One node -/

/-- The place of a node in a cluster. -/
def Node.slot (n : Node) : Slot :=
  match n.rn with
  | some r => .up r
  | none => .down n.storage

/-- The state machine holds what was committed, up to what the process has applied unless a snapshot
waits for it; and the snapshots of the process are images. -/
structure Current (w : World NodeID LogEntry) (r : RawNode) (es : List LogEntry) : Prop where
  carries : r.Carries (IsImage w)
  settled : Settled w es
  applied : r.appliedSnapshot = none → es.length = r.log.applied
  handed : ∀ snap, r.appliedSnapshot = some snap → snap.lastIncludedIndex = r.log.applied

/-- A node and its state machine: it is current while the process runs, and gone when it is down. -/
structure Kept (w : World NodeID LogEntry) (n : Node) (es : List LogEntry) : Prop where
  down : n.rn = none →
    es = [] ∧ (n.storage.snapshot.isEmpty = false → IsImage w n.storage.snapshot)
  up : ∀ r, n.rn = some r → n.storage = r.log.mem ∧ Current w r es

section

variable {w w' : World NodeID LogEntry} {n : Node} {r r' : RawNode} {es : List LogEntry}

theorem Node.slot_up (h : n.rn = some r) : n.slot = .up r := by
  rw [Node.slot, h]

theorem Node.slot_down (h : n.rn = none) : n.slot = .down n.storage := by
  rw [Node.slot, h]

theorem Current.later (h : Current w r es) (hl : Later w w') : Current w' r es :=
  ⟨h.carries.imp fun _ hs => hs.later hl, h.settled.later hl, h.applied, h.handed⟩

theorem Kept.later (h : Kept w n es) (hl : Later w w') : Kept w' n es :=
  ⟨fun hn => (h.down hn).imp_right fun himage hne => (himage hne).later hl,
    fun r hr => (h.up r hr).imp_right fun hc => hc.later hl⟩

end

/-! ### The cluster -/

/-- What an event of a sensible run asks for: nodes that exist, messages that were sent, and disks that
survive. -/
def Sensible (ids : List NodeID) (net : List Message) : EventKind → Prop
  | .tick id => id ∈ ids
  | .deliver m => m ∈ net
  | .crash id => id ∈ ids
  | .restart id lose => id ∈ ids ∧ lose = false
  | .partition => True
  | .heal => True
  | .clientWrite => True

/-- Processes can be started with these settings. -/
structure Config.Valid (cfg : Config) : Prop where
  election : cfg.electionTick ≠ 0
  heartbeat : cfg.heartbeatTick ≠ 0
  lt : cfg.heartbeatTick < cfg.electionTick

theorem validate_raftConfig {s : Simulation} {id : NodeID} (h : s.cfg.Valid) (hid : id ≠ None) :
    (s.raftConfig id).validate = .ok () := by
  have h1 : (s.raftConfig id).id ≠ None := hid
  have h2 : (s.raftConfig id).electionTick ≠ 0 := h.election
  have h3 : (s.raftConfig id).heartbeatTick ≠ 0 := h.heartbeat
  have h4 : (s.raftConfig id).heartbeatTick < (s.raftConfig id).electionTick := h.lt
  rw [Raft.Config.validate, if_neg h1, if_neg h2, if_neg h3, if_neg (not_le.mpr h4)]

section

variable (boot : Configuration) (hn : boot.Normalized) (hs : boot.Sized)

/-- The simulation runs a cluster of the protocol, and its state machines and events are in order.
No faults are due that the protocol does not survive. -/
structure Good (s : Simulation) (net : List Message) (w : World NodeID LogEntry) : Prop where
  hosted : Hosted boot hn hs (fun id => (s.nodes id).slot) net w
  kept : ∀ id, Kept w (s.nodes id) (s.members id).applied
  images : ∀ m ∈ net, ∀ snap, m.snapshot = some snap → IsImage w snap
  conf : s.conf = boot
  ids : ∀ v, v ∈ s.ids ↔ v ∈ boot.members
  nonempty : s.ids ≠ []
  valid : s.cfg.Valid
  named : None ∉ boot.members
  events : ∀ e ∈ s.queue.items.toList, Sensible s.ids net e.kind
  stable : s.cfg.faults.membershipRate ≤ 0
  durable : s.cfg.faults.diskLossRate ≤ 0

end

/-- From one state of a run to a later one: what was decided stays, and a node that has not been
restarted has not gone back. -/
structure Goes (s : Simulation) (w : World NodeID LogEntry) (s' : Simulation)
    (w' : World NodeID LogEntry) : Prop where
  later : Later w w'
  commits : ∀ id r', (s'.nodes id).rn = some r' → (s'.nodes id).restartedSinceCheck = false →
    ∃ r, (s.nodes id).rn = some r ∧ (s.nodes id).restartedSinceCheck = false ∧
      r.log.committed ≤ r'.log.committed

section

variable {boot : Configuration} {hn : boot.Normalized} {hs : boot.Sized} {s s' : Simulation}
  {net : List Message} {w w' : World NodeID LogEntry} {id : NodeID} {r r' : RawNode}
  {es : List LogEntry} {α β : Type} {c : Call}

theorem Goes.refl (s : Simulation) (w : World NodeID LogEntry) : Goes s w s w :=
  ⟨.refl w, fun _ r' h h' => ⟨r', h, h', le_rfl⟩⟩

theorem Goes.trans {s'' : Simulation} {w'' : World NodeID LogEntry} (h : Goes s w s' w')
    (h' : Goes s' w' s'' w'') : Goes s w s'' w'' := by
  refine ⟨h.later.trans h'.later, fun id r'' hr'' hf'' => ?_⟩
  obtain ⟨r', hr', hf', hle'⟩ := h'.commits id r'' hr'' hf''
  obtain ⟨r, hr, hf, hle⟩ := h.commits id r' hr' hf'
  exact ⟨r, hr, hf, hle.trans hle'⟩

theorem Goes.of_nodes (hn : s'.nodes = s.nodes) : Goes s w s' w := by
  refine ⟨.refl w, fun id r' h h' => ⟨r', ?_, ?_, le_rfl⟩⟩
  · rw [← hn]
    exact h
  · rw [← hn]
    exact h'

/-- Nothing that the invariant speaks of has changed, but for events that were added. -/
theorem Good.congr (h : Good boot hn hs s net w) (hnodes : s'.nodes = s.nodes)
    (hmembers : ∀ id, (s'.members id).applied = (s.members id).applied) (hconf : s'.conf = s.conf)
    (hids : s'.ids = s.ids) (hcfg : s'.cfg = s.cfg)
    (hevents : ∀ e ∈ s'.queue.items.toList, Sensible s.ids net e.kind) :
    Good boot hn hs s' net w where
  hosted := by rw [hnodes]; exact h.hosted
  kept id := by rw [hnodes, hmembers]; exact h.kept id
  images := h.images
  conf := hconf.trans h.conf
  ids := by rw [hids]; exact h.ids
  nonempty := by rw [hids]; exact h.nonempty
  valid := hcfg ▸ h.valid
  named := h.named
  events := by rw [hids]; exact hevents
  stable := hcfg ▸ h.stable
  durable := hcfg ▸ h.durable

theorem Good.idles {K : EventKind → Prop} (h : Good boot hn hs s net w) (hi : Idles K s s')
    (hK : ∀ k, K k → Sensible s.ids net k) : Good boot hn hs s' net w := by
  refine h.congr hi.nodes (fun id => by rw [hi.members]) hi.conf hi.ids hi.cfg fun e he => ?_
  obtain ⟨new, hperm, hnew⟩ := hi.added
  rcases List.mem_append.mp (hperm.mem_iff.mp he) with he | he
  · exact hK _ (hnew e he).1
  · exact h.events e he

/-- The program keeps to the protocol: it goes on to a good state, or stops because a number does not
fit. -/
def Safe (boot : Configuration) (hn : boot.Normalized) (hs : boot.Sized) (x : SimM α)
    (s : Simulation) (w : World NodeID LogEntry) : Prop :=
  Meets x s (fun _ s' => ∃ net' w', Good boot hn hs s' net' w' ∧ Goes s w s' w')
    fun e _ => e = .overflow

theorem Safe.pure (h : Good boot hn hs s net w) (a : α) : Safe boot hn hs (pure a) s w :=
  ⟨net, w, h, .refl s w⟩

/-- What follows a step of the run. -/
theorem Safe.after {x : SimM α} (hg : Goes s w s' w') (h : Safe boot hn hs x s' w') :
    Meets x s' (fun _ s'' => ∃ net'' w'', Good boot hn hs s'' net'' w'' ∧ Goes s w s'' w'')
      fun e _ => e = .overflow := by
  refine Meets.mono h (fun _ s'' h'' => ?_) fun _ _ h => h
  obtain ⟨net'', w'', hgood, hg'⟩ := h''
  exact ⟨net'', w'', hgood, hg.trans hg'⟩

theorem Safe.bind {x : SimM α} {f : α → SimM β} (hx : Safe boot hn hs x s w)
    (hf : ∀ a s' net' w', Good boot hn hs s' net' w' → Safe boot hn hs (f a) s' w') :
    Safe boot hn hs (x >>= f) s w := by
  refine Meets.bind (Meets.mono hx (fun a s' h => ?_) fun _ _ h => h)
  obtain ⟨net', w', hgood, hg⟩ := h
  exact (hf a s' net' w' hgood).after hg

/-! ### Calls -/

/-- The call of a driver that runs the program. -/
def Makes (c : Call) (x : Core α) : Prop := c.run = (do let _ ← x)

theorem Makes.ok {x : Core α} (h : Makes c x) {a : α} (hx : x r = .ok a r') : c.run r = .ok () r' := by
  rw [h]
  change EStateM.bind x _ r = _
  rw [EStateM.bind, hx]
  rfl

theorem Makes.error {x : Core α} (h : Makes c x) {f : Fail} (hx : x r = .error f r') :
    c.run r = .error f r' := by
  rw [h]
  change EStateM.bind x _ r = _
  rw [EStateM.bind, hx]

/-- A call on a process fails only where it is refused. -/
theorem meets_call {x : Core α} {Q : Except Error α → Simulation → Prop}
    {F : Halt → Simulation → Prop} (h : Hosted boot hn hs (fun id => (s.nodes id).slot) net w)
    (hr : (s.nodes id).rn = some r)
    (hx : Makes c x) (hc : Cluster.fixedCalls { slot := fun id => (s.nodes id).slot, net } id c)
    (hcamp : c ≠ .campaign) (happly : ∀ i, c = .applyTo i → i ≤ r.log.committed)
    (hok : ∀ a r', x (s.lend r) = .ok a r' → Hosted.Returns c (s.lend r) r' →
      Q (.ok a) (s.put id r'))
    (herr : ∀ e r' st, x (s.lend r) = .error (.error e) r' → Hosted.Returns c (s.lend r) r' →
      st ∈ c.refusals → e.wraps = [st] → Q (.error e) (s.put id r')) :
    Meets (call id r x) s Q F := by
  have hfails := h.onlyFails (Node.slot_up hr) (fun k => s.cfg.rng (s.draws + k)) hc hcamp happly
  rw [call, meets_bind, meets_get]
  split
  · rename_i a r' hrun
    exact hok a r' hrun (Or.inl (hx.ok hrun))
  · rename_i e r' hrun
    obtain ⟨e', he', st, hst, hw⟩ := hfails.error (hx.error hrun)
    cases he'
    exact herr e r' st hrun (Or.inr ⟨e, st, hx.error hrun, hst, hw⟩) hst hw
  · rename_i f r' hne hrun
    obtain ⟨e', rfl, -⟩ := hfails.error (hx.error hrun)
    exact absurd rfl (hne e')

theorem Sensible.mono {ids : List NodeID} {net net' : List Message} {k : EventKind}
    (h : Sensible ids net k) (hnet : net ⊆ net') : Sensible ids net' k := by
  cases k with
  | deliver m => exact hnet h
  | _ => exact h

/-- One node and its state machine have changed. -/
theorem Good.replaced {n : Node} {net' : List Message} (h : Good boot hn hs s net w) (hl : Later w w')
    (hhosted : Hosted boot hn hs (Function.update (fun v => (s.nodes v).slot) id n.slot) net' w')
    (hkept : Kept w' n es) (hnet : net ⊆ net')
    (himages : ∀ m ∈ net', m ∉ net → ∀ snap, m.snapshot = some snap → IsImage w' snap)
    (hnodes : s'.nodes = Function.update s.nodes id n)
    (hmembers : ∀ v, (s'.members v).applied = if v = id then es else (s.members v).applied)
    (hconf : s'.conf = s.conf) (hids : s'.ids = s.ids) (hcfg : s'.cfg = s.cfg)
    (hqueue : s'.queue = s.queue) : Good boot hn hs s' net' w' where
  hosted := by
    have hslot : (fun v => (s'.nodes v).slot) = Function.update (fun v => (s.nodes v).slot) id n.slot := by
      rw [hnodes]
      exact Function.comp_update Node.slot s.nodes id n
    rw [hslot]
    exact hhosted
  kept v := by
    rw [hmembers, hnodes, Function.update_apply]
    split
    · exact hkept
    · exact (h.kept v).later hl
  images m hm snap hsnap := by
    by_cases hold : m ∈ net
    · exact (h.images m hold snap hsnap).later hl
    · exact himages m hm hold snap hsnap
  conf := hconf.trans h.conf
  ids := hids ▸ h.ids
  nonempty := hids ▸ h.nonempty
  valid := hcfg ▸ h.valid
  named := h.named
  events := by
    rw [hqueue, hids]
    exact fun e he => (h.events e he).mono hnet
  stable := hcfg ▸ h.stable
  durable := hcfg ▸ h.durable

/-- The calls that tell the state machine nothing, unless they hand over a snapshot. -/
def Plain : Call → Prop
  | .applyTo _ | .snapshotToApply | .campaign => False
  | _ => True

theorem hands_run (r : RawNode) (hc : Plain c) : Hands c.run r := by
  cases c with
  | tick => exact reports_tick.hands
  | step m => exact hands_step
  | propose cmd => exact (Reports.bind reports_propose fun _ _ => Reports.pure _).hands
  | proposeConfChange target =>
    exact (Reports.bind reports_proposeConfChange fun _ _ => Reports.pure _).hands
  | readIndex id => exact reports_readIndex.hands
  | readStates => exact Or.inl (.of_log rfl rfl)
  | messages => exact Or.inl (.of_log rfl rfl)
  | applyTo i => exact hc.elim
  | createSnapshot data =>
    exact (Reports.bind reports_createSnapshot fun _ _ => Reports.pure _).hands
  | snapshotToApply => exact hc.elim
  | campaign => exact hc.elim

/-- A call keeps the state machine current if what it is given is an image. -/
theorem Current.call {rand : ℕ → ℕ} (h : Current w r es) (hr : r.Wf) (hc : Plain c)
    (hret : Hosted.Returns c (Hosted.ready r rand) r')
    (hstep : ∀ m snap, c = .step m → m.snapshot = some snap → IsImage w snap)
    (htake : ∀ data term, c = .createSnapshot data → IsImage w ⟨r.log.applied, term, r.conf, data⟩) :
    Current w r' es := by
  have hready : (Hosted.ready r rand).Carries (IsImage w) :=
    ⟨h.carries.disk, h.carries.msgs, h.carries.pending⟩
  have hcarries := hready.call (c := c) (Hosted.ready_wf hr rand) hstep htake
  have hhands := hands_run (Hosted.ready r rand) hc
  have htold : r'.Carries (IsImage w) ∧ (Steady (Hosted.ready r rand) r' ∨ Handed r') := by
    rcases hret with hret | ⟨e, st, hret, hst, he⟩
    · exact ⟨hcarries.ok hret, (hhands.ok hret).imp_right And.left⟩
    · refine ⟨hcarries.error hret (Call.stops_of_refusal hst he), ?_⟩
      rcases hhands.error hret with ⟨e', heq, hbare⟩ | h | h
      · cases heq
        rw [he] at hbare
        cases hbare
      · exact Or.inl h
      · exact Or.inr h.1
  obtain ⟨hcar, hsteady | ⟨snap, hsnap, happlied⟩⟩ := htold
  · refine ⟨hcar, h.settled, fun hs => ?_, fun snap hs => ?_⟩
    · rw [hsteady.applied]
      exact h.applied (hsteady.snapshot.symm.trans hs)
    · rw [hsteady.applied]
      exact h.handed snap (hsteady.snapshot.symm.trans hs)
  · refine ⟨hcar, h.settled, fun hs => ?_, fun snap' hs => ?_⟩
    · rw [hsnap] at hs
      cases hs
    · rw [hsnap] at hs
      cases hs
      exact happlied.symm

/-- What a driver takes from the process. -/
def taken (c : Call) (r : RawNode) : List Message :=
  match c with
  | .messages => r.msgs
  | _ => []

/-- After a call the cluster is again a state of the protocol, if the state machine is current. -/
theorem Good.called (h : Good boot hn hs s net w) (hr : (s.nodes id).rn = some r)
    (hc : Cluster.fixedCalls { slot := fun id => (s.nodes id).slot, net } id c)
    (hret : Hosted.Returns c (s.lend r) r') (hes : Current w r' es)
    (hnodes : s'.nodes = (s.put id r').nodes)
    (hmembers : ∀ v, (s'.members v).applied = if v = id then es else (s.members v).applied)
    (hconf : s'.conf = s.conf) (hids : s'.ids = s.ids) (hcfg : s'.cfg = s.cfg)
    (hqueue : s'.queue = s.queue) :
    ∃ w', Good boot hn hs s' (net ++ taken c r) w' ∧ Goes s w s' w' := by
  obtain ⟨w', hl, hw'⟩ := h.hosted.call h.named (Node.slot_up hr) hc hret
  obtain ⟨-, hwf, -⟩ := h.hosted.up (Node.slot_up hr)
  have hreleased : ∀ rand, Cluster.released (.up (r.reseed rand 0)) (.call c []) = taken c r := by
    intro rand
    cases c <;> rfl
  rw [hreleased] at hw'
  refine ⟨w', h.replaced (n := { s.nodes id with rn := some r', storage := r'.log.mem }) hl hw' ?_
    (List.subset_append_left ..) (fun m hm hold snap hsnap => ?_) hnodes hmembers hconf hids hcfg hqueue,
    hl, fun v r'' hr'' hf => ?_⟩
  · refine ⟨nofun, fun r'' hr'' => ?_⟩
    cases hr''
    exact ⟨rfl, hes.later hl⟩
  · have hm' : m ∈ r.msgs := by
      have hm := (List.mem_append.mp hm).resolve_left hold
      cases c with
      | messages => exact hm
      | _ => exact nomatch hm
    exact (((h.kept id).up r hr).2.carries.msgs m hm' snap hsnap).later hl
  · rw [hnodes] at hr'' hf
    by_cases hv : v = id
    · subst hv
      simp only [Simulation.put, Simulation.setNode, Function.update_self] at hr'' hf
      cases hr''
      have hreach := hret.reach (Hosted.ready_wf hwf _)
      exact ⟨r, hr, hf, (hreach.advanced (Hosted.ready_wf hwf _)).committed⟩
    · simp only [Simulation.put, Simulation.setNode, Function.update_of_ne hv] at hr'' hf
      exact ⟨r'', hr'', hf, le_rfl⟩

end

end RaftStore.Sim
