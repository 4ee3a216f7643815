import RaftStore.Sim.Sound

/-! The simulator keeps to the protocol.  Whatever an event does, no error and no panic comes of it,
and the cluster is again a state of the protocol with its state machines in order. -/

namespace RaftStore.Sim

open Lib Consensus Raft

variable {α β : Type} {boot : Configuration} {hn : boot.Normalized} {hs : boot.Sized}
  {s s' : Simulation} {net : List Message} {w w' : World NodeID LogEntry} {id : NodeID}
  {r r' : RawNode} {es : List LogEntry} {c : Call}

theorem makes_tick : Makes .tick tick := bind_pure_unit.symm

theorem makes_step (m : Message) : Makes (.step m) (step m) := bind_pure_unit.symm

theorem makes_propose (cmd : List UInt8) :
    Makes (.propose cmd) (propose { type := .normal, command := cmd }) := rfl

theorem makes_messages : Makes .messages messages := rfl

theorem makes_applyTo (i : ℕ) : Makes (.applyTo i) (applyTo i) := bind_pure_unit.symm

theorem makes_createSnapshot (data : List UInt8) :
    Makes (.createSnapshot data) (createSnapshot data) := rfl

theorem makes_snapshotToApply : Makes .snapshotToApply snapshotToApply := rfl

theorem applied_same (s : Simulation) (id v : NodeID) :
    (s.members v).applied = if v = id then (s.members id).applied else (s.members v).applied := by
  split
  · rename_i hv
    rw [hv]
  · rfl

theorem applied_setMember (s : Simulation) (id v : NodeID) (f : Member → Member) :
    ((s.setMember id f).members v).applied =
      if v = id then (f (s.members id)).applied else (s.members v).applied := by
  simp only [Simulation.setMember, Function.update_apply]
  split <;> rfl

/-- A call that tells the state machine nothing. -/
theorem Good.meets_plain {x : Core α} {Q : Except Error α → Simulation → Prop}
    {F : Halt → Simulation → Prop} (h : Good boot hn hs s net w) (hr : (s.nodes id).rn = some r)
    (hx : Makes c x) (hc : Cluster.fixedCalls { slot := fun id => (s.nodes id).slot, net } id c)
    (hplain : Plain c)
    (htake : ∀ data term, c = .createSnapshot data → IsImage w ⟨r.log.applied, term, r.conf, data⟩)
    (hok : ∀ a r' w', x (s.lend r) = .ok a r' → Good boot hn hs (s.put id r') (net ++ taken c r) w' →
      Goes s w (s.put id r') w' → Current w' r' (s.members id).applied → Q (.ok a) (s.put id r'))
    (herr : ∀ e r' w' st, st ∈ c.refusals → e.wraps = [st] →
      Good boot hn hs (s.put id r') (net ++ taken c r) w' → Goes s w (s.put id r') w' →
      Q (.error e) (s.put id r')) :
    Meets (call id r x) s Q F := by
  obtain ⟨-, hwf, -⟩ := h.hosted.up (Node.slot_up hr)
  have hcurrent := ((h.kept id).up r hr).2
  have hstep : ∀ m snap, c = .step m → m.snapshot = some snap → IsImage w snap := by
    rintro m snap rfl hsnap
    exact h.images m hc snap hsnap
  have hgood : ∀ r', Hosted.Returns c (s.lend r) r' →
      ∃ w', Good boot hn hs (s.put id r') (net ++ taken c r) w' ∧ Goes s w (s.put id r') w' ∧
        Current w' r' (s.members id).applied := by
    intro r' hret
    have hes := hcurrent.call hwf hplain hret hstep htake
    obtain ⟨w', hg, hgo⟩ := h.called hr hc hret hes rfl (applied_same s id) rfl rfl rfl rfl
    exact ⟨w', hg, hgo, hes.later hgo.later⟩
  refine meets_call h.hosted hr hx hc ?_ ?_ (fun a r' hrun hret => ?_) fun e r' st _ hret hst he => ?_
  · rintro rfl
    exact hplain
  · rintro i rfl
    exact hplain.elim
  · obtain ⟨w', hg, hgo, hcur⟩ := hgood r' hret
    exact hok a r' w' hrun hg hgo hcur
  · obtain ⟨w', hg, hgo, -⟩ := hgood r' hret
    exact herr e r' w' st hst he hg hgo

/-! ### What is done with what a node has produced -/

/-- No snapshot waits for the node's state machine. -/
def Quiet (s : Simulation) (id : NodeID) : Prop :=
  ∀ r, (s.nodes id).rn = some r → r.appliedSnapshot = none

theorem safe_restoreSnapshot (h : Good boot hn hs s net w) :
    Meets (restoreSnapshot id) s
      (fun _ s' => ∃ net' w', Good boot hn hs s' net' w' ∧ Goes s w s' w' ∧ Quiet s' id)
      fun e _ => e = .overflow := by
  rw [restoreSnapshot, meets_bind, meets_get]
  split
  · rename_i hrn
    refine ⟨net, w, h, .refl s w, fun r hr => ?_⟩
    rw [hrn] at hr
    cases hr
  · rename_i r hr
    have hcurrent := ((h.kept id).up r hr).2
    rw [meets_bind]
    refine meets_call h.hosted hr makes_snapshotToApply trivial nofun nofun (fun a r' hrun hret => ?_)
      fun _ _ _ _ _ hst => nomatch hst
    cases hrun
    -- whatever becomes of the state machine, nothing waits for it any more
    have hdone : ∀ s' es, s'.nodes = (s.put id { s.lend r with appliedSnapshot := none }).nodes →
        (∀ v, (s'.members v).applied = if v = id then es else (s.members v).applied) →
        s'.conf = s.conf → s'.ids = s.ids → s'.cfg = s.cfg → s'.queue = s.queue →
        es.length = r.log.applied ∧ Settled w es →
        ∃ net' w', Good boot hn hs s' net' w' ∧ Goes s w s' w' ∧ Quiet s' id := by
      intro s' es hnodes hmembers hconf hids hcfg hqueue hsettled
      have hes : Current w { s.lend r with appliedSnapshot := none } es :=
        ⟨⟨hcurrent.carries.disk, hcurrent.carries.msgs, nofun⟩, hsettled.2, fun _ => hsettled.1, nofun⟩
      obtain ⟨w', hg, hgo⟩ := h.called (c := .snapshotToApply) hr trivial hret hes hnodes hmembers hconf
        hids hcfg hqueue
      refine ⟨_, w', hg, hgo, fun r' hr' => ?_⟩
      rw [hnodes] at hr'
      simp only [Simulation.put, Simulation.setNode, Function.update_self] at hr'
      cases hr'
      rfl
    cases hsnap : r.appliedSnapshot with
    | none =>
      rw [show (s.lend r).appliedSnapshot = none from hsnap]
      exact hdone _ _ rfl (applied_same s id) rfl rfl rfl rfl ⟨hcurrent.applied hsnap, hcurrent.settled⟩
    | some snap =>
      rw [show (s.lend r).appliedSnapshot = some snap from hsnap]
      obtain ⟨es, hlen, hset, hfits, hdata⟩ := hcurrent.carries.pending snap hsnap
      dsimp only
      rw [restore, hdata, decode_stateMachineImage hfits]
      refine hdone _ (es.map strip) rfl (fun v => applied_setMember ..) rfl rfl rfl rfl
        ⟨?_, hset.map_strip⟩
      rw [List.length_map, hlen]
      exact hcurrent.handed snap hsnap

/-- What is committed and not yet applied follows what the state machine holds. -/
theorem Good.settled_batch (h : Good boot hn hs s net w) (hr : (s.nodes id).rn = some r)
    {entries : List LogEntry} (hes : es.length = r.log.applied) (hset : Settled w es)
    (hat : ∀ k e, entries[k]? = some e →
      e.index = r.log.applied + 1 + k ∧ r.log.mem.getEntry (r.log.applied + 1 + k) = .ok e)
    (hlen : r.log.applied + entries.length ≤ r.log.committed) : Settled w (es ++ entries) := by
  refine hset.append fun k e hk => ?_
  obtain ⟨hidx, hget⟩ := hat k e hk
  have hlt := (List.getElem?_eq_some_iff.mp hk).1
  rw [show r.log.applied + 1 + k = r.log.applied + k + 1 by omega] at hget
  obtain ⟨t, p, l, -, hc, hp⟩ := h.hosted.refines.committed
    (Cluster.node?_eq_some.mpr (Node.slot_up hr)) (by omega) hget
  exact ⟨by omega, t, p, l, hc, hes ▸ hp⟩

theorem applyTo_ok {i : ℕ} (hi : r.log.applied < i) (hc : i ≤ r.log.committed) :
    applyTo i r = .ok () { r with log := { r.log with applied := i } } := by
  refine Meets.eq_ok ?_
  rw [applyTo, onLog, meets_onPart, RaftLog.appliedTo, meets_bind, meets_get, if_neg (by omega),
    if_neg (by omega)]
  exact ⟨rfl, rfl⟩

/-- The state machine has been given entries, and the process knows it. -/
theorem Current.advance {i : ℕ} (h : Current w r es) (hq : r.appliedSnapshot = none) {es' : List LogEntry}
    (hlen : es'.length = i) (hset : Settled w es')
    (hr' : r' = { s.lend r with log := { (s.lend r).log with applied := i } }) : Current w r' es' := by
  subst hr'
  refine ⟨⟨h.carries.disk, h.carries.msgs, h.carries.pending⟩, hset, fun _ => hlen, fun snap hsnap => ?_⟩
  change r.appliedSnapshot = some snap at hsnap
  rw [hq] at hsnap
  cases hsnap

/-- Everything committed reaches the state machine: there are no more batches than entries. -/
theorem safe_drainBatches (fuel : ℕ) (h : Good boot hn hs s net w) (hq : Quiet s id)
    (hfuel : ∀ r, (s.nodes id).rn = some r → r.log.committed ≤ r.log.applied + fuel) :
    Meets (drainBatches id fuel) s
      (fun _ s' => ∃ net' w', Good boot hn hs s' net' w' ∧ Goes s w s' w' ∧ Quiet s' id ∧
        ∀ r, (s'.nodes id).rn = some r → r.log.applied = r.log.committed)
      fun e _ => e = .overflow := by
  induction fuel generalizing s net w with
  | zero =>
    refine ⟨net, w, h, .refl s w, hq, fun r hr => ?_⟩
    obtain ⟨-, hwf, -⟩ := h.hosted.up (Node.slot_up hr)
    have := hfuel r hr
    have := hwf.log.applied_le
    omega
  | succ fuel ih =>
    rw [drainBatches, meets_bind, meets_get]
    split
    · rename_i hrn
      refine ⟨net, w, h, .refl s w, hq, fun r hr => ?_⟩
      rw [hrn] at hr
      cases hr
    · rename_i r hr
      obtain ⟨-, hwf, -⟩ := h.hosted.up (Node.slot_up hr)
      have hcurrent := ((h.kept id).up r hr).2
      have hlen := hcurrent.applied (hq r hr)
      have hle := hwf.log.applied_le
      by_cases hmore : r.log.applied < r.log.committed
      · obtain ⟨entries, hentries, hle', hne, hat⟩ :=
          RaftLog.entriesToApply_ok hwf.log r.cfg.maxApplyEntries
        have hpos := List.length_pos_iff.mpr (hne hmore)
        obtain ⟨last, hlast⟩ : ∃ last, entries.getLast? = some last :=
          ⟨_, List.getLast?_eq_some_getLast (hne hmore)⟩
        have hidx : last.index = r.log.applied + entries.length := by
          have := (hat (entries.length - 1) last (by rw [← hlast, List.getLast?_eq_getElem?])).1
          omega
        rw [if_neg (by simpa [RaftLog.hasEntriesToApply] using hmore), RawNode.committedEntries, hentries]
        dsimp only
        rw [hlast]
        dsimp only
        rw [meets_bind, meets_modify, meets_bind]
        refine meets_call h.hosted hr (makes_applyTo last.index) trivial ?_ ?_
          (fun a r' hrun hret => ?_) ?_
        · rintro ⟨⟩
        · rintro i ⟨⟩
          omega
        · have hto := applyTo_ok (r := s.lend r) (i := last.index)
            (by change r.log.applied < _; omega) (by change _ ≤ r.log.committed; omega)
          obtain ⟨-, hr'⟩ := EStateM.Result.ok.inj (hrun.symm.trans hto)
          have hes := hcurrent.advance (hq r hr) (by rw [List.length_append, hlen, hidx])
            (h.settled_batch hr hlen hcurrent.settled hat hle') hr'
          obtain ⟨w', hg, hgo⟩ : ∃ w', Good boot hn hs ((s.setMember id fun m =>
                { m with applied := m.applied ++ entries }).put id r')
                (net ++ taken (.applyTo last.index) r) w' ∧ Goes s w _ w' :=
            h.called (c := .applyTo last.index) hr trivial hret hes rfl
              (fun v => applied_setMember s id v fun m => { m with applied := m.applied ++ entries })
              rfl rfl rfl rfl
          have hself : ∀ r'', (((s.setMember id fun m =>
              { m with applied := m.applied ++ entries }).put id r').nodes id).rn = some r'' →
              r'' = r' := by
            intro r'' hr''
            simp only [Simulation.put, Simulation.setNode, Function.update_self] at hr''
            exact (Option.some.inj hr'').symm
          refine Meets.mono (ih hg (fun r'' hr'' => ?_) fun r'' hr'' => ?_) (fun _ s'' h'' => ?_)
            fun _ _ h => h
          · rw [hself r'' hr'', hr']
            exact hq r hr
          · rw [hself r'' hr'', hr']
            have := hfuel r hr
            change r.log.committed ≤ last.index + fuel
            omega
          · obtain ⟨net'', w'', hg'', hgo'', hrest⟩ := h''
            exact ⟨net'', w'', hg'', hgo.trans hgo'', hrest⟩
        · rintro _ _ _ _ _ ⟨⟩
      · rw [if_pos (by simpa [RaftLog.hasEntriesToApply] using hmore)]
        refine ⟨net, w, h, .refl s w, hq, fun r' hr' => ?_⟩
        rw [hr] at hr'
        cases hr'
        omega

theorem safe_drainApplied (h : Good boot hn hs s net w) (hq : Quiet s id) :
    Meets (drainApplied id) s
      (fun _ s' => ∃ net' w', Good boot hn hs s' net' w' ∧ Goes s w s' w' ∧ Quiet s' id)
      fun e _ => e = .overflow := by
  rw [drainApplied, meets_bind, meets_get]
  split
  · exact ⟨net, w, h, .refl s w, hq⟩
  · rename_i r hr
    refine Meets.mono (safe_drainBatches _ h hq fun r' hr' => ?_) (fun _ s' h' => ?_) fun _ _ h => h
    · rw [hr] at hr'
      cases hr'
      omega
    · obtain ⟨net', w', hg, hgo, hq', -⟩ := h'
      exact ⟨net', w', hg, hgo, hq'⟩

theorem safe_maybeSnapshot (h : Good boot hn hs s net w) (hq : Quiet s id) :
    Safe boot hn hs (maybeSnapshot id) s w := by
  refine Meets.bind ?_
  rw [meets_get]
  split
  · exact Safe.pure h _
  · rename_i r hr
    split
    · exact Safe.pure h _
    · dsimp only
      split
      · rfl
      · rename_i hfits
        have hcurrent := ((h.kept id).up r hr).2
        rw [meets_bind]
        refine h.meets_plain hr (makes_createSnapshot _) trivial trivial ?_
          (fun a r' w' _ hg hgo _ => ?_) fun e r' w' st hst he hg hgo => ?_
        · rintro data term ⟨⟩
          exact ⟨_, hcurrent.applied (hq r hr), hcurrent.settled, not_not.mp hfits, rfl⟩
        · exact ⟨_, w', hg.congr rfl (fun _ => rfl) rfl rfl rfl hg.events,
            hgo.trans (.of_nodes rfl)⟩
        · have hskip : (e.is .nothingToSnapshot || e.is .snapshotOutOfDate) = true := by
            rw [Error.is, Error.is, he]
            rcases List.mem_cons.mp hst with rfl | hst
            · rfl
            · rw [List.mem_singleton.mp hst]
              rfl
          dsimp only
          rw [if_pos hskip]
          exact ⟨_, w', hg, hgo⟩

/-- What a node has produced is sent, restored, applied and compacted. -/
theorem safe_after (h : Good boot hn hs s net w) : Safe boot hn hs (after id) s w := by
  refine Meets.bind ?_
  rw [meets_get]
  split
  · exact Safe.pure h _
  · rename_i r hr
    rw [meets_bind]
    refine h.meets_plain hr makes_messages trivial trivial nofun (fun msgs r' w' hrun hg hgo _ => ?_)
      fun _ _ _ _ hst => nomatch hst
    obtain rfl : msgs = r.msgs := by
      cases hrun
      rfl
    dsimp only
    rw [meets_bind]
    refine Meets.mono idles_routeAll (fun _ s₂ h₂ => ?_) fun _ _ h => h.elim
    have hg₂ := hg.idles h₂ (by
      rintro _ ⟨m, hm, rfl⟩
      exact List.mem_append_right net hm)
    have hgo₂ : Goes s w s₂ w' := hgo.trans (.of_nodes h₂.nodes)
    rw [meets_bind]
    refine Meets.mono (safe_restoreSnapshot hg₂) (fun _ s₃ h₃ => ?_) fun _ _ h => h
    obtain ⟨net₃, w₃, hg₃, hgo₃, hq₃⟩ := h₃
    rw [meets_bind]
    refine Meets.mono (safe_drainApplied hg₃ hq₃) (fun _ s₄ h₄ => ?_) fun _ _ h => h
    obtain ⟨net₄, w₄, hg₄, hgo₄, hq₄⟩ := h₄
    exact (safe_maybeSnapshot hg₄ hq₄).after ((hgo₂.trans hgo₃).trans hgo₄)

/-! ### Events -/

theorem meets_lookup {Q : Node → Simulation → Prop} {F : Halt → Simulation → Prop} (hid : id ∈ s.ids)
    (h : Q (s.nodes id) s) : Meets (lookup id) s Q F := by
  rw [lookup, meets_bind, meets_get, if_pos hid]
  exact h

/-- A program that leaves the nodes alone and adds sensible events. -/
theorem Good.safe_idles {K : EventKind → Prop} {x : SimM α} (h : Good boot hn hs s net w)
    (hx : Surely (Idles K) x s) (hK : ∀ k, K k → Sensible s.ids net k) :
    Meets x s (fun _ s' => Good boot hn hs s' net w ∧ Goes s w s' w ∧ Idles K s s')
      fun e _ => e = .overflow :=
  Meets.mono hx (fun _ _ hi => ⟨h.idles hi hK, .of_nodes hi.nodes, hi⟩) fun _ _ h => h.elim

theorem safe_applyTick (h : Good boot hn hs s net w) (hid : id ∈ s.ids) :
    Safe boot hn hs (applyTick id) s w := by
  refine Meets.bind (meets_lookup hid ?_)
  rw [meets_bind, meets_get, meets_bind]
  refine Meets.mono (h.safe_idles (idles_schedule (K := (· = .tick id)) rfl rfl rfl) ?_)
    (fun _ s₁ h₁ => ?_) fun _ _ h => h
  · rintro _ rfl
    exact hid
  · obtain ⟨hg₁, hgo₁, hi⟩ := h₁
    split
    · exact ⟨net, w, hg₁, hgo₁⟩
    · rename_i r hr
      rw [← hi.nodes] at hr
      rw [meets_bind]
      refine hg₁.meets_plain hr makes_tick trivial trivial nofun (fun a r' w' _ hg hgo _ => ?_)
        fun _ _ _ _ hst => nomatch hst
      exact (safe_after hg).after (hgo₁.trans hgo)

theorem safe_applyDeliver {m : Message} (h : Good boot hn hs s net w) (hm : m ∈ net) :
    Safe boot hn hs (applyDeliver m) s w := by
  have hid : m.dest ∈ s.ids := (h.ids _).mpr (h.hosted.manners.net m hm).dest
  refine Meets.bind (meets_lookup hid ?_)
  split
  · exact Safe.pure h _
  · rename_i r hr
    rw [meets_bind]
    refine h.meets_plain hr (makes_step m) hm trivial nofun (fun a r' w' _ hg hgo _ => ?_)
      fun e r' w' st hst he hg hgo => ?_
    · exact (safe_after hg).after hgo
    · have hskip : e.is .ignoredMessage = true := by
        rw [Error.is, he, List.mem_singleton.mp hst]
        rfl
      dsimp only
      rw [if_pos hskip]
      exact ⟨_, w', hg, hgo⟩

theorem safe_writeTo {ids : List NodeID} (h : Good boot hn hs s net w) :
    Safe boot hn hs (writeTo ids) s w := by
  induction ids generalizing s net w with
  | nil => exact Safe.pure h _
  | cons id ids ih =>
    refine Meets.bind ?_
    rw [meets_get]
    refine Safe.bind ?_ fun _ _ _ _ hg => ih hg
    split
    · exact Safe.pure h _
    · rename_i r hr
      split
      · exact Safe.pure h _
      · refine Meets.bind ?_
        rw [meets_modify, meets_bind]
        have h₁ : Good boot hn hs { s with writeSeq := s.writeSeq + 1 } net w :=
          h.congr rfl (fun _ => rfl) rfl rfl rfl h.events
        have hgo₁ : Goes s w { s with writeSeq := s.writeSeq + 1 } w := .of_nodes rfl
        refine h₁.meets_plain hr (makes_propose _) trivial trivial nofun (fun a r' w' _ hg hgo _ => ?_)
          fun e r' w' st _ _ hg hgo => ?_
        · exact (safe_after hg).after (hgo₁.trans hgo)
        · exact ⟨_, w', hg, hgo₁.trans hgo⟩

theorem safe_applyClientWrite (h : Good boot hn hs s net w) :
    Safe boot hn hs applyClientWrite s w := by
  refine Meets.bind ?_
  rw [meets_get, meets_bind]
  refine Meets.mono (h.safe_idles (idles_schedule (K := (· = .clientWrite)) rfl rfl rfl) ?_)
    (fun _ s₁ h₁ => ?_) fun _ _ h => h
  · rintro _ rfl
    trivial
  · exact (safe_writeTo h₁.1).after h₁.2.1

/-! ### Crashes and restarts -/

/-- The node is down and its state machine is lost. -/
theorem Good.crash (h : Good boot hn hs s net w) (hr : (s.nodes id).rn = some r) {f : Member → Member}
    (hf : (f (s.members id)).applied = []) :
    ∃ w', Good boot hn hs ((s.setNode id fun n => { n with rn := none }).setMember id f) net w' ∧
      Goes s w ((s.setNode id fun n => { n with rn := none }).setMember id f) w' := by
  obtain ⟨hsync, hcurrent⟩ := (h.kept id).up r hr
  obtain ⟨w', hl, hw'⟩ := h.hosted.crash h.named (Node.slot_up hr)
  refine ⟨w', h.replaced (n := { s.nodes id with rn := none }) hl ?_ ⟨fun _ => ⟨rfl, ?_⟩, nofun⟩
    (List.Subset.refl _) (fun m hm hold => absurd hm hold) rfl (fun v => ?_) rfl rfl rfl rfl, hl,
    fun v r' hr' hflag => ?_⟩
  · rw [Node.slot_down rfl, hsync]
    exact hw'
  · rw [hsync]
    exact fun hne => (hcurrent.carries.disk hne).later hl
  · rw [applied_setMember]
    split
    · exact hf
    · rfl
  · by_cases hv : v = id
    · subst hv
      simp only [Simulation.setMember, Simulation.setNode, Function.update_self] at hr'
      cases hr'
    · simp only [Simulation.setMember, Simulation.setNode, Function.update_of_ne hv] at hr' hflag
      exact ⟨r', hr', hflag, le_rfl⟩

theorem safe_applyCrash (h : Good boot hn hs s net w) (hid : id ∈ s.ids) :
    Safe boot hn hs (applyCrash id) s w := by
  refine Meets.bind (meets_lookup hid ?_)
  rw [meets_bind, meets_get]
  split
  · exact Safe.pure h _
  · rename_i hup
    split
    · exact Safe.pure h _
    · obtain ⟨r, hr⟩ : ∃ r, (s.nodes id).rn = some r := by
        rw [Node.crashed, Option.isNone_iff_eq_none] at hup
        exact Option.ne_none_iff_exists'.mp hup
      obtain ⟨w', hg, hgo⟩ := h.crash hr (f := fun m => { m with applied := [], crashes := m.crashes + 1 }) rfl
      rw [meets_bind, meets_set, meets_bind]
      refine meets_randRange fun x s₁ hx hle h₁ => ?_
      have hg₁ := hg.idles (K := fun _ => False) h₁.idles fun _ h => h.elim
      rw [meets_bind]
      refine meets_chance fun lose s₂ hlose h₂ => ?_
      have hg₂ := hg₁.idles (K := fun _ => False) h₂.idles fun _ h => h.elim
      obtain rfl := hlose h.durable
      obtain ⟨k₁, rfl⟩ := h₁
      obtain ⟨k₂, rfl⟩ := h₂
      refine Meets.mono (hg₂.safe_idles (idles_schedule (K := (· = .restart id false)) rfl
        ⟨⟨?_, ?_⟩, fun _ => rfl⟩ rfl) ?_) (fun _ s₃ h₃ => ?_) fun _ _ h => h
      · change s.cfg.faults.restartMin ≤ s.cfg.faults.restartMin + x
        omega
      · change s.cfg.faults.restartMin + x ≤ s.cfg.faults.longestDown
        rw [Faults.longestDown]
        omega
      · rintro _ rfl
        exact ⟨hid, rfl⟩
      · exact ⟨net, w', h₃.1, hgo.trans (.of_nodes h₃.2.2.nodes)⟩

/-- Only the one node and its state machine have changed. -/
structure Touches (id : NodeID) (s s' : Simulation) : Prop where
  nodes : ∀ v, v ≠ id → s'.nodes v = s.nodes v
  ids : s'.ids = s.ids
  cfg : s'.cfg = s.cfg
  queue : s'.queue = s.queue
  checker : s'.checker = s.checker

/-- A node that was down is started over its disk. -/
theorem meets_start (h : Good boot hn hs s net w) (hid : id ∈ s.ids) (hdown : (s.nodes id).rn = none) :
    Meets (start id) s
      (fun _ s' => ∃ w', Good boot hn hs s' net w' ∧ Later w w' ∧ Touches id s s')
      fun _ _ => False := by
  have hmem := (h.ids id).mp hid
  have hslot := Node.slot_down hdown
  obtain ⟨hes, himage⟩ := (h.kept id).down hdown
  have hdisk : FixedDisk boot (s.nodes id).storage := by
    have := h.hosted.refines.slot id
    simp only [hslot] at this
    exact this.2.1
  obtain ⟨r, hnew⟩ := new_isOk hdisk (validate_raftConfig (s := s) h.valid fun heq => h.named (heq ▸ hmem))
  obtain ⟨w', hl, hw'⟩ := h.hosted.start h.named hslot rfl h.conf hnew
  have hstarted := RawNode.started_of_new hnew
  have hmemory : r.log.mem = (s.nodes id).storage := by rw [hstarted.log]; rfl
  have happlied : r.log.applied = (s.nodes id).storage.snapshot.lastIncludedIndex := by
    rw [hstarted.log]
    rfl
  -- whatever the state machine is rebuilt from, it is what the process has applied
  have hdone : ∀ s' es, s'.nodes = (s.put id r).nodes →
      (∀ v, (s'.members v).applied = if v = id then es else (s.members v).applied) →
      s'.conf = s.conf → s'.ids = s.ids → s'.cfg = s.cfg → s'.queue = s.queue →
      s'.checker = s.checker → es.length = r.log.applied ∧ Settled w es →
      ∃ w', Good boot hn hs s' net w' ∧ Later w w' ∧ Touches id s s' := by
    intro s' es hnodes hmembers hconf hids hcfg hqueue hchecker hsettled
    have hcurrent : Current w r es := by
      refine ⟨⟨?_, ?_, ?_⟩, hsettled.2, fun _ => hsettled.1, ?_⟩
      · rw [hmemory]
        exact himage
      · rw [hstarted.msgs]
        rintro _ ⟨⟩
      · rw [RawNode.appliedSnapshot_of_new hnew]
        rintro _ ⟨⟩
      · rw [RawNode.appliedSnapshot_of_new hnew]
        rintro _ ⟨⟩
    refine ⟨w', h.replaced (n := { s.nodes id with rn := some r, storage := r.log.mem }) hl hw'
      ⟨?_, fun r' hr' => ?_⟩ (List.Subset.refl _) (fun m hm hold => absurd hm hold) hnodes hmembers
      hconf hids hcfg hqueue, hl, fun v hv => ?_, hids, hcfg, hqueue, hchecker⟩
    · rintro ⟨⟩
    · cases hr'
      exact ⟨rfl, hcurrent.later hl⟩
    · rw [hnodes]
      exact Function.update_of_ne hv ..
  rw [start, meets_bind, meets_get]
  simp only [hnew]
  rw [meets_bind, meets_set]
  split
  · rename_i hempty
    refine hdone _ _ rfl (applied_same s id) rfl rfl rfl rfl rfl ?_
    rw [hes, happlied, of_decide_eq_true hempty]
    exact ⟨rfl, .nil w⟩
  · rename_i hne
    obtain ⟨es, hlen, hset, hfits, hdata⟩ := himage (Bool.eq_false_iff.mpr hne)
    rw [restore, hdata, decode_stateMachineImage hfits]
    refine hdone _ (es.map strip) rfl (fun v => applied_setMember ..) rfl rfl rfl rfl rfl
      ⟨?_, hset.map_strip⟩
    rw [List.length_map, hlen, happlied]

theorem Good.flag (h : Good boot hn hs s net w) (b : Bool) {f : Member → Member}
    (hf : (f (s.members id)).applied = (s.members id).applied) :
    Good boot hn hs ((s.setNode id fun n => { n with restartedSinceCheck := b }).setMember id f) net w := by
  have hslot : Node.slot { s.nodes id with restartedSinceCheck := b } = (s.nodes id).slot := rfl
  refine h.replaced (n := { s.nodes id with restartedSinceCheck := b }) (.refl w) ?_
    ⟨(h.kept id).down, (h.kept id).up⟩ (List.Subset.refl _)
    (fun m hm hold => absurd hm hold) rfl (fun v => ?_) rfl rfl rfl rfl
  · rw [hslot, Function.update_eq_self]
    exact h.hosted
  · rw [applied_setMember]
    split
    · exact hf
    · rfl

theorem safe_applyRestart (h : Good boot hn hs s net w) (hid : id ∈ s.ids) :
    Safe boot hn hs (applyRestart id false) s w := by
  refine Meets.bind (meets_lookup hid ?_)
  split
  · exact Safe.pure h _
  · rename_i hdown
    rw [Bool.not_eq_true', Bool.not_eq_false, Node.crashed, Option.isNone_iff_eq_none] at hdown
    rw [if_neg Bool.false_ne_true, meets_bind, meets_pure, meets_bind]
    refine Meets.mono (meets_start h hid hdown) (fun _ s₁ h₁ => ?_) fun _ _ h => h.elim
    obtain ⟨w', hg, hl, htouch⟩ := h₁
    rw [meets_bind, meets_modify]
    refine (safe_after (hg.flag true rfl)).after ⟨hl, fun v r' hr' hflag => ?_⟩
    by_cases hv : v = id
    · subst hv
      simp only [Simulation.setMember, Simulation.setNode, Function.update_self] at hflag
      cases hflag
    · simp only [Simulation.setMember, Simulation.setNode, Function.update_of_ne hv, htouch.nodes v hv]
        at hr' hflag
      exact ⟨r', hr', hflag, le_rfl⟩

/-! ### Faults -/

theorem safe_applyHeal (h : Good boot hn hs s net w) : Safe boot hn hs applyHeal s w :=
  ⟨net, w, h.congr rfl (fun _ => rfl) rfl rfl rfl h.events, .of_nodes rfl⟩

theorem safe_applyFaultDecision (h : Good boot hn hs s net w) :
    Safe boot hn hs applyFaultDecision s w := by
  refine Meets.bind ?_
  rw [meets_get, meets_bind]
  refine Meets.mono (h.safe_idles (idles_schedule (K := (· = .partition)) rfl rfl rfl) ?_)
    (fun _ s₁ h₁ => ?_) fun _ _ h => h
  · rintro _ rfl
    trivial
  obtain ⟨hg₁, hgo₁, hi₁⟩ := h₁
  have hpart : Surely (Idles (· = .heal)) (if s.part.isNone then do
      if ← chance s.cfg.faults.partitionRate then startPartition else pure ()
    else pure () : SimM Unit) s₁ := by
    split
    · refine .bind idles_chance fun b _ => ?_
      split
      · exact idles_startPartition
      · exact .pure _
    · exact .pure _
  rw [meets_bind]
  refine Meets.mono (hg₁.safe_idles hpart ?_) (fun _ s₂ h₂ => ?_) fun _ _ h => h
  · rintro _ rfl
    trivial
  obtain ⟨hg₂, hgo₂, hi₂⟩ := h₂
  rw [meets_bind, meets_bind]
  -- the membership is not changed
  refine meets_chance fun change s₃ hchange h₃ => ?_
  obtain rfl := hchange h.stable
  have hg₃ := hg₂.idles (K := fun _ => False) h₃.idles fun _ h => h.elim
  rw [if_neg Bool.false_ne_true, meets_pure, meets_bind]
  refine meets_chance fun crash s₄ _ h₄ => ?_
  have hg₄ := hg₃.idles (K := fun _ => False) h₄.idles fun _ h => h.elim
  have hi : Idles (fun _ => True) s s₄ :=
    trans_of _ (trans_of _ (hi₁.mono fun _ _ => trivial) (hi₂.mono fun _ _ => trivial))
      (trans_of _ (h₃.idles) h₄.idles)
  have hgo₄ : Goes s w s₄ w := .of_nodes hi.nodes
  split
  · have hlen : 0 < (s.ids.length : ℤ) := by
      have := List.length_pos_iff.mpr h.nonempty
      omega
    rw [meets_bind]
    refine meets_intn hlen fun k s₅ hk hk' h₅ => ?_
    have hg₅ := hg₄.idles (K := fun _ => False) h₅.idles fun _ h => h.elim
    have hmem : s.ids.getD k.toNat None ∈ s₅.ids := by
      rw [(h₅.idles (K := fun _ => True)).ids, hi.ids, List.getD_eq_getElem?_getD,
        List.getElem?_eq_getElem (by omega)]
      exact List.getElem_mem _
    exact (safe_applyCrash hg₅ hmem).after (hgo₄.trans (.of_nodes (h₅.idles (K := fun _ => True)).nodes))
  · exact ⟨net, w, hg₄, hgo₄⟩

/-- Whatever a sensible event does, the run goes on. -/
theorem safe_apply {ev : Event} (h : Good boot hn hs s net w) (hev : Sensible s.ids net ev.kind) :
    Safe boot hn hs (apply ev) s w := by
  rw [apply]
  cases hkind : ev.kind <;> rw [hkind] at hev
  case tick id => exact safe_applyTick h hev
  case deliver m => exact safe_applyDeliver h hev
  case crash id => exact safe_applyCrash h hev
  case restart id lose =>
    obtain ⟨hid, rfl⟩ := hev
    exact safe_applyRestart h hid
  case partition => exact safe_applyFaultDecision h
  case heal => exact safe_applyHeal h
  case clientWrite => exact safe_applyClientWrite h

end RaftStore.Sim
