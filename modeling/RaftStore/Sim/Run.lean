import RaftStore.Sim.NoFinding

/-! Whole runs of the simulator.  Where the membership is left alone and disks survive, a run from a new
simulation finds no violation; and it comes to an end where every event is a delay after the one that
causes it. -/

namespace RaftStore.Sim

open Lib Consensus Raft

variable {sum256 : List UInt8 → List UInt8} {boot : Configuration} {hn : boot.Normalized}
  {hs : boot.Sized} {s s' : Simulation} {net : List Message} {w w' : World NodeID LogEntry}

/-! ### One turn -/

/-- Between two events the cluster is in order, and so is what the checker remembers. -/
def Vigilant (sum256 : List UInt8 → List UInt8) (boot : Configuration) (hn : boot.Normalized)
    (hs : boot.Sized) (s : Simulation) : Prop :=
  s.queue.OK ∧ ∃ net w, Good boot hn hs s net w ∧
    Watchful sum256 w { checker := s.checker, sim := s.toSimulator }

/-- An event is handled and looked at. -/
theorem meets_turn (h : Vigilant sum256 boot hn hs s) :
    Meets (turn sum256) s
      (fun o s' => o.elim (Vigilant sum256 boot hn hs s') fun found =>
        found = none ∧ Vigilant sum256 boot hn hs s')
      fun e _ => e = .overflow := by
  obtain ⟨hok, net, w, hgood, hwatch⟩ := h
  rw [turn, meets_bind, meets_get]
  split
  · exact ⟨rfl, hok, net, w, hgood, hwatch⟩
  · rename_i ev queue hpop
    obtain ⟨hok', -, hperm, -⟩ := hok.of_pop hpop
    have hev := hgood.events ev (hperm.mem_iff.mpr List.mem_cons_self)
    have hevents : ∀ e ∈ queue.items.toList, Sensible s.ids net e.kind := fun e he =>
      hgood.events e (hperm.mem_iff.mpr (List.mem_cons_of_mem ev he))
    rw [meets_bind, meets_set]
    split
    · exact ⟨rfl, hok', net, w, hgood.congr rfl (fun _ => rfl) rfl rfl rfl hevents,
        hwatch.leaders, hwatch.commits, hwatch.marks⟩
    · rw [meets_bind, meets_modify, meets_bind]
      have hgood₁ : Good boot hn hs { s with queue, now := ev.time } net w :=
        hgood.congr rfl (fun _ => rfl) rfl rfl rfl hevents
      have hwatch₁ : Watchful sum256 w { checker := s.checker, sim := { s.toSimulator with now := ev.time } } :=
        ⟨hwatch.leaders, hwatch.commits, hwatch.marks⟩
      refine Meets.mono (Meets.and (safe_apply hgood₁ hev) (proceeds_apply ev)) (fun _ s₂ h₂ => ?_)
        fun _ _ h => h.1
      obtain ⟨⟨net', w', hgood₂, hgo⟩, hproc⟩ := h₂
      have hwatch₂ := Watchful.goes (s := { s with queue, now := ev.time }) hwatch₁ hgo hproc.checker
      rw [meets_bind, meets_get]
      have hobserve := passes_observe hgood₂.hosted.refines.inv hwatch₂ hgood₂.allBacked
      split
      · rename_i v hv
        obtain ⟨hsame, hwatch₃⟩ := hobserve.ok hv
        exact ⟨hproc.queue hok', net', w', hgood₂.same hsame rfl rfl rfl rfl, hwatch₃⟩
      · rename_i v hv
        exact (hobserve.error hv).elim

/-- The checks that are made once find nothing either. -/
theorem meets_report {F : Halt → Simulation → Prop} (h : Vigilant sum256 boot hn hs s) :
    Meets (do let found ← final sum256; report found) s (fun rep _ => rep.violation = none) F := by
  obtain ⟨-, net, w, hgood, -⟩ := h
  rw [meets_bind, final, meets_bind, meets_get]
  have hclear : Clears (checkLogMatching sum256) { checker := s.checker, sim := s.toSimulator } :=
    clears_checkLogMatching hgood.matching
  split
  · rename_i v hv
    exact (hclear.error hv).elim
  · rw [checkStateMachinesAgree_eq_none hgood.hosted.refines.inv hgood.settled]
    rfl

/-! ### The beginning -/

/-- The kinds of events that a run begins with. -/
def Initial (s : Simulation) : EventKind → Prop
  | .tick id => id ∈ s.ids
  | .partition => True
  | .clientWrite => 0 < s.cfg.writeInterval
  | _ => False

/-- Nothing has changed but for events that were added, and numbers that were drawn for them. -/
def Begins (s s' : Simulation) : Prop :=
  ∃ draws queue, s' = { s with draws, queue } ∧ (s.queue.OK → queue.OK) ∧
    ∀ e ∈ queue.items.toList, e ∈ s.queue.items.toList ∨ Initial s e.kind ∧ -2 ^ 63 ≤ e.time

instance : IsPreorder Simulation Begins where
  refl s := ⟨s.draws, s.queue, rfl, id, fun _ he => Or.inl he⟩
  trans a b c h h' := by
    obtain ⟨draws, queue, rfl, hok, hadded⟩ := h
    obtain ⟨draws', queue', rfl, hok', hadded'⟩ := h'
    refine ⟨draws', queue', rfl, fun h => hok' (hok h), fun e he => ?_⟩
    rcases hadded' e he with he | he
    · exact hadded e he
    · exact Or.inr he

theorem begins_schedule {time : ℤ} {kind : EventKind} (h : Initial s kind) :
    Surely Begins (schedule time kind) s := by
  refine .modify ⟨s.draws, _, rfl, fun hok => hok.schedule (int64 time) kind, fun e he => ?_⟩
  rcases EventQueue.mem_schedule.mp he with rfl | he
  · exact Or.inr ⟨h, le_int64 time⟩
  · exact Or.inl he

theorem begins_scheduleTicks {ids : List NodeID} (hids : ids ⊆ s.ids) (ht : 0 < s.cfg.tickInterval) :
    Surely Begins (scheduleTicks ids) s := by
  induction ids generalizing s with
  | nil => exact .pure _
  | cons id ids ih =>
    refine .get_bind (Meets.bind (meets_intn ht fun x s₁ _ _ h₁ => ?_))
    obtain ⟨k, rfl⟩ := h₁
    refine Surely.after ⟨k, s.queue, rfl, fun h => h, fun _ he => Or.inl he⟩
      (.andThen (begins_schedule (hids List.mem_cons_self)) fun _ s₂ h₂ => ?_)
    obtain ⟨k', queue, rfl, -⟩ := h₂
    exact ih (fun v hv => hids (List.mem_cons_of_mem id hv)) ht

theorem begins_begin (ht : 0 < s.cfg.tickInterval) : Surely Begins begin s := by
  refine .get_bind (.andThen (begins_scheduleTicks (List.Subset.refl _) ht) fun _ s₁ h₁ =>
    .andThen (begins_schedule trivial) fun _ s₂ h₂ => ?_)
  obtain ⟨_, _, rfl, -⟩ := h₁
  obtain ⟨_, _, rfl, -⟩ := h₂
  split
  · rename_i hw
    exact begins_schedule hw
  · exact .pure _

theorem Initial.sensible {k : EventKind} (h : Initial s k) : Sensible s.ids net k := by
  cases k with
  | tick id => exact h
  | partition => trivial
  | clientWrite => trivial
  | deliver m => exact h.elim
  | crash id => exact h.elim
  | restart id lose => exact h.elim
  | heal => trivial

theorem Vigilant.begins (h : Vigilant sum256 boot hn hs s) (hb : Begins s s') :
    Vigilant sum256 boot hn hs s' := by
  obtain ⟨hok, net, w, hgood, hwatch⟩ := h
  obtain ⟨draws, queue, rfl, hok', hadded⟩ := hb
  refine ⟨hok' hok, net, w, hgood.congr rfl (fun _ => rfl) rfl rfl rfl fun e he => ?_, hwatch⟩
  rcases hadded e he with he | he
  · exact hgood.events e he
  · exact he.1.sensible

/-- A run from a state in order finds nothing. -/
theorem meets_run {fuel : ℕ} (h : Vigilant sum256 boot hn hs s) (ht : 0 < s.cfg.tickInterval) :
    Meets (run sum256 fuel) s (fun rep _ => rep.violation = none)
      fun e _ => e = .overflow ∨ e = .fail .outOfFuel := by
  rw [run, meets_bind]
  refine Meets.mono (begins_begin ht) (fun _ s₁ h₁ => ?_) fun _ _ h => h.elim
  rw [meets_bind]
  refine Meets.mono (meets_iterate (I := Vigilant sum256 boot hn hs)
    (Q := fun found s' => found = none ∧ Vigilant sum256 boot hn hs s')
    (F := fun e _ => e = .overflow ∨ e = .fail .outOfFuel) (fun s₂ h₂ => ?_)
    (fun _ _ => Or.inr rfl) (h.begins h₁)) (fun found s₃ h₃ => ?_) fun _ _ h => h
  · exact Meets.mono (meets_turn h₂) (fun _ _ h => h) fun _ _ h => Or.inl h
  · obtain ⟨rfl, h₃⟩ := h₃
    exact meets_report h₃

/-! ### A new simulation -/

/-- A process that could be started has valid settings. -/
theorem valid_of_new {id : NodeID} {d : Disk} {r : RawNode}
    (h : RawNode.new (s.raftConfig id) d = .ok r) : id ≠ None ∧ s.cfg.Valid := by
  have hv : (s.raftConfig id).validate = .ok () := by
    rw [RawNode.new] at h
    split at h
    · cases h
    · assumption
  rw [Raft.Config.validate] at hv
  split at hv
  · cases hv
  · rename_i hid
    split at hv
    · cases hv
    · rename_i helection
      split at hv
      · cases hv
      · rename_i hheart
        split at hv
        · cases hv
        · rename_i hlt
          exact ⟨hid, helection, hheart, not_le.mp hlt⟩

theorem meets_start_valid (id : NodeID) :
    Meets (start id) s (fun _ s' => (id ≠ None ∧ s.cfg.Valid) ∧ s'.cfg = s.cfg) fun _ _ => True := by
  rw [start, meets_bind, meets_get]
  dsimp only
  split
  · trivial
  · rename_i r hnew
    have hvalid := valid_of_new hnew
    rw [meets_bind, meets_set]
    split
    · exact ⟨hvalid, rfl⟩
    · rw [restore]
      split
      · trivial
      · exact ⟨hvalid, rfl⟩

theorem meets_startAll_valid (ids : List NodeID) :
    Meets (startAll ids) s (fun _ _ => ∀ id ∈ ids, id ≠ None ∧ s.cfg.Valid) fun _ _ => True := by
  induction ids generalizing s with
  | nil => rintro _ ⟨⟩
  | cons v ids ih =>
    rw [startAll, meets_bind]
    refine Meets.mono (meets_start_valid v) (fun _ s₁ h₁ => ?_) fun _ _ _ => trivial
    obtain ⟨hv, hcfg⟩ := h₁
    refine Meets.mono ih (fun _ s₂ h₂ id hid => ?_) fun _ _ _ => trivial
    rcases List.mem_cons.mp hid with rfl | hid
    · exact hv
    · exact hcfg ▸ h₂ id hid

/-- Every node starts over an empty disk. -/
theorem meets_startAll {ids : List NodeID} (h : Good boot hn hs s net w) (hids : ids ⊆ s.ids)
    (hnodup : ids.Nodup) (hdown : ∀ id ∈ ids, (s.nodes id).rn = none) :
    Meets (startAll ids) s
      (fun _ s' => ∃ w', Good boot hn hs s' net w' ∧ s'.checker = s.checker ∧ s'.queue = s.queue ∧
        s'.cfg = s.cfg)
      fun _ _ => False := by
  induction ids generalizing s w with
  | nil => exact ⟨w, h, rfl, rfl, rfl⟩
  | cons id ids ih =>
    obtain ⟨hid, hnodup⟩ := List.nodup_cons.mp hnodup
    rw [startAll, meets_bind]
    refine Meets.mono (meets_start h (hids List.mem_cons_self) (hdown id List.mem_cons_self))
      (fun _ s₁ h₁ => ?_) fun _ _ h => h
    obtain ⟨w', hg, -, htouch⟩ := h₁
    refine Meets.mono (ih hg ?_ hnodup fun v hv => ?_) (fun _ s₂ h₂ => ?_) fun _ _ h => h
    · rw [htouch.ids]
      exact fun v hv => hids (List.mem_cons_of_mem id hv)
    · rw [htouch.nodes v fun heq => hid (heq ▸ hv)]
      exact hdown v (List.mem_cons_of_mem id hv)
    · obtain ⟨w'', hg', hchecker, hqueue, hcfg⟩ := h₂
      exact ⟨w'', hg', hchecker.trans htouch.checker, hqueue.trans htouch.queue,
        hcfg.trans htouch.cfg⟩

theorem mem_nodeIDs {n : ℕ} {v : NodeID} : v ∈ nodeIDs n ↔ ∃ i < n, UInt64.ofNat (i + 1) = v := by
  rw [nodeIDs, (List.perm_insertionSort ..).mem_iff, List.mem_map]
  simp only [List.mem_range]

theorem length_nodeIDs (n : ℕ) : (nodeIDs n).length = n := by
  rw [nodeIDs, (List.perm_insertionSort ..).length_eq, List.length_map, List.length_range]

/-- If no id is that of nobody, there are fewer nodes than ids. -/
theorem lt_of_none_notMem {n : ℕ} (h : None ∉ nodeIDs n) : n < 2 ^ 64 := by
  by_contra hge
  exact h (mem_nodeIDs.mpr ⟨2 ^ 64 - 1, by omega, by decide⟩)

theorem nodup_nodeIDs {n : ℕ} (h : n < 2 ^ 64) : (nodeIDs n).Nodup := by
  rw [nodeIDs, (List.perm_insertionSort ..).nodup_iff]
  refine List.Nodup.map_on (fun i hi j hj heq => ?_) List.nodup_range
  have hi := List.mem_range.mp hi
  have hj := List.mem_range.mp hj
  have := congrArg UInt64.toNat heq
  simp only [UInt64.toNat_ofNat'] at this
  omega

theorem mem_members_new {l : List NodeID} {v : NodeID} : v ∈ (Configuration.new l).members ↔ v ∈ l := by
  rw [Configuration.mem_members]
  simp [Configuration.new, Configuration.normalize]

/-- Before any node is started the simulation is in order. -/
theorem good_blank {cfg : Config} {ids : List NodeID} (hn : (Configuration.new ids).Normalized)
    (hs : (Configuration.new ids).Sized) (hne : ids ≠ []) (hnone : None ∉ ids) (hvalid : cfg.Valid)
    (hstable : cfg.faults.membershipRate ≤ 0) (hdurable : cfg.faults.diskLossRate ≤ 0) :
    Good (Configuration.new ids) hn hs (.blank cfg ids) [] World.start where
  hosted := Hosted.init
  kept _ := ⟨fun _ => ⟨rfl, by rintro ⟨⟩⟩, by rintro _ ⟨⟩⟩
  images := by rintro _ ⟨⟩
  conf := rfl
  ids _ := mem_members_new.symm
  nonempty := hne
  valid := hvalid
  named hmem := hnone (mem_members_new.mp hmem)
  events := by rintro _ ⟨⟩
  stable := hstable
  durable := hdurable

/-- A new simulation is in order. -/
theorem vigilant_new (sum256 : List UInt8 → List UInt8) {cfg : Config} (h : Simulation.new cfg = .ok s)
    (hstable : cfg.faults.membershipRate ≤ 0) (hdurable : cfg.faults.diskLossRate ≤ 0) :
    ∃ boot hn hs, Vigilant sum256 boot hn hs s ∧ s.cfg = cfg.withDefaults ∧ s.queue = {} := by
  rw [Simulation.new] at h
  dsimp only at h
  split at h
  · cases h
  · rename_i hpos
    generalize hn : cfg.withDefaults.nodes.toNat = n at h
    split at h
    · rename_i s' hstart
      cases h
      have hvalid := (meets_startAll_valid (nodeIDs n)).ok hstart
      have hone : UInt64.ofNat 1 ∈ nodeIDs n := mem_nodeIDs.mpr ⟨0, by omega, rfl⟩
      have hnone : None ∉ nodeIDs n := fun hmem => (hvalid _ hmem).1 rfl
      have hlt := lt_of_none_notMem hnone
      have hnorm : (Configuration.new (nodeIDs n)).Normalized := Configuration.normalize_normalized _
      have hsized : (Configuration.new (nodeIDs n)).Sized := Configuration.Sized.normalize
        ⟨by rw [length_nodeIDs]; exact hlt, Nat.two_pow_pos 64, Nat.two_pow_pos 64⟩
      have hgood := good_blank hnorm hsized (List.ne_nil_of_mem hone) hnone (hvalid _ hone).2 hstable
        hdurable
      obtain ⟨w', hg, hchecker, hqueue, hcfg⟩ :=
        (meets_startAll hgood (List.Subset.refl _) (nodup_nodeIDs hlt) fun _ _ => rfl).ok hstart
      refine ⟨_, hnorm, hsized, ⟨?_, [], w', hg, ?_⟩, hcfg, hqueue⟩
      · rw [hqueue]
        exact EventQueue.ok_empty
      · rw [hchecker]
        exact ⟨by rintro _ _ ⟨⟩, by rintro _ _ ⟨⟩, by rintro _ _ _ ⟨⟩⟩
    · cases h

/-! ### The end of a run -/

/-- Every event comes after the one that causes it, but for restarts and healings, which may come at
once. -/
structure Config.Timed (cfg : Config) : Prop where
  tick : 0 < cfg.tickInterval
  latency : 0 < cfg.faults.minLatency
  fault : 0 < cfg.faults.faultInterval
  restart : 0 ≤ cfg.faults.restartMin
  heal : 0 ≤ cfg.faults.partitionMin

/-- The run and any one delay after its end come to less than what 64 bits hold, so no time wraps. -/
structure Config.Bounded (cfg : Config) : Prop where
  tick : cfg.duration + cfg.tickInterval < 2 ^ 63
  write : cfg.duration + cfg.writeInterval < 2 ^ 63
  fault : cfg.duration + cfg.faults.faultInterval < 2 ^ 63
  latency : cfg.duration + 2 * cfg.faults.slowest < 2 ^ 63
  restart : cfg.duration + cfg.faults.longestDown < 2 ^ 63
  heal : cfg.duration + cfg.faults.longestCut < 2 ^ 63

/-- The kinds of events that may come at once. -/
def AtOnce : EventKind → Bool
  | .restart _ _ => true
  | .heal => true
  | _ => false

/-- What is left of the run after an event, in half milliseconds. -/
def rank (duration : ℤ) (e : Event) : ℕ :=
  2 * (duration + 1 - e.time).toNat + if AtOnce e.kind then 0 else 1

theorem Delay.pos {cfg : Config} {kind : EventKind} {d : ℤ} (h : Delay cfg kind d) (hcfg : cfg.Timed)
    (hw : kind = .clientWrite → 0 < cfg.writeInterval) : 0 ≤ d ∧ (AtOnce kind = false → 0 < d) := by
  obtain ⟨htick, hlatency, hfault, hrestart, hheal⟩ := hcfg
  unfold Delay at h
  cases kind with
  | tick id => exact ⟨by omega, fun _ => by omega⟩
  | deliver m =>
    have := h hlatency.le
    exact ⟨by omega, fun _ => by omega⟩
  | crash id => exact h.elim
  | restart id lose => exact ⟨hrestart.trans h.1.1, by rintro ⟨⟩⟩
  | partition => exact ⟨by omega, fun _ => by omega⟩
  | heal => exact ⟨hheal.trans h.1, by rintro ⟨⟩⟩
  | clientWrite =>
    have := hw rfl
    exact ⟨by omega, fun _ => by omega⟩

theorem Delay.lt {cfg : Config} {kind : EventKind} {d : ℤ} (h : Delay cfg kind d) (hcfg : cfg.Timed)
    (hb : cfg.Bounded) : cfg.duration + d < 2 ^ 63 := by
  unfold Delay at h
  cases kind with
  | tick id => exact h ▸ hb.tick
  | deliver m => exact (add_le_add_right (h hcfg.latency.le).2 _).trans_lt hb.latency
  | crash id => exact h.elim
  | restart id lose => exact (add_le_add_right h.1.2 _).trans_lt hb.restart
  | partition => exact h ▸ hb.fault
  | heal => exact (add_le_add_right h.2 _).trans_lt hb.heal
  | clientWrite => exact h ▸ hb.write

/-- No time wraps, so what an event causes lies ahead of it. -/
theorem Due.le {cfg : Config} {now : ℤ} {e : Event} (h : Due cfg now e) (hcfg : cfg.Timed)
    (hb : cfg.Bounded) (hlow : -2 ^ 63 ≤ now) (hnow : now ≤ cfg.duration)
    (hw : e.kind = .clientWrite → 0 < cfg.writeInterval) :
    now ≤ e.time ∧ (AtOnce e.kind = false → now < e.time) := by
  obtain ⟨d, hd, htime⟩ := h
  obtain ⟨hpos, hahead⟩ := hd.pos hcfg hw
  have hlt := hd.lt hcfg hb
  rw [int64_of_lt (by omega) (by omega)] at htime
  exact ⟨by omega, fun hk => by have := hahead hk; omega⟩

/-- What comes at once causes nothing that comes at once. -/
theorem Follows.atOnce {k k' : EventKind} (h : Follows k k') (hk : AtOnce k = true) :
    AtOnce k' = false := by
  cases k <;> try cases hk
  case restart =>
    obtain ⟨m, rfl⟩ := h
    rfl
  case heal => exact h.elim

/-- Only a client causes a write. -/
theorem Follows.clientWrite {k : EventKind} (h : Follows k .clientWrite) : k = .clientWrite := by
  cases k with
  | clientWrite => rfl
  | restart id lose =>
    obtain ⟨m, hm⟩ := h
    cases hm
  | heal => exact h.elim
  | _ => exact absurd rfl h

theorem Due.rank_lt {cfg : Config} {ev e : Event} (h : Due cfg ev.time e) (hcfg : cfg.Timed)
    (hb : cfg.Bounded) (hf : Follows ev.kind e.kind)
    (hw : e.kind = .clientWrite → 0 < cfg.writeInterval) (hlow : -2 ^ 63 ≤ ev.time)
    (hev : ev.time ≤ cfg.duration) : rank cfg.duration e < rank cfg.duration ev := by
  obtain ⟨hle, hlt⟩ := h.le hcfg hb hlow hev hw
  rw [rank, rank]
  cases hk : AtOnce ev.kind with
  | true =>
    have hk' := hf.atOnce hk
    have := hlt hk'
    rw [hk', if_neg Bool.false_ne_true, if_pos rfl]
    omega
  | false =>
    rw [if_neg Bool.false_ne_true]
    cases hk' : AtOnce e.kind with
    | true =>
      rw [if_pos rfl]
      omega
    | false =>
      have := hlt hk'
      rw [if_neg Bool.false_ne_true]
      omega

/-- The queue is in order, its times are numbers of 64 bits, and clients write only if they are to. -/
def Paced (cfg : Config) (s : Simulation) : Prop :=
  s.queue.OK ∧ s.cfg = cfg ∧ ∀ e ∈ s.queue.items.toList,
    (e.kind = .clientWrite → 0 < cfg.writeInterval) ∧ -2 ^ 63 ≤ e.time

theorem paced_turn {cfg : Config} (hcfg : cfg.Timed) (hb : cfg.Bounded) (h : Paced cfg s) :
    Meets (turn sum256) s
      (fun o s' => o = none → Paced cfg s' ∧
        Replaces (rank cfg.duration) s'.queue.items.toList s.queue.items.toList)
      fun _ _ => True := by
  obtain ⟨hok, rfl, hwrites⟩ := h
  rw [turn, meets_bind, meets_get]
  split
  · exact nofun
  · rename_i ev queue hpop
    obtain ⟨hok', -, hperm, -⟩ := hok.of_pop hpop
    rw [meets_bind, meets_set]
    split
    · exact nofun
    · rename_i hdue
      rw [meets_bind, meets_modify, meets_bind]
      refine Meets.mono (proceeds_apply ev) (fun _ s₂ h₂ => ?_) fun _ _ _ => trivial
      obtain ⟨new, hperm', hnew⟩ := h₂.added
      have hev := hwrites ev (hperm.mem_iff.mpr List.mem_cons_self)
      -- what is new is a write only if the event was one
      have hnewwrites : ∀ e ∈ new, e.kind = .clientWrite → 0 < s.cfg.writeInterval := by
        intro e he hkind
        exact hev.1 (hkind ▸ (hnew e he).1).clientWrite
      have hpaced : Paced s.cfg s₂ := by
        refine ⟨h₂.queue hok', h₂.cfg, fun e he => ?_⟩
        rcases List.mem_append.mp (hperm'.mem_iff.mp he) with he | he
        · obtain ⟨d, -, htime⟩ := (hnew e he).2
          exact ⟨hnewwrites e he, htime ▸ le_int64 _⟩
        · exact hwrites e (hperm.mem_iff.mpr (List.mem_cons_of_mem ev he))
      have hreplaces : Replaces (rank s.cfg.duration) s₂.queue.items.toList s.queue.items.toList := by
        refine ⟨ev, new, queue.items.toList, hperm, hperm', fun e he => ?_⟩
        exact (hnew e he).2.rank_lt hcfg hb (hnew e he).1 (hnewwrites e he) hev.2 (not_lt.mp hdue)
      rw [meets_bind, meets_get]
      split
      · exact fun _ => ⟨hpaced, hreplaces⟩
      · exact nofun

theorem Begins.paced (h : Begins s s') (hok : s.queue.OK) (hempty : s.queue.items.toList = []) :
    Paced s.cfg s' := by
  obtain ⟨draws, queue, rfl, hok', hadded⟩ := h
  refine ⟨hok' hok, rfl, fun e he => ?_⟩
  rcases hadded e he with he | ⟨he, htime⟩
  · rw [hempty] at he
    cases he
  · refine ⟨fun hkind => ?_, htime⟩
    rw [hkind] at he
    exact he

/-- A run that finds nothing comes to an end. -/
theorem exists_meets_run (h : Vigilant sum256 boot hn hs s) (hempty : s.queue.items.toList = [])
    (hcfg : s.cfg.Timed) (hb : s.cfg.Bounded) :
    ∃ n, ∀ fuel ≥ n, Meets (run sum256 fuel) s (fun rep _ => rep.violation = none)
      fun e _ => e = .overflow := by
  have hbegin := begins_begin hcfg.tick
  cases hrun : begin s with
  | error e s₁ => exact (hbegin.error hrun).elim
  | ok a s₁ =>
    have h₁ := hbegin.ok hrun
    -- both what is kept and what grows less carry over from turn to turn
    let I := fun s' => Vigilant sum256 boot hn hs s' ∧ Paced s.cfg s'
    let Q := fun (found : Option Finding) s' => found = none ∧ Vigilant sum256 boot hn hs s'
    let R := InvImage (Replaces (rank s.cfg.duration)) fun s : Simulation => s.queue.items.toList
    have hround : ∀ s₂, I s₂ → Meets (turn sum256) s₂
        (fun o s₃ => o.elim (I s₃ ∧ R s₃ s₂) fun found => Q found s₃) fun e _ => e = .overflow := by
      intro s₂ h₂
      refine Meets.mono (Meets.and (meets_turn h₂.1) (paced_turn hcfg hb h₂.2)) (fun o s₃ h₃ => ?_)
        fun _ _ h => h.1
      cases o with
      | none => exact ⟨⟨h₃.1, (h₃.2 rfl).1⟩, (h₃.2 rfl).2⟩
      | some found => exact h₃.1
    obtain ⟨n, hloop⟩ : ∃ n, ∀ fuel ≥ n,
        Meets (iterate (turn sum256) (.fail .outOfFuel) fuel) s₁ Q fun e _ => e = .overflow :=
      exists_iterate (InvImage.wf _ (wellFounded_replaces _)) hround ⟨h.begins h₁, h₁.paced h.1 hempty⟩
    refine ⟨n, fun fuel hfuel => ?_⟩
    rw [run, meets_bind]
    refine meets_of_ok hrun ?_
    rw [meets_bind]
    refine Meets.mono (hloop fuel hfuel) (fun found s₃ h₃ => ?_) fun _ _ h => h
    obtain ⟨rfl, h₃⟩ := h₃
    exact meets_report h₃

/-! ### Runs from the start -/

/-- The faults of a fuzz run that the protocol survives with its members fixed. -/
def survivable : Config :=
  { defaultConfig 1 (fun k => 7 * k + 3) with faults := { defaultFaults with membershipRate := 0 } }

theorem exists_survivable : ∃ s, Simulation.new survivable = .ok s := by
  have hok : (Simulation.new survivable).toBool = true := by decide +kernel
  cases h : Simulation.new survivable with
  | ok s => exact ⟨s, rfl⟩
  | error e =>
    rw [h] at hok
    cases hok

/-- Such a run comes to its end when each event takes time and no time wraps. -/
theorem run_ends (sum256 : List UInt8 → List UInt8) {cfg : Config} (h : Simulation.new cfg = .ok s)
    (hstable : cfg.faults.membershipRate ≤ 0) (hdurable : cfg.faults.diskLossRate ≤ 0)
    (htimed : cfg.withDefaults.Timed) (hbounded : cfg.withDefaults.Bounded) :
    ∃ n, ∀ fuel ≥ n, Meets (run sum256 fuel) s (fun rep _ => rep.violation = none)
      fun e _ => e = .overflow := by
  obtain ⟨boot, hn, hs, hv, hcfg, hqueue⟩ := vigilant_new sum256 h hstable hdurable
  exact exists_meets_run hv (by rw [hqueue]) (hcfg ▸ htimed) (hcfg ▸ hbounded)

theorem run_ends_survivable : ∃ s, Simulation.new survivable = .ok s ∧
    ∃ n, ∀ fuel ≥ n, Meets (run id fuel) s (fun rep _ => rep.violation = none)
      fun e _ => e = .overflow := by
  obtain ⟨s, h⟩ := exists_survivable
  exact ⟨s, h, run_ends id h le_rfl le_rfl
    ⟨by decide, by decide, by decide, by decide, by decide⟩
    ⟨by decide, by decide, by decide, by decide, by decide, by decide⟩⟩

end RaftStore.Sim
