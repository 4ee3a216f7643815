import RaftStore.Lib.Along
import RaftStore.Sim.Simulation
import Mathlib.Data.Nat.Cast.Order.Ring

/-! What handling an event does to the queue, the clock and the settings: events are added, each a
known delay ahead, and nothing else changes. -/

namespace RaftStore.Sim

open Lib Raft

namespace Faults

/-- No message is under way for longer, unless the network makes two of it. -/
def slowest (f : Faults) : ℤ :=
  f.minLatency + max 0 (int64 (f.maxLatency - f.minLatency)) + max 0 f.reorderMax

/-- No node is down for longer. -/
def longestDown (f : Faults) : ℤ := f.restartMin + max 0 (int64 (f.restartMax - f.restartMin))

/-- No partition lasts longer. -/
def longestCut (f : Faults) : ℤ := f.partitionMin + max 0 (int64 (f.partitionMax - f.partitionMin))

end Faults

/-- The time between an event and one of the given kind that it causes.  Messages may overtake each
other, but none is faster than the network. -/
def Delay (cfg : Config) (kind : EventKind) (d : ℤ) : Prop :=
  match kind with
  | .tick _ => d = cfg.tickInterval
  | .deliver _ => 0 ≤ cfg.faults.minLatency →
      cfg.faults.minLatency ≤ d ∧ d ≤ 2 * cfg.faults.slowest
  | .crash _ => False
  | .restart _ lose => (cfg.faults.restartMin ≤ d ∧ d ≤ cfg.faults.longestDown) ∧
      (cfg.faults.diskLossRate ≤ 0 → lose = false)
  | .partition => d = cfg.faults.faultInterval
  | .heal => cfg.faults.partitionMin ≤ d ∧ d ≤ cfg.faults.longestCut
  | .clientWrite => d = cfg.writeInterval

/-- An event lies as far ahead as its kind demands, in the arithmetic of the machine. -/
def Due (cfg : Config) (now : ℤ) (e : Event) : Prop :=
  ∃ d, Delay cfg e.kind d ∧ e.time = int64 (now + d)

/-- The settings, the clock and the checker are the same, and the events that were added are due and
of the kinds `K`. -/
structure Proceeds (K : EventKind → Prop) (s s' : Simulation) : Prop where
  cfg : s'.cfg = s.cfg
  ids : s'.ids = s.ids
  conf : s'.conf = s.conf
  now : s'.now = s.now
  checker : s'.checker = s.checker
  queue : s.queue.OK → s'.queue.OK
  added : ∃ new, s'.queue.items.toList.Perm (new ++ s.queue.items.toList) ∧
    ∀ e ∈ new, K e.kind ∧ Due s.cfg s.now e

theorem le_int64 (x : ℤ) : -2 ^ 63 ≤ int64 x := by
  have := Int.le_bmod (x := x) (m := 2 ^ 64) (by decide)
  rw [int64]
  omega

theorem int64_of_lt {x : ℤ} (h : -2 ^ 63 ≤ x) (h' : x < 2 ^ 63) : int64 x = x :=
  Int.bmod_eq_of_le (by omega) (by omega)

variable {α : Type} {K K' : EventKind → Prop} {s s' : Simulation}

instance : IsPreorder Simulation (Proceeds K) where
  refl _ := ⟨rfl, rfl, rfl, rfl, rfl, id, [], .refl _, nofun⟩
  trans a b c h h' := by
    obtain ⟨new, hperm, hdue⟩ := h.added
    obtain ⟨new', hperm', hdue'⟩ := h'.added
    refine ⟨h'.cfg.trans h.cfg, h'.ids.trans h.ids, h'.conf.trans h.conf, h'.now.trans h.now,
      h'.checker.trans h.checker, fun hq => h'.queue (h.queue hq), new' ++ new, ?_, ?_⟩
    · rw [List.append_assoc]
      exact hperm'.trans (hperm.append_left new')
    · intro e he
      rcases List.mem_append.mp he with he | he
      · rw [← h.cfg, ← h.now]
        exact hdue' e he
      · exact hdue e he

theorem Proceeds.mono (h : Proceeds K s s') (hK : ∀ k, K k → K' k) : Proceeds K' s s' :=
  ⟨h.cfg, h.ids, h.conf, h.now, h.checker, h.queue, h.added.imp fun _ ⟨hp, hd⟩ =>
    ⟨hp, fun e he => ⟨hK _ (hd e he).1, (hd e he).2⟩⟩⟩

/-- A step that leaves the queue alone. -/
theorem Proceeds.of_eq (hc : s'.cfg = s.cfg) (hi : s'.ids = s.ids) (hf : s'.conf = s.conf)
    (hn : s'.now = s.now) (hk : s'.checker = s.checker) (hq : s'.queue = s.queue) : Proceeds K s s' :=
  ⟨hc, hi, hf, hn, hk, fun h => hq ▸ h, [], by rw [hq]; exact .refl _, nofun⟩

/-- Besides, no node and no state machine has changed. -/
structure Idles (K : EventKind → Prop) (s s' : Simulation) : Prop extends Proceeds K s s' where
  nodes : s'.nodes = s.nodes
  members : s'.members = s.members

instance : IsPreorder Simulation (Idles K) where
  refl s := ⟨refl_of (Proceeds K) s, rfl, rfl⟩
  trans _ _ _ h h' := ⟨trans_of (Proceeds K) h.toProceeds h'.toProceeds, h'.nodes.trans h.nodes,
    h'.members.trans h.members⟩

theorem Idles.mono (h : Idles K s s') (hK : ∀ k, K k → K' k) : Idles K' s s' :=
  ⟨h.toProceeds.mono hK, h.nodes, h.members⟩

theorem idles_schedule {time d : ℤ} {kind : EventKind} (hK : K kind) (hd : Delay s.cfg kind d)
    (ht : time = s.now + d) : Surely (Idles K) (schedule time kind) s := by
  refine .modify ⟨⟨rfl, rfl, rfl, rfl, rfl, fun h => h.schedule (int64 time) kind,
    [⟨int64 time, s.queue.next, kind⟩], EventQueue.items_schedule s.queue (int64 time) kind,
    fun e he => ?_⟩, rfl, rfl⟩
  rw [List.mem_singleton.mp he]
  exact ⟨hK, d, hd, by rw [ht]⟩

theorem idles_count (f : Stats → Stats) :
    Surely (Idles K) (modify fun s => s.count f : SimM Unit) s :=
  .modify ⟨.of_eq rfl rfl rfl rfl rfl rfl, rfl, rfl⟩

/-! ### Random numbers -/

theorem meets_draw {Q : ℕ → Simulation → Prop} {F : Halt → Simulation → Prop}
    (h : ∀ x, Q x { s with draws := s.draws + 1 }) : Meets draw s Q F := h _

/-- A draw is at most counted. -/
def Drawn (s s' : Simulation) : Prop := ∃ k, s' = { s with draws := k }

theorem Drawn.idles (h : Drawn s s') : Idles K s s' := by
  obtain ⟨k, rfl⟩ := h
  exact ⟨.of_eq rfl rfl rfl rfl rfl rfl, rfl, rfl⟩

theorem meets_intn {n : ℤ} {Q : ℤ → Simulation → Prop} {F : Halt → Simulation → Prop} (hn : 0 < n)
    (h : ∀ x s', 0 ≤ x → x < n → Drawn s s' → Q x s') : Meets (intn n) s Q F := by
  rw [intn, if_neg (not_le.mpr hn), meets_bind]
  exact meets_draw fun x => h _ _ (Int.emod_nonneg _ hn.ne') (Int.emod_lt_of_pos _ hn) ⟨_, rfl⟩

theorem meets_randRange {n : ℤ} {Q : ℤ → Simulation → Prop} {F : Halt → Simulation → Prop}
    (h : ∀ x s', 0 ≤ x → x ≤ max 0 n → Drawn s s' → Q x s') : Meets (randRange n) s Q F := by
  rw [randRange]
  split
  · exact h 0 s le_rfl (le_max_left 0 n) ⟨s.draws, rfl⟩
  · exact meets_intn (by omega) fun x s' hx hlt hs' => h x s' hx (by omega) hs'

theorem meets_chance {rate : ℚ} {Q : Bool → Simulation → Prop} {F : Halt → Simulation → Prop}
    (h : ∀ b s', (rate ≤ 0 → b = false) → Drawn s s' → Q b s') : Meets (chance rate) s Q F := by
  rw [chance, meets_bind]
  refine meets_draw fun x => h _ _ (fun hr => ?_) ⟨_, rfl⟩
  refine decide_eq_false (not_lt.mpr (hr.trans ?_))
  exact Rat.div_nonneg (Nat.cast_nonneg _) (by decide)

/-! ### The network -/

theorem meets_latency {Q : ℤ → Simulation → Prop} {F : Halt → Simulation → Prop}
    (h : ∀ d s', s.cfg.faults.minLatency ≤ d → d ≤ s.cfg.faults.slowest → Drawn s s' → Q d s') :
    Meets latency s Q F := by
  rw [Faults.slowest] at h
  rw [latency, meets_bind, meets_get, meets_bind]
  refine meets_randRange fun x s₁ hx hle h₁ => ?_
  obtain ⟨k₁, rfl⟩ := h₁
  split
  · rw [meets_bind]
    refine meets_chance fun b s₂ _ h₂ => ?_
    obtain ⟨k₂, rfl⟩ := h₂
    split
    · rw [meets_bind]
      refine meets_randRange fun y s₃ hy hle' h₃ => ?_
      obtain ⟨k₃, rfl⟩ := h₃
      exact h _ _ (by omega) (by omega) ⟨k₃, rfl⟩
    · exact h _ _ (by omega) (by omega) ⟨k₂, rfl⟩
  · exact h _ _ (by omega) (by omega) ⟨k₁, rfl⟩

theorem idles_chance {rate : ℚ} : Surely (Idles K) (chance rate) s :=
  meets_chance fun _ _ _ h => h.idles

/-- A message is delivered once, twice or not at all. -/
theorem idles_route {m : Message} : Surely (Idles (· = .deliver m)) (route m) s := by
  refine .bind (idles_count _) fun _ s₁ => .get_bind ?_
  split
  · exact idles_count _
  · refine .andThen idles_chance fun b s₂ h₂ => ?_
    split
    · exact idles_count _
    · refine Meets.bind (meets_latency fun d s₃ hd hle h₃ => ?_)
      have h₃' := h₃.idles (K := (· = .deliver m))
      have hnow₃ : s₃.now = s₁.now := h₃'.now.trans h₂.now
      have hcfg₃ : s₃.cfg = s₂.cfg := h₃'.cfg
      refine Surely.after h₃' (.andThen (idles_schedule rfl (d := d) (fun hmin => ?_) (by rw [hnow₃]))
        fun _ s₄ h₄ => ?_)
      · rw [hcfg₃] at hmin ⊢
        exact ⟨hd, by omega⟩
      · refine .andThen idles_chance fun b s₅ h₅ => ?_
        split
        · refine Meets.bind (meets_latency fun d' s₆ hd' hle' h₆ => ?_)
          have h₆' := h₆.idles (K := (· = .deliver m))
          have hnow₆ : s₆.now = s₁.now := ((h₆'.now.trans h₅.now).trans h₄.now).trans hnow₃
          have hcfg₅ : s₅.cfg = s₂.cfg := (h₅.cfg.trans h₄.cfg).trans hcfg₃
          have hcfg₆ : s₆.cfg = s₂.cfg := h₆'.cfg.trans hcfg₅
          rw [hcfg₅] at hd' hle'
          refine Surely.after h₆' (.bind (idles_schedule rfl (d := d + d') (fun hmin => ?_) ?_)
            fun _ _ => idles_count _)
          · rw [hcfg₆] at hmin ⊢
            exact ⟨by omega, by omega⟩
          · rw [hnow₆, add_assoc]
        · exact .pure _

theorem idles_routeAll {msgs : List Message} :
    Surely (Idles fun k => ∃ m ∈ msgs, k = .deliver m) (routeAll msgs) s := by
  induction msgs generalizing s with
  | nil => exact .pure _
  | cons m rest ih =>
    refine .bind ?_ fun _ s₁ => .bind (idles_route.mono fun _ h => h.mono ?_) fun _ s₂ =>
      ih.mono fun _ h => h.mono ?_
    · split
      · exact idles_count _
      · exact .pure _
    · rintro _ rfl
      exact ⟨m, List.mem_cons_self, rfl⟩
    · rintro _ ⟨m', hm', rfl⟩
      exact ⟨m', List.mem_cons_of_mem m hm', rfl⟩

theorem idles_intn {n : ℤ} : Along (Idles K) (intn n) s := by
  rw [intn]
  split
  · exact .throw _
  · exact Meets.bind (meets_draw fun _ => Drawn.idles ⟨_, rfl⟩)

/-! ### Nodes -/

theorem proceeds_call {id : NodeID} {r : RawNode} {x : Core α} : Along (Proceeds K) (call id r x) s := by
  refine .get_bind ?_
  have hput : ∀ r', Proceeds K s (s.put id r') := fun r' => .of_eq rfl rfl rfl rfl rfl rfl
  split
  · exact .set_bind (hput _) (.pure _)
  · exact .set_bind (hput _) (.pure _)
  · exact .set_bind (hput _) (.throw _)

theorem proceeds_setMember (id : NodeID) (f : Member → Member) :
    Along (Proceeds K) (modify fun s => s.setMember id f : SimM Unit) s :=
  .modify (.of_eq rfl rfl rfl rfl rfl rfl)

theorem proceeds_count (f : Stats → Stats) :
    Along (Proceeds K) (modify fun s => s.count f : SimM Unit) s :=
  (idles_count f).along.mono fun _ h => h.toProceeds

theorem proceeds_restore {id : NodeID} {snap : Snapshot} {context : String} :
    Along (Proceeds K) (restore id snap context) s := by
  rw [restore]
  split
  · exact .throw _
  · exact proceeds_setMember _ _

theorem proceeds_start {id : NodeID} : Along (Proceeds K) (start id) s := by
  refine .get_bind ?_
  dsimp only
  split
  · exact .throw _
  · refine .set_bind (.of_eq rfl rfl rfl rfl rfl rfl) ?_
    split
    · exact .pure _
    · exact proceeds_restore

theorem proceeds_restoreSnapshot {id : NodeID} : Along (Proceeds K) (restoreSnapshot id) s := by
  refine .get_bind ?_
  split
  · exact .pure _
  · refine .bind proceeds_call fun a _ => ?_
    split
    · exact proceeds_restore
    · exact .pure _

theorem proceeds_drainBatches {id : NodeID} (fuel : ℕ) :
    Along (Proceeds K) (drainBatches id fuel) s := by
  induction fuel generalizing s with
  | zero => exact .pure _
  | succ fuel ih =>
    refine .get_bind ?_
    split
    · exact .pure _
    · split
      · exact .pure _
      · split
        · exact .throw _
        · split
          · exact .pure _
          · exact .bind (proceeds_setMember _ _) fun _ _ => .bind proceeds_call fun _ _ => ih

theorem proceeds_drainApplied {id : NodeID} : Along (Proceeds K) (drainApplied id) s := by
  refine .get_bind ?_
  split
  · exact .pure _
  · exact proceeds_drainBatches _

theorem proceeds_maybeSnapshot {id : NodeID} : Along (Proceeds K) (maybeSnapshot id) s := by
  refine .get_bind ?_
  split
  · exact .pure _
  · split
    · exact .pure _
    · dsimp only
      split
      · exact .throw _
      · refine .bind proceeds_call fun a _ => ?_
        split
        · split
          · exact .pure _
          · exact .throw _
        · exact proceeds_count _

/-- The kind of the events that a node's messages become. -/
def IsDeliver (k : EventKind) : Prop := ∃ m, k = .deliver m

theorem proceeds_after {id : NodeID} : Along (Proceeds IsDeliver) (after id) s := by
  refine .get_bind ?_
  split
  · exact .pure _
  · refine .bind proceeds_call fun a _ => ?_
    split
    · refine .bind (idles_routeAll.along.mono fun _ h => h.toProceeds.mono ?_) fun _ _ => ?_
      · rintro _ ⟨m, -, rfl⟩
        exact ⟨m, rfl⟩
      · exact .bind proceeds_restoreSnapshot fun _ _ => .bind proceeds_drainApplied fun _ _ =>
          proceeds_maybeSnapshot
    · exact .throw _

/-! ### Events -/

/-- The kinds of events that no client is behind. -/
def NoWrite (k : EventKind) : Prop := k ≠ .clientWrite

theorem IsDeliver.noWrite {k : EventKind} (h : IsDeliver k) : NoWrite k := by
  obtain ⟨m, rfl⟩ := h
  exact nofun

theorem proceeds_after' {id : NodeID} : Along (Proceeds NoWrite) (after id) s :=
  proceeds_after.mono fun _ h => h.mono fun _ hk => hk.noWrite

theorem proceeds_schedule {time d : ℤ} {kind : EventKind} (hK : K kind) (hd : Delay s.cfg kind d)
    (ht : time = s.now + d) : Along (Proceeds K) (schedule time kind) s :=
  (idles_schedule hK hd ht).along.mono fun _ h => h.toProceeds

theorem proceeds_lookup {id : NodeID} : Along (Proceeds K) (lookup id) s := by
  refine .get_bind ?_
  split
  · exact .pure _
  · exact .throw _

theorem proceeds_applyTick {id : NodeID} : Along (Proceeds NoWrite) (applyTick id) s := by
  refine .bind proceeds_lookup fun n _ => .get_bind (.bind (proceeds_schedule nofun rfl rfl)
    fun _ _ => ?_)
  split
  · exact .pure _
  · refine .bind proceeds_call fun a _ => ?_
    split
    · exact .throw _
    · exact proceeds_after'

theorem proceeds_applyDeliver {m : Message} : Along (Proceeds NoWrite) (applyDeliver m) s := by
  refine .bind proceeds_lookup fun n _ => ?_
  split
  · exact .pure _
  · refine .bind proceeds_call fun a _ => ?_
    split
    · split
      · exact .pure _
      · exact .throw _
    · exact proceeds_after'

theorem proceeds_applyCrash {id : NodeID} : Along (Proceeds NoWrite) (applyCrash id) s := by
  refine .bind proceeds_lookup fun n s₁ => .get_bind ?_
  split
  · exact .pure _
  · split
    · exact .pure _
    · refine .set_bind (.of_eq rfl rfl rfl rfl rfl rfl)
        (Meets.bind (meets_randRange fun x s₂ hx hle h₂ => ?_))
      have hstep := h₂.idles.toProceeds (K := NoWrite)
      refine Along.after hstep (Meets.bind (meets_chance fun lose s₃ hl h₃ => ?_))
      have hstep' := h₃.idles.toProceeds (K := NoWrite)
      have hcfg : s₃.cfg = s₁.cfg := hstep'.cfg.trans hstep.cfg
      have hnow : s₃.now = s₁.now := hstep'.now.trans hstep.now
      refine Along.after hstep' (proceeds_schedule nofun (d := s₁.cfg.faults.restartMin + x)
        ⟨⟨?_, ?_⟩, fun hr => hl ?_⟩ (by rw [hnow]))
      · rw [hcfg]
        omega
      · rw [hcfg, Faults.longestDown]
        omega
      · rw [hcfg] at hr
        exact hr

theorem proceeds_applyRestart {id : NodeID} {lose : Bool} :
    Along (Proceeds IsDeliver) (applyRestart id lose) s := by
  refine .bind proceeds_lookup fun n _ => ?_
  split
  · exact .pure _
  · refine .bind ?_ fun _ _ => .bind proceeds_start fun _ _ => .bind (.modify ?_) fun _ _ =>
      proceeds_after
    · split
      · exact .modify (.of_eq rfl rfl rfl rfl rfl rfl)
      · exact .pure _
    · exact .of_eq rfl rfl rfl rfl rfl rfl

theorem idles_chooseSides {ids : List NodeID} : Surely (Idles K) (chooseSides ids) s := by
  induction ids generalizing s with
  | nil => exact .pure _
  | cons id ids ih =>
    refine Meets.bind (meets_intn (by decide) fun x s₁ _ _ h₁ => ?_)
    exact Surely.after h₁.idles (.bind ih fun _ _ => .pure _)

/-- A partition ends with a healing. -/
theorem idles_startPartition : Surely (Idles (· = .heal)) startPartition s := by
  refine .get_bind (.andThen idles_chooseSides fun sideB s₁ h₁ => ?_)
  dsimp only
  split
  · exact .pure _
  · refine Meets.bind (meets_randRange fun x s₂ hx hle h₂ => ?_)
    have h₂' := h₂.idles (K := (· = .heal))
    refine Surely.after h₂' (.andThen (.modify ⟨.of_eq rfl rfl rfl rfl rfl rfl, rfl, rfl⟩)
      fun _ s₃ h₃ => ?_)
    have hcfg : s₃.cfg = s.cfg := (h₃.cfg.trans h₂'.cfg).trans h₁.cfg
    have hnow : s₃.now = s.now := (h₃.now.trans h₂'.now).trans h₁.now
    refine idles_schedule rfl (d := s.cfg.faults.partitionMin + x) ⟨?_, ?_⟩ (by rw [hnow])
    · rw [hcfg]
      omega
    · rw [hcfg, Faults.longestCut]
      omega

theorem idles_chooseVoters {voters : List NodeID} : Along (Idles K) (chooseVoters voters) s := by
  refine .get_bind (.bind ?_ fun shrink _ => ?_)
  · split
    · exact .bind idles_intn fun _ _ => .pure _
    · exact .pure _
  · split
    · exact .bind idles_intn fun _ _ => .pure _
    · dsimp only
      split
      · exact .pure _
      · exact .bind idles_intn fun _ _ => .pure _

theorem proceeds_changeMembership : Along (Proceeds NoWrite) changeMembership s := by
  refine .get_bind ?_
  split
  · exact .pure _
  · split
    · exact .pure _
    · split
      · exact .pure _
      · refine .bind (idles_chooseVoters.mono fun _ h => h.toProceeds) fun voters _ => ?_
        split
        · exact .pure _
        · dsimp only
          split
          · exact .pure _
          · refine .bind proceeds_call fun a _ => ?_
            split
            · exact .pure _
            · exact .bind (proceeds_count _) fun _ _ => proceeds_after'

theorem proceeds_applyFaultDecision : Along (Proceeds NoWrite) applyFaultDecision s := by
  have hchance : ∀ {rate : ℚ} {x : SimM Unit} {s : Simulation},
      (∀ s, Along (Proceeds NoWrite) x s) →
      Along (Proceeds NoWrite) (do if ← chance rate then x else pure ()) s := by
    intro rate x s hx
    refine .bind (idles_chance.along.mono fun _ h => h.toProceeds) fun b _ => ?_
    split
    · exact hx _
    · exact .pure _
  refine .get_bind (.bind (proceeds_schedule nofun rfl rfl) fun _ _ => .bind ?_ fun _ _ => .bind ?_
    fun _ _ => .bind (idles_chance.along.mono fun _ h => h.toProceeds) fun b _ => ?_)
  · split
    · refine hchance fun _ => idles_startPartition.along.mono fun _ h => h.toProceeds.mono ?_
      rintro _ rfl
      exact nofun
    · exact .pure _
  · exact hchance fun _ => proceeds_changeMembership
  · split
    · exact .bind (idles_intn.mono fun _ h => h.toProceeds) fun _ _ => proceeds_applyCrash
    · exact .pure _

theorem proceeds_writeTo {ids : List NodeID} : Along (Proceeds IsDeliver) (writeTo ids) s := by
  induction ids generalizing s with
  | nil => exact .pure _
  | cons id ids ih =>
    refine .get_bind (.bind ?_ fun _ _ => ih)
    split
    · exact .pure _
    · split
      · exact .pure _
      · refine .bind (.modify (.of_eq rfl rfl rfl rfl rfl rfl)) fun _ _ => .bind proceeds_call fun a _ => ?_
        split
        · exact .pure _
        · exact proceeds_after

/-- The kinds of events that handling an event of a kind can add. -/
def Follows : EventKind → EventKind → Prop
  | .restart _ _, k => IsDeliver k
  | .heal, _ => False
  | .clientWrite, _ => True
  | _, k => NoWrite k

/-- Handling an event adds events that are due, and changes neither clock nor settings. -/
theorem proceeds_apply (ev : Event) : Along (Proceeds (Follows ev.kind)) (apply ev) s := by
  rw [apply]
  cases ev.kind with
  | tick id => exact proceeds_applyTick
  | deliver m => exact proceeds_applyDeliver
  | crash id => exact proceeds_applyCrash
  | restart id lose => exact proceeds_applyRestart
  | partition => exact proceeds_applyFaultDecision
  | heal => exact .modify (.of_eq rfl rfl rfl rfl rfl rfl)
  | clientWrite =>
    refine .get_bind (.bind (proceeds_schedule trivial rfl rfl) fun _ _ => ?_)
    exact proceeds_writeTo.mono fun _ h => h.mono fun _ _ => trivial

end RaftStore.Sim
