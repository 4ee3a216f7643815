import RaftStore.Raft.ConfRefresh
import RaftStore.Raft.Faults
import RaftStore.Raft.MatchSoundness

/-! What a node does on a storage that does not fail: it commits, appends and campaigns without an
error and without a panic. -/

namespace RaftStore.Raft

open Lib Consensus RawNode

variable {α β : Type} {c : Call} {F : Fail → Prop} {r r' : RawNode}

/-! ### Programs that do not fail -/

/-- The program fails with what `F` says at most. -/
def OnlyFails (F : Fail → Prop) (x : Core α) (r : RawNode) : Prop :=
  Meets x r (fun _ _ => True) fun f _ => F f

/-- The program does a sequence of effects, and fails only where a write of it fails. -/
def Calm (c : Call) (x : Core α) (r : RawNode) : Prop :=
  Meets x r (fun _ r' => Reach c r r' ∧ r'.faultsLeft = r.faultsLeft)
    fun f r' => f.Bare ∧ r'.faultsLeft < r.faultsLeft

theorem Calm.of {G : Fail → RawNode → Prop} {x : Core α}
    (he : Meets x r (fun _ r' => Reach c r r') G) (hr : Reports x r)
    (hx : Meets x r (fun _ _ => True) fun _ r' => r'.faultsLeft < r.faultsLeft) : Calm c x r :=
  Meets.mono ((Meets.and he hr).and hx) (fun _ _ h => ⟨h.1.1, h.1.2.faults⟩)
    fun _ _ h => ⟨h.1.2.2.2.resolve_left h.2.ne, h.2⟩

theorem Calm.onlyFails {x : Core α} (h : Calm c x r) (h0 : r.faultsLeft = 0) : OnlyFails F x r :=
  Meets.mono h (fun _ _ _ => trivial) fun _ _ h => absurd (h0 ▸ h.2) (Nat.not_lt_zero _)

/-- After a part in which no write failed, what follows is looked at from before it as well. -/
theorem Calm.after {x : Core α} (h : Reach c r r') (h0 : r'.faultsLeft = r.faultsLeft)
    (hx : Calm c x r') :
    Meets x r' (fun _ r'' => Reach c r r'' ∧ r''.faultsLeft = r.faultsLeft)
      fun f r'' => f.Bare ∧ r''.faultsLeft < r.faultsLeft :=
  Meets.mono hx (fun _ _ h' => ⟨h.trans h'.1, h'.2.trans h0⟩) fun _ _ h' => ⟨h'.1, h0 ▸ h'.2⟩

theorem Calm.pure (a : α) : Calm c (pure a : Core α) r := ⟨.refl, rfl⟩

theorem Calm.bind {x : Core α} {f : α → Core β} (hx : Calm c x r)
    (hf : ∀ a r', Reach c r r' → r'.faultsLeft = r.faultsLeft → Calm c (f a) r') :
    Calm c (x >>= f) r :=
  Meets.bind (Meets.mono hx (fun a r' h => (hf a r' h.1 h.2).after h.1 h.2) fun _ _ h => h)

namespace OnlyFails

theorem get_bind {f : RawNode → Core α} (h : OnlyFails F (f r) r) : OnlyFails F (get >>= f) r :=
  Meets.bind h

theorem set_bind {f : PUnit → Core α} (h : OnlyFails F (f ⟨⟩) r') :
    OnlyFails F (set r' >>= f) r :=
  Meets.bind h

theorem modify_bind {g : RawNode → RawNode} {f : PUnit → Core α} (h : OnlyFails F (f ⟨⟩) (g r)) :
    OnlyFails F (modify g >>= f) r :=
  Meets.bind h

/-- What comes after a part that does not fail starts in a state that it leads to. -/
theorem bind {x : Core α} {f : α → Core β} (hx : Calm c x r) (h0 : r.faultsLeft = 0)
    (hf : ∀ a r', Reach c r r' → r'.faultsLeft = 0 → OnlyFails F (f a) r') :
    OnlyFails F (x >>= f) r :=
  Meets.bind (Meets.mono hx (fun a r' h => hf a r' h.1 (h.2.trans h0))
    fun _ _ h => absurd (h0 ▸ h.2) (Nat.not_lt_zero _))

end OnlyFails

/-! ### The storage -/

/-- A write that is not made to fail does what the storage does. -/
theorem Disk.write_of_faultsLeft {d : Disk} (h0 : d.faultsLeft = 0) :
    ∃ faults, (∀ m, Disk.faultsLeft ⟨m, faults⟩ = 0) ∧
      ∀ f : MemoryStorage → Except Error MemoryStorage, Disk.write f d =
        match f d.mem with
        | .ok m => .ok () ⟨m, faults⟩
        | .error e => .error (.error e) ⟨d.mem, faults⟩ := by
  obtain ⟨mem, faults⟩ := d
  match faults with
  | true :: faults => simp [Disk.faultsLeft] at h0
  | false :: faults => exact ⟨faults, fun _ => by simpa [Disk.faultsLeft] using h0, fun f => rfl⟩
  | [] => exact ⟨[], fun _ => rfl, fun f => rfl⟩

theorem Disk.faultsLeft_lt {d : Disk} {faults : List Bool} (h : d.faults = true :: faults)
    (m : MemoryStorage) : Disk.faultsLeft ⟨m, faults⟩ < d.faultsLeft := by
  simp [Disk.faultsLeft, h]

/-- A write that the storage would take is made, or fails. -/
theorem RaftLog.meets_onDisk_write {f : MemoryStorage → Except Error MemoryStorage} {l : RaftLog}
    {m : MemoryStorage} {Q : Unit → RaftLog → Prop} {G : Fail → RaftLog → Prop}
    (hf : f l.mem = .ok m)
    (hok : ∀ faults, Disk.faultsLeft ⟨m, faults⟩ = l.storage.faultsLeft →
      Q () { l with storage := ⟨m, faults⟩ })
    (hfail : ∀ e faults, e.Bare → l.storage.faults = true :: faults →
      G e { l with storage := ⟨l.mem, faults⟩ }) :
    Meets (RaftLog.onDisk (Disk.write f)) l Q G := by
  obtain ⟨⟨mem, faults⟩, committed, applied⟩ := l
  have hf : f mem = .ok m := hf
  rw [RaftLog.onDisk, meets_onPart, Meets, Disk.write]
  rcases faults with _ | ⟨_ | _, faults⟩
  · dsimp only
    rw [hf]
    exact hok [] rfl
  · dsimp only
    rw [hf]
    exact hok faults (by simp [Disk.faultsLeft])
  · exact hfail _ faults ⟨_, rfl, rfl⟩ rfl

theorem RaftLog.meets_onDisk_ok {f : MemoryStorage → Except Error MemoryStorage} {l : RaftLog}
    {m : MemoryStorage} {Q : Unit → RaftLog → Prop} {G : Fail → RaftLog → Prop}
    (h0 : l.storage.faultsLeft = 0) (hf : f l.mem = .ok m)
    (hok : ∀ faults, Disk.faultsLeft ⟨m, faults⟩ = 0 → Q () { l with storage := ⟨m, faults⟩ }) :
    Meets (RaftLog.onDisk (Disk.write f)) l Q G :=
  RaftLog.meets_onDisk_write hf (fun faults h => hok faults (h.trans h0))
    fun _ _ _ h => absurd ((Disk.faultsLeft_lt h l.mem).trans_eq h0) (Nat.not_lt_zero _)

theorem meets_persistHardState_write {Q : Unit → RawNode → Prop} {G : Fail → RawNode → Prop}
    (hsync : r.persisted = r.log.mem.hardState) (hterm : r.log.mem.hardState.term ≤ r.term)
    (hok : ∀ faults, (r.saved.withFaults faults).faultsLeft = r.faultsLeft →
      Q () (r.saved.withFaults faults))
    (hfail : ∀ f r', f.Bare → r'.faultsLeft < r.faultsLeft → G f r') :
    Meets persistHardState r Q G := by
  rw [persistHardState, meets_bind, meets_get]
  split
  · rename_i h
    have := hok r.log.storage.faults
    rw [saved_eq_self h hsync] at this
    exact this rfl
  · have hset : r.log.mem.setHardState r.hardState =
        .ok { r.log.mem with hardState := r.hardState } := by
      rw [MemoryStorage.setHardState, if_neg (show ¬ r.hardState.term < _ from not_lt.mpr hterm)]
    rw [meets_bind, wrapping, meets_mapFail]
    exact meets_onLog (RaftLog.meets_onDisk_write hset hok fun e faults he hfaults =>
      hfail _ _ (he.wrap _) (Disk.faultsLeft_lt hfaults _))

theorem meets_persistHardState_ok {Q : Unit → RawNode → Prop} {G : Fail → RawNode → Prop}
    (h0 : r.faultsLeft = 0) (hsync : r.persisted = r.log.mem.hardState)
    (hterm : r.log.mem.hardState.term ≤ r.term)
    (hok : ∀ faults, (r.saved.withFaults faults).faultsLeft = 0 →
      Q () (r.saved.withFaults faults)) :
    Meets persistHardState r Q G :=
  meets_persistHardState_write hsync hterm (fun faults h => hok faults (h.trans h0))
    fun _ _ _ h => absurd (h0 ▸ h) (Nat.not_lt_zero _)

theorem meets_appendNext_write {e : LogEntry} {Q : Unit → RawNode → Prop}
    {G : Fail → RawNode → Prop} (hr : r.Wf) (he : e.index = r.log.lastIndex + 1)
    (hok : ∀ faults, (r.withFaults faults).faultsLeft = r.faultsLeft → Q ()
      ((r.withFaults faults).withMem { r.log.mem with ents := r.log.mem.ents ++ [e] }))
    (hfail : ∀ f faults, f.Bare → r.log.storage.faults = true :: faults →
      G f (r.withFaults faults)) :
    Meets (onLog (RaftLog.append [e])) r Q G := by
  have hle := hr.log.committed_le
  refine meets_onLog ?_
  rw [RaftLog.append, meets_bind, meets_get, if_neg (by omega)]
  exact RaftLog.meets_onDisk_write (MemoryStorage.appendEntries_next e he) hok hfail

theorem meets_appendNext_ok {e : LogEntry} {Q : Unit → RawNode → Prop}
    {G : Fail → RawNode → Prop} (h0 : r.faultsLeft = 0) (hr : r.Wf)
    (he : e.index = r.log.lastIndex + 1)
    (hok : ∀ faults, (r.withFaults faults).faultsLeft = 0 → Q () ((r.withFaults faults).withMem
      { r.log.mem with ents := r.log.mem.ents ++ [e] })) :
    Meets (onLog (RaftLog.append [e])) r Q G :=
  meets_appendNext_write hr he (fun faults h => hok faults (h.trans h0))
    fun _ _ _ h => absurd ((Disk.faultsLeft_lt h r.log.mem).trans_eq h0) (Nat.not_lt_zero _)

/-- A batch in order, after a place above the commit index, is taken or refused. -/
theorem RaftLog.meets_maybeAppend_ok {l : RaftLog} {prev prevTerm leaderCommit : ℕ}
    {ents : List LogEntry} {G : Fail → RaftLog → Prop} (h0 : l.storage.faultsLeft = 0) (hl : l.OK)
    (hprev : l.committed ≤ prev) (hc : Contiguous (prev + 1) ents)
    (ht : ents.Pairwise fun a b => a.term ≤ b.term) :
    Meets (maybeAppend prev prevTerm leaderCommit ents) l
      (fun _ l' => l'.storage.faultsLeft = 0 ∧ l'.mem.hardState = l.mem.hardState ∧
        ∀ e ∈ l'.mem.ents, e ∈ l.mem.ents ∨ e ∈ ents) G := by
  by_cases hm : l.term prev = .ok prevTerm
  · rcases held_or_conflict l ents with hall | ⟨same, e, rest, rfl, hs, he⟩
    · have hle := held_le_lastIndex hm hc hall
      refine meets_of_ok (maybeAppend_held hm hall (Or.inr (by omega))) ?_
      exact ⟨h0, rfl, fun e he => Or.inl he⟩
    · obtain ⟨hi, hsame, -⟩ := hc.of_append_cons
      have hle := held_le_lastIndex hm hsame hs
      obtain ⟨faults, hleft, hwrite⟩ := Disk.write_of_faultsLeft h0
      refine meets_of_ok (maybeAppend_conflict hl hm hs he hprev hc (by omega) ht
        fun m h => by rw [hwrite, h]) ⟨hleft _, rfl, fun a ha => ?_⟩
      rcases List.mem_append.mp ha with ha | ha
      · exact Or.inl (List.mem_of_mem_take ha)
      · exact Or.inr (List.mem_append_right _ ha)
  · have hno : l.matchTerm prev prevTerm = false :=
      Bool.eq_false_iff.mpr fun h => hm (matchTerm_eq.mp h)
    exact meets_of_ok (maybeAppend_unmatched hno) ⟨h0, rfl, fun e he => Or.inl he⟩

/-! ### Committing and appending -/

/-- What holds of a node all through a call in which it can commit and append: what a quorum has
confirmed is in its log, and what it proposes can be read back. -/
structure Reliant (c : Call) (P : RawNode → Prop) : Prop where
  reach : ∀ {r r'}, P r → Reach c r r' → P r'
  wf : ∀ {r}, P r → r.Wf
  matched : ∀ {r}, P r → 0 < r.conf.committedIndex r.matchOf →
    r.conf.committedIndex r.matchOf ≤ r.log.lastIndex
  sized : ∀ {r cc}, P r → r.Proposes c cc → cc.config.Sized

theorem calm_persistHardState (hr : r.Wf) : Calm c persistHardState r := by
  refine meets_persistHardState_write hr.synced hr.term_eq.le (fun faults hf => ⟨?_, hf⟩)
    fun _ _ hb hlt => ⟨hb, hlt⟩
  exact (Effect.persist.reach).trans (reach_withFaults _ faults)

/-- A quorum has a voter of the incoming configuration. -/
theorem Configuration.voters_ne_nil {conf : Configuration} {g : NodeID → Bool}
    (h : conf.hasQuorum g = true) : conf.voters ≠ [] := by
  intro hnil
  have := ((hasQuorum_iff conf g).mp h).1
  rw [hnil] at this
  exact nomatch this

section

variable {P : RawNode → Prop}

/-- A leader can commit, and then goes on in the same configuration, which has voters. -/
theorem calm_maybeAdvanceCommitWith {lj : Core Unit} (hP : Reliant c P) (h : P r)
    (hlj : ∀ r', Reach c r r' → r'.conf = r.conf → r'.conf.voters ≠ [] →
      r'.committedInCurrentTerm = true → Calm c lj r') :
    Calm c (maybeAdvanceCommitWith lj) r := by
  rw [maybeAdvanceCommitWith]
  refine Meets.bind ?_
  rw [meets_get]
  split
  · exact Calm.pure _
  · rename_i hst
    have hst' : r.state = .leader := not_not.mp hst
    dsimp only
    split
    · exact Calm.pure _
    · rename_i hlt
      have hlt' : r.log.committed < r.conf.committedIndex r.matchOf := not_le.mp hlt
      have hpos : 0 < r.conf.committedIndex r.matchOf := by omega
      have hvoters := Configuration.voters_ne_nil (Configuration.hasQuorum_committedIndex hpos)
      have hle := hP.matched h hpos
      obtain ⟨t, ht⟩ := RaftLog.term_ok ((hP.wf h).log.base_le_committed.trans hlt'.le) hle
      split <;> rename_i hrun
      · cases ht.symm.trans hrun
      obtain rfl := Except.ok.inj (ht.symm.trans hrun)
      split
      · exact Calm.pure _
      · rename_i hterm
        rw [not_not.mp hterm] at ht
        have h1 := (Effect.commit (c := c) _ hst' rfl hlt' hle ht).reach
        have hw1 := hP.wf (hP.reach h h1)
        have hc1 : RawNode.committedInCurrentTerm
            { r with log := { r.log with committed := r.conf.committedIndex r.matchOf } } = true :=
          committedInCurrentTerm_iff.mpr ⟨by dsimp only; omega, ht⟩
        rw [meets_bind]
        refine meets_onLog (RaftLog.meets_commitTo (fun h => absurd h hlt) (fun _ _ => ?_)
          fun _ _ h => absurd h (not_lt.mpr hle))
        rw [meets_bind]
        refine meets_persistHardState_write hw1.synced hw1.term_eq.le (fun faults hf => ?_)
          fun _ _ hb hlt => ⟨hb, hlt⟩
        have h2 := (h1.tail Effect.persist).trans (reach_withFaults _ faults)
        have hrest := (hlj _ h2 rfl hvoters hc1).after h2 hf
        refine Meets.bind (Meets.mono hrest (fun _ r3 h3 => ?_) fun _ _ h => h)
        exact ⟨h3.1.trans reach_stepDownIfRemoved, steady_stepDownIfRemoved.faults.trans h3.2⟩

/-- A joint configuration with incoming voters can be left. -/
theorem Configuration.leaveJoint_isOk {conf : Configuration} (hj : conf.isJoint = true)
    (hv : conf.voters ≠ []) : ∃ cc, conf.leaveJoint = .ok cc := by
  obtain ⟨v, hmem⟩ := List.exists_mem_of_ne_nil _ hv
  have hne : (sortedUnique conf.voters).length ≠ 0 :=
    List.length_pos_iff_exists_mem.mpr ⟨v, (mem_sortedUnique _ v).mpr hmem⟩ |>.ne'
  have hval : ({ voters := conf.voters, learners := conf.learners : Configuration }.normalize).validate
      = .ok () := if_neg hne
  rw [leaveJoint, if_neg (by simp [hj])]
  dsimp only
  rw [hval]
  exact ⟨_, rfl⟩

theorem calm_maybeLeaveJointWith {propose : LogEntry → Core ℕ} (hv : r.conf.voters ≠ [])
    (hp : ∀ cc, r.state = .leader → r.confIndex ≤ r.log.committed → r.conf.leaveJoint = .ok cc →
      Calm c (propose { type := .confChange, command := cc.encode }) r) :
    Calm c (maybeLeaveJointWith propose) r := by
  rw [maybeLeaveJointWith]
  refine Meets.bind ?_
  rw [meets_get]
  split
  · exact Calm.pure _
  · rename_i hst
    simp only [Bool.or_eq_true, decide_eq_true_eq, not_or, not_not, Bool.not_eq_true',
      Bool.not_eq_false] at hst
    split
    · exact Calm.pure _
    · rename_i hi
      obtain ⟨cc, hcc⟩ := Configuration.leaveJoint_isOk hst.2 hv
      rw [hcc]
      dsimp only
      rw [meets_tryCatch]
      refine Meets.bind (Meets.mono (hp cc hst.1 (not_lt.mp hi) hcc) (fun _ _ h => h)
        fun f r' h => ?_)
      -- the error of a failed write is not taken for that of a node which does not lead
      obtain ⟨⟨e, rfl, he⟩, hlt⟩ := h
      dsimp only
      rw [Error.is_of_bare he]
      exact ⟨⟨e, rfl, he⟩, hlt⟩

/-- A leader can append an entry that is not refused, and a configuration entry takes effect. -/
theorem calm_appendOwn {e : LogEntry} (hP : Reliant c P) (h : P r)
    (ha : c.appends = true) (hst : r.state = .leader)
    (hcc : e.type = .confChange → ∃ cc, r.Proposes c cc ∧ e.command = cc.encode) :
    Meets (appendOwn e) r (fun _ r' => (Reach c r r' ∧ r'.faultsLeft = r.faultsLeft) ∧
      (e.type = .confChange → ∀ cc, ConfChange.decode e.command = .ok cc → r'.conf = cc.config))
      fun f r' => f.Bare ∧ r'.faultsLeft < r.faultsLeft := by
  have hr := hP.wf h
  have hdec : e.type = .confChange → ∃ cc, ConfChange.decode e.command = .ok cc := by
    intro hty
    obtain ⟨cc, hprop, hcmd⟩ := hcc hty
    rw [hcmd]
    exact ⟨_, cc.decode_encode (hP.sized h hprop)⟩
  have hconf : Meets (appendOwn e) r (fun _ r' =>
      e.type = .confChange → ∀ cc, ConfChange.decode e.command = .ok cc → r'.conf = cc.config)
      fun _ r' => r'.faultsLeft < r.faultsLeft := by
    rw [appendOwn, meets_bind, meets_get, meets_bind]
    refine meets_appendNext_write hr rfl (fun faults _ => ?_) fun _ _ _ h => Disk.faultsLeft_lt h _
    rw [meets_bind]
    by_cases hty : e.type = .confChange
    · obtain ⟨cc, hcc⟩ := hdec hty
      let e' : LogEntry := { e with term := r.term, index := r.log.lastIndex + 1 }
      let r' := (r.withFaults faults).withMem { r.log.mem with ents := r.log.mem.ents ++ [e'] }
      have hlast : LastConf r'.log.mem.ents r.log.mem.ents cc.config :=
        lastConf_concat (e := e') hty hcc
      rw [if_pos hty, tryUpdate, meets_bind, meets_get]
      have href := refreshConfiguration_of_confFrom (r := r') (.entry _ _ hlast)
      split <;> rename_i hrun
      · cases href.symm.trans hrun
      obtain rfl := Except.ok.inj (href.symm.trans hrun)
      rw [meets_set, meets_bind, meets_modify]
      intro _ cc' hcc'
      rw [hcc] at hcc'
      cases hcc'
      split <;> exact (setConfiguration_conf r' cc.config _).1
    · rw [if_neg hty]
      exact fun h => absurd h hty
  have := Meets.and (Calm.of (exact_appendOwn ha hr hst hcc) reports_appendOwn
    (Meets.mono hconf (fun _ _ _ => trivial) fun _ _ h => h)) hconf
  exact Meets.mono this (fun _ _ h => h) fun _ _ h => h.1

theorem calm_proposeWith {advance : Core Bool} {e : LogEntry} (hP : Reliant c P) (h : P r)
    (ha : c.appends = true) (hst : r.state = .leader)
    (hcc : e.type = .confChange → ∃ cc, r.Proposes c cc ∧ e.command = cc.encode)
    (hadv : ∀ r', Reach c r r' → (e.type = .confChange →
      ∀ cc, ConfChange.decode e.command = .ok cc → r'.conf = cc.config) → Calm c advance r') :
    Calm c (proposeWith advance e) r := by
  rw [proposeWith]
  refine Meets.bind ?_
  rw [meets_get, if_neg (not_not.mpr hst)]
  refine Meets.bind (Meets.mono (calm_appendOwn hP h ha hst hcc) (fun _ r1 h1 => ?_)
    fun _ _ h => h)
  obtain ⟨⟨hreach, hleft⟩, hconf⟩ := h1
  refine Meets.bind (Meets.mono ((hadv r1 hreach hconf).after hreach hleft) (fun _ r2 h2 => ?_)
    fun _ _ h => h)
  exact ⟨h2.1.trans (reach_broadcastAppend (h2.1.wf (hP.wf h))).1,
    steady_broadcastAppend.faults.trans h2.2⟩

/-- The entry that leaves a joint configuration leaves it, so that nothing more is appended when it
is committed at once. -/
theorem calm_leaving {cc : ConfChange} (hP : Reliant c P) (h : P r)
    (ha : c.appends = true) (hst : r.state = .leader)
    (hc : r.committedInCurrentTerm = true) (hi : r.confIndex ≤ r.log.committed)
    (hcc : r.conf.leaveJoint = .ok cc) :
    Calm c (proposeN 1 { type := .confChange, command := cc.encode }) r := by
  have hprop : r.Proposes c cc := ⟨hc, hi, Or.inr hcc⟩
  have hdec := cc.decode_encode (hP.sized h hprop)
  have hnorm : cc.config.normalize = cc.config := by
    rw [(leaveJoint_ok hcc).2.2]
    exact (Configuration.normalize_normalized _).normalize_eq
  refine calm_proposeWith hP h ha hst (fun _ => ⟨cc, hprop, rfl⟩)
    fun r1 h1 hc1 => calm_maybeAdvanceCommitWith hP (hP.reach h h1)
      fun r2 h2 hc2 _ _ => ?_
  have hj : r2.conf.isJoint = false := by
    rw [hc2, hc1 rfl _ hdec]
    change cc.config.normalize.isJoint = false
    rw [hnorm]
    exact leaveJoint_not_joint hcc
  rw [maybeLeaveJointWith]
  refine Meets.bind ?_
  rw [meets_get, if_pos (by simp [hj])]
  exact Calm.pure _

theorem calm_maybeAdvanceCommit (hP : Reliant c P) (h : P r) (ha : c.appends = true) :
    Calm c maybeAdvanceCommit r :=
  calm_maybeAdvanceCommitWith hP h fun _ h1 _ hv hc =>
    calm_maybeLeaveJointWith hv fun _ hst hi hcc =>
      calm_leaving hP (hP.reach h h1) ha hst hc hi hcc

theorem calm_propose {e : LogEntry} (hP : Reliant c P) (h : P r) (ha : c.appends = true)
    (hst : r.state = .leader)
    (hcc : e.type = .confChange → ∃ cc, r.Proposes c cc ∧ e.command = cc.encode) :
    Calm c (propose e) r :=
  calm_proposeWith hP h ha hst hcc fun _ h1 _ => calm_maybeAdvanceCommit hP (hP.reach h h1) ha

end

/-! ### A node in a run -/

/-- A node that is being called, in a run in which nobody changes the membership. -/
structure Fit (boot : Configuration) (hn : boot.Normalized) (c : Call) (r : RawNode) : Prop where
  calls : ∃ cl, Cluster.fixedCalls cl r.id c
  wf : r.Wf
  fixed : FixedNode boot r
  ledger : Ledger r
  /-- Only a voter campaigns. -/
  standing : r.state = .candidate ∨ r.state = .preCandidate → r.promotable = true
  world : ∃ w, Inv (fixedMembership boot hn).rules w ∧ Sim w.hist r (w.node r.id) ∧
    ∀ m, c = .step m → Valid w.hist m ∧ FixedMsg boot m

/-- A node that has stood up to campaign is a voter: its configuration changes only while it
follows or leads. -/
theorem Effect.standing (he : Effect c r r')
    (h : r.state = .candidate ∨ r.state = .preCandidate → r.promotable = true) :
    r'.state = .candidate ∨ r'.state = .preCandidate → r'.promotable = true := by
  intro hst
  cases he with
  | adopt => rcases hst with hst | hst <;> cases hst
  | resign => rcases hst with hst | hst <;> cases hst
  | poll _ _ hp => exact hp
  | stand _ _ hp =>
    change r.standing.promotable = true
    rw [RawNode.standing, reset_eq]
    exact hp
  | lead => rcases hst with hst | hst <;> cases hst
  | extend e _ hs =>
    have hstate : (r.extended e).state = r.state := by rw [(extended_reconf r e).eq]; rfl
    rw [hstate, hs] at hst
    rcases hst with hst | hst <;> cases hst
  | follow m l committed _ _ _ hs =>
    rw [(refreshedIfNeeded_reconf _ _).eq] at hst
    change r.state = _ ∨ r.state = _ at hst
    rw [hs] at hst
    rcases hst with hst | hst <;> cases hst
  | restore m snap mem _ _ _ hs =>
    rw [(restored_reconf ..).eq] at hst
    change r.state = _ ∨ r.state = _ at hst
    rw [hs] at hst
    rcases hst with hst | hst <;> cases hst
  | _ => exact h hst

section

variable {boot : Configuration} {hn : boot.Normalized}

theorem Fit.effect (hs : boot.Sized) (h : Fit boot hn c r) (he : Effect c r r') :
    Fit boot hn c r' := by
  obtain ⟨cl, hc⟩ := h.calls
  obtain ⟨w, hw, hsim, hmsg⟩ := h.world
  have hvalid : ∀ m, c = .step m → Valid w.hist m := fun m hm => (hmsg m hm).1
  have hc' : (Raft.fixed boot hn hs).calls cl r.id c := hc
  obtain ⟨w', hsteps, hsim'⟩ := he.advances hw h.wf hsim hvalid
    (fun g => (Raft.fixed boot hn hs).quorum h.fixed hsim.backs)
    (fun e => (Raft.fixed boot hn hs).admits hc' h.wf h.fixed hsim.backs)
  obtain ⟨hw', hmoves⟩ := Steps.inv_moves hw hsteps
  have hid : r'.id = r.id := Reach.id_eq he.reach
  refine ⟨⟨cl, hid ▸ hc⟩, he.wf h.wf, h.fixed.effect hs hc h.wf (fun m hm => (hmsg m hm).2) he,
    h.ledger.effect hw h.wf hsim hvalid he, he.standing h.standing, w', hw', ?_, fun m hm => ?_⟩
  · rw [hid]
    exact hsim'
  · exact ⟨(hvalid m hm).mono hmoves.grows, (hmsg m hm).2⟩

theorem Fit.reach (hs : boot.Sized) (h : Fit boot hn c r) (hr : Reach c r r') :
    Fit boot hn c r' := by
  induction hr with
  | refl => exact h
  | tail _ he ih => exact ih.effect hs he

theorem Fit.reliant (hs : boot.Sized) : Reliant c (Fit boot hn c) where
  reach h hr := h.reach hs hr
  wf h := h.wf
  matched h := h.ledger.committedIndex_le
  sized h hprop := by
    obtain ⟨cl, hc⟩ := h.calls
    refine hprop.sized (h.fixed.conf.sized hs) ?_
    rintro target rfl
    exact hc.elim

/-! ### Elections -/

/-- A voter that takes over tracks itself. -/
theorem peer_leading (hp : r.promotable = true) : ∃ p, r.leading.peer r.leading.id = some p := by
  have hid : r.leading.id = r.id := by rw [leading, reset_eq]
  rw [hid, leading, peer, Option.bind_some]
  exact ⟨_, if_pos (Configuration.mem_members_of_isVoter hp)⟩

theorem calm_becomeLeader (hs : boot.Sized) (h : Fit boot hn c r) (h0 : r.faultsLeft = 0)
    (hel : c.elects = true) (hst : r.state = .candidate)
    (hq : r.conf.hasQuorum (fun id => r.votes id = some true) = true) :
    Calm c becomeLeader r := by
  refine Calm.of (exact_becomeLeader hel h.wf hst hq) reports_becomeLeader
    (Meets.mono (?_ : OnlyFails (fun _ => False) becomeLeader r) (fun _ _ h => h) fun _ _ h => h.elim)
  have h1 : Reach c r r.leading := (Effect.lead hst hq hel).reach
  have ha := Call.appends_of_elects hel
  have hf1 := h.reach hs h1
  have hlog : r.leading.log = r.log := by rw [leading, reset_eq]
  have hterm : r.leading.term = r.term := by rw [leading, reset_eq]
  let noop : LogEntry := { term := r.term, index := r.log.lastIndex + 1, type := .noOp }
  have hidx : noop.index = r.leading.log.lastIndex + 1 := by rw [hlog]
  obtain ⟨p, hp⟩ := peer_leading (h.standing (Or.inl hst))
  rw [becomeLeader]
  refine OnlyFails.get_bind ?_
  rw [if_neg (by rw [hst]; rintro ⟨⟩)]
  refine OnlyFails.set_bind ?_
  rw [wrapping, OnlyFails, meets_bind, meets_mapFail]
  refine meets_appendNext_ok (by rw [faultsLeft, hlog]; exact h0) hf1.wf hidx fun faults h02 => ?_
  have h2 : Reach c r.leading ((r.leading.withFaults faults).extended noop) :=
    (reach_withFaults _ faults).tail (.extend noop ha rfl hterm.symm hidx (by rintro ⟨⟩))
  have hlast : noop.index = ((r.leading.withFaults faults).extended noop).log.lastIndex := by
    rw [extended_lastIndex]
    exact hidx
  rw [extended, if_neg (by rintro ⟨⟩)] at h2 hlast
  rw [meets_bind, meets_get, meets_bind]
  split
  · rename_i hnone
    change r.leading.peer r.leading.id = none at hnone
    rw [hp] at hnone
    cases hnone
  · rename_i p' hp'
    rw [meets_set]
    have hf3 := (hf1.reach hs h2).reach hs (reach_own ha hp' hlast)
    refine OnlyFails.bind (calm_maybeAdvanceCommit (Fit.reliant hs) hf3 ha) h02 fun _ r4 h4 h04 => ?_
    exact OnlyFails.bind (calm_persistHardState (c := c) (hf3.reach hs h4).wf) h04
      fun _ r5 _ _ => trivial

theorem calm_tallyVotesWith {campaign : Core Unit} (hs : boot.Sized) (h : Fit boot hn c r)
    (h0 : r.faultsLeft = 0) (hel : c.elects = true)
    (hst : r.state = .candidate ∨ r.state = .preCandidate)
    (hcamp : r.state = .preCandidate → Calm c campaign r) :
    Calm c (tallyVotesWith campaign) r := by
  rw [tallyVotesWith]
  refine Meets.bind ?_
  rw [meets_get]
  split
  · rename_i hq
    split
    · rename_i hp
      exact (hcamp hp).bind fun _ _ _ _ => Calm.pure _
    · rename_i hp
      exact (calm_becomeLeader hs h h0 hel (hst.resolve_right hp) hq).bind fun _ _ _ _ => Calm.pure _
  · split
    · exact ⟨(Effect.resign None).reach, (steady_becomeFollower _ _).faults⟩
    · exact Calm.pure _

/-- What a campaign does once the node is a candidate or polls. -/
theorem onlyFails_votes {campaign : Core Unit} {preVote : Bool} (hs : boot.Sized)
    (h : Fit boot hn c r) (h0 : r.faultsLeft = 0) (hel : c.elects = true)
    (hst : r.state = if preVote then .preCandidate else .candidate)
    (hpoll : preVote = true → c.campaigns = true)
    (hcamp : preVote = true → ∀ r', Fit boot hn c r' → r'.faultsLeft = 0 →
      r'.state = .preCandidate → Calm c campaign r') :
    OnlyFails F (gatherVotes campaign preVote) r := by
  have hst' : r.state ≠ .leader := by rw [hst]; split <;> nofun
  have h1 : Reach c r (r.recordVote r.id true) :=
    reach_recordVote hst' (Or.inl ⟨campaigns_or_candidate hst hpoll, rfl, rfl⟩)
  obtain ⟨hst1, -, -⟩ := recordVote_frame r r.id true
  have h01 := (steady_recordVote (r := r) r.id true).faults.trans h0
  have hf1 := h.reach hs h1
  refine OnlyFails.get_bind (OnlyFails.set_bind ?_)
  generalize r.recordVote r.id true = r1 at *
  refine OnlyFails.bind (calm_tallyVotesWith hs hf1 h01 hel ?_ fun hp => hcamp ?_ r1 hf1 h01 hp) h01
    fun done r2 _ _ => ?_
  · rw [hst1, hst]
    cases preVote
    · exact Or.inl rfl
    · exact Or.inr rfl
  · cases preVote
    · rw [hst1, hst] at hp
      exact nomatch hp
    · rfl
  · split
    · trivial
    · obtain ⟨lt, -, hlt⟩ := RaftLog.lastTerm_ok r2.log
      rw [OnlyFails, meets_bind, meets_reads]
      refine ⟨fun _ _ => trivial, fun e he => ?_⟩
      rw [hlt] at he
      exact nomatch he

theorem onlyFails_campaignWith {campaign : Core Unit} {preVote : Bool} (hs : boot.Sized)
    (h : Fit boot hn c r) (h0 : r.faultsLeft = 0) (hel : c.elects = true)
    (hc : c.campaigns = true ∨ preVote = false ∧ r.state = .preCandidate)
    (hst : r.state ≠ .leader)
    (hcamp : preVote = true → ∀ r', Fit boot hn c r' → r'.faultsLeft = 0 →
      r'.state = .preCandidate → Calm c campaign r') :
    OnlyFails F (campaignWith campaign preVote) r := by
  by_cases hprom : r.promotable = true
  · cases preVote with
    | true =>
      have hcall := hc.resolve_right fun h => by cases h.1
      have h1 := (Effect.poll hcall hst hprom).reach
      exact meets_campaignWith_poll hst hprom
        (onlyFails_votes hs (h.reach hs h1) h0 hel rfl (fun _ => hcall) hcamp)
    | false =>
      have hlog : r.standing.log = r.log := by rw [standing, reset_eq]
      obtain ⟨hsync, hterm⟩ := standing_unsaved h.wf
      refine meets_campaignWith_stand hst hprom
        (meets_persistHardState_ok (by rw [faultsLeft, hlog]; exact h0) hsync hterm
          fun faults h01 => ?_)
      have h1 := ((Effect.stand (hc.imp_right And.right) hst hprom).reach).trans
        (reach_withFaults _ faults)
      have hpoll : false = true → c.campaigns = true := (by rintro ⟨⟩)
      exact onlyFails_votes hs (h.reach hs h1) h01 hel rfl hpoll hcamp
  · rw [campaignWith]
    refine OnlyFails.get_bind ?_
    rw [if_pos (by simpa using hprom)]
    trivial

/-- The election that follows a straw poll. -/
theorem calm_elect (hs : boot.Sized) (h : Fit boot hn c r) (h0 : r.faultsLeft = 0)
    (hel : c.elects = true) (hst : r.state = .preCandidate) : Calm c (campaignN 1 false) r :=
  Calm.of (traced_campaignN 1 false hel h.wf (Or.inr ⟨rfl, hst⟩)) (reports_campaignN 1)
    (Meets.mono (onlyFails_campaignWith (F := fun _ => False) hs h h0 hel (Or.inr ⟨rfl, hst⟩)
      (by rw [hst]; nofun) nofun) (fun _ _ h => h) fun _ _ h => h.elim)

theorem onlyFails_campaign {preVote : Bool} (hs : boot.Sized) (h : Fit boot hn c r)
    (h0 : r.faultsLeft = 0) (hel : c.elects = true) (hc : c.campaigns = true)
    (hst : r.state ≠ .leader) : OnlyFails F (campaign preVote) r :=
  onlyFails_campaignWith hs h h0 hel (Or.inl hc) hst fun _ _ h' h0' hst' =>
    calm_elect hs h' h0' hel hst'

end

end RaftStore.Raft
