import RaftStore.Raft.Indexes
import RaftStore.Raft.Reliable

/-! A cluster on storage that does not fail.  No call of a driver makes a node panic or fail; a call
that cannot be served is refused with an error made for that. -/

namespace RaftStore.Raft

open Lib Consensus RawNode

variable {c : Call} {F : Fail → Prop} {r r' : RawNode}

section

variable {boot : Configuration} {hn : boot.Normalized}

/-! ### Messages -/

theorem onlyFails_handleVoteRequest {m : Message} (h : Fit boot hn c r) (h0 : r.faultsLeft = 0) :
    OnlyFails F (handleVoteRequest m) r := by
  have hreply : ∀ granted : Bool, OnlyFails F (answerVote r m granted) r := by
    intro granted
    rw [OnlyFails, answerVote, meets_bind]
    split
    · rw [meets_bind, meets_set]
      exact meets_persistHardState_ok h0 h.wf.synced h.wf.term_eq.le fun _ _ => trivial
    · trivial
  rw [handleVoteRequest]
  refine OnlyFails.get_bind ?_
  rw [OnlyFails, meets_bind]
  split
  · obtain ⟨b, hb⟩ := isUpToDate_ok r.log m.lastLogIndex m.lastLogTerm
    rw [meets_reads]
    refine ⟨fun b' _ => hreply b', fun e he => ?_⟩
    rw [hb] at he
    cases he
  · exact hreply false

/-- The error wraps one of the sentinels, and nothing else. -/
def Fail.Wraps (sentinels : List Sentinel) (f : Fail) : Prop :=
  ∃ e, f = .error e ∧ ∃ s ∈ sentinels, e.wraps = [s]

theorem wraps_ignored (context : String) :
    Fail.Wraps [.ignoredMessage] (.error (Sentinel.ignoredMessage.error.wrap context)) :=
  ⟨_, rfl, _, List.mem_singleton_self _, rfl⟩

theorem onlyFails_handleVoteResponse {m : Message} (hs : boot.Sized) (h : Fit boot hn c r)
    (h0 : r.faultsLeft = 0) (hc : c = .step m) (hty : m.type = .voteResp)
    (hd : m.dest = r.id ∨ m.dest = None) (ht : r.Dispatches m) :
    OnlyFails (Fail.Wraps [.ignoredMessage]) (handleVoteResponse m) r := by
  rw [handleVoteResponse]
  refine OnlyFails.get_bind ?_
  split
  · exact wraps_ignored _
  · rename_i hp
    split
    · exact wraps_ignored _
    · rename_i hv
      obtain ⟨hst, h1⟩ := reach_voteResponse hc hty hd ht hp hv
      obtain ⟨hst1, -, -⟩ := recordVote_frame r m.sender m.granted
      have hel : c.elects = true := by simp [hc, Call.elects, hty]
      have h01 := (steady_recordVote (r := r) m.sender m.granted).faults.trans h0
      have hf1 := h.reach hs h1
      refine OnlyFails.set_bind (OnlyFails.bind (calm_tallyVotesWith hs hf1 h01 hel (hst1 ▸ hst)
        fun hp => calm_elect hs hf1 h01 hel hp) h01 fun _ _ _ _ => trivial)

theorem meets_refreshIfNeeded_ok {entries : List LogEntry} {Q : Unit → RawNode → Prop}
    {G : Fail → RawNode → Prop}
    (h : ∀ e ∈ r.log.mem.ents, e.type = .confChange → ∃ cc, ConfChange.decode e.command = .ok cc)
    (hok : Q () (r.refreshedIfNeeded entries)) :
    Meets (refreshConfigurationIfNeeded entries) r Q G := by
  rw [refreshConfigurationIfNeeded]
  refine Meets.bind ?_
  rw [meets_get]
  rw [refreshedIfNeeded] at hok
  split
  · rename_i hch
    rw [if_neg (by simpa using hch)] at hok
    exact hok
  · rename_i hch
    obtain ⟨r', hr'⟩ := refreshConfiguration_isOk h
    rw [if_pos (by simpa using hch), refreshed, hr'] at hok
    rw [tryUpdate, meets_bind, meets_get, hr']
    exact hok

/-- What an append request of the term's leader carries is in order. -/
theorem Fit.request (h : Fit boot hn c r) {m : Message} (hc : c = .step m)
    (hty : m.type = .appendReq) :
    Contiguous (m.prevLogIndex + 1) m.entries ∧
      m.entries.Pairwise (fun a b => a.term ≤ b.term) := by
  obtain ⟨w, hw, -, hmsg⟩ := h.world
  obtain ⟨-, -, p, hp, -, hents, -⟩ := (hmsg m hc).1.appendReq hty
  obtain ⟨n, hn⟩ := hp.leader
  refine ⟨hp.entries_contiguous hents, ?_⟩
  rw [hents]
  exact ((hw.hist.log_mono hn).shorter hp.le).sublist (List.drop_sublist ..)

theorem onlyFails_handleAppendRequest {m : Message} (hs : boot.Sized) (h : Fit boot hn c r)
    (h0 : r.faultsLeft = 0) (hc : c = .step m) (hty : m.type = .appendReq) (ht : m.term = r.term) :
    OnlyFails F (handleAppendRequest m) r := by
  obtain ⟨h1, -, -, -⟩ := reach_hear (c := c) ht
  have hf1 := h.reach hs h1
  have h01 := (steady_hear (r := r) m).faults.trans h0
  obtain ⟨hcont, hmono⟩ := h.request hc hty
  obtain ⟨w, -, -, hmsg⟩ := h.world
  rw [handleAppendRequest]
  refine OnlyFails.modify_bind ?_
  generalize r.hear m = r1 at *
  refine OnlyFails.get_bind ?_
  split
  · trivial
  · rename_i hprev
    refine Meets.bind (meets_onLog (Meets.mono (RaftLog.meets_maybeAppend_ok h01 hf1.wf.log
      (not_lt.mp hprev) hcont hmono) (fun a l hl => ?_) fun _ _ h => h))
    obtain ⟨hl0, hhs, hmem⟩ := hl
    cases a with
    | none => trivial
    | some lastNew =>
      refine Meets.bind (meets_refreshIfNeeded_ok (fun e he hce => ?_) ?_)
      · have hfe : FixedEntry boot e := (hmem e he).elim (hf1.fixed.disk.ents e)
          ((hmsg m hc).2.entries e)
        obtain ⟨cc, hcc, -⟩ := hfe hce
        exact ⟨cc, hcc⟩
      · have hrec := refreshedIfNeeded_reconf { r1 with log := l } m.entries
        refine Meets.bind (meets_persistHardState_ok ?_ ?_ ?_ fun _ _ => trivial)
        · rw [faultsLeft, hrec.eq]
          exact hl0
        · rw [hrec.eq]
          exact hf1.wf.synced.trans hhs.symm
        · rw [hrec.eq]
          exact (congrArg HardState.term hhs).le.trans hf1.wf.term_eq.le

theorem onlyFails_handleSnapshotRequest {m : Message} (hs : boot.Sized) (h : Fit boot hn c r)
    (h0 : r.faultsLeft = 0) (ht : m.term = r.term) :
    OnlyFails (Fail.Wraps [.ignoredMessage]) (handleSnapshotRequest m) r := by
  obtain ⟨h1, -, -, -⟩ := reach_hear (c := c) ht
  have hf1 := h.reach hs h1
  have h01 := (steady_hear (r := r) m).faults.trans h0
  rw [handleSnapshotRequest]
  refine OnlyFails.modify_bind ?_
  generalize r.hear m = r1 at *
  split
  · exact wraps_ignored _
  · rename_i snap _
    refine OnlyFails.get_bind ?_
    split
    · trivial
    · rename_i hle
      have hlt : r1.log.committed < snap.lastIncludedIndex := not_le.mp hle
      have hsnap := hf1.wf.log.snap_le.trans hf1.wf.log.applied_le
      obtain ⟨mem, hmem⟩ := MemoryStorage.saveSnapshot_isOk (hsnap.trans_lt hlt)
      rw [OnlyFails, meets_bind, installSnapshot, meets_tryCatch, meets_bind]
      refine meets_onLog ?_
      rw [RaftLog.restore, meets_bind, meets_get, if_neg hle, meets_bind]
      refine RaftLog.meets_onDisk_ok h01 hmem fun faults hf => ?_
      rw [meets_modify, meets_pure, Bool.not_true, if_neg (by rintro ⟨⟩), meets_bind, meets_modify,
        meets_bind, meets_modify, meets_bind]
      have hrec := restored_reconf (r1.withFaults faults) snap mem
      change Meets persistHardState
        { (r1.withFaults faults).restored snap mem with appliedSnapshot := some snap } _ _
      have hhs : mem.hardState = r1.log.mem.hardState := (RaftLog.saveSnapshot_ok hmem).2.1
      rw [hrec.eq]
      refine meets_persistHardState_ok hf ?_ ?_ fun _ _ => trivial
      · exact hf1.wf.synced.trans hhs.symm
      · exact (congrArg HardState.term hhs).le.trans hf1.wf.term_eq.le

theorem onlyFails_recordMatch {m : Message} {pr : Progress} (hs : boot.Sized)
    (h : Fit boot hn c r) (h0 : r.faultsLeft = 0) (hc : c = .step m)
    (hty : m.type = .appendResp ∨ m.type = .snapshotResp) (hsu : m.success = true)
    (ht : m.term = r.term) (hp : r.peer m.sender = some pr) :
    OnlyFails F (recordMatch pr m) r := by
  have ha : c.appends = true := by
    rw [hc]
    rcases hty with h | h <;> simp [Call.appends, h]
  rw [recordMatch]
  refine OnlyFails.get_bind ?_
  split
  · rename_i hlt
    have h1 := (Effect.setMatch m pr hc hty hsu ht hp hlt).reach
    exact OnlyFails.set_bind (OnlyFails.bind (calm_maybeAdvanceCommit (Fit.reliant hs) (h.reach hs h1) ha) h0
      fun _ _ _ _ => trivial)
  · trivial

theorem onlyFails_handleAppendResponse {m : Message} (hs : boot.Sized) (h : Fit boot hn c r)
    (h0 : r.faultsLeft = 0) (hc : c = .step m) (hty : m.type = .appendResp)
    (ht : m.term = r.term) :
    OnlyFails (Fail.Wraps [.ignoredMessage]) (handleAppendResponse m) r := by
  rw [handleAppendResponse]
  refine OnlyFails.get_bind ?_
  split
  · exact wraps_ignored _
  · rename_i hst
    split
    · exact wraps_ignored _
    · rename_i pr hp
      have hrest : ∀ r1, Fit boot hn c r1 → r1.faultsLeft = 0 → r1.term = r.term →
          r1.peer m.sender = some pr → OnlyFails (Fail.Wraps [.ignoredMessage])
            (if m.success = true then recordMatch pr m else set (r1.backUp pr m)) r1 := by
        intro r1 hf1 h01 ht1 hp1
        split
        · rename_i hsu
          exact onlyFails_recordMatch hs hf1 h01 hc (Or.inl hty) hsu (ht.trans ht1.symm) hp1
        · trivial
      dsimp only
      split
      · rename_i hid
        have h1 := (Effect.ackRead (c := c) m hc hty ht (not_not.mp hst) hid).reach
        exact OnlyFails.set_bind (hrest _ (h.reach hs h1) h0 rfl hp)
      · exact OnlyFails.set_bind (hrest r h h0 rfl hp)

theorem onlyFails_handleSnapshotResponse {m : Message} (hs : boot.Sized) (h : Fit boot hn c r)
    (h0 : r.faultsLeft = 0) (hc : c = .step m) (hty : m.type = .snapshotResp)
    (ht : m.term = r.term) :
    OnlyFails (Fail.Wraps [.ignoredMessage]) (handleSnapshotResponse m) r := by
  rw [handleSnapshotResponse]
  refine OnlyFails.get_bind ?_
  split
  · exact wraps_ignored _
  · split
    · exact wraps_ignored _
    · rename_i pr hp
      let pr' : Progress := { pr with pendingSnapshot := 0, snapshotTicks := 0 }
      have h1 : Reach c r (r.setPeer m.sender pr') :=
        (Effect.setNext m.sender pr pr' hp rfl (h.wf.next_pos _ pr hp) le_rfl id).reach
      have hpeer : (r.setPeer m.sender pr').peer m.sender = some pr' :=
        peer_setPeer_self hp _
      refine OnlyFails.set_bind ?_
      split
      · trivial
      · rename_i hsu
        exact onlyFails_recordMatch hs (h.reach hs h1) h0 hc (Or.inr hty) (by simpa using hsu) ht
          hpeer

theorem onlyFails_dispatch {m : Message} (hs : boot.Sized) (h : Fit boot hn c r)
    (h0 : r.faultsLeft = 0) (hc : c = .step m) (hd : m.dest = r.id ∨ m.dest = None)
    (ht : r.Dispatches m) : OnlyFails (Fail.Wraps [.ignoredMessage]) (dispatch m) r := by
  rw [dispatch]
  split <;> rename_i hty
  · exact onlyFails_handleVoteRequest h h0
  · exact onlyFails_handleVoteResponse hs h h0 hc hty hd ht
  · exact onlyFails_handleAppendRequest hs h h0 hc hty
      (ht.term_of_type hty (by rintro ⟨⟩) (by rintro ⟨⟩))
  · exact onlyFails_handleAppendResponse hs h h0 hc hty
      (ht.term_of_type hty (by rintro ⟨⟩) (by rintro ⟨⟩))
  · exact onlyFails_handleSnapshotRequest hs h h0 (ht.term_of_type hty (by rintro ⟨⟩) (by rintro ⟨⟩))
  · exact onlyFails_handleSnapshotResponse hs h h0 hc hty
      (ht.term_of_type hty (by rintro ⟨⟩) (by rintro ⟨⟩))
  · exact wraps_ignored _

theorem onlyFails_stepHigherTerm {m : Message} (h : Fit boot hn c r) (h0 : r.faultsLeft = 0)
    (hgt : m.term > r.term) : OnlyFails F (stepHigherTerm m) r := by
  rw [stepHigherTerm]
  refine OnlyFails.get_bind ?_
  split
  · trivial
  · split
    · trivial
    · generalize (if m.type = .appendReq ∨ m.type = .snapshotReq then m.sender else None) = lead
      refine OnlyFails.set_bind (meets_persistHardState_ok ?_ ?_ ?_ fun _ _ => trivial)
      · exact (steady_becomeFollower (r := r) m.term lead).faults.trans h0
      · rw [becomeFollower, reset_eq]
        exact h.wf.synced
      · rw [becomeFollower, reset_eq]
        exact h.wf.term_eq.le.trans hgt.le

theorem onlyFails_step {m : Message} (hs : boot.Sized) (h : Fit boot hn c r)
    (h0 : r.faultsLeft = 0) (hc : c = .step m) :
    OnlyFails (Fail.Wraps [.ignoredMessage]) (step m) r := by
  rw [step]
  refine OnlyFails.get_bind ?_
  split
  · exact wraps_ignored _
  · rename_i hdest
    have hd : m.dest = r.id ∨ m.dest = None := by
      by_contra hne
      simp only [not_or] at hne
      exact hdest (by simp [hne])
    split
    · rename_i hgt
      have hhigher := ((meets_stepHigherTerm h.wf hc hgt).and reports_stepHigherTerm).and
        (onlyFails_stepHigherTerm (F := fun _ => False) h h0 hgt)
      refine Meets.bind (Meets.mono hhigher (fun _ r1 h1 => ?_) fun _ _ h => h.2.elim)
      obtain ⟨⟨⟨h1, hid, ht, -⟩, hst⟩, -⟩ := h1
      exact onlyFails_dispatch hs (h.reach hs h1) (hst.faults.trans h0) hc (hid ▸ hd) ht
    · split
      · rw [stepLowerTerm]
        exact OnlyFails.get_bind (OnlyFails.set_bind (wraps_ignored _))
      · exact onlyFails_dispatch hs h h0 hc hd (Or.inl (by omega))

/-! ### The other calls -/

theorem onlyFails_tick (hs : boot.Sized) (h : Fit boot hn c r) (h0 : r.faultsLeft = 0)
    (hc : c = .tick) : OnlyFails F tick r := by
  rw [tick]
  refine OnlyFails.get_bind ?_
  split
  · rw [tickHeartbeat]
    refine OnlyFails.modify_bind (OnlyFails.get_bind ?_)
    split <;> trivial
  · rename_i hst
    rw [tickElection]
    refine OnlyFails.modify_bind (OnlyFails.get_bind ?_)
    split
    · trivial
    · have h1 : Reach c r { r with electionElapsed := 0 } :=
        (Effect.quiet 0 r.heartbeatElapsed r.randomizedElectionTimeout r.draws r.appliedSnapshot
          r.log.storage.faults).reach
      exact OnlyFails.set_bind (onlyFails_campaign hs (h.reach hs h1) h0 (hc ▸ rfl) (hc ▸ rfl) hst)

theorem onlyFails_createSnapshot {data : List UInt8} (hr : r.Wf) (h0 : r.faultsLeft = 0) :
    OnlyFails (Fail.Wraps [.nothingToSnapshot, .snapshotOutOfDate]) (createSnapshot data) r := by
  rw [createSnapshot]
  refine OnlyFails.get_bind ?_
  dsimp only
  split
  · exact ⟨_, rfl, _, List.mem_cons_self, rfl⟩
  · rename_i hne
    have hle : r.log.applied ≤ r.log.lastIndex := hr.log.applied_le.trans hr.log.committed_le
    obtain ⟨t, ht⟩ := RaftLog.term_ok (hr.log.base_le.trans hr.log.snap_le) hle
    rw [ht]
    dsimp only
    rw [OnlyFails, meets_bind, meets_mapFail]
    refine meets_onLog ?_
    by_cases hold : r.log.mem.snapshot.lastIncludedIndex < r.log.applied
    · have hsave : ∃ mem, r.log.mem.saveSnapshot ⟨r.log.applied, t, r.conf, data⟩ = .ok mem :=
        MemoryStorage.saveSnapshot_isOk hold
      obtain ⟨mem, hmem⟩ := hsave
      obtain ⟨hbase, hents⟩ := RaftLog.saveSnapshot_own hne ht hmem
      have hlast : mem.lastIndex = r.log.lastIndex := by
        rw [MemoryStorage.lastIndex, MemoryStorage.offset, hbase, hents]
        rfl
      refine RaftLog.meets_onDisk_ok h0 hmem fun faults hf => ?_
      split
      · trivial
      · have hto : (if r.cfg.snapshotCatchUpEntries > 0 then
            r.log.applied - r.cfg.snapshotCatchUpEntries else r.log.applied) ≤ r.log.applied := by
          split <;> omega
        generalize (if r.cfg.snapshotCatchUpEntries > 0 then
          r.log.applied - r.cfg.snapshotCatchUpEntries else r.log.applied) = compactTo at hto ⊢
        rw [meets_bind, meets_get]
        split
        · trivial
        · rw [meets_bind, wrapping, meets_mapFail]
          refine meets_onLog ?_
          obtain ⟨mem', hmem'⟩ := MemoryStorage.compact_isOk (m := mem) (hlast ▸ hto.trans hle)
          rw [RaftLog.compact, meets_bind, meets_get, if_neg (not_lt.mpr hto)]
          exact RaftLog.meets_onDisk_ok hf hmem' fun _ _ => trivial
    · obtain ⟨faults, -, hwrite⟩ := Disk.write_of_faultsLeft h0
      rw [RaftLog.onDisk, meets_onPart, Meets, hwrite]
      simp only [MemoryStorage.saveSnapshot]
      rw [if_pos (not_lt.mp hold)]
      exact ⟨_, rfl, _, List.mem_cons_of_mem _ (List.mem_singleton_self _), rfl⟩

theorem onlyFails_propose {cmd : List UInt8} (hs : boot.Sized) (h : Fit boot hn c r)
    (h0 : r.faultsLeft = 0) (ha : c.appends = true) :
    OnlyFails (Fail.Wraps [.notLeader]) (propose { type := .normal, command := cmd }) r := by
  by_cases hst : r.state = .leader
  · exact (calm_propose (e := { type := .normal, command := cmd }) (Fit.reliant hs) h ha hst
      nofun).onlyFails h0
  · rw [propose, proposeWith]
    refine OnlyFails.get_bind ?_
    rw [if_pos hst]
    exact ⟨_, rfl, _, List.mem_singleton_self _, rfl⟩

theorem onlyFails_readIndex {id : UInt64} :
    OnlyFails (Fail.Wraps [.notLeader, .readIndexUnavailable]) (readIndex id) r := by
  rw [readIndex]
  refine OnlyFails.get_bind ?_
  split
  · exact ⟨_, rfl, _, List.mem_cons_self, rfl⟩
  · split
    · exact ⟨_, rfl, _, List.mem_cons_of_mem _ (List.mem_singleton_self _), rfl⟩
    · dsimp only
      split <;> trivial

theorem onlyFails_applyTo {i : ℕ} (hi : i ≤ r.log.committed) : OnlyFails F (applyTo i) r := by
  rw [applyTo]
  refine meets_onLog ?_
  rw [RaftLog.appliedTo, meets_bind, meets_get]
  split
  · trivial
  · rw [if_neg (not_lt.mpr hi)]
    trivial

/-- With what a call may be refused. -/
def Call.refusals : Call → List Sentinel
  | .step _ => [.ignoredMessage]
  | .propose _ => [.notLeader]
  | .readIndex _ => [.notLeader, .readIndexUnavailable]
  | .createSnapshot _ => [.nothingToSnapshot, .snapshotOutOfDate]
  | _ => []

/-- No call fails but by being refused, on a node that is told to apply only what is committed and
to campaign only when it does not lead. -/
theorem onlyFails_run {k : Call} (hs : boot.Sized) (h : Fit boot hn k r) (h0 : r.faultsLeft = 0)
    (hcamp : k = .campaign → r.state ≠ .leader)
    (happly : ∀ i, k = .applyTo i → i ≤ r.log.committed) :
    OnlyFails (Fail.Wraps k.refusals) k.run r := by
  cases k with
  | tick => exact onlyFails_tick hs h h0 rfl
  | step m => exact onlyFails_step hs h h0 rfl
  | propose cmd =>
    exact Meets.bind (Meets.mono (onlyFails_propose hs h h0 rfl) (fun _ _ _ => trivial)
      fun _ _ h => h)
  | proposeConfChange target =>
    obtain ⟨_, hc⟩ := h.calls
    exact hc.elim
  | readIndex id => exact onlyFails_readIndex
  | readStates => trivial
  | messages => trivial
  | applyTo i => exact onlyFails_applyTo (happly i rfl)
  | createSnapshot data =>
    exact Meets.bind (Meets.mono (onlyFails_createSnapshot h.wf h0) (fun _ _ _ => trivial)
      fun _ _ h => h)
  | snapshotToApply => trivial
  | campaign => exact OnlyFails.get_bind (onlyFails_campaign hs h h0 rfl rfl (hcamp rfl))

end

/-! ### In a run of the cluster -/

open Cluster

section

variable {boot : Configuration} {cl cl' : Cluster} {n : NodeID}

theorem fixed_keeps_standing (hn : boot.Normalized) (hs : boot.Sized) (n : NodeID) :
    (Raft.fixed boot hn hs).Keeps n
      (fun r => r.state = .candidate ∨ r.state = .preCandidate → r.promotable = true)
      (fun _ => True) where
  effect _ _ _ _ _ _ _ h he := he.standing h
  stop _ _ := trivial
  start _ _ _ h := by
    rw [(started_of_new h).state]
    exact fun hst => hst.elim nofun nofun

theorem fit_of_run (hn : boot.Normalized) (hs : boot.Sized) (hrun : Run boot fixedCalls {} cl)
    (hr : cl.node? n = some r) (hc : fixedCalls cl n c) : Fit boot hn c r := by
  obtain ⟨w, -, hw⟩ := (Refines.start (Raft.fixed boot hn hs)).run hrun
  obtain ⟨rfl, hwf, hfix, hsim⟩ := hw.up hr
  refine ⟨⟨cl, hc⟩, hwf, hfix, (Raft.fixed boot hn hs).ledger hrun hr, ?_, w, hw.inv, hsim, ?_⟩
  · exact sat_up ((fixed_keeps_standing hn hs r.id).run (Refines.start _) trivial hrun) hr
  · rintro m rfl
    exact hw.net m hc

/-- While a process lives, what it knows to be committed only grows. -/
theorem committed_le_of_life (hn : boot.Normalized) (hs : boot.Sized)
    (hrun : Run boot fixedCalls {} cl) (hrun' : Run boot fixedCalls cl cl')
    (hr : cl.node? n = some r) :
    cl.starts n ≤ cl'.starts n ∧ (cl'.starts n = cl.starts n →
      ∀ r', cl'.node? n = some r' → r.log.committed ≤ r'.log.committed) := by
  induction hrun' with
  | refl =>
    refine ⟨le_rfl, fun _ r' hr' => ?_⟩
    rw [hr] at hr'
    cases hr'
    exact le_rfl
  | @tail b _ hb hstep ih =>
    obtain ⟨hle, hlife⟩ := ih
    obtain ⟨u, a, -, rfl⟩ := hstep
    have hmono := starts_le_act b u n a
    refine ⟨hle.trans hmono, fun heq r' hr' => ?_⟩
    have hb' := hlife (by omega)
    by_cases hu : n = u
    · subst hu
      obtain ⟨w, -, hw⟩ := (Refines.start (Raft.fixed boot hn hs)).run (hrun.trans hb)
      rcases node?_act_self (hw.ok n) hr' with ⟨cfg, st, hslot, rfl, -⟩ | hsame |
        ⟨r₁, k, faults, hr₁, rfl, hreach⟩
      · have := starts_lt_act cfg hslot
        omega
      · exact hb' r' hsame
      · obtain ⟨-, hwf, -⟩ := hw.up hr₁
        exact (hb' r₁ hr₁).trans (hreach.advanced hwf).committed
    · rw [node?_act_ne hu] at hr'
      exact hb' r' hr'

/-- `i` is the index of the last entry of those that CommittedEntries returned at some moment in the
life of the process. -/
def LastReturned (boot : Configuration) (cl : Cluster) (n : NodeID) (i : ℕ) : Prop :=
  ∃ cl₀ r₀ es e, Run boot fixedCalls {} cl₀ ∧ Run boot fixedCalls cl₀ cl ∧
    cl₀.starts n = cl.starts n ∧ cl₀.node? n = some r₀ ∧ r₀.committedEntries = .ok es ∧
    es.getLast? = some e ∧ e.index = i

/-- What CommittedEntries has returned is still committed. -/
theorem LastReturned.le_committed (hn : boot.Normalized) (hs : boot.Sized) {i : ℕ}
    (h : LastReturned boot cl n i) (hr : cl.node? n = some r) : i ≤ r.log.committed := by
  obtain ⟨cl₀, r₀, es, e, hrun, hrun', hlife, hr₀, hes, hlast, rfl⟩ := h
  have hfit : Fit boot hn .tick r₀ := fit_of_run hn hs hrun hr₀ trivial
  obtain ⟨_, hes', hlen, -, hall⟩ :=
    RaftLog.entriesToApply_ok hfit.wf.log r₀.cfg.maxApplyEntries
  rw [committedEntries, hes'] at hes
  cases hes
  have hidx := (hall (es.length - 1) e (by rw [← hlast, List.getLast?_eq_getElem?])).1
  have hpos : es.length ≠ 0 := by
    intro h0
    rw [List.length_eq_zero_iff.mp h0] at hlast
    exact nomatch hlast
  have hle := (committed_le_of_life hn hs hrun hrun' hr₀).2 hlife.symm r hr
  omega

theorem new_isOk {cfg : Config} {st : MemoryStorage} (hd : FixedDisk boot st)
    (hv : cfg.validate = .ok ()) : ∃ r, RawNode.new cfg { mem := st } = .ok r := by
  have hok : ∀ r₀ : RawNode, r₀.log.mem = st → ∀ e, r₀.refreshConfiguration ≠ .error e := by
    intro r₀ hr₀ e he
    obtain ⟨r', hr'⟩ := refreshConfiguration_isOk (r := r₀) fun x hx hty =>
      (hd.ents x (hr₀ ▸ hx) hty).imp fun _ h => h.1
    rw [hr'] at he
    exact nomatch he
  simp only [RawNode.new, hv]
  split
  · rename_i e he
    exact absurd he (hok _ (by split <;> rfl) e)
  · exact ⟨_, rfl⟩

/-- On a storage that does not fail, a node can always be started again with a valid configuration,
what it has to apply can be read, and no call panics or fails: the clock never, a message at most by
being ignored, and any other call at most by being refused.  A driver may apply what it was given to
apply, and must not make a leader campaign. -/
theorem fixed_core_never_fails (boot : Configuration) (hn : boot.Normalized) (hs : boot.Sized)
    {cl : Cluster} (hrun : Run boot fixedCalls {} cl) (n : NodeID) :
    (∀ st cfg, cl.slot n = .down st → cfg.validate = .ok () → ∃ r, new cfg { mem := st } = .ok r) ∧
    ∀ r, cl.node? n = some r →
      (∃ es, r.committedEntries = .ok es) ∧
      ∀ (k : Call) (faults : List Bool), fixedCalls cl n k → true ∉ faults →
        (k = .campaign → r.state ≠ .leader) →
        (∀ i, k = .applyTo i → LastReturned boot cl n i) →
        (∃ r', k.run (r.withFaults faults) = .ok () r') ∨
          ∃ e r', k.run (r.withFaults faults) = .error (.error e) r' ∧
            ∃ s ∈ k.refusals, e.wraps = [s] := by
  obtain ⟨w, -, hw⟩ := (Refines.start (Raft.fixed boot hn hs)).run hrun
  refine ⟨fun st cfg hslot hv => ?_, fun r hr => ⟨?_, fun k faults hk hf hcamp happly => ?_⟩⟩
  · have hs := hw.slot n
    rw [hslot] at hs
    exact new_isOk hs.2.1 hv
  · obtain ⟨-, hwf, -⟩ := hw.up hr
    obtain ⟨es, hes, -⟩ := RaftLog.entriesToApply_ok hwf.log r.cfg.maxApplyEntries
    exact ⟨es, hes⟩
  · have hfit := (fit_of_run hn hs hrun hr hk).reach hs (reach_withFaults r faults)
    have hcommitted : ∀ i, k = .applyTo i → i ≤ r.log.committed := fun i hi =>
      (happly i hi).le_committed hn hs hr
    have h := onlyFails_run hs hfit (faultsLeft_withFaults hf) hcamp hcommitted
    unfold OnlyFails Meets at h
    split at h
    · rename_i r' hx
      exact Or.inl ⟨r', hx⟩
    · rename_i f r' hx
      obtain ⟨e, rfl, hwraps⟩ := h
      exact Or.inr ⟨e, r', hx, hwraps⟩

/-- The first of three nodes has been elected, and applies the entry that it has committed. -/
theorem fixed_core_never_fails_trio :
    ∃ r r', (({} : Cluster).plays election).node? 1 = some r ∧
      (Call.applyTo 1).run (r.withFaults []) = .ok () r' := by
  have hrun : Run trio fixedCalls {} (({} : Cluster).plays election) := run_plays (by decide +kernel)
  obtain ⟨r, hr, ht⟩ := exists_node (c := ({} : Cluster).plays election) (n := 1)
    (fun r => r.committedEntries.toOption = some [{ term := 1, index := 1, type := .noOp }])
    (by decide +kernel)
  have hes := Lib.eq_ok_of_toOption (of_decide_eq_true ht)
  obtain ⟨-, h⟩ := ((fixed_core_never_fails trio trio_normalized trio_sized hrun 1).2 r hr)
  have hlast : LastReturned trio (({} : Cluster).plays election) 1 1 :=
    ⟨_, r, _, _, hrun, .refl, rfl, hr, hes, rfl, rfl⟩
  rcases h (.applyTo 1) [] trivial (by simp) nofun
      (by rintro i hi; cases hi; exact hlast) with ⟨r', hx⟩ | ⟨_, _, _, _, hmem, _⟩
  · exact ⟨r, r', hr, hx⟩
  · exact nomatch hmem

/-- Campaign, which no driver calls, is the one call that can panic: on a leader. -/
theorem campaign_of_leader_panics :
    Run trio fixedCalls {} (({} : Cluster).plays election) ∧
      ∃ r r', (({} : Cluster).plays election).node? 1 = some r ∧
        fixedCalls (({} : Cluster).plays election) 1 .campaign ∧
        Call.campaign.run (r.withFaults []) =
          .error (.panic "raft: leader cannot become pre-candidate") r' := by
  refine ⟨run_plays (by decide +kernel), ?_⟩
  obtain ⟨r, hr, ht⟩ := exists_node (c := ({} : Cluster).plays election) (n := 1)
    (fun r => match Call.campaign.run (r.withFaults []) with
      | .error (.panic text) _ => text = "raft: leader cannot become pre-candidate"
      | _ => false) (by decide +kernel)
  split at ht
  · rename_i text r' hx
    rw [of_decide_eq_true ht] at hx
    exact ⟨r, r', hr, trivial, hx⟩
  · exact nomatch ht

end

end RaftStore.Raft
