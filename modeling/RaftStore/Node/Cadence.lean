import Mathlib.Data.List.Pairwise
import RaftStore.Node.Stopping
import RaftStore.Raft.Reliable

/-! How often a node takes a snapshot.  The threshold counts from the first entry of the log, so it
spaces the snapshots only while the log begins right behind its snapshot: when compaction keeps no
entries, and until a snapshot arrives whose last entry the log holds, or compaction fails. -/

namespace RaftStore.Raft

open Lib RawNode

/-- The log begins right behind its snapshot. -/
def MemoryStorage.Trimmed (m : MemoryStorage) : Prop :=
  m.base.index = m.snapshot.lastIncludedIndex

/-- The index at which the stored snapshot ends. -/
def RawNode.stored (r : RawNode) : ℕ := r.log.mem.snapshot.lastIncludedIndex

variable {c : Call} {r r' : RawNode}

theorem RawNode.due_of_shouldSnapshot (ht : r.log.mem.Trimmed) (h : r.shouldSnapshot = true) :
    0 < r.cfg.snapshotThreshold ∧ r.stored + r.cfg.snapshotThreshold ≤ r.log.applied := by
  have hfirst : r.log.firstIndex = r.stored + 1 := congrArg (· + 1) ht
  rw [shouldSnapshot, hfirst] at h
  split at h
  · exact nomatch h
  · rename_i h0
    simp only [Bool.or_eq_true, decide_eq_true_eq, not_or] at h0
    split at h
    · exact nomatch h
    · have hcount := of_decide_eq_true h
      omega

/-! ### Where the log begins -/

theorem RaftLog.Spliced.start {l l' : RaftLog} {prev : ℕ} {ents : List LogEntry}
    (h : l.Spliced prev ents l') :
    l'.mem.base = l.mem.base ∧ l'.mem.snapshot = l.mem.snapshot := by
  cases h with
  | same => exact ⟨rfl, rfl⟩
  | wrote => exact ⟨rfl, rfl⟩

/-- Only a snapshot moves where the log begins. -/
theorem Reach.start_eq (hc : ∀ data, c ≠ .createSnapshot data)
    (hm : ∀ m, c = .step m → m.type ≠ .snapshotReq) (h : Reach c r r') :
    r'.log.mem.base = r.log.mem.base ∧ r'.log.mem.snapshot = r.log.mem.snapshot := by
  induction h with
  | refl => exact ⟨rfl, rfl⟩
  | tail _ he ih =>
    cases he.logChange with
    | same _ hs => exact ⟨hs.base.trans ih.1, hs.snapshot.trans ih.2⟩
    | extended e =>
      rw [extended_log]
      exact ih
    | followed m l committed _ _ hsp =>
      rw [(refreshedIfNeeded_reconf _ _).eq]
      exact ⟨hsp.start.1.trans ih.1, hsp.start.2.trans ih.2⟩
    | restored m snap mem hc' hty => exact absurd hty (hm m hc')
    | saved data term mem hc' => exact absurd hc' (hc data)
    | compacted upto mem data hc' => exact absurd hc' (hc data)

theorem RaftLog.matchTerm_congr {l l' : RaftLog} {i t : ℕ} (hb : l'.mem.base = l.mem.base)
    (he : l'.mem.ents = l.mem.ents) : l'.matchTerm i t = l.matchTerm i t := by
  obtain ⟨⟨⟨hs, base, ents, snap⟩, faults⟩, committed, applied⟩ := l
  obtain ⟨⟨⟨hs', base', ents', snap'⟩, faults'⟩, committed', applied'⟩ := l'
  cases hb
  cases he
  rfl

/-- A snapshot that arrives replaces a log that does not hold its last entry. -/
theorem RaftLog.saveSnapshot_trimmed {l : RaftLog} {snap : Snapshot} {mem : MemoryStorage}
    (hsave : l.mem.saveSnapshot snap = .ok mem) (hoff : l.mem.offset ≤ snap.lastIncludedIndex)
    (hnew : l.matchTerm snap.lastIncludedIndex snap.lastIncludedTerm = false) : mem.Trimmed := by
  obtain ⟨hlt, -, hsnap, hkept | hreplaced⟩ := saveSnapshot_ok hsave
  · obtain ⟨hle, hat, -⟩ := hkept
    have hterm : l.term snap.lastIncludedIndex = .ok snap.lastIncludedTerm := by
      rw [term, if_neg (by omega), MemoryStorage.term_ok hoff hle, hat]
      rfl
    rw [matchTerm, hterm] at hnew
    simp at hnew
  · rw [MemoryStorage.Trimmed, hreplaced.2.1, hsnap]

theorem Reach.trimmed_of_install {m : Message} (hty : m.type = .snapshotReq) (hr : r.Wf)
    (ht : r.log.mem.Trimmed) (h : Reach (.step m) r r')
    (hnew : ∀ snap, m.snapshot = some snap →
      r.log.matchTerm snap.lastIncludedIndex snap.lastIncludedTerm = false) :
    r'.log.mem.Trimmed ∧ r.stored ≤ r'.stored := by
  have hinv : r.SameLog r' ∨ (r'.log.mem.Trimmed ∧ r.stored ≤ r'.stored) ∧
      ∃ snap, m.snapshot = some snap ∧ snap.lastIncludedIndex ≤ r'.log.committed := by
    induction h with
    | refl => exact Or.inl ⟨rfl, rfl, rfl, rfl, rfl, le_rfl⟩
    | tail _ he ih =>
      cases he.logChange with
      | same _ hs =>
        rcases ih with ih | ⟨⟨htrim, hle⟩, snap, hsn, hcom⟩
        · exact Or.inl (ih.trans hs)
        · refine Or.inr ⟨?_, snap, hsn, hcom.trans hs.committed⟩
          rw [MemoryStorage.Trimmed, stored, stored, hs.base, hs.snapshot]
          exact ⟨htrim, hle⟩
      | extended e ha => simp [Call.appends, hty] at ha
      | followed m' _ _ hc hty' =>
        cases hc
        rw [hty] at hty'
        cases hty'
      | restored m' snap mem hc _ hsn hlt hsave =>
        cases hc
        -- a second snapshot would be the same one again
        rcases ih with ih | ⟨-, snap', hsn', hcom⟩
        · have hold := hnew snap hsn
          rw [← RaftLog.matchTerm_congr ih.base ih.ents] at hold
          have hoff := (hr.log.base_le.trans hr.log.snap_le).trans hr.log.applied_le
          have htrim : mem.Trimmed := RaftLog.saveSnapshot_trimmed hsave
            (by rw [MemoryStorage.offset, ih.base]; have := ih.committed; omega) hold
          obtain ⟨hlt', -, hsnap, -⟩ := RaftLog.saveSnapshot_ok hsave
          rw [(restored_reconf _ snap mem).eq, stored, stored]
          rw [ih.snapshot] at hlt'
          exact Or.inr ⟨⟨htrim, by rw [hsnap]; exact hlt'.le⟩, snap, hsn, le_rfl⟩
        · cases hsn.symm.trans hsn'
          omega
      | saved _ _ _ hc => cases hc
      | compacted _ _ _ hc => cases hc
  rcases hinv with hs | ⟨h, -⟩
  · rw [MemoryStorage.Trimmed, stored, stored, hs.base, hs.snapshot]
    exact ⟨ht, le_rfl⟩
  · exact h

/-- The call takes no snapshot, and brings none whose last entry the log holds. -/
def Call.Quiet (c : Call) (r : RawNode) : Prop :=
  (∀ data, c ≠ .createSnapshot data) ∧
    ∀ m snap, c = .step m → m.type = .snapshotReq → m.snapshot = some snap →
      r.log.matchTerm snap.lastIncludedIndex snap.lastIncludedTerm = false

theorem Reach.trimmed (h : Reach c r r') (hq : c.Quiet r) (hr : r.Wf) (ht : r.log.mem.Trimmed) :
    r'.log.mem.Trimmed ∧ r.stored ≤ r'.stored := by
  by_cases hm : ∀ m, c = .step m → m.type ≠ .snapshotReq
  · obtain ⟨hb, hs⟩ := h.start_eq hq.1 hm
    rw [MemoryStorage.Trimmed, stored, stored, hb, hs]
    exact ⟨ht, le_rfl⟩
  · push Not at hm
    obtain ⟨m, rfl, hty⟩ := hm
    exact h.trimmed_of_install hty hr ht fun snap => hq.2 m snap rfl hty

/-- A snapshot that is due is saved and the log is compacted up to it, or a write has failed. -/
theorem meets_createSnapshot_due {data : List UInt8} (hr : r.Wf)
    (hkeep : r.cfg.snapshotCatchUpEntries = 0) (hdue : r.stored < r.log.applied) :
    Meets (createSnapshot data) r
      (fun _ r' => r'.log.mem.Trimmed ∧ r'.stored = r.log.applied) fun e _ => e.Bare := by
  have h0 : r.log.applied ≠ 0 := by omega
  have hle : r.log.applied ≤ r.log.lastIndex := hr.log.applied_le.trans hr.log.committed_le
  obtain ⟨t, ht⟩ := RaftLog.term_ok (hr.log.base_le.trans hr.log.snap_le) hle
  rw [createSnapshot, meets_bind, meets_get]
  dsimp only
  rw [if_neg h0, ht]
  dsimp only
  rw [meets_bind, meets_mapFail]
  refine meets_onLog ?_
  rw [RaftLog.onDisk, meets_onPart]
  refine Disk.meets_write (fun mem faults hsave => ?_) fun e faults hcause => ?_
  · obtain ⟨hbase, hents⟩ : mem.base = r.log.mem.base ∧ mem.ents = r.log.mem.ents :=
      RaftLog.saveSnapshot_own h0 ht hsave
    obtain ⟨-, -, hsnap, -⟩ := RaftLog.saveSnapshot_ok hsave
    have hlt : mem.offset < r.log.applied := by
      rw [MemoryStorage.offset, hbase]
      exact lt_of_le_of_lt hr.log.base_le hdue
    have hin : mem.InOrder := by
      rw [MemoryStorage.InOrder, hbase, hents]
      exact hr.log.inOrder
    rw [if_neg (by omega), hkeep, if_neg (lt_irrefl 0), meets_bind, meets_get]
    split
    · rename_i hle'
      change r.log.applied ≤ mem.offset + 1 - 1 at hle'
      omega
    · rw [meets_bind, wrapping, meets_mapFail]
      refine meets_onLog ?_
      rw [RaftLog.compact, meets_bind, meets_get, if_neg (lt_irrefl r.log.applied), RaftLog.onDisk,
        meets_onPart]
      refine Disk.meets_write (fun mem' faults' hcomp => ?_) fun e faults' hcause => ?_
      · rcases MemoryStorage.compact_ok hin hcomp with ⟨hle', -⟩ | ⟨-, -, -, hsnap', hb, -⟩
        · omega
        · have hstored : mem'.snapshot.lastIncludedIndex = r.log.applied := by rw [hsnap', hsnap]
          exact ⟨hb.trans hstored.symm, hstored⟩
      · rcases hcause with hbare | hcause
        · exact ⟨_, rfl, hbare⟩
        · have hlast : r.log.applied ≤ mem.lastIndex := by
            rw [MemoryStorage.lastIndex, MemoryStorage.offset, hbase, hents]
            exact hle
          obtain ⟨mem', hmem'⟩ := MemoryStorage.compact_isOk hlast
          cases hmem'.symm.trans hcause
  · rcases hcause with hbare | hcause
    · dsimp only
      rw [if_neg (by rw [Error.is_of_bare hbare]; rintro ⟨⟩)]
      exact ⟨_, rfl, hbare⟩
    · let snap : Snapshot := ⟨r.log.applied, t, r.conf, data⟩
      have hnew : r.log.mem.snapshot.lastIncludedIndex < snap.lastIncludedIndex := hdue
      obtain ⟨mem, hmem⟩ := MemoryStorage.saveSnapshot_isOk hnew
      cases hmem.symm.trans hcause

/-- A snapshot that cannot be taken leaves the storage as it is, unless a write fails. -/
theorem meets_createSnapshot_failed {data : List UInt8} (hr : r.Wf) :
    Meets (createSnapshot data) r (fun _ _ => True) fun f r' =>
      (∃ err, f = .error err) ∧ (r'.log.mem = r.log.mem ∨ r'.faultsLeft < r.faultsLeft) := by
  have hlast : r.log.applied ≤ r.log.lastIndex := hr.log.applied_le.trans hr.log.committed_le
  rw [createSnapshot, meets_bind, meets_get]
  dsimp only
  split
  · exact ⟨⟨_, rfl⟩, .inl rfl⟩
  · rename_i h0
    split
    · exact ⟨⟨_, rfl⟩, .inl rfl⟩
    · rename_i term ht
      have herror : ∀ err : Error, ∃ err' : Error,
          (if err.is .snapshotOutOfDate then Fail.error err
            else .error (err.wrap s!"raft: saving snapshot at {r.log.applied}")) = .error err' := by
        intro err
        split <;> exact ⟨_, rfl⟩
      rw [meets_bind, meets_mapFail]
      cases hsave : r.log.mem.saveSnapshot ⟨r.log.applied, term, r.conf, data⟩ with
      | error e =>
        refine meets_onLog (RaftLog.meets_onDisk (fun mem faults h => ?_) fun e faults =>
          ⟨herror e, .inl rfl⟩)
        cases h.symm.trans hsave
      | ok mem =>
        obtain ⟨hbase, hents⟩ := RaftLog.saveSnapshot_own h0 ht hsave
        refine meets_onLog (RaftLog.meets_onDisk_write hsave (fun faults hleft => ?_)
          fun e faults he _ => ?_)
        · split
          · trivial
          · generalize hto : (if r.cfg.snapshotCatchUpEntries > 0 then
              r.log.applied - r.cfg.snapshotCatchUpEntries else r.log.applied) = compactTo
            have hle : compactTo ≤ r.log.applied := by
              rw [← hto]
              split <;> omega
            have hto : compactTo ≤ mem.lastIndex := by
              rw [MemoryStorage.lastIndex, MemoryStorage.offset, hbase, hents]
              exact hle.trans hlast
            obtain ⟨mem', hmem'⟩ := MemoryStorage.compact_isOk hto
            rw [meets_bind, meets_get]
            split
            · trivial
            · rw [meets_bind, wrapping, meets_mapFail]
              refine meets_onLog ?_
              rw [RaftLog.compact, meets_bind, meets_get, if_neg (not_lt.mpr hle)]
              refine RaftLog.meets_onDisk_write hmem' (fun _ _ => trivial) fun e faults' he hfault => ?_
              obtain ⟨err, herr, -⟩ := he.wrap s!"raft: compacting to {compactTo}"
              exact ⟨⟨err, herr⟩, .inr ((Disk.faultsLeft_lt hfault mem).trans_eq hleft)⟩
        · obtain ⟨err, rfl, -⟩ := he
          exact ⟨herror err, .inl rfl⟩

/-- A call that fails leaves the log where it begins, unless it takes a snapshot. -/
theorem trimmed_of_error {f : Fail} (hr : r.Wf) (hq : c.Quiet r) (ht : r.log.mem.Trimmed)
    (h : c.run r = .error f r') : r'.log.mem.Trimmed := by
  have hrun := (c.meets_run hr).error h
  split at hrun
  · obtain ⟨r₁, hreach, hmem, -⟩ := hrun
    exact hmem ▸ (hreach.trimmed hq hr ht).1
  · exact (Reach.trimmed hrun hq hr ht).1

end RaftStore.Raft

namespace RaftStore.Loop

open Lib Raft RawNode

variable {σ ρ : Type}

/-- The applied indexes at which the state machine was captured. -/
def captures (calls : List (AppCall ρ)) : List ℕ :=
  calls.filterMap fun
    | .createSnapshot applied _ => some applied
    | _ => none

/-- The event brings no snapshot whose last entry the log holds. -/
def Event.unmatched (r : RawNode) : Event → Bool
  | .message m =>
    match m.snapshot with
    | none => true
    | some snap => m.type != .snapshotReq ||
        !r.log.matchTerm snap.lastIncludedIndex snap.lastIncludedTerm
  | _ => true

/-- No write fails in the flush after the event has been handled; whatever else may fail. -/
def Node.flushes (sm : StateMachine σ ρ) (n : Node σ ρ) (e : Event) (faults : List Bool) : Bool :=
  match handle e (n.withFaults faults) with
  | .ok _ n₁ => !decide (WriteFails (flush sm) n₁)
  | .error _ _ => true

/-- Compaction keeps no entries behind a snapshot, no snapshot arrives whose last entry the log
holds, and no write fails in a flush. -/
def undisturbed (sm : StateMachine σ ρ) : Proc σ ρ → Happening → Bool
  | _, .start cfg => cfg.snapshotCatchUpEntries = 0
  | .up n, .event e faults => e.unmatched n.rn && n.flushes sm e faults
  | _, _ => true

/-- The log begins right behind its snapshot, now and at every moment before; and the captures of
the process lie the threshold apart, counted from the snapshot that it started with. -/
structure Spaced (n : Node σ ρ) : Prop where
  wf : n.rn.Wf
  keep : n.rn.cfg.snapshotCatchUpEntries = 0
  trimmed : n.rn.log.mem.Trimmed
  past : ∀ r ∈ n.trace, r.log.mem.Trimmed
  apart : ∃ s, n.trace.head?.map stored = some s ∧
    (s :: captures n.calls).Pairwise (fun i j => i + n.rn.cfg.snapshotThreshold ≤ j) ∧
    ∀ i ∈ s :: captures n.calls, i ≤ n.rn.stored

section

variable {sm : StateMachine σ ρ} {e : Event} {n n' : Node σ ρ} {c : Call}

theorem captures_append (calls ext : List (AppCall ρ)) :
    captures (calls ++ ext) = captures calls ++ captures ext :=
  List.filterMap_append

/-- The process goes on from a core whose log still begins right behind its snapshot. -/
theorem Spaced.after (h : Spaced n) (hr : n'.rn.Wf) (hcfg : n'.rn.cfg = n.rn.cfg)
    (ht : n'.rn.log.mem.Trimmed) (htrace : n'.trace = n.trace ++ [n'.rn]) {ext : List ℕ}
    (hcap : captures n'.calls = captures n.calls ++ ext)
    (hle : n.rn.stored ≤ n'.rn.stored)
    (hext : ext = [] ∨ ext = [n'.rn.stored] ∧
      n.rn.stored + n.rn.cfg.snapshotThreshold ≤ n'.rn.stored) : Spaced n' := by
  obtain ⟨s, hs, hapart, hbound⟩ := h.apart
  refine ⟨hr, hcfg ▸ h.keep, ht, fun r hm => ?_, s, ?_, ?_, ?_⟩
  · rw [htrace] at hm
    rcases List.mem_append.mp hm with hm | hm
    · exact h.past r hm
    · rw [List.mem_singleton.mp hm]
      exact ht
  · rw [htrace, List.head?_append]
    cases hh : n.trace.head? with
    | none => rw [hh] at hs; exact nomatch hs
    | some r => rw [hh] at hs; exact hs
  · rw [hcap, hcfg, ← List.cons_append, List.pairwise_append]
    refine ⟨hapart, ?_, fun i hi j hj => ?_⟩
    · rcases hext with rfl | ⟨rfl, -⟩
      · exact .nil
      · exact List.pairwise_singleton _ _
    · rcases hext with rfl | ⟨rfl, hdue⟩
      · exact nomatch hj
      · rw [List.mem_singleton.mp hj]
        have := hbound i hi
        omega
  · intro i hi
    rw [hcap, ← List.cons_append] at hi
    rcases List.mem_append.mp hi with hi | hi
    · exact (hbound i hi).trans hle
    · rcases hext with rfl | ⟨rfl, -⟩
      · exact nomatch hi
      · exact (List.mem_singleton.mp hi).le

theorem Spaced.goes (h : Spaced n) (hg : Goes c n.rn n'.rn) (hq : c.Quiet n.rn)
    (htrace : n'.trace = n.trace ++ [n'.rn]) (hcap : captures n'.calls = captures n.calls) :
    Spaced n' := by
  have hreach := hg.reach h.wf
  obtain ⟨ht, hle⟩ := hreach.trimmed hq h.wf h.trimmed
  exact h.after (hreach.wf h.wf) hreach.sameProcess.cfg ht htrace
    (hcap.trans (List.append_nil _).symm) hle (Or.inl rfl)

theorem Spaced.same (h : Spaced n) (hrn : n'.rn = n.rn) (htrace : n'.trace = n.trace)
    (hcap : captures n'.calls = captures n.calls) : Spaced n' := by
  refine ⟨hrn ▸ h.wf, hrn ▸ h.keep, hrn ▸ h.trimmed, htrace ▸ h.past, ?_⟩
  rw [hrn, htrace, hcap]
  exact h.apart

theorem Spaced.withFaults (h : Spaced n) (faults : List Bool) : Spaced (n.withFaults faults) :=
  ⟨(reach_withFaults (c := .tick) n.rn faults).wf h.wf, h.keep, h.trimmed, h.past, h.apart⟩

theorem Event.quiet {readSeq : UInt64} {r : RawNode} (he : e.unmatched r = true)
    (hc : e.call? readSeq = some c) : c.Quiet r := by
  refine ⟨fun data heq => ?_, fun m snap heq hty hsn => ?_⟩ <;> subst heq
  · cases e <;> exact nomatch hc
  · cases e <;> cases hc
    simpa [Event.unmatched, hsn, hty] using he

theorem Spaced.taken (h : Spaced n) (ht : Taken n e n') (he : e.unmatched n.rn = true) :
    Spaced n' := by
  have hcap : captures n'.calls = captures n.calls := by cases ht <;> rfl
  rcases ht.ran with ⟨hrn, htrace⟩ | ⟨c, hc, hg, htrace⟩
  · exact h.same hrn htrace hcap
  · exact h.goes hg (Event.quiet he hc) htrace hcap

theorem quiet_of_flushing {r : RawNode} (hf : flushing c = true)
    (hc : ∀ data, c ≠ .createSnapshot data) : c.Quiet r := by
  refine ⟨hc, fun m snap heq => ?_⟩
  subst heq
  exact nomatch hf

theorem Applies.captures_eq {es : List LogEntry} (h : Applies sm n es n') :
    captures n'.calls = captures n.calls := by
  induction h with
  | nil => rfl
  | normal response app _ _ _ ih =>
    rw [ih, Node.resolve_eq, Node.told, captures_append]
    exact List.append_nil _
  | other _ _ ih => rw [ih, Node.resolve_eq]

/-- A snapshot that is due is not out of date. -/
theorem Spaced.not_outdated {data : List UInt8} {err : Error} {r : RawNode} (h : Spaced n)
    (hr : createSnapshot data n.rn = .error (.error err) r) (hdue : n.rn.shouldSnapshot = true)
    (his : (err.is .nothingToSnapshot || err.is .snapshotOutOfDate) = true) : False := by
  obtain ⟨hpos, hdue⟩ := due_of_shouldSnapshot h.trimmed hdue
  obtain ⟨_, heq, hbare⟩ := (meets_createSnapshot_due h.wf h.keep (by omega)).error hr
  cases heq
  rw [Error.is_of_bare hbare, Error.is_of_bare hbare] at his
  cases his

theorem Spaced.move (h : Spaced n) (hm : Move sm n n') : Spaced n' := by
  cases hm with
  | release => exact h.goes (goes_messages n.rn) (quiet_of_flushing rfl (by rintro _ ⟨⟩)) rfl rfl
  | answer =>
    rw [Node.answered, Node.foldl_resolveRead_eq]
    exact h.goes (goes_readStates n.rn) (quiet_of_flushing rfl (by rintro _ ⟨⟩)) rfl rfl
  | look => exact h.goes (goes_snapshotToApply n.rn) (quiet_of_flushing rfl (by rintro _ ⟨⟩)) rfl rfl
  | restore s snap app =>
    refine h.goes (goes_snapshotToApply n.rn) (quiet_of_flushing rfl (by rintro _ ⟨⟩)) rfl ?_
    exact (captures_append _ _).trans (List.append_nil _)
  | batch entries last n₁ r _ _ _ ha hr =>
    obtain ⟨hrn, -, htrace⟩ := ha.frame
    rw [hrn] at hr
    exact h.goes (c := .applyTo last.index) (goes_of_ok hr) (quiet_of_flushing rfl (by rintro _ ⟨⟩))
      (by rw [Node.called, htrace]) ha.captures_eq
  | capture s data snap r _ _ _ hr hdue =>
    obtain ⟨hpos, hdue⟩ := due_of_shouldSnapshot h.trimmed hdue
    obtain ⟨ht, hstored⟩ := (meets_createSnapshot_due h.wf h.keep (by omega)).ok hr
    have hgoes : Goes (.createSnapshot data) n.rn r := goes_of_ok (run_ok hr)
    have hreach := hgoes.reach h.wf
    have hext : [n.rn.log.applied] = [r.stored] ∧
        n.rn.stored + n.rn.cfg.snapshotThreshold ≤ r.stored := ⟨by rw [hstored], by omega⟩
    exact h.after (hreach.wf h.wf) hreach.sameProcess.cfg ht rfl (captures_append _ _)
      (show n.rn.stored ≤ r.stored by omega) (Or.inr hext)
  | uncaptured s data err r _ _ _ hr hdue his => exact (h.not_outdated hr hdue his).elim
  | note =>
    rw [Node.noteRole_eq]
    exact h.same rfl rfl rfl

theorem Spaced.moves (h : Spaced n) (hm : Moves sm n n') : Spaced n' := by
  induction hm with
  | refl => exact h
  | tail _ hm ih => exact ih.move hm

theorem start_spaced {app : σ} {cfg : Config} {st : MemoryStorage} (hst : st.OK) (ht : st.Trimmed)
    (hkeep : cfg.snapshotCatchUpEntries = 0) (h : start sm app cfg st = .ok n) : Spaced n := by
  obtain ⟨cfg', rn, app', calls, hcfg, hnew, rfl, hcalls⟩ := start_ok h
  have hstarted := started_of_new hnew
  have hmem : rn.log.mem = st := by rw [hstarted.log]; rfl
  have hcap : captures calls = [] := by rcases hcalls with ⟨-, rfl⟩ | rfl <;> rfl
  refine ⟨hstarted.wf hst, ?_, hmem ▸ ht, fun r hr => ?_, rn.stored, rfl, ?_, ?_⟩
  · rw [Config.withDefaults] at hcfg
    split at hcfg
    · exact nomatch hcfg
    · cases hcfg
      change rn.cfg.snapshotCatchUpEntries = 0
      rw [hstarted.cfg_eq]
      exact hkeep
  · rw [List.mem_singleton.mp hr, hmem]
    exact ht
  · rw [hcap]
    exact List.pairwise_singleton _ _
  · rw [hcap]
    intro i hi
    exact (List.mem_singleton.mp hi).le

/-- Nothing is lost of the faults while the process makes its moves. -/
theorem Spaced.move_faults (h : Spaced n) (hm : Move sm n n') :
    n'.rn.faultsLeft = n.rn.faultsLeft := by
  cases hm with
  | release => rfl
  | answer =>
    rw [Node.answered, Node.foldl_resolveRead_eq]
    rfl
  | look => rfl
  | restore s snap app => rfl
  | batch entries last n₁ r _ _ _ ha hr =>
    obtain ⟨hrn, -, -⟩ := ha.frame
    rw [hrn] at hr
    have happly : Meets (Raft.applyTo last.index) n.rn
        (fun _ r' => r'.faultsLeft = n.rn.faultsLeft) fun _ _ => True := by
      refine meets_onLog ?_
      rw [RaftLog.appliedTo, meets_bind, meets_get]
      split
      · trivial
      · split
        · trivial
        · rfl
    exact happly.ok hr
  | capture s data snap r _ _ _ hr => exact (reports_createSnapshot.ok hr).faults
  | uncaptured s data err r _ _ _ hr hdue his => exact (h.not_outdated hr hdue his).elim
  | note =>
    rw [Node.noteRole_eq]

theorem Spaced.moves_faults (h : Spaced n) (hm : Moves sm n n') :
    n'.rn.faultsLeft = n.rn.faultsLeft := by
  induction hm with
  | refl => rfl
  | tail hm hmove ih => exact ((h.moves hm).move_faults hmove).trans ih

/-- What fails in a turn leaves the log where it begins, unless it is a write of the flush. -/
theorem Failing.trimmed {f : Fail} (h : Failing sm e n f n') (hs : Spaced n)
    (he : e.unmatched n.rn = true)
    (hcap : sm.snapshotter = none ∨ ¬n'.rn.faultsLeft < n.rn.faultsLeft) :
    n'.rn.log.mem.Trimmed := by
  cases h with
  | idle err => exact hs.trimmed
  | tick err err' r heq hrun =>
    subst heq
    have hcall : Event.call? n.readSeq .tick = some .tick := rfl
    exact trimmed_of_error (c := .tick) hs.wf (Event.quiet he hcall) hs.trimmed hrun
  | step m err err' r heq hrun =>
    subst heq
    have hcall : Event.call? n.readSeq (.message m) = some (.step m) := rfl
    exact trimmed_of_error (c := .step m) hs.wf (Event.quiet he hcall) hs.trimmed hrun
  | restore snap err => exact hs.trimmed
  | batch done rest _ err _ _ ha => exact ha.frame.1 ▸ hs.trimmed
  | capture s data err err' r _ hsm _ hrun =>
    rcases hcap with hnone | hleft
    · cases hnone.symm.trans hsm
    · rcases ((meets_createSnapshot_failed hs.wf).error hrun).2 with hmem | hlt
      · change r.log.mem.Trimmed
        rw [hmem]
        exact hs.trimmed
      · exact absurd hlt hleft
  | panic c f₁ _ _ hc hpanics _ hrun =>
    refine trimmed_of_error hs.wf ?_ hs.trimmed hrun
    rcases hc with hc | hc
    · exact Event.quiet he hc
    · refine quiet_of_flushing hc ?_
      rintro data rfl
      -- Taking a snapshot does not panic.
      have hfails : Meets (Call.createSnapshot data).run n.rn (fun _ _ => True)
          fun f _ => ∃ err, f = .error err :=
        Meets.bind (Meets.mono (meets_createSnapshot_failed hs.wf) (fun _ _ _ => trivial)
          fun _ _ h => h.1)
      obtain ⟨err, rfl⟩ := hfails.error hrun
      cases hpanics

theorem Spaced.event {faults : List Bool} (h : Spaced n)
    (hu : undisturbed sm (.up n) (.event e faults) = true) :
    (Proc.after (n.run sm e faults)).Sat Spaced fun st => st.OK ∧ st.Trimmed := by
  obtain ⟨he, hflush⟩ := Bool.and_eq_true_iff.mp hu
  have h₀ := h.withFaults faults
  have hstop : ∀ f n₂, n₂.rn.log.mem.OK ∧ n₂.rn.log.mem.Trimmed →
      (Proc.after (Outcome.of (.error f n₂) : Outcome σ ρ)).Sat Spaced
        fun st => st.OK ∧ st.Trimmed := by
    rintro (_ | _ | _) n₂ h₂ <;> exact h₂
  rw [Node.run, turn_apply]
  rw [Node.flushes] at hflush
  cases hh : handle e (n.withFaults faults) with
  | error f n₁ =>
    -- Handling an event takes no snapshots, so that the state machine may as well have none.
    have hf := (meets_handle { sm with snapshotter := none } e (n.withFaults faults)).error hh
    exact hstop f n₁ ⟨hf.mem_ok h₀.wf, hf.trimmed h₀ he (.inl rfl)⟩
  | ok _ n₁ =>
    have h₁ := h₀.taken ((meets_handle sm e (n.withFaults faults)).ok hh) he
    dsimp only
    cases hfl : flush sm n₁ with
    | ok _ n₂ => exact h₁.moves ((meets_flush sm e h₁.wf).ok hfl).1
    | error f n₂ =>
      rw [hh] at hflush
      have hleft : ¬n₂.rn.faultsLeft < n₁.rn.faultsLeft := by
        intro hlt
        have hfails : WriteFails (flush sm) n₁ := by
          rw [WriteFails, Meets, hfl]
          exact hlt
        simp only [hfails, decide_true, Bool.not_true, Bool.false_eq_true] at hflush
      obtain ⟨n₃, hmoves, hf⟩ := (meets_flush sm .status h₁.wf).error hfl
      have h₃ := h₁.moves hmoves
      rw [← h₁.moves_faults hmoves] at hleft
      exact hstop _ n₂ ⟨hf.mem_ok h₃.wf, hf.trimmed h₃ rfl (.inr hleft)⟩

end

/-- Where compaction keeps no entries, no snapshot arrives whose last entry the log holds, and no
write fails in a flush, a snapshot is due only when as many entries as the threshold says have been
applied past the stored one; and the captures of a process lie that many entries apart, counted from
the snapshot that it started with. -/
theorem snapshots_spaced (sm : StateMachine σ ρ) (app : σ) {hs : List Happening} {n : Node σ ρ}
    (hu : (Proc.down {}).Allows sm app (fun p a => undisturbed sm p a = true) hs)
    (h : (Proc.down {}).run sm app hs = .up n) :
    (∀ r ∈ n.trace, r.shouldSnapshot = true →
      r.log.mem.snapshot.lastIncludedIndex + r.cfg.snapshotThreshold ≤ r.log.applied) ∧
    ∀ first ∈ n.trace.head?,
      (first.log.mem.snapshot.lastIncludedIndex :: captures n.calls).Pairwise
        fun i j => i + n.rn.cfg.snapshotThreshold ≤ j := by
  have hinv : ((Proc.down {} : Proc σ ρ).run sm app hs).Sat Spaced fun st => st.OK ∧ st.Trimmed := by
    refine Proc.Sat.run (p := .down {}) ⟨.empty, rfl⟩ hu ?_ ?_ fun n hn => ⟨hn.wf.mem_ok, hn.trimmed⟩
    · intro cfg st n hu ⟨hst, ht⟩ hstart
      exact start_spaced hst ht (of_decide_eq_true hu) hstart
    · intro n e faults hu hn
      exact hn.event hu
  rw [h] at hinv
  refine ⟨fun r hr hdue => (due_of_shouldSnapshot (hinv.past r hr) hdue).2, fun first hf => ?_⟩
  obtain ⟨s, hs, hapart, -⟩ := hinv.apart
  rw [Option.mem_def.mp hf] at hs
  cases hs
  exact hapart

/-- The lives of a node that is its own cluster, with a threshold of two entries. -/
def spacedLives (keep : ℕ) : List Happening :=
  let cfg := { soloConfig with snapshotThreshold := 2, snapshotCatchUpEntries := keep }
  [.start cfg, .event .tick [], .event .tick [], .event (.propose [7]) [],
   .event (.propose [8]) [], .event (.propose [9]) []]

/-- The last proposal is refused because its write fails, which disturbs nothing. -/
theorem snapshots_spaced_solo :
    ∃ n : Node (List (List UInt8)) ℕ,
      (Proc.down {}).run scribe [] (spacedLives 0 ++ [.event (.propose [6]) [true]]) = .up n ∧
      captures n.calls = [2, 4] ∧
      (∀ r ∈ n.trace, r.shouldSnapshot = true →
        r.log.mem.snapshot.lastIncludedIndex + r.cfg.snapshotThreshold ≤ r.log.applied) ∧
      ∀ first ∈ n.trace.head?, (first.log.mem.snapshot.lastIncludedIndex :: [2, 4]).Pairwise
        fun i j => i + n.rn.cfg.snapshotThreshold ≤ j := by
  obtain ⟨n, hn, ht⟩ := Proc.exists_up
    (p := (Proc.down {}).run scribe [] (spacedLives 0 ++ [.event (.propose [6]) [true]]))
    (fun n => captures n.calls = [2, 4]) (by decide +kernel)
  have hcap : captures n.calls = [2, 4] := of_decide_eq_true ht
  obtain ⟨hdue, hapart⟩ := snapshots_spaced scribe [] (by decide +kernel) hn
  exact ⟨n, hn, hcap, hdue, hcap ▸ hapart⟩

/-- When compaction keeps as many entries as the threshold says, the state machine is captured at
every entry. -/
theorem snapshots_crowded :
    ∃ n : Node (List (List UInt8)) ℕ, (Proc.down {}).run scribe [] (spacedLives 2) = .up n ∧
      n.rn.cfg.snapshotThreshold = 2 ∧ captures n.calls = [2, 3, 4] ∧
      ∃ r ∈ n.trace, r.shouldSnapshot = true ∧
        ¬ r.log.mem.snapshot.lastIncludedIndex + r.cfg.snapshotThreshold ≤ r.log.applied := by
  obtain ⟨n, hn, ht⟩ := Proc.exists_up (p := (Proc.down {}).run scribe [] (spacedLives 2))
    (fun n => n.rn.cfg.snapshotThreshold = 2 ∧ captures n.calls = [2, 3, 4] ∧
      ∃ r ∈ n.trace, r.shouldSnapshot = true ∧
        ¬ r.log.mem.snapshot.lastIncludedIndex + r.cfg.snapshotThreshold ≤ r.log.applied)
    (by decide +kernel)
  exact ⟨n, hn, of_decide_eq_true ht⟩

end RaftStore.Loop
