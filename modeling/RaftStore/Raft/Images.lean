import RaftStore.Lib.Along
import RaftStore.Raft.ConfInForce
import RaftStore.Raft.Faults

/-! Where the snapshots of a node come from.  What a node keeps, sends or hands to the application
was taken from the application at its applied index, or was received. -/

namespace RaftStore.Raft

open Lib RawNode

/-- Every snapshot that the node keeps, sends or hands over satisfies `P`. -/
structure RawNode.Carries (P : Snapshot → Prop) (r : RawNode) : Prop where
  disk : r.log.mem.snapshot.isEmpty = false → P r.log.mem.snapshot
  msgs : ∀ m ∈ r.msgs, ∀ s, m.snapshot = some s → P s
  pending : ∀ s, r.appliedSnapshot = some s → P s

variable {α β : Type} {P : Snapshot → Prop} {c : Call} {r r' : RawNode}

theorem RawNode.Carries.imp {P' : Snapshot → Prop} (h : r.Carries P) (hP : ∀ s, P s → P' s) :
    r.Carries P' :=
  ⟨fun hne => hP _ (h.disk hne), fun m hm s hs => hP s (h.msgs m hm s hs),
    fun s hs => hP s (h.pending s hs)⟩

/-! ### The storage and the outbox -/

theorem Sendable.snapshot_eq {m : Message} (hm : Sendable c r m) {s : Snapshot}
    (hs : m.snapshot = some s) :
    s = r.log.mem.snapshot ∧ r.log.mem.snapshot.isEmpty = false := by
  cases hm with
  | snapshot dest pr hp hne => exact ⟨(Option.some.inj hs).symm, hne⟩
  | _ => exact nomatch hs

theorem RaftLog.Spliced.snapshot {l l' : RaftLog} {prev : ℕ} {ents : List LogEntry}
    (h : l.Spliced prev ents l') : l'.mem.snapshot = l.mem.snapshot := by
  cases h with
  | same => rfl
  | wrote => rfl

/-- A call that takes no snapshot keeps the storage's, or installs the one that it was sent. -/
theorem LogChange.snapshot (h : LogChange c r r') (hc : ∀ data, c ≠ .createSnapshot data) :
    r'.log.mem.snapshot = r.log.mem.snapshot ∨
      ∃ m, c = .step m ∧ m.snapshot = some r'.log.mem.snapshot := by
  cases h with
  | same _ h => exact Or.inl h.snapshot
  | extended e =>
    rw [extended_log]
    exact Or.inl rfl
  | followed m l committed _ _ hsp =>
    rw [(refreshedIfNeeded_reconf _ _).eq]
    exact Or.inl hsp.snapshot
  | restored m snap mem hm _ hsn _ hsave =>
    rw [(restored_log ..).1, (RaftLog.saveSnapshot_ok hsave).2.2.1]
    exact Or.inr ⟨m, hm, hsn⟩
  | saved data _ _ hd => exact absurd hd (hc data)
  | compacted _ _ data hd => exact absurd hd (hc data)

/-- What is kept and sent is what was kept and sent before, or what was received. -/
theorem Reach.stores (h : Reach c r r') (hc : ∀ data, c ≠ .createSnapshot data)
    (hm : ∀ m s, c = .step m → m.snapshot = some s → P s)
    (hdisk : r.log.mem.snapshot.isEmpty = false → P r.log.mem.snapshot)
    (hmsgs : ∀ m ∈ r.msgs, ∀ s, m.snapshot = some s → P s) :
    (r'.log.mem.snapshot.isEmpty = false → P r'.log.mem.snapshot) ∧
      ∀ m ∈ r'.msgs, ∀ s, m.snapshot = some s → P s := by
  induction h with
  | refl => exact ⟨hdisk, hmsgs⟩
  | tail _ he ih =>
    obtain ⟨hdisk, hmsgs⟩ := ih
    refine ⟨fun hne => ?_, he.outbox.msgs hmsgs fun m hsend s hs => ?_⟩
    · rcases he.logChange.snapshot hc with heq | ⟨m, hstep, hsn⟩
      · rw [heq] at hne ⊢
        exact hdisk hne
      · exact hm m _ hstep hsn
    · obtain ⟨rfl, hne⟩ := hsend.snapshot_eq hs
      exact hdisk hne

/-! ### The application -/

/-- No snapshot is handed over but the one of the message. -/
def HandsOver (m : Message) (r r' : RawNode) : Prop :=
  r'.appliedSnapshot = r.appliedSnapshot ∨ r'.appliedSnapshot = m.snapshot

instance (m : Message) : IsPreorder RawNode (HandsOver m) where
  refl _ := Or.inl rfl
  trans _ _ _ h h' := h'.elim (fun h' => h.imp h'.trans h'.trans) Or.inr

theorem Reports.handsOver {m : Message} {x : Core α} (h : Reports x r) : Along (HandsOver m) x r :=
  Meets.mono h (fun _ _ h => Or.inl h.snapshot) fun _ _ h => Or.inl h.2.1

theorem handsOver_handleSnapshotRequest {m : Message} :
    Along (HandsOver m) (handleSnapshotRequest m) r := by
  refine .bind (Reports.modify (steady_hear m)).handsOver fun _ r1 => ?_
  split
  · exact .throw _
  · rename_i snap hsnap
    refine .get_bind ?_
    split
    · exact Or.inl rfl
    · refine Along.bind ?_ fun installed _ => ?_
      · refine .tryCatch (.bind (.onPart fun _ => Or.inl rfl) fun _ _ => .pure _) fun e _ _ => ?_
        cases e with
        | error e =>
          dsimp only
          split
          · refine .bind ?_ fun _ _ => .pure _
            exact (Reports.modify (.of_log rfl rfl)).handsOver
          · exact .throw _
        | panic text => exact .throw _
        | outOfFuel => exact .throw _
      · split
        · exact .pure _
        · refine .bind (Reports.modify ?_).handsOver fun _ _ => ?_
          · split
            · exact steady_setConfiguration _ _
            · exact .refl _
          · refine .bind (Or.inr hsnap.symm) fun _ _ => Reports.handsOver ?_
            exact Reports.bind reports_persistHardState fun _ _ => Reports.modify (.of_log rfl rfl)

theorem handsOver_step {m : Message} : Along (HandsOver m) (step m) r := by
  have hdispatch : ∀ r, Along (HandsOver m) (dispatch m) r := by
    intro r
    rw [dispatch]
    split
    · exact reports_handleVoteRequest.handsOver
    · exact reports_handleVoteResponse.handsOver
    · exact reports_handleAppendRequest.handsOver
    · exact reports_handleAppendResponse.handsOver
    · exact handsOver_handleSnapshotRequest
    · exact reports_handleSnapshotResponse.handsOver
    · exact .throw _
  refine .get_bind ?_
  split
  · exact .throw _
  · split
    · exact Along.bind reports_stepHigherTerm.handsOver fun _ r1 => hdispatch r1
    · split
      · refine Reports.handsOver (Reports.get_bind (Reports.set_bind ?_ (Reports.throw _)))
        split
        · exact .of_log rfl rfl
        · exact .of_log rfl rfl
        · exact .of_log rfl rfl
        · exact .refl r
      · exact hdispatch r

/-! ### Taking a snapshot -/

/-- Nothing but the storage has changed, and its snapshot at most to one of `data` at the applied
index. -/
def Takes (data : List UInt8) (r r' : RawNode) : Prop :=
  ∃ d : Disk, r' = { r with log := { r.log with storage := d } } ∧
    (d.mem.snapshot = r.log.mem.snapshot ∨
      ∃ term, d.mem.snapshot = ⟨r.log.applied, term, r.conf, data⟩)

theorem MemoryStorage.compact_snapshot {m m' : MemoryStorage} {upto : ℕ}
    (h : m.compact upto = .ok m') : m'.snapshot = m.snapshot := by
  rw [MemoryStorage.compact] at h
  split at h
  · cases h
    rfl
  · split at h
    · cases h
    · cases h
      rfl

theorem meets_createSnapshot (data : List UInt8) (r : RawNode) :
    Meets (createSnapshot data) r (fun _ r' => Takes data r r') fun _ r' => Takes data r r' := by
  have hnone : Takes data r r := ⟨r.log.storage, rfl, Or.inl rfl⟩
  rw [createSnapshot, meets_bind, meets_get]
  dsimp only
  split
  · exact hnone
  · split
    · exact hnone
    · rename_i term _
      rw [meets_bind, meets_mapFail, onLog, meets_onPart]
      refine RaftLog.meets_onDisk (fun mem faults hsave => ?_) fun _ faults => ?_
      · -- a compaction that follows keeps the snapshot just written
        have htaken : ∀ (mem' : MemoryStorage) (faults' : List Bool), mem'.snapshot = mem.snapshot →
            Takes data r { r with log := { r.log with storage := ⟨mem', faults'⟩ } } := by
          intro mem' faults' h
          refine ⟨⟨mem', faults'⟩, rfl, Or.inr ⟨term, ?_⟩⟩
          exact h.trans (RaftLog.saveSnapshot_ok hsave).2.2.1
        split
        · exact htaken mem faults rfl
        · generalize (if r.cfg.snapshotCatchUpEntries > 0 then
            r.log.applied - r.cfg.snapshotCatchUpEntries else r.log.applied) = compactTo
          rw [meets_bind, meets_get]
          split
          · exact htaken mem faults rfl
          · rw [meets_bind, wrapping, meets_mapFail, onLog, meets_onPart, RaftLog.compact, meets_bind,
              meets_get]
            split
            · exact htaken mem faults rfl
            · refine RaftLog.meets_onDisk (fun mem' faults' h => ?_) fun _ faults' => ?_
              · exact htaken mem' faults' (MemoryStorage.compact_snapshot h)
              · exact htaken mem faults' rfl
      · exact ⟨⟨r.log.mem, faults⟩, rfl, Or.inl rfl⟩

theorem Takes.carries {data : List UInt8} (h : Takes data r r') (hr : r.Carries P)
    (hP : ∀ term, P ⟨r.log.applied, term, r.conf, data⟩) : r'.Carries P := by
  obtain ⟨d, rfl, hd⟩ := h
  refine ⟨fun hne => ?_, hr.msgs, hr.pending⟩
  change d.mem.snapshot.isEmpty = false at hne
  change P d.mem.snapshot
  rcases hd with hd | ⟨term, hd⟩
  · rw [hd] at hne ⊢
    exact hr.disk hne
  · rw [hd]
    exact hP term

/-! ### Calls -/

/-- What a call hands over: nothing new, nothing any more, or the snapshot of the message that it
handles. -/
theorem Call.pending (c : Call) (r : RawNode) :
    Meets c.run r
      (fun _ r' => r'.appliedSnapshot = r.appliedSnapshot ∨ r'.appliedSnapshot = none ∨
        ∃ m, c = .step m ∧ r'.appliedSnapshot = m.snapshot)
      fun _ r' => r'.appliedSnapshot = r.appliedSnapshot ∨ r'.appliedSnapshot = none ∨
        ∃ m, c = .step m ∧ r'.appliedSnapshot = m.snapshot := by
  have hsame : ∀ {α : Type} {x : Core α}, Reports x r →
      Meets x r (fun _ r' => r'.appliedSnapshot = r.appliedSnapshot) fun _ r' =>
        r'.appliedSnapshot = r.appliedSnapshot :=
    fun h => Meets.mono h (fun _ _ h => h.snapshot) fun _ _ h => h.2.1
  have hkeep : ∀ {x : Core Unit}, Reports x r →
      Meets x r
        (fun _ r' => r'.appliedSnapshot = r.appliedSnapshot ∨ r'.appliedSnapshot = none ∨
          ∃ m, c = .step m ∧ r'.appliedSnapshot = m.snapshot)
        fun _ r' => r'.appliedSnapshot = r.appliedSnapshot ∨ r'.appliedSnapshot = none ∨
          ∃ m, c = .step m ∧ r'.appliedSnapshot = m.snapshot :=
    fun h => Meets.mono (hsame h) (fun _ _ h => Or.inl h) fun _ _ h => Or.inl h
  cases c with
  | tick => exact hkeep reports_tick
  | step m =>
    refine Meets.mono (handsOver_step : Along (HandsOver m) (Raft.step m) r) (fun _ _ h => ?_) fun _ _ h => ?_
    · exact h.imp_right fun h => Or.inr ⟨m, rfl, h⟩
    · exact h.imp_right fun h => Or.inr ⟨m, rfl, h⟩
  | propose cmd => exact hkeep (Reports.bind reports_propose fun _ _ => Reports.pure _)
  | proposeConfChange target =>
    exact hkeep (Reports.bind reports_proposeConfChange fun _ _ => Reports.pure _)
  | readIndex id => exact hkeep reports_readIndex
  | readStates => exact Or.inl rfl
  | messages => exact Or.inl rfl
  | applyTo i =>
    rw [Call.run, Raft.applyTo, onLog, meets_onPart, meets_iff]
    exact ⟨fun _ _ _ => Or.inl rfl, fun _ _ _ => Or.inl rfl⟩
  | createSnapshot data => exact hkeep (Reports.bind reports_createSnapshot fun _ _ => Reports.pure _)
  | snapshotToApply => exact Or.inr (Or.inl rfl)
  | campaign => exact hkeep (Reports.get_bind (reports_campaignN 2))

/-- A call on a node carries on with what satisfies `P`, if what it is given does. -/
theorem RawNode.Carries.call (h : r.Carries P) (hr : r.Wf)
    (hstep : ∀ m s, c = .step m → m.snapshot = some s → P s)
    (htake : ∀ data term, c = .createSnapshot data → P ⟨r.log.applied, term, r.conf, data⟩) :
    Meets c.run r (fun _ r' => r'.Carries P) fun e r' => c.stops e = false → r'.Carries P := by
  by_cases hc : ∃ data, c = .createSnapshot data
  · obtain ⟨data, rfl⟩ := hc
    have hP : ∀ term, P ⟨r.log.applied, term, r.conf, data⟩ := fun term => htake data term rfl
    exact Meets.bind (Meets.mono (meets_createSnapshot data r) (fun _ _ ht => ht.carries h hP)
      fun _ _ ht _ => ht.carries h hP)
  · have hc' : ∀ data, c ≠ .createSnapshot data := fun data h => hc ⟨data, h⟩
    have hkept : ∀ r', Reach c r r' →
        (r'.appliedSnapshot = r.appliedSnapshot ∨ r'.appliedSnapshot = none ∨
          ∃ m, c = .step m ∧ r'.appliedSnapshot = m.snapshot) → r'.Carries P := by
      intro r' hreach hp
      obtain ⟨hdisk, hmsgs⟩ := hreach.stores hc' hstep h.disk h.msgs
      refine ⟨hdisk, hmsgs, fun s hs => ?_⟩
      rcases hp with hp | hp | ⟨m, hm, hp⟩
      · exact h.pending s (hp ▸ hs)
      · rw [hp] at hs
        cases hs
      · exact hstep m s hm (hp ▸ hs)
    refine Meets.mono ((c.meets_run hr).and (c.pending r)) (fun _ r' h => hkept r' h.1 h.2)
      fun e r' h hstop => ?_
    rw [hstop, if_neg Bool.false_ne_true] at h
    exact hkept r' h.1 h.2

end RaftStore.Raft
