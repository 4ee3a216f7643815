import RaftStore.Node.Attending

/-! What a turn of a process keeps: each call on the core is a step of the cluster of cores, and what
the loop does with its result fits what is decided. -/

namespace RaftStore.Loop

open Lib Raft RawNode Consensus

variable {σ ρ ν : Type}

theorem write_returns (f : MemoryStorage → Except Error MemoryStorage) (d : Disk) :
    Meets (Disk.write f) d (fun _ _ => True) fun e _ => panics e = false := by
  refine meets_iff.mpr ⟨fun _ _ _ => trivial, fun e d' h => ?_⟩
  rw [Disk.write] at h
  split at h
  · cases h
    rfl
  · split at h <;> cases h
    rfl

/-- Taking a snapshot does not panic. -/
theorem createSnapshot_returns (data : List UInt8) (r : RawNode) :
    Meets (createSnapshot data) r (fun _ _ => True) fun f _ => panics f = false := by
  have hdisk : ∀ (f : MemoryStorage → Except Error MemoryStorage) (l : RaftLog),
      Meets (RaftLog.onDisk (Disk.write f)) l (fun _ _ => True) fun e _ => panics e = false :=
    fun f l => meets_onPart.mpr (write_returns f l.storage)
  rw [createSnapshot, meets_bind, meets_get]
  dsimp only
  split
  · rfl
  · split
    · rfl
    · rw [meets_bind, meets_mapFail, onLog, meets_onPart]
      refine Meets.mono (hdisk _ _) (fun _ l₁ _ => ?_) fun f l hf => ?_
      · split
        · trivial
        · generalize (if r.cfg.snapshotCatchUpEntries > 0 then
            r.log.applied - r.cfg.snapshotCatchUpEntries else r.log.applied) = compactTo
          rw [meets_bind, meets_get]
          split
          · trivial
          · rw [meets_bind, wrapping, meets_mapFail, onLog, meets_onPart, RaftLog.compact, meets_bind,
              meets_get]
            split
            · rfl
            · refine Meets.mono (hdisk _ _) (fun _ _ _ => trivial) fun f _ hf => ?_
              cases f with
              | error e => rfl
              | _ => cases hf
      · cases f with
        | error e =>
          dsimp only
          split <;> rfl
        | _ => cases hf

/-- If the event is a proposal, the core has come out of it as `r`. -/
def Proposed (n : Node σ ρ) (e : Event) (r : RawNode) : Prop :=
  ∀ cmd, e = .propose cmd → EndsIn ((Call.propose cmd).run n.rn) r

theorem handle_proposed (e : Event) (n : Node σ ρ) :
    Meets (handle e) n (fun _ n' => Proposed n e n'.rn) fun _ n' => Proposed n e n'.rn := by
  by_cases he : ∃ cmd, e = .propose cmd
  · obtain ⟨cmd, rfl⟩ := he
    rw [handle, handlePropose, meets_bind, meets_get]
    dsimp only
    rw [meets_bind, meets_set, meets_tryCatch, meets_bind, meets_onCore]
    refine ⟨fun i r hr => ?_, fun f r hr => ?_⟩
    · rintro _ ⟨⟩
      exact Or.inl (run_ok hr)
    · have hend : Proposed n (.propose cmd) r := by
        rintro _ ⟨⟩
        exact Or.inr ⟨f, run_error hr⟩
      cases f with
      | error err => exact hend
      | panic text => exact hend
      | outOfFuel => exact hend
  · exact meets_iff.mpr ⟨fun _ _ _ cmd h => absurd ⟨cmd, h⟩ he, fun _ _ _ cmd h => absurd ⟨cmd, h⟩ he⟩

/-- A turn that fails does so before it has taken its event, or in its flush. -/
theorem meets_turn_stages (sm : StateMachine σ ρ) (e : Event) {n : Node σ ρ} (hr : n.rn.Wf) :
    Meets (turn sm e) n
      (fun _ n' => ∃ n₁, Taken n e n₁ ∧ Proposed n e n₁.rn ∧ Moves sm n₁ n' ∧ n'.Settled)
      fun f n' => Failing sm e n f n' ∧ Proposed n e n'.rn ∨
        ∃ n₁ n₂, Taken n e n₁ ∧ Proposed n e n₁.rn ∧ Moves sm n₁ n₂ ∧ Failing sm .stop n₂ f n' := by
  rw [turn, meets_bind]
  refine Meets.mono (Meets.and (meets_handle sm e n) (handle_proposed e n)) (fun _ n₁ h₁ => ?_)
    fun f n' hf => Or.inl hf
  obtain ⟨ht, hp⟩ := h₁
  rw [during, meets_mapFail]
  refine Meets.mono (meets_flush sm .stop (ht.ran.wf hr)) (fun _ n' h' => ⟨n₁, ht, hp, h'⟩) ?_
  rintro f n' ⟨n₂, hm, hf⟩
  exact Or.inr ⟨n₁, n₂, ht, hp, hm, hf.fatal _⟩

theorem EndsIn.unique {x : EStateM.Result Fail RawNode Unit} {r r' : RawNode} (h : EndsIn x r)
    (h' : EndsIn x r') : r = r' := by
  rcases h with h | ⟨f, h⟩ <;> rcases h' with h' | ⟨f', h'⟩ <;> cases h.symm.trans h' <;> rfl

namespace Design

variable {D : Design σ ρ ν} {B : Register} {cl cl' : Cluster} {w w' : World NodeID LogEntry}
  {k : NodeID} {life : ℕ} {n n' : Node σ ρ} {c : Call} {st : MemoryStorage}

/-! ### Calls -/

/-- The core of the process in its cluster. -/
theorem Attended.node (h : D.Attended B cl w k life n) :
    ∃ faults, cl.node? k = some (n.rn.withFaults faults) := by
  obtain ⟨f, hf⟩ := h.slot
  exact ⟨f, Cluster.node?_eq_some.mpr hf⟩

/-- The cluster after a call of the process. -/
def made (cl : Cluster) (k : NodeID) (c : Call) (n : Node σ ρ) : Cluster :=
  cl.act k (.call c n.rn.log.storage.faults)

theorem Attended.slot_made (h : D.Attended B cl w k life n) (c : Call) :
    (made cl k c n).slot k = Slot.after c (c.run n.rn) := by
  obtain ⟨f, hf⟩ := h.slot
  simp only [made, Cluster.act, Function.update_self, hf]
  rfl

theorem starts_made (cl : Cluster) (k : NodeID) (c : Call) (n : Node σ ρ) :
    (made cl k c n).starts k = cl.starts k := by
  simp [made, Cluster.act, Cluster.startsAfter]

theorem Attended.reads_made (h : D.Attended B cl w k life n) (hc : ∀ id, c ≠ .readIndex id) :
    (made cl k c n).reads k = cl.reads k := by
  obtain ⟨f, hf⟩ := h.node
  rw [made, readsAfter_call hf]
  cases c with
  | readIndex id => exact absurd rfl (hc id)
  | _ => rfl

theorem Attended.net_made (h : D.Attended B cl w k life n) {m : Message} (hm : m ∈ n.rn.msgs) :
    m ∈ (made cl k .messages n).net := by
  obtain ⟨f, hf⟩ := h.slot
  refine List.mem_append_right _ ?_
  rw [hf]
  exact hm

theorem Attended.acts (h : D.Attended B cl w k life n) (hst : D.Stage B cl w)
    (hc : Cluster.readCalls cl k c) : ∃ w', D.Course B k cl w (made cl k c n) w' := by
  refine hst.act hc fun r hr m hm => ?_
  obtain ⟨f, hf⟩ := h.node
  cases hf.symm.trans hr
  exact h.clean.msgs hm

/-- What the process may hand to its core. -/
structure Handing (D : Design σ ρ ν) (B : Register) (w : World NodeID LogEntry) (n : Node σ ρ)
    (c : Call) : Prop where
  own : ∀ cmd r', c = .propose cmd → EndsIn (c.run n.rn) r' → n.rn.ownOf cmd ∈ r'.log.mem.ents →
    B.entry (n.rn.ownOf cmd)
  image : ∀ data term, c = .createSnapshot data →
    D.IsImage B w ⟨n.rn.log.applied, term, n.rn.conf, data⟩

theorem Attended.cleanCall (h : D.Attended B cl w k life n) (hst : D.Stage B cl w)
    (hB : B.Regular D.P) (hc : Cluster.readCalls cl k c) (hh : Handing D B w n c) :
    Meets c.run n.rn (fun _ r' => r'.Clean B.entry (D.IsImage B w)) fun f r' =>
      (c.stops f = false → r'.Clean B.entry (D.IsImage B w)) ∧
        r'.log.mem.Clean B.entry (D.IsImage B w) := by
  refine h.clean.call h.applying.wf hB.other ?_ hh.own hh.image
  rintro m rfl
  exact hst.net m hc

/-- The process has made a call after which its core still runs. -/
theorem Attended.call (h : D.Attended B cl w k life n) (hst : D.Stage B cl w) (hB : B.Regular D.P)
    (hc : Cluster.readCalls cl k c) (hh : Handing D B w n c) (hg : Goes c n.rn n'.rn)
    (hap : Applying n') (hids : ∀ id ∈ (made cl k c n).reads k, id.toNat ≤ n'.asked)
    (hseq : n'.readSeq.toNat = n'.asked)
    (hsent : n'.sent = n.sent ∨ c = .messages ∧ n'.sent = n.sent ++ n.rn.msgs)
    (happ : n'.rn.appliedSnapshot = none → D.Shows B w n'.rn.log.applied (D.view n'.app))
    (hw : ∀ w', D.Course B k cl w (made cl k c n) w' →
      (made cl k c n).node? k = some n'.rn → D.Writes B w' k life n')
    (hr : ∀ w', D.Course B k cl w (made cl k c n) w' →
      D.Reads B (made cl k c n) w' k life n') :
    ∃ cl' w', D.Course B k cl w cl' w' ∧ D.Attended B cl' w' k life n' := by
  obtain ⟨w', hcourse⟩ := h.acts hst hc
  have hslot := h.slot_made c
  rw [Goes] at hg
  have hclean : n'.rn.Clean B.entry (D.IsImage B w) := by
    have hcall := h.cleanCall hst hB hc hh
    cases hx : c.run n.rn with
    | ok _ r =>
      rw [hx] at hg
      cases hg
      exact hcall.ok hx
    | error f r =>
      rw [hx, Slot.after] at hg
      split at hg
      · cases hg
      · rename_i hf
        cases hg
        exact (hcall.error hx).1 (by simpa using hf)
  rw [hg] at hslot
  refine ⟨_, w', hcourse, ⟨n'.rn.log.storage.faults, hslot⟩, hids, hseq, fun m hm => ?_, hap,
    clean_later hclean (.refl B) hcourse.later, fun hnone => (happ hnone).mono (.refl B) hcourse.later,
    hw w' hcourse (Cluster.node?_eq_some.mpr hslot), hr w' hcourse⟩
  rcases hsent with hsent | ⟨rfl, hsent⟩ <;> rw [hsent] at hm
  · exact hcourse.net m (h.sent m hm)
  · rcases List.mem_append.mp hm with hm | hm
    · exact hcourse.net m (h.sent m hm)
    · exact h.net_made hm

/-- A call that is no read and leaves the numbering of the reads alone. -/
theorem Attended.call_of (h : D.Attended B cl w k life n) (hst : D.Stage B cl w) (hB : B.Regular D.P)
    (hc : Cluster.readCalls cl k c) (hno : ∀ id, c ≠ .readIndex id) (hh : Handing D B w n c)
    (hg : Goes c n.rn n'.rn) (hap : Applying n') (hasked : n'.asked = n.asked)
    (hseq : n'.readSeq = n.readSeq)
    (hsent : n'.sent = n.sent ∨ c = .messages ∧ n'.sent = n.sent ++ n.rn.msgs)
    (happ : n'.rn.appliedSnapshot = none → D.Shows B w n'.rn.log.applied (D.view n'.app))
    (hw : D.Writes B w k life n') (hr : D.Reads B cl w k life n') :
    ∃ cl' w', D.Course B k cl w cl' w' ∧ D.Attended B cl' w' k life n' := by
  refine h.call hst hB hc hh hg hap ?_ ?_ hsent happ (fun w' hcourse _ => hw.mono (.refl B) hcourse.later)
    fun w' hcourse => hr.course hcourse (starts_made cl k c n)
  · rw [h.reads_made hno, hasked]
    exact h.ids
  · rw [hseq, hasked]
    exact h.seq

/-- The application is told nothing, or a snapshot waits for it. -/
theorem Attended.shows_told (h : D.Attended B cl w k life n) (htold : Told n.rn n'.rn)
    (happ : n'.app = n.app) (hnone : n'.rn.appliedSnapshot = none) :
    D.Shows B w n'.rn.log.applied (D.view n'.app) := by
  rcases htold with ⟨ha, hs⟩ | ⟨snap, hs, -⟩
  · rw [ha, happ]
    exact h.app (hs ▸ hnone)
  · rw [hs] at hnone
    cases hnone

/-! ### Flushing -/

theorem Handing.of_flushing (hc : flushing c = true)
    (himage : ∀ data term, c = .createSnapshot data →
      D.IsImage B w ⟨n.rn.log.applied, term, n.rn.conf, data⟩) : Handing D B w n c := by
  refine ⟨?_, himage⟩
  rintro cmd r' rfl
  cases hc

theorem readCalls_of_flushing (hc : flushing c = true) : Cluster.readCalls cl k c := by
  cases c <;> trivial

/-- What the loop does in a flush, with a call that takes no snapshot. -/
theorem Attended.flushes (h : D.Attended B cl w k life n) (hst : D.Stage B cl w) (hB : B.Regular D.P)
    (hc : flushing c = true) (himage : ∀ data term, c = .createSnapshot data →
      D.IsImage B w ⟨n.rn.log.applied, term, n.rn.conf, data⟩)
    (hg : Goes c n.rn n'.rn) (hap : Applying n') (hasked : n'.asked = n.asked)
    (hseq : n'.readSeq = n.readSeq)
    (hsent : n'.sent = n.sent ∨ c = .messages ∧ n'.sent = n.sent ++ n.rn.msgs)
    (happ : n'.rn.appliedSnapshot = none → D.Shows B w n'.rn.log.applied (D.view n'.app))
    (hw : D.Writes B w k life n') (hr : D.Reads B cl w k life n') :
    ∃ cl' w', D.Course B k cl w cl' w' ∧ D.Attended B cl' w' k life n' := by
  refine h.call_of hst hB (readCalls_of_flushing hc) ?_ (.of_flushing hc himage) hg hap hasked hseq hsent
    happ hw hr
  rintro id rfl
  cases hc

/-- The state machine after a part of a batch. -/
theorem Attended.applies (h : D.Attended B cl w k life n) (hst : D.Stage B cl w) (hB : B.Regular D.P)
    (hs : n.rn.appliedSnapshot = none) {done rest : List LogEntry}
    (hes : n.rn.committedEntries = .ok (done ++ rest)) (ha : Applies D.sm n done n') :
    D.Writes B w k life n' ∧ D.Shows B w (n.rn.log.applied + done.length) (D.view n'.app) := by
  obtain ⟨p, hp, hagreed, hv⟩ := h.app hs
  obtain ⟨f, hf⟩ := h.node
  obtain ⟨hdec, hcon, hmem⟩ := hst.refines.decided_batch hf hagreed.decided hp hes
  have hall : Agreed B.entry w (p ++ (done ++ rest)) := by
    refine ⟨hdec, hagreed.contiguous.append ?_, fun e he => ?_⟩
    · rwa [Nat.add_comm]
    · rcases List.mem_append.mp he with he | he
      · exact hagreed.all e he
      · exact h.clean.ents e (hmem e he)
  have hdone : Agreed B.entry w (p ++ done) := hall.shorter (by simp)
  obtain ⟨hw, hv'⟩ := h.writes.applies hst.refines.inv hB ha hdone hv
  exact ⟨hw, p ++ done, by rw [List.length_append, hp], hdone, hv'⟩

theorem Attended.capture (h : D.Attended B cl w k life n) (hst : D.Stage B cl w) (hB : B.Regular D.P)
    (hs : n.rn.appliedSnapshot = none) {sn : Snapshotter σ} {data : List UInt8} {r : RawNode}
    (hsn : D.sm.snapshotter = some sn) (hdata : sn.snapshot n.app = .ok data)
    (hg : Goes (.createSnapshot data) n.rn r) (hsame : SameButStorage n.rn r)
    (hap : Applying (n.captured data r)) :
    ∃ cl' w', D.Course B k cl w cl' w' ∧ D.Attended B cl' w' k life (n.captured data r) := by
  refine h.flushes (c := .createSnapshot data) hst hB rfl ?_ hg hap rfl rfl
    (Or.inl rfl) (fun _ => ?_) (h.writes.of_eq rfl rfl le_rfl) (h.reads.of_eq rfl rfl le_rfl)
  · rintro data' term ⟨⟩
    exact ⟨sn, n.app, hsn, hdata, h.app hs⟩
  · rw [SameButStorage] at hsame
    change D.Shows B w r.log.applied (D.view n.app)
    rw [hsame]
    exact h.app hs

theorem Attended.move (h : D.Attended B cl w k life n) (hst : D.Stage B cl w) (hB : B.Regular D.P)
    (hm : Move D.sm n n') :
    ∃ cl' w', D.Course B k cl w cl' w' ∧ D.Attended B cl' w' k life n' := by
  have hap := h.applying.move hm
  cases hm with
  | release =>
    exact h.flushes (c := .messages) hst hB rfl (by rintro _ _ ⟨⟩)
      (goes_messages n.rn) hap rfl rfl (Or.inr ⟨rfl, rfl⟩) h.app (h.writes.of_eq rfl rfl le_rfl)
      (h.reads.of_eq rfl rfl le_rfl)
  | answer =>
    obtain ⟨f, hf⟩ := h.node
    have heq := Node.foldl_resolveRead_eq n.rn.readStates (n.called { n.rn with readStates := [] })
    have hreads : D.Reads B cl w k life n.answered :=
      Reads.resolveReads (n := n.called { n.rn with readStates := [] }) (h.reads.of_eq rfl rfl le_rfl)
        hf fun _ hrs => hrs
    rw [Node.answered, heq] at hap hreads ⊢
    exact h.flushes (c := .readStates) hst hB rfl (by rintro _ _ ⟨⟩) (goes_readStates n.rn) hap rfl rfl
      (Or.inl rfl) h.app (h.writes.of_eq rfl rfl le_rfl) hreads
  | look hs =>
    exact h.flushes (c := .snapshotToApply) hst hB rfl (by rintro _ _ ⟨⟩)
      (goes_snapshotToApply n.rn) hap rfl rfl (Or.inl rfl) (fun _ => h.app hs)
      (h.writes.of_eq rfl rfl le_rfl) (h.reads.of_eq rfl rfl le_rfl)
  | restore sn snap app hs hsn hrest =>
    refine h.flushes (c := .snapshotToApply) hst hB rfl
      (by rintro _ _ ⟨⟩) (goes_snapshotToApply n.rn) hap rfl rfl (Or.inl rfl) (fun _ => ?_)
      ((h.writes.failPending errProposalDropped).of_eq rfl rfl le_rfl) (h.reads.of_eq rfl rfl le_rfl)
    change D.Shows B w n.rn.log.applied (D.view app)
    rw [h.applying.handed snap hs]
    exact (h.clean.carries.pending snap hs).restored hB hsn hrest
  | batch entries last n₁ r hs hes hlast ha hto =>
    have hes' : n.rn.committedEntries = .ok (entries ++ []) := by rwa [List.append_nil]
    obtain ⟨hw, hshow⟩ := h.applies hst hB hs hes' ha
    obtain ⟨hc, -, hlen⟩ := h.applying.toLogged.batch hes
    have hpos : entries.length ≠ 0 := by
      intro h0
      rw [List.length_eq_zero_iff.mp h0] at hlast
      cases hlast
    have hidx : last.index = n.rn.log.applied + 1 + (entries.length - 1) :=
      hc _ last (by rw [← List.getLast?_eq_getElem?, hlast])
    have heq := ha.eq
    obtain ⟨r', hto', -, hr'⟩ := applyTo_ok (r := n₁.rn) (i := last.index)
      (by rw [ha.frame.1]; omega) (by rw [ha.frame.1]; omega)
    cases hto.symm.trans hto'
    rw [ha.frame.1] at hto
    refine h.flushes (c := .applyTo last.index) hst hB rfl (by rintro _ _ ⟨⟩)
      (goes_of_ok hto) hap (by rw [heq]; rfl) (by rw [heq]; rfl) (Or.inl (by rw [heq]; rfl))
      (fun _ => ?_) (hw.of_eq rfl rfl le_rfl) (h.reads.of_eq (by rw [heq]; rfl) (by rw [heq]; rfl)
      (by rw [heq]; rfl))
    change D.Shows B w r.log.applied (D.view n₁.app)
    rw [hr']
    change D.Shows B w last.index (D.view n₁.app)
    rwa [show last.index = n.rn.log.applied + entries.length by omega]
  | capture sn data snap r hs hsn hdata hr =>
    exact h.capture hst hB hs hsn hdata (goes_of_ok (run_ok hr))
      ((createSnapshot_same data n.rn).ok hr).1 hap
  | uncaptured sn data err r hs hsn hdata hr =>
    exact h.capture hst hB hs hsn hdata (goes_of_error (run_error hr) rfl)
      ((createSnapshot_same data n.rn).error hr) hap
  | note =>
    have heq := n.noteRole_eq
    have hw := h.writes.noteRole
    have hr := h.reads.noteRole
    rw [heq] at hap hw hr ⊢
    exact ⟨cl, w, .refl hst, h.slot, h.ids, h.seq, h.sent, hap, h.clean, h.app, hw, hr⟩

theorem Attended.moves (h : D.Attended B cl w k life n) (hst : D.Stage B cl w) (hB : B.Regular D.P)
    (hm : Moves D.sm n n') :
    ∃ cl' w', D.Course B k cl w cl' w' ∧ D.Attended B cl' w' k life n' := by
  induction hm with
  | refl => exact ⟨cl, w, .refl hst, h⟩
  | tail _ hm ih =>
    obtain ⟨cl₁, w₁, hc₁, h₁⟩ := ih
    obtain ⟨cl₂, w₂, hc₂, h₂⟩ := h₁.move hc₁.stage hB hm
    exact ⟨cl₂, w₂, hc₁.trans hc₂, h₂⟩

/-! ### Taking an event -/

/-- The register has the request that comes with the event: a write with the entry that it becomes, if
it becomes one, and a read with no more than what is decided. -/
structure Noted (B : Register) (w : World NodeID LogEntry) (k : NodeID) (life : ℕ) (n : Node σ ρ)
    (e : Event) : Prop where
  write : ∀ cmd r', e = .propose cmd → EndsIn ((Call.propose cmd).run n.rn) r' →
    n.rn.ownOf cmd ∈ r'.log.mem.ents → B.entry (n.rn.ownOf cmd) ∧
      B.place ⟨k, life, n.proposed.length, false⟩ = some (n.rn.log.lastIndex + 1, n.rn.term)
  read : e = .read → n.asked + 1 < 2 ^ 64 ∧
    ∃ p, Decided w p ∧ p.length = B.floor ⟨k, life, n.asked, true⟩

theorem Noted.handing {e : Event} (h : Noted B w k life n e) (hc : e.call? n.readSeq = some c) :
    Handing D B w n c := by
  constructor
  · rintro cmd r' rfl hend hmem
    cases e <;> cases hc
    exact (h.write cmd r' rfl hend hmem).1
  · rintro data term rfl
    cases e <;> cases hc

theorem Attended.entered (h : D.Attended B cl w k life n) (hst : D.Stage B cl w) {e : LogEntry}
    (he : e ∈ n.rn.log.mem.ents) : Entered w e := by
  obtain ⟨f, hf⟩ := h.node
  exact hst.refines.entered hf he

/-- The id of the next read. -/
theorem Attended.next (h : D.Attended B cl w k life n) (hlt : n.asked + 1 < 2 ^ 64) :
    (n.readSeq + 1).toNat = n.asked + 1 ∧ Cluster.readCalls cl k (.readIndex (n.readSeq + 1)) := by
  have hnext : (n.readSeq + 1).toNat = n.asked + 1 := by
    rw [UInt64.toNat_add, h.seq]
    exact Nat.mod_eq_of_lt hlt
  refine ⟨hnext, fun h0 => ?_, fun hmem => ?_⟩
  · rw [h0] at hnext
    cases hnext
  · have := h.ids _ hmem
    omega

/-- What the process asks of its core for an event is permitted. -/
theorem Attended.permitted (h : D.Attended B cl w k life n) {e : Event} (he : e.Permitted cl.net)
    (hn : Noted B w k life n e) (hc : e.call? n.readSeq = some c) : Cluster.readCalls cl k c := by
  cases e with
  | read =>
    cases hc
    exact (h.next (hn.read rfl).1).2
  | _ => cases hc <;> exact he

/-- The call of an event that is no request. -/
theorem Attended.takes (h : D.Attended B cl w k life n) (hst : D.Stage B cl w) (hB : B.Regular D.P)
    {r : RawNode} (hc : Cluster.readCalls cl k c) (hh : Handing D B w n c)
    (hno : ∀ id, c ≠ .readIndex id) (hg : Goes c n.rn r) (hap : Applying (n.called r))
    (htold : Told n.rn r) :
    ∃ cl' w', D.Course B k cl w cl' w' ∧ D.Attended B cl' w' k life (n.called r) :=
  h.call_of hst hB hc hno hh hg hap rfl rfl (Or.inl rfl) (fun hnone => h.shows_told htold rfl hnone)
    (h.writes.of_eq rfl rfl le_rfl) (h.reads.of_eq rfl rfl le_rfl)

/-- A read has been requested of the core. -/
theorem Attended.asks (h : D.Attended B cl w k life n) (hst : D.Stage B cl w) (hB : B.Regular D.P)
    (hn : Noted B w k life n .read) (hg : Goes (.readIndex (n.readSeq + 1)) n.rn n'.rn)
    (hap : Applying n') (htold : Told n.rn n'.rn) (happ : n'.app = n.app)
    (hseq : n'.readSeq = n.readSeq + 1) (hasked : n'.asked = n.asked + 1) (hsent : n'.sent = n.sent)
    (hw : D.Writes B w k life n')
    (hpend : ∀ (id : UInt64) t, n'.pendingReads[id]? = some t →
      n.pendingReads[id]? = some t ∨ id = n.readSeq + 1 ∧ t = n.asked)
    (hreply : ∀ t i, (t, .ok i) ∈ n'.readReplies → (t, .ok i) ∈ n.readReplies) :
    ∃ cl' w', D.Course B k cl w cl' w' ∧ D.Attended B cl' w' k life n' := by
  obtain ⟨hlt, p, hp, hfloor⟩ := hn.read rfl
  obtain ⟨hnext, hc⟩ := h.next hlt
  obtain ⟨f, hf⟩ := h.node
  have hh : Handing D B w n (.readIndex (n.readSeq + 1)) := hn.handing rfl
  refine h.call hst hB hc hh hg hap ?_ (by rw [hseq, hasked, hnext]) (Or.inl hsent)
    (fun hnone => h.shows_told htold happ hnone)
    (fun w' hcourse _ => hw.mono (.refl B) hcourse.later) fun w' hcourse => ⟨fun id t ht => ?_, ?_⟩
  · rw [made, readsAfter_call hf, hasked]
    intro id hid
    rcases List.mem_cons.mp hid with rfl | hid
    · exact hnext.le
    · exact (h.ids id hid).trans (Nat.le_succ _)
  · rcases hpend id t ht with ht | ⟨rfl, rfl⟩
    · obtain ⟨hlt, hawait⟩ := h.reads.waiting id t ht
      exact ⟨by omega, hawait.course hcourse (starts_made cl k _ n)⟩
    · refine ⟨by omega, Query.of w k (n.rn.withFaults f) (n.readSeq + 1), rfl, rfl, ?_,
        fun u => hcourse.later.term_le u, ?_⟩
      · rw [starts_made]
        exact tracking_readIndex hst.known hst.refines hf hc.1 hc.2 n.rn.log.storage.faults
      · rintro conf g ⟨hlead, hcur⟩ ha hq hg
        rw [← hfloor]
        exact decided_le_of_quorum hst.refines hf hlead hcur ha hq hg hp
  · intro t i ht
    obtain ⟨hlt, hle⟩ := h.reads.told t i (hreply t i ht)
    exact ⟨by omega, hle⟩

theorem Attended.taken {e : Event} (h : D.Attended B cl w k life n) (hst : D.Stage B cl w)
    (hB : B.Regular D.P) (he : e.Permitted cl.net) (hn : Noted B w k life n e) (ht : Taken n e n') :
    ∃ cl' w', D.Course B k cl w cl' w' ∧ D.Attended B cl' w' k life n' := by
  have hap := h.applying.taken ht
  have htold := ht.told.2
  cases ht with
  | tick r hr =>
    exact h.takes (c := .tick) hst hB trivial (hn.handing rfl) (by rintro _ ⟨⟩) (goes_of_ok hr) hap htold
  | step m r hr =>
    exact h.takes (c := .step m) hst hB he (hn.handing rfl) (by rintro _ ⟨⟩) (goes_of_ok hr) hap htold
  | ignore m err r hr hi =>
    exact h.takes (c := .step m) hst hB he (hn.handing rfl) (by rintro _ ⟨⟩)
      (goes_of_error hr (by simp [Call.stops, hi])) hap htold
  | propose cmd i r hr =>
    obtain ⟨-, rfl, hterm, hmem⟩ := propose_ok h.applying.wf hr
    obtain ⟨-, hplace⟩ := hn.write cmd r rfl (Or.inl (run_ok hr)) hmem
    refine h.call (c := .propose cmd) hst hB trivial (hn.handing rfl) (goes_of_ok (run_ok hr)) hap ?_ h.seq
      (Or.inl rfl) (fun hnone => h.shows_told htold rfl hnone) (fun w' hcourse hnode => ?_)
      fun w' hcourse => Reads.course (h.reads.of_eq rfl rfl le_rfl) hcourse (starts_made cl k _ n)
    · rw [h.reads_made (by rintro _ ⟨⟩)]
      exact h.ids
    · have hold := h.writes.mono (.refl B) hcourse.later
      have hlen : (n.accepted cmd (n.rn.log.lastIndex + 1) r).proposed.length = n.proposed.length + 1 :=
        List.length_append
      refine ⟨fun i a ha => ?_, fun t i response ht => ?_⟩
      · change (n.pending.insert _ _)[i]? = some a at ha
        rw [Std.ExtTreeMap.getElem?_insert] at ha
        split at ha
        · rename_i hi
          obtain rfl := Std.LawfulEqCmp.eq_of_compare hi
          cases ha
          rw [hterm]
          exact ⟨by rw [hlen]; exact Nat.lt_succ_self _, hplace, cmd,
            hcourse.stage.refines.entered hnode hmem⟩
        · obtain ⟨hlt, hrest⟩ := hold.waiting i a ha
          exact ⟨by omega, hrest⟩
      · obtain ⟨hlt, hful⟩ := hold.told t i response ht
        exact ⟨by omega, hful⟩
  | refuse cmd err r hr =>
    refine h.call_of (c := .propose cmd) hst hB trivial (by rintro _ ⟨⟩) (hn.handing rfl)
      (goes_of_error (run_error hr) rfl) hap rfl rfl (Or.inl rfl)
      (fun hnone => h.shows_told htold rfl hnone) ?_ (h.reads.of_eq rfl rfl le_rfl)
    refine h.writes.failed (fun _ _ ha => ha) (by simp [Node.refused]) fun t x hx => ?_
    rcases List.mem_append.mp hx with hx | hx
    · exact hx
    · cases List.mem_singleton.mp hx
  | read r hr =>
    refine h.asks hst hB hn (goes_of_ok hr) hap htold rfl rfl rfl rfl (h.writes.of_eq rfl rfl le_rfl)
      (fun id t ht => ?_) fun _ _ ht => ht
    change (n.pendingReads.insert _ _)[id]? = some t at ht
    rw [Std.ExtTreeMap.getElem?_insert] at ht
    split at ht
    · rename_i hid
      cases ht
      exact Or.inr ⟨(Std.LawfulEqCmp.eq_of_compare hid).symm, rfl⟩
    · exact Or.inl ht
  | unread err r hr =>
    refine h.asks hst hB hn (goes_of_error hr rfl) hap htold rfl rfl rfl rfl
      (h.writes.of_eq rfl rfl le_rfl) (fun _ _ ht => Or.inl ht) fun t i ht => ?_
    rcases List.mem_append.mp ht with ht | ht
    · exact ht
    · cases List.mem_singleton.mp ht
  | change => exact he.elim
  | unchanged => exact he.elim
  | status =>
    exact ⟨cl, w, .refl hst, h.slot, h.ids, h.seq, h.sent, hap, h.clean, h.app,
      h.writes.of_eq rfl rfl le_rfl, h.reads.of_eq rfl rfl le_rfl⟩

/-! ### Failing -/

/-- The process has ended. -/
theorem Attended.crash (h : D.Attended B cl w k life n) (hst : D.Stage B cl w) :
    ∃ cl' w', D.Course B k cl w cl' w' ∧ D.Left B cl' w' k n.rn.log.mem := by
  obtain ⟨f, hf⟩ := h.slot
  obtain ⟨w', hc⟩ := hst.act (k := k) (a := .crash) trivial fun r hr m hm => by
    rw [Cluster.node?_eq_some, hf] at hr
    cases hr
    exact h.clean.msgs hm
  refine ⟨_, w', hc, ?_, h.clean.mem.imp (fun _ h => h) fun _ hs => hs.mono (.refl B) hc.later⟩
  simp only [Cluster.act, Function.update_self, hf]
  rfl

/-- The process has ended with a call that failed. -/
theorem Attended.fails (h : D.Attended B cl w k life n) (hst : D.Stage B cl w) (hB : B.Regular D.P)
    (hc : Cluster.readCalls cl k c) (hh : Handing D B w n c) {f : Fail} {r : RawNode}
    (hx : c.run n.rn = .error f r) :
    ∃ cl' w', D.Course B k cl w cl' w' ∧ D.Left B cl' w' k r.log.mem := by
  obtain ⟨hclean, hmem⟩ := (h.cleanCall hst hB hc hh).error hx
  obtain ⟨w', hcourse⟩ := h.acts hst hc
  have hslot := h.slot_made c
  have hleft : ∀ {w''}, Later w w'' → r.log.mem.Clean B.entry (D.IsImage B w'') := fun hl =>
    hmem.imp (fun _ h => h) fun _ hs => hs.mono (.refl B) hl
  rw [hx, Slot.after] at hslot
  split at hslot
  · exact ⟨_, w', hcourse, hslot, hleft hcourse.later⟩
  · rename_i hf
    obtain ⟨w'', hcourse'⟩ := hcourse.stage.act (k := k) (a := .crash) trivial fun r' hr' m hm => by
      rw [Cluster.node?_eq_some, hslot] at hr'
      cases hr'
      exact (clean_later (hclean (by simpa using hf)) (.refl B) hcourse.later).msgs hm
    have hall := hcourse.trans hcourse'
    refine ⟨_, w'', hall, ?_, hleft hall.later⟩
    simp only [Cluster.act, Function.update_self, hslot]
    rfl

/-- The turn has failed. -/
theorem Attended.failing {e : Event} {f : Fail} (h : D.Attended B cl w k life n)
    (hst : D.Stage B cl w) (hB : B.Regular D.P) (he : e.Permitted cl.net) (hn : Noted B w k life n e)
    (hf : Failing D.sm e n f n') :
    ∃ cl' w', D.Course B k cl w cl' w' ∧ D.Left B cl' w' k n'.rn.log.mem ∧
      ∀ err, f = .error err → D.Writes B w k life n' := by
  have hends : ∀ {r : RawNode}, (∃ cl' w', D.Course B k cl w cl' w' ∧ D.Left B cl' w' k r.log.mem) →
      r.log.mem = n'.rn.log.mem → D.Writes B w k life n' → ∃ cl' w', D.Course B k cl w cl' w' ∧
        D.Left B cl' w' k n'.rn.log.mem ∧ ∀ err, f = .error err → D.Writes B w k life n' := by
    rintro r ⟨cl', w', hc, hl⟩ hmem hw
    exact ⟨cl', w', hc, hmem ▸ hl, fun _ _ => hw⟩
  cases hf with
  | idle _ => exact hends (h.crash hst) rfl h.writes
  | tick err _ r heq hrun =>
    subst heq
    exact hends (h.fails (c := .tick) hst hB trivial (hn.handing rfl) hrun) rfl
      (h.writes.of_eq rfl rfl le_rfl)
  | step m err _ r heq hrun _ =>
    subst heq
    exact hends (h.fails (c := .step m) hst hB he (hn.handing rfl) hrun) rfl
      (h.writes.of_eq rfl rfl le_rfl)
  | restore snap err _ => exact hends (h.crash hst) rfl (h.writes.of_eq rfl rfl le_rfl)
  | batch done rest _ err hs hes ha =>
    exact hends (h.crash hst) (by rw [ha.frame.1]) (h.applies hst hB hs hes ha).1
  | capture sn data err _ r hs hsn hdata hrun =>
    refine hends (h.fails (c := .createSnapshot data) hst hB trivial (.of_flushing rfl ?_)
      (run_error hrun)) rfl (h.writes.of_eq rfl rfl le_rfl)
    rintro data' term ⟨⟩
    exact ⟨sn, n.app, hsn, hdata, h.app hs⟩
  | panic c f₀ _ _ hc hf₀ hf hrun _ =>
    have hcall : Cluster.readCalls cl k c ∧ Handing D B w n c := by
      rcases hc with hc | hc
      · exact ⟨h.permitted he hn hc, hn.handing hc⟩
      · refine ⟨readCalls_of_flushing hc, .of_flushing hc ?_⟩
        rintro data term rfl
        -- no snapshot is taken in a panic
        have hret : Meets (Call.createSnapshot data).run n.rn (fun _ _ => True)
            fun f _ => panics f = false :=
          Meets.bind (Meets.mono (createSnapshot_returns data n.rn) (fun _ _ _ => trivial) fun _ _ h => h)
        cases hf₀.symm.trans (hret.error hrun)
    obtain ⟨cl', w', hcourse, hl⟩ := h.fails hst hB hcall.1 hcall.2 hrun
    refine ⟨cl', w', hcourse, hl, ?_⟩
    rintro err rfl
    cases hf

/-! ### Turns -/

/-- What a turn leads to. -/
structure Served (D : Design σ ρ ν) (B : Register) (cl : Cluster) (w : World NodeID LogEntry)
    (k : NodeID) (life : ℕ) (o : Outcome σ ρ) : Prop where
  proc : (Proc.after o).Sat (D.Attended B cl w k life) (D.Left B cl w k)
  sent : ∀ m ∈ o.node.sent, m ∈ cl.net
  told : ∀ t i response, (t, .ok (i, response)) ∈ o.told → D.Fulfilled B w ⟨k, life, t, false⟩ i response
  settled : ∀ n', o = .running n' → n'.rn.appliedSnapshot = none

/-- The turn has failed with `f`. -/
theorem Attended.served_failing {e : Event} {f : Fail} (h : D.Attended B cl w k life n)
    (hst : D.Stage B cl w) (hB : B.Regular D.P) (he : e.Permitted cl.net) (hn : Noted B w k life n e)
    (hf : Failing D.sm e n f n') :
    ∃ cl' w', D.Course B k cl w cl' w' ∧ D.Left B cl' w' k n'.rn.log.mem ∧
      Served D B cl' w' k life (.of (.error f n')) := by
  obtain ⟨cl', w', hc, hl, hw⟩ := h.failing hst hB he hn hf
  have hsent : ∀ m ∈ n'.sent, m ∈ cl'.net := by
    rw [hf.sent_eq]
    exact fun m hm => hc.net m (h.sent m hm)
  refine ⟨cl', w', hc, hl, ?_⟩
  cases f with
  | error err =>
    refine ⟨hl, hsent, fun t i response ht => ?_, by rintro _ ⟨⟩⟩
    have hw' := ((hw err rfl).failPending err).mono (.refl B) hc.later
    exact (hw'.told t i response ht).2
  | panic text => exact ⟨hl, hsent, by rintro _ _ _ ⟨⟩, by rintro _ ⟨⟩⟩
  | outOfFuel => exact ⟨hl, hsent, by rintro _ _ _ ⟨⟩, by rintro _ ⟨⟩⟩

/-- A turn of the process.  A proposal that has appended its entry has entered it. -/
theorem Attended.event {e : Event} {faults : List Bool} (h : D.Attended B cl w k life n)
    (hst : D.Stage B cl w) (hB : B.Regular D.P) (he : e.Permitted cl.net)
    (hn : Noted B w k life (n.withFaults faults) e) :
    ∃ cl' w', D.Course B k cl w cl' w' ∧ Served D B cl' w' k life (n.run D.sm e faults) ∧
      ∀ cmd r', e = .propose cmd → EndsIn ((Call.propose cmd).run (n.withFaults faults).rn) r' →
        n.rn.ownOf cmd ∈ r'.log.mem.ents → Entered w' (n.rn.ownOf cmd) := by
  have h := h.withFaults faults
  have hturn := meets_turn_stages D.sm e h.applying.wf
  rw [Node.run]
  cases hx : turn D.sm e (n.withFaults faults) with
  | ok _ n' =>
    obtain ⟨n₁, ht, hp, hm, hsettled⟩ := hturn.ok hx
    obtain ⟨cl₁, w₁, hc₁, h₁⟩ := h.taken hst hB he hn ht
    obtain ⟨cl₂, w₂, hc₂, h₂⟩ := h₁.moves hc₁.stage hB hm
    refine ⟨cl₂, w₂, hc₁.trans hc₂, ⟨h₂, h₂.sent,
      fun t i response ht => (h₂.writes.told t i response ht).2, ?_⟩, fun cmd r' hcmd hend hmem => ?_⟩
    · rintro _ ⟨⟩
      exact hsettled.snapshot
    rw [EndsIn.unique hend (hp cmd hcmd)] at hmem
    exact (h₁.entered hc₁.stage hmem).later hc₂.later
  | error f n' =>
    rcases hturn.error hx with ⟨hf, hp⟩ | ⟨n₁, n₂, ht, hp, hm, hf⟩
    · obtain ⟨cl', w', hc, hl, hs⟩ := h.served_failing hst hB he hn hf
      refine ⟨cl', w', hc, hs, fun cmd r' hcmd hend hmem => ?_⟩
      rw [EndsIn.unique hend (hp cmd hcmd)] at hmem
      exact hc.stage.refines.entered_down hl.slot hmem
    · obtain ⟨cl₁, w₁, hc₁, h₁⟩ := h.taken hst hB he hn ht
      obtain ⟨cl₂, w₂, hc₂, h₂⟩ := h₁.moves hc₁.stage hB hm
      have hstop : Event.Permitted cl₂.net .stop := trivial
      have hnone : Noted B w₂ k life n₂ .stop := ⟨by rintro _ _ ⟨⟩, by rintro ⟨⟩⟩
      obtain ⟨cl₃, w₃, hc₃, -, hs⟩ := h₂.served_failing hc₂.stage hB hstop hnone hf
      refine ⟨cl₃, w₃, (hc₁.trans hc₂).trans hc₃, hs, fun cmd r' hcmd hend hmem => ?_⟩
      rw [EndsIn.unique hend (hp cmd hcmd)] at hmem
      exact (h₁.entered hc₁.stage hmem).later (hc₂.trans hc₃).later

/-! ### Starting -/

/-- A state machine that is started from a storage shows what the storage's snapshot covers. -/
theorem Left.shows_start (h : D.Left B cl w k st) (hB : B.Regular D.P) {cfg : Config}
    (hstart : Loop.start D.sm D.app cfg st = .ok n) :
    D.Shows B w st.snapshot.lastIncludedIndex (D.view n.app) := by
  rw [Loop.start] at hstart
  split at hstart
  · cases hstart
  · split at hstart
    · cases hstart
    · rw [restoreFromDisk] at hstart
      split at hstart
      · rename_i hempty
        cases hstart
        refine ⟨[], (of_decide_eq_true hempty).symm, .nil _ _, ?_⟩
        rw [D.implements.init]
        rfl
      · rename_i hne
        split at hstart
        · cases hstart
        · rename_i sn hsn
          split at hstart
          · cases hstart
          · rename_i app' happ
            cases hstart
            exact (h.clean.snapshot (by simpa using hne)).restored hB hsn happ

theorem Left.start (h : D.Left B cl w k st) (hst : D.Stage B cl w) (hB : B.Regular D.P) {cfg : Config}
    (hid : cfg.id = k) (hboot : .new cfg.voters = D.boot)
    (hstart : Loop.start D.sm D.app cfg st = .ok n) :
    ∃ cl' w', D.Course B k cl w cl' w' ∧ D.Attended B cl' w' k life n ∧
      n.rn.appliedSnapshot = none := by
  have hok := hst.refines.ok k
  rw [h.slot] at hok
  obtain ⟨happlying, hnone⟩ := start_applying hok hstart
  obtain ⟨cfg', rn, app', calls, hcfg, hnew, heq, -⟩ := start_ok hstart
  have hcore : cfg'.core.id = k ∧ cfg'.core.bootstrap = D.boot := by
    rw [Config.withDefaults] at hcfg
    split at hcfg
    · cases hcfg
    · cases hcfg
      exact ⟨hid, hboot⟩
  obtain ⟨w', hc⟩ := hst.act (a := .start cfg'.core) hcore fun r hr => by
    rw [Cluster.node?_eq_some, h.slot] at hr
    cases hr
  have hup : (cl.act k (.start cfg'.core)).slot k = .up rn := by
    simp only [Cluster.act, Function.update_self, h.slot, Slot.act, hnew]
  have hreads : (cl.act k (.start cfg'.core)).reads k = [] := by
    simp only [Cluster.act, Function.update_self, h.slot, Cluster.readsAfter]
  have happlied : rn.log.applied = st.snapshot.lastIncludedIndex := by
    rw [(started_of_new hnew).log]
    rfl
  have hclean : rn.Clean B.entry (D.IsImage B w) := .of_new h.clean hnew
  have hshow : D.Shows B w rn.log.applied (D.view n.app) := by
    rw [happlied]
    exact h.shows_start hB hstart
  subst heq
  refine ⟨_, w', hc, ⟨⟨rn.log.storage.faults, hup⟩, ?_, rfl, by rintro _ ⟨⟩, happlying,
    clean_later hclean (.refl B) hc.later, fun _ => hshow.mono (.refl B) hc.later, ⟨?_, by rintro _ _ _ ⟨⟩⟩,
    ⟨?_, by rintro _ _ ⟨⟩⟩⟩, hnone⟩
  · rw [hreads]
    rintro _ ⟨⟩
  · intro i a ha
    simp at ha
  · intro id t ht
    simp at ht

end Design

end RaftStore.Loop
