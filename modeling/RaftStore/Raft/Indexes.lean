import RaftStore.Raft.Process
import RaftStore.Raft.Frame

/-! The five indexes of a node: the compaction boundary, the snapshot, and what is applied, committed
and held.  They stay in this order whatever the node is called with, and what is committed and
applied only grows until the node is started again. -/

namespace RaftStore.Raft

open Lib RawNode

variable {c : Call} {r r' : RawNode}

/-- The indexes of a node in their order. -/
structure RawNode.Ordered (r : RawNode) : Prop where
  boundary : r.log.firstIndex - 1 ≤ r.log.mem.snapshot.lastIncludedIndex
  snapshot : r.log.mem.snapshot.lastIncludedIndex ≤ r.log.applied
  applied : r.log.applied ≤ r.log.committed
  committed : r.log.committed ≤ r.log.lastIndex

/-- No less is committed, and no less is applied. -/
structure RawNode.Advanced (r r' : RawNode) : Prop where
  committed : r.log.committed ≤ r'.log.committed
  applied : r.log.applied ≤ r'.log.applied

/-- A node that is started from the storage knows at least the snapshot to be committed, and no more
than this one. -/
def RawNode.Recovers (r : RawNode) : Prop :=
  ∀ cfg r', new cfg { mem := r.log.mem } = .ok r' →
    r.log.mem.snapshot.lastIncludedIndex ≤ r'.log.committed ∧ r'.log.committed ≤ r.log.committed

theorem RaftLog.OK.ordered (h : r.log.OK) : r.Ordered where
  boundary := h.base_le
  snapshot := h.snap_le
  applied := h.applied_le
  committed := h.committed_le

theorem RawNode.Advanced.refl (r : RawNode) : r.Advanced r := ⟨le_rfl, le_rfl⟩

theorem RawNode.Advanced.trans {r'' : RawNode} (h : r.Advanced r') (h' : r'.Advanced r'') :
    r.Advanced r'' :=
  ⟨h.committed.trans h'.committed, h.applied.trans h'.applied⟩

/-- A change of the configuration leaves the indexes alone. -/
theorem RawNode.Reconf.advanced {r₁ : RawNode} (h : r₁.Reconf r') (h₁ : r.Advanced r₁) :
    r.Advanced r' := by
  rw [h.eq]
  exact ⟨h₁.committed, h₁.applied⟩

theorem Effect.advanced (he : Effect c r r') (hr : r.Wf) : r.Advanced r' := by
  cases he with
  | adopt =>
    rw [becomeFollower, reset_eq]
    exact ⟨le_rfl, le_rfl⟩
  | resign =>
    rw [becomeFollower, reset_eq]
    exact ⟨le_rfl, le_rfl⟩
  | stand =>
    rw [standing, reset_eq]
    exact ⟨le_rfl, le_rfl⟩
  | lead =>
    rw [leading, reset_eq]
    exact ⟨le_rfl, le_rfl⟩
  | extend e =>
    rw [extended]
    split
    · exact (refreshed_reconf _).advanced ⟨le_rfl, le_rfl⟩
    · exact ⟨le_rfl, le_rfl⟩
  | commit i _ _ hlt => exact ⟨hlt.le, le_rfl⟩
  | follow m l committed hc hty _ _ _ _ hsp _ hcm =>
    refine (refreshedIfNeeded_reconf _ _).advanced ⟨?_, ?_⟩
    · show r.log.committed ≤ committed
      omega
    · cases hsp <;> exact le_rfl
  | restore m snap mem _ _ _ _ _ hlt =>
    have hle : r.log.applied ≤ snap.lastIncludedIndex := hr.log.applied_le.trans hlt.le
    rw [restored]
    split
    · exact (setConfiguration_reconf _ _ _).advanced ⟨hlt.le, hle⟩
    · exact ⟨hlt.le, hle⟩
  | apply i _ hle => exact ⟨le_rfl, hle⟩
  | _ => exact ⟨le_rfl, le_rfl⟩

theorem Reach.advanced (h : Reach c r r') (hr : r.Wf) : r.Advanced r' := by
  induction h with
  | refl => exact .refl r
  | tail hb he ih => exact ih.trans (he.advanced (Reach.wf hb hr))

/-- Nothing new is in the log up to what was committed. -/
structure RawNode.Retains (r r' : RawNode) : Prop where
  committed : r.log.committed ≤ r'.log.committed
  mem : ∀ e ∈ r'.log.mem.ents, e.index ≤ r.log.committed → e ∈ r.log.mem.ents

theorem RawNode.Retains.refl (r : RawNode) : r.Retains r := ⟨le_rfl, fun _ he _ => he⟩

theorem RawNode.Retains.trans {r'' : RawNode} (h : r.Retains r') (h' : r'.Retains r'') :
    r.Retains r'' :=
  ⟨h.committed.trans h'.committed, fun e he hi =>
    h.mem e (h'.mem e he (hi.trans h.committed)) hi⟩

theorem Effect.retains (he : Effect c r r') (hr : r.Wf) : r.Retains r' := by
  refine ⟨(he.advanced hr).committed, ?_⟩
  have hlog := he.logChange
  cases hlog with
  | same _ hs =>
    rw [hs.ents]
    exact fun e he _ => he
  | extended e' _ _ hi _ =>
    rw [extended_log]
    intro e he hle
    rcases List.mem_append.mp he with he | he
    · exact he
    · rw [List.mem_singleton.mp he] at hle
      have := hr.log.committed_le
      omega
  | followed m l committed _ _ hsp _ _ _ =>
    rw [(refreshedIfNeeded_reconf _ _).eq]
    cases hsp with
    | same _ => exact fun e he _ => he
    | wrote k e' rest faults _ _ hlt _ hc =>
      -- what was written lies past the commit index
      intro e he hle
      rcases List.mem_append.mp he with he | he
      · exact List.mem_of_mem_take he
      · obtain ⟨j, hj⟩ := List.mem_iff_getElem?.mp he
        have := hc j e hj
        omega
  | restored m snap mem _ _ _ _ hsave =>
    rw [(restored_reconf r snap mem).eq]
    obtain ⟨-, -, -, ⟨-, -, -, hents⟩ | ⟨-, -, hents⟩⟩ := RaftLog.saveSnapshot_ok hsave
    · exact fun e he _ => hents ▸ he
    · intro e he
      exact absurd (hents ▸ he) List.not_mem_nil
  | saved data term mem _ ht h0 hsave =>
    obtain ⟨-, hents⟩ := RaftLog.saveSnapshot_own h0 ht hsave
    exact fun e he _ => hents ▸ he
  | compacted upto mem data _ _ _ hcm =>
    rcases MemoryStorage.compact_ok hr.log.inOrder hcm with ⟨-, rfl⟩ | ⟨-, -, -, -, -, -, hents⟩
    · exact fun e he _ => he
    · intro e he _
      exact List.mem_of_mem_drop (hents ▸ he)

theorem Reach.retains (h : Reach c r r') (hr : r.Wf) : r.Retains r' := by
  induction h with
  | refl => exact .refl r
  | tail hb he ih => exact ih.trans (he.retains (Reach.wf hb hr))

/-- What is written down as committed is committed. -/
theorem recovers_of_le (h : r.log.OK) (hc : r.log.mem.hardState.commit ≤ r.log.committed) :
    r.Recovers := by
  intro cfg r' hnew
  rw [(started_of_new hnew).log]
  have hsnap := h.snap_le.trans h.applied_le
  show _ ≤ (if _ then _ else _) ∧ (if _ then _ else _) ≤ _
  split
  · rename_i hgt
    have hle := hsnap.trans h.committed_le
    exact ⟨le_min hgt.le hle, (min_le_left _ _).trans hc⟩
  · exact ⟨le_rfl, hsnap⟩

/-- A call leaves the indexes in order, also when it fails. -/
theorem outcome_ordered (hr : r.Wf) (c : Call) (faults : List Bool) :
    (c.outcome (r.withFaults faults)).Ordered ∧ r.Advanced (c.outcome (r.withFaults faults)) ∧
      (c.outcome (r.withFaults faults)).Recovers := by
  have h₀ := reach_withFaults (c := c) r faults
  -- the log is as after a sequence of effects
  have hsame : ∀ {r₁ r₂ : RawNode}, Reach c r r₁ → r₁.log.mem = r₂.log.mem →
      r₁.log.committed = r₂.log.committed → r₁.log.applied = r₂.log.applied →
      r₂.Ordered ∧ r.Advanced r₂ ∧ r₂.Recovers := by
    intro r₁ r₂ h hm hc ha
    have hw := h.wf hr
    have hadv := h.advanced hr
    have hok : r₂.log.OK := by
      refine ⟨?_, ?_, ?_, ?_, ?_⟩
      · rw [← hm]; exact hw.log.inOrder
      · rw [← hm]; exact hw.log.base_le
      · rw [← hm, ← ha]; exact hw.log.snap_le
      · rw [← ha, ← hc]; exact hw.log.applied_le
      · rw [← hc, RaftLog.lastIndex, ← hm]; exact hw.log.committed_le
    refine ⟨hok.ordered, ⟨hadv.committed.trans hc.le, hadv.applied.trans ha.le⟩,
      recovers_of_le hok ?_⟩
    rw [← hm, ← hc]
    exact hw.commit_le
  refine Call.outcome_of_meets (P := fun r' => r'.Ordered ∧ r.Advanced r' ∧ r'.Recovers)
    (Meets.mono (c.meets_run (h₀.wf hr)) (fun _ r' h => ?_) fun e r' h => ?_)
  · exact hsame (h₀.trans h) rfl rfl rfl
  · split at h
    · obtain ⟨r'', h, hm, -, hc, ha⟩ := h
      exact hsame (h₀.trans h) hm hc ha
    · exact hsame (h₀.trans h) rfl rfl rfl

/-- In every run of a node the indexes are in order after every call, what is committed and applied
does not decrease, and a restart recovers no less than the snapshot and no more than what was
committed. -/
theorem index_bookkeeping {acts : List Act} {r : RawNode} (hr : (Slot.down {}).run acts = .up r) :
    r.Ordered ∧ r.Recovers ∧
      ∀ (c : Call) (faults : List Bool), (c.outcome (r.withFaults faults)).Ordered ∧
        r.Advanced (c.outcome (r.withFaults faults)) ∧
        (c.outcome (r.withFaults faults)).Recovers := by
  have hw := Slot.wf_of_run hr
  exact ⟨hw.log.ordered, recovers_of_le hw.log hw.commit_le, fun c faults =>
    outcome_ordered hw c faults⟩

/-- A node that is its own cluster is elected, writes, and takes a snapshot of what it has applied. -/
def soloSnapshot : List Act :=
  [.start { id := 1, electionTick := 2, heartbeatTick := 1, bootstrap := ⟨[1], [], []⟩ },
   .call .tick [], .call .tick [], .call (.propose [7]) [], .call (.applyTo 2) [],
   .call (.createSnapshot [9]) []]

theorem index_bookkeeping_soloSnapshot :
    ∃ r, (Slot.down {}).run soloSnapshot = .up r ∧ r.log.mem.snapshot.lastIncludedIndex = 2 ∧
      r.Ordered := by
  obtain ⟨r, hr, ht⟩ := Slot.exists_up (s := (Slot.down {}).run soloSnapshot)
    (fun r => r.log.mem.snapshot.lastIncludedIndex = 2) (by decide +kernel)
  exact ⟨r, hr, of_decide_eq_true ht, (index_bookkeeping hr).1⟩

end RaftStore.Raft
