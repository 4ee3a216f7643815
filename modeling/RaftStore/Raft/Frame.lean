import RaftStore.Raft.Effect

/-! What an effect leaves alone.  The outbox, the reads and the identity of a node are changed by few
effects; these lemmas name them, so that an invariant about one of these parts need not look at the
others. -/

namespace RaftStore.Raft

open RawNode

variable {c : Call} {r r' : RawNode}

/-- What never changes while a process lives. -/
structure RawNode.SameProcess (r r' : RawNode) : Prop where
  id : r'.id = r.id
  cfg : r'.cfg = r.cfg
  bootstrap : r'.bootstrap = r.bootstrap

/-- The outbox is added to, drained, or left alone. -/
inductive Outbox (c : Call) (r : RawNode) : RawNode → Prop
  | same (r' : RawNode) : r'.msgs = r.msgs → r'.journal = r.journal → Outbox c r r'
  | sent (m : Message) : Sendable c r m → Outbox c r (r.send m)
  | drained : Outbox c r { r with msgs := [] }

/-- The reads are dropped with the term or the role, opened, confirmed, drained, or left alone. -/
inductive Reads (c : Call) (r : RawNode) : RawNode → Prop
  | same (r' : RawNode) : r'.term = r.term → r'.pendingReads = r.pendingReads →
      r'.readStates = r.readStates → Reads c r r'
  | dropped (r' : RawNode) : r.term ≤ r'.term → r'.pendingReads = [] → r'.readStates = [] →
      Reads c r r'
  | opened (id : UInt64) : c = .readIndex id →
      Reads c r { r with
        pendingReads := r.pendingReads ++ [⟨id, r.log.committed, fun n => n = r.id⟩] }
  | answered (id : UInt64) : c = .readIndex id →
      Reads c r { r with readStates := r.readStates ++ [⟨id, r.log.committed⟩] }
  | confirmed (m : Message) : c = .step m → m.type = .appendResp → m.term = r.term →
      Reads c r (r.ackRead m.sender m.readID)
  | drained : Reads c r { r with readStates := [] }

/-- A change that keeps the process, the outbox and the reads, and may be followed by a new
configuration. -/
theorem RawNode.Reconf.frame_after {r₁ : RawNode} (h : r₁.Reconf r') (hid : r₁.id = r.id)
    (hcfg : r₁.cfg = r.cfg) (hboot : r₁.bootstrap = r.bootstrap) (hmsgs : r₁.msgs = r.msgs)
    (hjournal : r₁.journal = r.journal) (hterm : r₁.term = r.term)
    (hpending : r₁.pendingReads = r.pendingReads) (hstates : r₁.readStates = r.readStates) :
    r.SameProcess r' ∧ Outbox c r r' ∧ Reads c r r' := by
  refine ⟨⟨?_, ?_, ?_⟩, .same r' ?_ ?_, .same r' ?_ ?_ ?_⟩ <;> rw [h.eq] <;> assumption

theorem Effect.frame (he : Effect c r r') : r.SameProcess r' ∧ Outbox c r r' ∧ Reads c r r' := by
  have hplain : ∀ r' : RawNode, r'.id = r.id → r'.cfg = r.cfg → r'.bootstrap = r.bootstrap →
      r'.msgs = r.msgs → r'.journal = r.journal → r'.term = r.term →
      r'.pendingReads = r.pendingReads → r'.readStates = r.readStates →
      r.SameProcess r' ∧ Outbox c r r' ∧ Reads c r r' := fun r' h1 h2 h3 h4 h5 h6 h7 h8 =>
    ⟨⟨h1, h2, h3⟩, .same r' h4 h5, .same r' h6 h7 h8⟩
  cases he with
  | adopt m lead hc ht =>
    rw [becomeFollower, reset_eq]
    exact ⟨⟨rfl, rfl, rfl⟩, .same _ rfl rfl, .dropped _ ht.le rfl rfl⟩
  | resign lead =>
    rw [becomeFollower, reset_eq]
    exact ⟨⟨rfl, rfl, rfl⟩, .same _ rfl rfl, .dropped _ le_rfl rfl rfl⟩
  | stand =>
    rw [standing, reset_eq]
    exact ⟨⟨rfl, rfl, rfl⟩, .same _ rfl rfl, .dropped _ (Nat.le_succ _) rfl rfl⟩
  | lead =>
    rw [leading, reset_eq]
    exact ⟨⟨rfl, rfl, rfl⟩, .same _ rfl rfl, .dropped _ le_rfl rfl rfl⟩
  | extend e =>
    rw [extended]
    split
    · exact (refreshed_reconf _).frame_after rfl rfl rfl rfl rfl rfl rfl rfl
    · exact hplain _ rfl rfl rfl rfl rfl rfl rfl rfl
  | follow m l committed =>
    exact (refreshedIfNeeded_reconf _ _).frame_after rfl rfl rfl rfl rfl rfl rfl rfl
  | restore m snap mem =>
    rw [restored]
    split
    · exact (setConfiguration_reconf _ _ _).frame_after rfl rfl rfl rfl rfl rfl rfl rfl
    · exact hplain _ rfl rfl rfl rfl rfl rfl rfl rfl
  | send m hm => exact ⟨⟨rfl, rfl, rfl⟩, .sent m hm, .same _ rfl rfl rfl⟩
  | openRead id hc => exact ⟨⟨rfl, rfl, rfl⟩, .same _ rfl rfl, .opened id hc⟩
  | readNow id hc => exact ⟨⟨rfl, rfl, rfl⟩, .same _ rfl rfl, .answered id hc⟩
  | ackRead m hc hty ht => exact ⟨⟨rfl, rfl, rfl⟩, .same _ rfl rfl, .confirmed m hc hty ht⟩
  | drainReads => exact ⟨⟨rfl, rfl, rfl⟩, .same _ rfl rfl, .drained⟩
  | drain => exact ⟨⟨rfl, rfl, rfl⟩, .drained, .same _ rfl rfl rfl⟩
  | _ => exact hplain _ rfl rfl rfl rfl rfl rfl rfl rfl

/-- What holds of the outbox, and of whatever is sent, holds of the outbox afterwards. -/
theorem Outbox.msgs {P : Message → Prop} (ho : Outbox c r r') (h : ∀ m ∈ r.msgs, P m)
    (hsend : ∀ m, Sendable c r m → P (r.stamp m)) : ∀ m ∈ r'.msgs, P m := by
  cases ho with
  | same _ hm => rwa [hm]
  | sent m hm =>
    intro m' hm'
    rcases List.mem_append.mp hm' with hm' | hm'
    · exact h m' hm'
    · rw [List.mem_singleton.mp hm']
      exact hsend m hm
  | drained => exact fun _ h => nomatch h

/-- What is sent is remembered with the storage of that moment, and nothing that is remembered is
forgotten. -/
theorem Outbox.journal {P : Message → MemoryStorage → Prop} (ho : Outbox c r r')
    (h : ∀ p ∈ r.journal, P p.1 p.2) (hsend : ∀ m, Sendable c r m → P (r.stamp m) r.log.mem) :
    ∀ p ∈ r'.journal, P p.1 p.2 := by
  cases ho with
  | same _ _ hj => rwa [hj]
  | sent m hm =>
    intro p hp
    rcases List.mem_append.mp hp with hp | hp
    · exact h p hp
    · rw [List.mem_singleton.mp hp]
      exact hsend m hm
  | drained => exact h

/-- Everything in the outbox is remembered. -/
theorem Outbox.recorded (ho : Outbox c r r') (h : ∀ m ∈ r.msgs, ∃ st, (m, st) ∈ r.journal) :
    ∀ m ∈ r'.msgs, ∃ st, (m, st) ∈ r'.journal := by
  cases ho with
  | same _ hm hj => rwa [hm, hj]
  | sent m hm =>
    intro m' hm'
    rcases List.mem_append.mp hm' with hm' | hm'
    · obtain ⟨st, hst⟩ := h m' hm'
      exact ⟨st, List.mem_append_left _ hst⟩
    · rw [List.mem_singleton.mp hm']
      exact ⟨r.log.mem, List.mem_append_right _ List.mem_cons_self⟩
  | drained => exact fun _ h => nomatch h

theorem Effect.id_eq (he : Effect c r r') : r'.id = r.id := he.frame.1.id

theorem Effect.outbox (he : Effect c r r') : Outbox c r r' := he.frame.2.1

theorem Effect.reads (he : Effect c r r') : Reads c r r' := he.frame.2.2

theorem Effect.term_le (he : Effect c r r') : r.term ≤ r'.term := by
  cases he.reads with
  | same _ ht => exact ht.ge
  | dropped _ ht => exact ht
  | _ => exact le_rfl

/-! ### The term and the role -/

/-- A later term is adopted, a role is given up or taken, or both stay. -/
inductive Casting (c : Call) (r r' : RawNode) : Prop
  | same : r'.term = r.term → r'.state = r.state → Casting c r r'
  | adopted : r.term < r'.term → r'.state = .follower → Casting c r r'
  | resigned : r'.term = r.term → r'.state = .follower → Casting c r r'
  | polled : c.campaigns = true → r.state ≠ .leader → r'.term = r.term →
      r'.state = .preCandidate → Casting c r r'
  | stood : c.campaigns = true ∨ r.state = .preCandidate → r.state ≠ .leader →
      r'.term = r.term + 1 → r'.state = .candidate → Casting c r r'
  | elected : r.state = .candidate → r'.term = r.term → r'.state = .leader → c.elects = true →
      Casting c r r'

theorem Casting.reconf {r₁ : RawNode} (h : r₁.Reconf r') (ht : r₁.term = r.term)
    (hs : r₁.state = r.state) : Casting c r r' := by
  refine .same ?_ ?_ <;> rw [h.eq] <;> assumption

theorem Effect.casting (he : Effect c r r') : Casting c r r' := by
  cases he with
  | adopt m lead hc ht =>
    rw [becomeFollower, reset_eq]
    exact .adopted ht rfl
  | resign lead =>
    rw [becomeFollower, reset_eq]
    exact .resigned rfl rfl
  | poll hc hs => exact .polled hc hs rfl rfl
  | stand hc hs =>
    rw [standing, reset_eq]
    exact .stood hc hs rfl rfl
  | lead hs hq hel =>
    rw [leading, reset_eq]
    exact .elected hs rfl rfl hel
  | extend e =>
    rw [extended]
    split
    · exact .reconf (refreshed_reconf _) rfl rfl
    · exact .same rfl rfl
  | follow m l committed => exact .reconf (refreshedIfNeeded_reconf _ _) rfl rfl
  | restore m snap mem =>
    rw [restored]
    split
    · exact .reconf (setConfiguration_reconf _ _ _) rfl rfl
    · exact .same rfl rfl
  | _ => exact .same rfl rfl

/-! ### The log and the configuration -/

/-- The entries, the snapshot and the configuration are the same, and no less is committed. -/
structure RawNode.SameLog (r r' : RawNode) : Prop where
  base : r'.log.mem.base = r.log.mem.base
  ents : r'.log.mem.ents = r.log.mem.ents
  snapshot : r'.log.mem.snapshot = r.log.mem.snapshot
  conf : r'.conf = r.conf
  confIndex : r'.confIndex = r.confIndex
  committed : r.log.committed ≤ r'.log.committed

/-- The effects that change the log, and all the others. -/
inductive LogChange (c : Call) (r : RawNode) : RawNode → Prop
  | same (r' : RawNode) : r.SameLog r' → LogChange c r r'
  | extended (e : LogEntry) : c.appends = true → r.state = .leader →
      e.index = r.log.lastIndex + 1 →
      (e.type = .confChange → ∃ cc, r.Proposes c cc ∧ e.command = cc.encode) →
      LogChange c r (r.extended e)
  | followed (m : Message) (l : RaftLog) (committed : ℕ) : c = .step m → m.type = .appendReq →
      r.log.Spliced m.prevLogIndex m.entries l → r.log.committed ≤ committed →
      r.log.committed ≤ m.prevLogIndex → r.log.matchTerm m.prevLogIndex m.prevLogTerm = true →
      LogChange c r ({ r with log := { l with committed } }.refreshedIfNeeded m.entries)
  | restored (m : Message) (snap : Snapshot) (mem : MemoryStorage) : c = .step m →
      m.type = .snapshotReq → m.snapshot = some snap →
      r.log.committed < snap.lastIncludedIndex → r.log.mem.saveSnapshot snap = .ok mem →
      r.Admits m → LogChange c r (r.restored snap mem)
  | saved (data : List UInt8) (term : ℕ) (mem : MemoryStorage) : c = .createSnapshot data →
      r.log.term r.log.applied = .ok term → r.log.applied ≠ 0 →
      r.log.mem.saveSnapshot ⟨r.log.applied, term, r.conf, data⟩ = .ok mem →
      LogChange c r (r.withMem mem)
  | compacted (upto : ℕ) (mem : MemoryStorage) (data : List UInt8) : c = .createSnapshot data →
      upto ≤ r.log.mem.snapshot.lastIncludedIndex → r.log.mem.snapshot.config = r.conf →
      r.log.mem.compact upto = .ok mem → LogChange c r (r.withMem mem)

theorem Effect.logChange (he : Effect c r r') : LogChange c r r' := by
  cases he with
  | adopt =>
    rw [becomeFollower, reset_eq]
    exact .same _ ⟨rfl, rfl, rfl, rfl, rfl, le_rfl⟩
  | resign =>
    rw [becomeFollower, reset_eq]
    exact .same _ ⟨rfl, rfl, rfl, rfl, rfl, le_rfl⟩
  | stand =>
    rw [standing, reset_eq]
    exact .same _ ⟨rfl, rfl, rfl, rfl, rfl, le_rfl⟩
  | lead =>
    rw [leading, reset_eq]
    exact .same _ ⟨rfl, rfl, rfl, rfl, rfl, le_rfl⟩
  | extend e ha hs _ hi hcc => exact .extended e ha hs hi hcc
  | commit i _ _ hlt => exact .same _ ⟨rfl, rfl, rfl, rfl, rfl, hlt.le⟩
  | follow m l committed hc hty _ _ hp hmt hsp _ hcm =>
    exact .followed m l committed hc hty hsp (by omega) hp hmt
  | restore m snap mem hc hty _ _ hsn hlt hsave hm =>
    exact .restored m snap mem hc hty hsn hlt hsave hm
  | saveSnapshot data term mem hc ht h0 hsave => exact .saved data term mem hc ht h0 hsave
  | compact upto mem data hc hu hcf hcm => exact .compacted upto mem data hc hu hcf hcm
  | _ => exact .same _ ⟨rfl, rfl, rfl, rfl, rfl, le_rfl⟩

theorem RawNode.SameLog.trans {r'' : RawNode} (h : r.SameLog r') (h' : r'.SameLog r'') :
    r.SameLog r'' :=
  ⟨h'.base.trans h.base, h'.ents.trans h.ents, h'.snapshot.trans h.snapshot, h'.conf.trans h.conf,
    h'.confIndex.trans h.confIndex, h.committed.trans h'.committed⟩

/-- Until it installs the snapshot, the handling of a snapshot request leaves the log alone. -/
theorem Reach.sameLog_or_restored {m : Message} (hty : m.type = .snapshotReq)
    (h : Reach (.step m) r r') :
    r.SameLog r' ∨ ∃ snap, m.snapshot = some snap ∧ snap.lastIncludedIndex ≤ r'.log.committed := by
  induction h with
  | refl => exact Or.inl ⟨rfl, rfl, rfl, rfl, rfl, le_rfl⟩
  | tail _ he ih =>
    cases he.logChange with
    | same _ hs =>
      rcases ih with ih | ⟨snap, hsn, hle⟩
      · exact Or.inl (ih.trans hs)
      · exact Or.inr ⟨snap, hsn, hle.trans hs.committed⟩
    | extended e ha => simp [Call.appends, hty] at ha
    | followed m' _ _ hc hty' =>
      cases hc
      rw [hty] at hty'
      cases hty'
    | restored m' snap mem hc _ hsn =>
      cases hc
      refine Or.inr ⟨snap, hsn, ?_⟩
      rw [restored]
      split
      · rw [(setConfiguration_reconf _ _ _).eq]
      · exact le_rfl
    | saved _ _ _ hc => cases hc
    | compacted _ _ _ hc => cases hc

theorem Reach.sameProcess (h : Reach c r r') : r.SameProcess r' := by
  induction h with
  | refl => exact ⟨rfl, rfl, rfl⟩
  | tail _ he ih =>
    have := he.frame.1
    exact ⟨this.id.trans ih.id, this.cfg.trans ih.cfg, this.bootstrap.trans ih.bootstrap⟩

theorem Reach.id_eq (h : Reach c r r') : r'.id = r.id := h.sameProcess.id

/-- What a node deals with in the middle of a call, it deals with from the start. -/
theorem Reach.admits {m : Message} (h : Reach c r r') (hm : r'.Admits m) : r.Admits m := by
  have hterm : r.term ≤ r'.term := by
    clear hm
    induction h with
    | refl => exact le_rfl
    | tail _ he ih => exact ih.trans he.term_le
  exact ⟨h.id_eq ▸ hm.1, hterm.trans hm.2⟩

end RaftStore.Raft
