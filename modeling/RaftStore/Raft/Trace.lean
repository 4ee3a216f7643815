import RaftStore.Raft.Effect

/-! Every call is a sequence of effects.  A call that fails has done some of them; where it failed
between a change of term or vote and the write that makes it durable, the storage and the messages
are those after the effects before. -/

namespace RaftStore.Raft

open Lib RawNode

variable {α β : Type} {c : Call} {r r' : RawNode}

/-- The program does a sequence of effects, also when it fails. -/
def Exact (c : Call) (x : Core α) (r : RawNode) : Prop :=
  Meets x r (fun _ r' => Reach c r r') fun _ r' => Reach c r r'

/-- What is on disk, what was sent, and the indexes of the log are as after a sequence of effects. -/
def Crashed (c : Call) (r r' : RawNode) : Prop :=
  ∃ r'', Reach c r r'' ∧ r''.log.mem = r'.log.mem ∧ r''.journal = r'.journal ∧
    r''.log.committed = r'.log.committed ∧ r''.log.applied = r'.log.applied

def Fail.ignored : Fail → Bool
  | .error e => e.is .ignoredMessage
  | _ => false

/-- The program does a sequence of effects, and when it fails by more than ignoring a message, the
disk is as after one. -/
def Traced (c : Call) (x : Core α) (r : RawNode) : Prop :=
  Meets x r (fun _ r' => Reach c r r') fun e r' =>
    if e.ignored then Reach c r r' else Crashed c r r'

theorem Reach.crashed (h : Reach c r r') : Crashed c r r' :=
  ⟨r', h, rfl, rfl, rfl, rfl⟩

theorem Crashed.after {r'' : RawNode} (h : Reach c r r') (h' : Crashed c r' r'') :
    Crashed c r r'' := by
  obtain ⟨s, hs, hsame⟩ := h'
  exact ⟨s, h.trans hs, hsame⟩

theorem Exact.traced {x : Core α} (h : Exact c x r) : Traced c x r := by
  refine Meets.mono h (fun _ _ h => h) fun e r' h => ?_
  split
  · exact h
  · exact h.crashed

theorem Exact.bind {x : Core α} {f : α → Core β} (hx : Exact c x r)
    (hf : ∀ a r', Reach c r r' → Exact c (f a) r') : Exact c (x >>= f) r := by
  refine Meets.bind (Meets.mono hx (fun a r' h => ?_) fun _ _ h => h)
  exact Meets.mono (hf a r' h) (fun _ _ h' => h.trans h') fun _ _ h' => h.trans h'

theorem Exact.pure (a : α) : Exact c (pure a : Core α) r := Relation.ReflTransGen.refl

theorem Exact.throw (e : Fail) : Exact c (throw e : Core α) r := Relation.ReflTransGen.refl

theorem Exact.set (h : Reach c r r') : Exact c (set r' : Core Unit) r := h

theorem Exact.modify {f : RawNode → RawNode} (h : Reach c r (f r)) :
    Exact c (modify f : Core Unit) r := h

theorem exact_set_bind {f : PUnit → Core α} (h : Reach c r r') (hf : Exact c (f ⟨⟩) r') :
    Exact c (set r' >>= f) r := by
  rw [Exact, meets_bind, meets_set]
  exact Meets.mono hf (fun _ _ h' => h.trans h') fun _ _ h' => h.trans h'

theorem Traced.after {x : Core α} (h : Reach c r r') (hx : Traced c x r') :
    Meets x r' (fun _ r'' => Reach c r r'') fun e r'' =>
      if e.ignored then Reach c r r'' else Crashed c r r'' := by
  refine Meets.mono hx (fun _ _ h' => h.trans h') fun e r'' h' => ?_
  split at h' <;> rename_i hi
  · rw [if_pos hi]; exact h.trans h'
  · rw [if_neg hi]; exact .after h h'

theorem traced_set_bind {f : PUnit → Core α} (h : Reach c r r') (hf : Traced c (f ⟨⟩) r') :
    Traced c (set r' >>= f) r := by
  rw [Traced, meets_bind, meets_set]
  exact hf.after h

/-- A read of the state is followed by what depends on it. -/
theorem Exact.get_bind {f : RawNode → Core α} (h : Exact c (f r) r) : Exact c (get >>= f) r :=
  Meets.bind h

theorem Traced.get_bind {f : RawNode → Core α} (h : Traced c (f r) r) : Traced c (get >>= f) r :=
  Meets.bind h

theorem Effect.reach (h : Effect c r r') : Reach c r r' := .single h

theorem reach_withFaults (r : RawNode) (faults : List Bool) : Reach c r (r.withFaults faults) :=
  (Effect.quiet r.electionElapsed r.heartbeatElapsed r.randomizedElectionTimeout r.draws
    r.appliedSnapshot faults).reach

/-- A loop does a sequence of effects when each round does, and keeps what each round keeps. -/
theorem reach_foldl {f : RawNode → β → RawNode} (I : RawNode → Prop) {l : List β}
    (h : ∀ b ∈ l, ∀ r, I r → Reach c r (f r b) ∧ I (f r b)) (hr : I r) :
    Reach c r (l.foldl f r) ∧ I (l.foldl f r) := by
  induction l generalizing r with
  | nil => exact ⟨.refl, hr⟩
  | cons b l ih =>
    obtain ⟨h1, h2⟩ := h b List.mem_cons_self r hr
    obtain ⟨h3, h4⟩ := ih (fun b hb => h b (List.mem_cons_of_mem _ hb)) h2
    exact ⟨h1.trans h3, h4⟩

/-! ### Persisting -/

theorem saved_eq_self (h1 : r.hardState = r.persisted) (h2 : r.persisted = r.log.mem.hardState) :
    r.saved = r := by
  have h3 : r.log.mem.hardState = r.hardState := by rw [h1, h2]
  calc r.saved = { r.withMem { r.log.mem with hardState := r.log.mem.hardState } with
        persisted := r.persisted } := by rw [saved, h3, ← h1]
    _ = r := rfl

theorem meets_persistHardState {Q : Unit → RawNode → Prop} {F : Fail → RawNode → Prop}
    (hsync : r.persisted = r.log.mem.hardState) (hterm : r.log.mem.hardState.term ≤ r.term)
    (hok : ∀ faults, Q () (r.saved.withFaults faults))
    (hf : ∀ e faults, e.ignored = false → F e (r.withFaults faults)) :
    Meets persistHardState r Q F := by
  rw [persistHardState, meets_bind, meets_get]
  split
  · rename_i h
    have := hok r.log.storage.faults
    rw [saved_eq_self h hsync] at this
    exact this
  · have hset : r.log.mem.setHardState r.hardState =
        .ok { r.log.mem with hardState := r.hardState } := by
      rw [MemoryStorage.setHardState, if_neg (show ¬ r.hardState.term < _ from not_lt.mpr hterm)]
    rw [meets_bind, wrapping, meets_mapFail, onLog, meets_onPart, RaftLog.onDisk, meets_onPart]
    refine Disk.meets_write (fun mem faults h => ?_) fun e faults he => ?_
    · rw [hset] at h
      cases h
      exact hok faults
    · rcases he with he | he
      · exact hf _ faults (by simp [Fail.wrap, Fail.ignored, Error.wrap, Error.is, he])
      · rw [hset] at he
        exact nomatch he

theorem exact_persistHardState (hr : r.Wf) : Exact c persistHardState r := by
  refine meets_persistHardState hr.synced hr.term_eq.le (fun faults => ?_) fun _ faults _ => ?_
  · exact (Effect.persist.reach).trans (reach_withFaults _ _)
  · exact reach_withFaults _ _

/-! ### Sending -/

/-- What sending leaves as it is. -/
structure SameCore (r r' : RawNode) : Prop where
  id : r'.id = r.id
  term : r'.term = r.term
  state : r'.state = r.state
  log : r'.log = r.log
  conf : r'.conf = r.conf
  reads : r'.pendingReads = r.pendingReads

theorem SameCore.refl (r : RawNode) : SameCore r r := ⟨rfl, rfl, rfl, rfl, rfl, rfl⟩

theorem SameCore.trans {r'' : RawNode} (h : SameCore r r') (h' : SameCore r' r'') :
    SameCore r r'' :=
  ⟨h'.id.trans h.id, h'.term.trans h.term, h'.state.trans h.state, h'.log.trans h.log,
    h'.conf.trans h.conf, h'.reads.trans h.reads⟩

theorem reach_sendSnapshot (hr : r.Wf) (dest : NodeID) :
    Reach c r (r.sendSnapshot dest) ∧ SameCore r (r.sendSnapshot dest) := by
  simp only [sendSnapshot]
  split
  · exact ⟨.refl, .refl r⟩
  · rename_i pr hp
    split
    · exact ⟨.refl, .refl r⟩
    · split
      · exact ⟨.refl, .refl r⟩
      · rename_i he
        let p : Progress :=
          { pr with pendingSnapshot := r.log.mem.snapshot.lastIncludedIndex, snapshotTicks := 0 }
        have h1 : Effect c r (r.setPeer dest p) :=
          .setNext dest pr p hp rfl (hr.next_pos dest pr hp) le_rfl id
        have h2 : (r.setPeer dest p).peer dest = some p :=
          peer_setPeer_self hp _
        have he' : (r.setPeer dest p).log.mem.snapshot.isEmpty = false :=
          Bool.eq_false_iff.mpr he
        exact ⟨.tail h1.reach (.send _ (.snapshot dest p h2 he')), ⟨rfl, rfl, rfl, rfl, rfl, rfl⟩⟩

theorem reach_sendAppendWithRead (hr : r.Wf) (dest : NodeID) {readID : UInt64}
    (hid : readID = 0 ∨ ∃ req ∈ r.pendingReads, req.id = readID) :
    Reach c r (r.sendAppendWithRead dest readID) ∧ SameCore r (r.sendAppendWithRead dest readID) := by
  simp only [sendAppendWithRead]
  split
  · exact ⟨.refl, .refl r⟩
  · rename_i pr hp
    split
    · exact ⟨.refl, .refl r⟩
    · split
      · exact reach_sendSnapshot hr dest
      · rename_i prevTerm ht
        split
        · exact ⟨.refl, .refl r⟩
        · rename_i entries he
          exact ⟨(Effect.send _ (.append dest pr prevTerm entries readID hp ht he hid)).reach,
            ⟨rfl, rfl, rfl, rfl, rfl, rfl⟩⟩

theorem reach_sendAppend (hr : r.Wf) (dest : NodeID) :
    Reach c r (r.sendAppend dest) ∧ SameCore r (r.sendAppend dest) :=
  reach_sendAppendWithRead hr dest (Or.inl rfl)

theorem reach_broadcastAppend (hr : r.Wf) :
    Reach c r r.broadcastAppend ∧ SameCore r r.broadcastAppend := by
  have h := reach_foldl (c := c) (f := sendAppend) (fun r' => r'.Wf ∧ SameCore r r')
    (l := r.conf.peers r.id) (fun dest _ r' hr' => ?_) ⟨hr, .refl r⟩
  · exact ⟨h.1, h.2.2⟩
  · obtain ⟨h1, h2⟩ := reach_sendAppend (c := c) hr'.1 dest
    exact ⟨h1, h1.wf hr'.1, hr'.2.trans h2⟩

/-- A confirmation round for one read. -/
theorem reach_sendRead (hr : r.Wf) {id : UInt64} (hid : ∃ req ∈ r.pendingReads, req.id = id)
    (peers : List NodeID) :
    Reach c r (peers.foldl (fun r peer => r.sendAppendWithRead peer id) r) ∧
      SameCore r (peers.foldl (fun r peer => r.sendAppendWithRead peer id) r) := by
  have h := reach_foldl (c := c) (f := fun r peer => r.sendAppendWithRead peer id)
    (fun r' => r'.Wf ∧ SameCore r r') (l := peers) (fun dest _ r' hr' => ?_) ⟨hr, .refl r⟩
  · exact ⟨h.1, h.2.2⟩
  · obtain ⟨h1, h2⟩ := reach_sendAppendWithRead (c := c) hr'.1 dest
      (Or.inr (hr'.2.reads ▸ hid))
    exact ⟨h1, h1.wf hr'.1, hr'.2.trans h2⟩

theorem reach_resendReads (hr : r.Wf) : Reach c r r.resendReads := by
  refine (reach_foldl (c := c) (fun r' => r'.Wf ∧ SameCore r r') (l := r.pendingReads)
    (fun req hreq r' hr' => ?_) ⟨hr, .refl r⟩).1
  obtain ⟨h1, h2⟩ := reach_sendRead (c := c) hr'.1 ⟨req, hr'.2.reads ▸ hreq, rfl⟩
    (r'.conf.peers r'.id)
  exact ⟨h1, h1.wf hr'.1, hr'.2.trans h2⟩

theorem reach_expirePendingSnapshot (hr : r.Wf) (retryAfter : ℕ) (id : NodeID) :
    Reach c r (expirePendingSnapshot retryAfter r id) := by
  rw [expirePendingSnapshot]
  split
  · exact .refl
  · rename_i pr hp
    have hnext := hr.next_pos id pr hp
    split
    · exact .refl
    · split
      · refine (Effect.setNext id pr _ hp ?_ ?_ ?_ ?_).reach
        · rfl
        · exact hnext
        · exact le_rfl
        · exact fun h => h
      · refine (Effect.setNext id pr _ hp ?_ ?_ ?_ ?_).reach
        · rfl
        · exact hnext
        · exact le_rfl
        · exact fun h => h

theorem reach_expirePendingSnapshots (hr : r.Wf) : Reach c r r.expirePendingSnapshots := by
  refine (reach_foldl (c := c) RawNode.Wf (l := r.conf.members) (fun id _ r' hr' => ?_) hr).1
  have h := fun n => reach_expirePendingSnapshot (c := c) hr' n id
  exact ⟨h _, (h _).wf hr'⟩

theorem reach_requestVotes {campaignTerm lastTerm : ℕ} {preVote : Bool}
    (h : preVote = true ∧ r.state = .preCandidate ∧ campaignTerm = r.term + 1 ∨
      preVote = false ∧ r.state = .candidate ∧ campaignTerm = r.term ∧
        r.log.lastTerm = .ok lastTerm) :
    Reach c r (r.requestVotes campaignTerm preVote lastTerm) := by
  refine (reach_foldl (c := c) (fun r' => SameCore r r') (l := r.conf.peers r.id)
    (fun peer _ r' hr' => ?_) (.refl r)).1
  split
  · exact ⟨.refl, hr'⟩
  · refine ⟨(Effect.send _ ?_).reach, hr'.trans ⟨rfl, rfl, rfl, rfl, rfl, rfl⟩⟩
    rcases h with ⟨rfl, hs, ht⟩ | ⟨rfl, hs, ht, hl⟩
    · rw [ht, ← hr'.term, ← hr'.log]
      exact .pollReq peer lastTerm (hr'.state ▸ hs)
    · rw [ht, ← hr'.term, ← hr'.log]
      exact .voteReq peer lastTerm (hr'.state ▸ hs) (hr'.log ▸ hl)

/-! ### Appending and committing -/

theorem meets_onLog {x : LogM α} {Q : α → RawNode → Prop} {F : Fail → RawNode → Prop}
    (h : Meets x r.log (fun a l => Q a { r with log := l }) fun e l => F e { r with log := l }) :
    Meets (onLog x) r Q F := by
  rw [onLog, meets_onPart]
  exact h

theorem splice_next (m : MemoryStorage) (e : LogEntry) (he : e.index = m.lastIndex + 1) :
    m.splice e.index [e] = { m with ents := m.ents ++ [e] } := by
  have hlast : m.lastIndex = m.offset + m.ents.length := rfl
  rw [MemoryStorage.splice, List.take_of_length_le (by omega)]

/-- The leader's own append, up to the recomputation of the configuration. -/
theorem meets_appendNext {e : LogEntry} {Q : Unit → RawNode → Prop} {F : Fail → RawNode → Prop}
    (hr : r.Wf) (he : e.index = r.log.lastIndex + 1)
    (hok : ∀ faults, Q () ((r.withFaults faults).withMem
      { r.log.mem with ents := r.log.mem.ents ++ [e] }))
    (hf : ∀ e faults, F (.error e) (r.withFaults faults)) :
    Meets (onLog (RaftLog.append [e])) r Q F := by
  refine meets_onLog (RaftLog.meets_append hr.log nofun (fun e' rest faults heq _ _ _ => ?_)
    fun e faults => hf e faults)
  cases heq
  rw [splice_next _ _ he]
  exact hok faults

theorem reach_own {i : ℕ} {p : Progress} (ha : c.appends = true) (hp : r.peer r.id = some p)
    (hi : i = r.log.lastIndex) :
    Reach c r (r.setPeer r.id { p with matched := i, next := i + 1 }) := by
  subst hi
  exact (Effect.ownMatch p hp ha).reach

theorem reach_ownMatch {i : ℕ} (ha : c.appends = true) (hi : i = r.log.lastIndex) :
    Reach c r (match r.peer r.id with
      | none => r
      | some self => r.setPeer r.id { self with matched := i, next := i + 1 }) := by
  split
  · exact .refl
  · rename_i p hp
    exact reach_own ha hp hi

theorem extended_reconf (r : RawNode) (e : LogEntry) :
    (r.withMem { r.log.mem with ents := r.log.mem.ents ++ [e] }).Reconf (r.extended e) := by
  rw [extended]
  split
  · exact refreshed_reconf _
  · exact .refl _

theorem extended_log (r : RawNode) (e : LogEntry) :
    (r.extended e).log =
      (r.withMem { r.log.mem with ents := r.log.mem.ents ++ [e] }).log := by
  rw [(extended_reconf r e).eq]

theorem extended_lastIndex (r : RawNode) (e : LogEntry) :
    (r.extended e).log.lastIndex = r.log.lastIndex + 1 := by
  rw [extended_log]
  simp [RaftLog.lastIndex, MemoryStorage.lastIndex, withMem, MemoryStorage.offset]
  omega

/-- Recomputing the configuration either succeeds or leaves the node as it is. -/
theorem meets_refresh {Q : Unit → RawNode → Prop} {F : Fail → RawNode → Prop}
    (hok : Q () r.refreshed) (hf : ∀ e, F (.error e) r.refreshed) :
    Meets (tryUpdate refreshConfiguration) r Q F := by
  rw [tryUpdate, meets_bind, meets_get]
  rw [refreshed] at hok hf
  split
  · rename_i e h
    rw [h] at hf
    exact hf e
  · rename_i r' h
    rw [h] at hok
    exact hok

theorem exact_appendOwn {e : LogEntry} (ha : c.appends = true) (hr : r.Wf) (hs : r.state = .leader)
    (hcc : e.type = .confChange → ∃ cc, r.Proposes c cc ∧ e.command = cc.encode) :
    Exact c (appendOwn e) r := by
  rw [appendOwn]
  refine Exact.get_bind (Meets.bind (meets_appendNext hr rfl (fun faults => ?_)
    fun e faults => reach_withFaults r faults))
  let e' : LogEntry := { e with term := r.term, index := r.log.lastIndex + 1 }
  have hext : Reach c r ((r.withFaults faults).extended e') := by
    refine (reach_withFaults r faults).tail (.extend e' ha hs rfl rfl fun ht => ?_)
    obtain ⟨cc, ⟨h1, h2, h3⟩, h4⟩ := hcc ht
    exact ⟨cc, ⟨h1, h2, h3⟩, h4⟩
  have hown := reach_ownMatch ha (extended_lastIndex (r.withFaults faults) e').symm
  rw [meets_bind]
  split
  · rename_i ht
    have heq : (r.withFaults faults).extended e' = ((r.withFaults faults).withMem
        { r.log.mem with ents := r.log.mem.ents ++ [e'] }).refreshed := if_pos ht
    rw [heq] at hext hown
    exact meets_refresh (hext.trans hown) fun _ => hext
  · rename_i ht
    have heq : (r.withFaults faults).extended e' = (r.withFaults faults).withMem
        { r.log.mem with ents := r.log.mem.ents ++ [e'] } := if_neg ht
    rw [heq] at hext hown
    exact hext.trans hown

theorem committedInCurrentTerm_iff :
    r.committedInCurrentTerm = true ↔
      r.log.committed ≠ 0 ∧ r.log.term r.log.committed = .ok r.term := by
  rw [committedInCurrentTerm]
  split
  · rename_i h
    simp [h]
  · rename_i h
    split
    · rename_i ht
      simp [ht]
    · rename_i ht
      simp [h, ht]

theorem reach_stepDownIfRemoved : Reach c r r.stepDownIfRemoved := by
  rw [stepDownIfRemoved]
  split
  · exact .refl
  · split
    · exact .refl
    · exact (Effect.resign None).reach

/-- A leader's commit is one effect, and what follows it starts with an entry of the leader's term
committed. -/
theorem exact_maybeAdvanceCommitWith {lj : Core Unit} (hr : r.Wf)
    (hlj : ∀ r', r'.Wf → r'.committedInCurrentTerm = true → Exact c lj r') :
    Exact c (maybeAdvanceCommitWith lj) r := by
  rw [maybeAdvanceCommitWith]
  refine Exact.get_bind ?_
  split
  · exact Exact.pure _
  · rename_i hs
    dsimp only
    split
    · exact Exact.pure _
    · rename_i hlt
      split
      · exact Exact.throw _
      · rename_i term ht
        split
        · exact Exact.pure _
        · rename_i hterm
          have hs' : r.state = .leader := not_not.mp hs
          have ht' : r.log.term (r.conf.committedIndex r.matchOf) = .ok r.term := by
            rw [not_not.mp hterm] at ht
            exact ht
          have hlt' : r.log.committed < r.conf.committedIndex r.matchOf := not_le.mp hlt
          have hle := RaftLog.le_lastIndex_of_term ht'
          let r1 : RawNode :=
            { r with log := { r.log with committed := r.conf.committedIndex r.matchOf } }
          have h1 : Reach c r r1 := (Effect.commit _ hs' rfl hlt' hle ht').reach
          have hw1 : r1.Wf := h1.wf hr
          have hc1 : r1.committedInCurrentTerm = true :=
            committedInCurrentTerm_iff.mpr ⟨by simp only [r1]; omega, ht'⟩
          have hrest : ∀ r2, r2.Wf → r2.committedInCurrentTerm = true →
              Exact c (do lj; modify stepDownIfRemoved; pure true : Core Bool) r2 :=
            fun r2 hw2 hc2 => (hlj r2 hw2 hc2).bind fun _ r3 h3 =>
              (Exact.modify reach_stepDownIfRemoved).bind fun _ _ _ => Exact.pure _
          refine Meets.bind (meets_onLog (RaftLog.meets_commitTo
            (fun h => absurd h hlt) (fun _ _ => ?_) fun _ _ h => absurd h (not_lt.mpr hle)))
          refine Meets.bind (meets_persistHardState hw1.synced hw1.term_eq.le (fun faults => ?_)
            fun _ faults _ => h1.trans (reach_withFaults _ _))
          have h2 : Reach c r1 (r1.saved.withFaults faults) :=
            (Effect.persist.reach).trans (reach_withFaults _ _)
          exact Meets.mono (hrest _ (h2.wf hw1) hc1)
            (fun _ _ h => (h1.trans h2).trans h) fun _ _ h => (h1.trans h2).trans h

theorem exact_maybeLeaveJointWith {propose : LogEntry → Core ℕ}
    (hc : r.committedInCurrentTerm = true)
    (hp : ∀ e, r.state = .leader → (e.type = .confChange →
      ∃ cc, r.Proposes c cc ∧ e.command = cc.encode) → Exact c (propose e) r) :
    Exact c (maybeLeaveJointWith propose) r := by
  rw [maybeLeaveJointWith]
  refine Exact.get_bind ?_
  split
  · exact Exact.pure _
  · rename_i hs
    simp only [Bool.or_eq_true, not_or, decide_eq_true_eq] at hs
    split
    · exact Exact.pure _
    · rename_i hi
      split
      · exact Exact.throw _
      · rename_i cc hcc
        have he := hp { type := .confChange, command := cc.encode } (not_not.mp hs.1)
          fun _ => ⟨cc, ⟨hc, not_lt.mp hi, Or.inr hcc⟩, rfl⟩
        have he' := Exact.bind he fun _ _ _ => Exact.pure ()
        rw [Exact, meets_tryCatch]
        refine Meets.mono he' (fun _ _ h => h) fun e r' h => ?_
        split
        · split
          · exact h
          · exact h
        · exact h

theorem exact_proposeWith {advance : Core Bool} {e : LogEntry} (ha : c.appends = true) (hr : r.Wf)
    (hcc : e.type = .confChange → ∃ cc, r.Proposes c cc ∧ e.command = cc.encode)
    (hadv : ∀ r', r'.Wf → Exact c advance r') : Exact c (proposeWith advance e) r := by
  rw [proposeWith]
  refine Exact.get_bind ?_
  split
  · exact Exact.throw _
  · rename_i hs
    refine (exact_appendOwn ha hr (not_not.mp hs) hcc).bind fun _ r1 h1 => ?_
    refine (hadv r1 (h1.wf hr)).bind fun _ r2 h2 => ?_
    have hw2 := h2.wf (h1.wf hr)
    exact (Exact.modify (reach_broadcastAppend hw2).1).bind fun _ _ _ => Exact.pure _

theorem exact_proposeN (n : ℕ) {e : LogEntry} (ha : c.appends = true) (hr : r.Wf)
    (hcc : e.type = .confChange → ∃ cc, r.Proposes c cc ∧ e.command = cc.encode) :
    Exact c (proposeN n e) r := by
  induction n generalizing e r with
  | zero => exact Exact.throw _
  | succ n ih =>
    rw [proposeN]
    refine exact_proposeWith ha hr hcc fun r1 h1 => ?_
    refine exact_maybeAdvanceCommitWith h1 fun r2 h2 hc2 => ?_
    exact exact_maybeLeaveJointWith hc2 fun e _ he => ih h2 he

theorem exact_maybeAdvanceCommit (ha : c.appends = true) (hr : r.Wf) :
    Exact c maybeAdvanceCommit r :=
  exact_maybeAdvanceCommitWith hr fun _ h2 hc2 =>
    exact_maybeLeaveJointWith hc2 fun _ _ he => exact_proposeN 1 ha h2 he

theorem exact_propose {e : LogEntry} (ha : c.appends = true) (hr : r.Wf)
    (hcc : e.type = .confChange → ∃ cc, r.Proposes c cc ∧ e.command = cc.encode) :
    Exact c (propose e) r :=
  exact_proposeWith ha hr hcc fun _ h1 => exact_maybeAdvanceCommit ha h1

theorem exact_proposeConfChange {target : Configuration} (hr : r.Wf)
    (hc : c = .proposeConfChange target) : Exact c (proposeConfChange target) r := by
  rw [proposeConfChange]
  refine Exact.get_bind ?_
  split
  · exact Exact.throw _
  · split
    · exact Exact.throw _
    · split
      · exact Exact.throw _
      · rename_i hi
        split
        · exact Exact.throw _
        · rename_i hcm
          split
          · exact Exact.throw _
          · rename_i cc hcc
            exact exact_propose (hc ▸ rfl) hr fun _ => ⟨cc, ⟨by simpa using hcm, not_lt.mp hi,
              Or.inl ⟨target, hc, hcc⟩⟩, rfl⟩

/-! ### Reads and responses -/

theorem exact_readIndex {id : UInt64} (hr : r.Wf) (hc : c = .readIndex id) :
    Exact c (readIndex id) r := by
  rw [readIndex]
  refine Exact.get_bind ?_
  split
  · exact Exact.throw _
  · rename_i hs
    split
    · exact Exact.throw _
    · rename_i hcm
      have hs' : r.state = .leader := not_not.mp hs
      have hcm' : r.committedInCurrentTerm = true := by simpa using hcm
      dsimp only
      split
      · rename_i hq
        exact Exact.set (Effect.readNow id hc hs' hcm' hq).reach
      · have h1 := (Effect.openRead (c := c) id hc hs' hcm').reach
        have hmem : ∃ req ∈ r.pendingReads ++ [(⟨id, r.log.committed, fun n => n = r.id⟩ :
            ReadRequest)], req.id = id := ⟨_, List.mem_append_right _ List.mem_cons_self, rfl⟩
        exact Exact.set (h1.trans (reach_sendRead (h1.wf hr) hmem _).1)

theorem exact_recordMatch {m : Message} {pr : Progress} (hr : r.Wf) (hc : c = .step m)
    (hty : m.type = .appendResp ∨ m.type = .snapshotResp) (hsu : m.success = true)
    (ht : m.term = r.term) (hp : r.peer m.sender = some pr) : Exact c (recordMatch pr m) r := by
  have ha : c.appends = true := by
    rw [hc]
    rcases hty with h | h <;> simp [Call.appends, h]
  rw [recordMatch]
  refine Exact.get_bind ?_
  split
  · rename_i hlt
    refine (Exact.set (Effect.setMatch m pr hc hty hsu ht hp hlt).reach).bind fun _ r1 h1 => ?_
    refine (exact_maybeAdvanceCommit ha (h1.wf hr)).bind fun _ r2 h2 => ?_
    have hw2 := h2.wf (h1.wf hr)
    refine Exact.modify ?_
    split
    · exact (reach_broadcastAppend hw2).1
    · split
      · exact (reach_sendAppend hw2 _).1
      · exact .refl
  · refine Exact.set ?_
    split
    · exact (reach_sendAppend hr _).1
    · exact .refl

theorem reach_backUp {pr : Progress} {m : Message} (hr : r.Wf) (hp : r.peer m.sender = some pr) :
    Reach c r (r.backUp pr m) := by
  have hpos : 1 ≤ (if max 1 (r.nextAfterRejection pr m) ≤ pr.matched then pr.matched + 1
      else max 1 (r.nextAfterRejection pr m)) ∧
      pr.matched < if max 1 (r.nextAfterRejection pr m) ≤ pr.matched then pr.matched + 1
        else max 1 (r.nextAfterRejection pr m) := by
    split <;> omega
  simp only [backUp]
  generalize (if max 1 (r.nextAfterRejection pr m) ≤ pr.matched then pr.matched + 1
    else max 1 (r.nextAfterRejection pr m)) = next at *
  split
  · rename_i hlt
    have h := (Effect.setNext (c := c) m.sender pr { pr with next } hp rfl hpos.1 hlt.le
      fun _ => hpos.2).reach
    exact h.trans (reach_sendAppend (h.wf hr) _).1
  · exact .refl

theorem exact_handleAppendResponse {m : Message} (hr : r.Wf) (hc : c = .step m)
    (hty : m.type = .appendResp) (ht : m.term = r.term) : Exact c (handleAppendResponse m) r := by
  rw [handleAppendResponse]
  refine Exact.get_bind ?_
  split
  · exact Exact.throw _
  · rename_i hs
    split
    · exact Exact.throw _
    · rename_i pr hp
      have hrest : ∀ r1, r1.Wf → r1.term = r.term → r1.peer m.sender = some pr →
          Exact c (if m.success then recordMatch pr m else set (r1.backUp pr m)) r1 := by
        intro r1 hw1 ht1 hp1
        split
        · rename_i hsu
          exact exact_recordMatch hw1 hc (Or.inl hty) hsu (ht.trans ht1.symm) hp1
        · exact Exact.set (reach_backUp hw1 hp1)
      dsimp only
      split
      · rename_i hid
        have h1 := (Effect.ackRead (c := c) m hc hty ht (not_not.mp hs) hid).reach
        exact exact_set_bind h1 (hrest _ (h1.wf hr) rfl hp)
      · exact exact_set_bind .refl (hrest r hr rfl hp)

theorem exact_handleSnapshotResponse {m : Message} (hr : r.Wf) (hc : c = .step m)
    (hty : m.type = .snapshotResp) (ht : m.term = r.term) :
    Exact c (handleSnapshotResponse m) r := by
  rw [handleSnapshotResponse]
  refine Exact.get_bind ?_
  split
  · exact Exact.throw _
  · split
    · exact Exact.throw _
    · rename_i pr hp
      let pr' : Progress := { pr with pendingSnapshot := 0, snapshotTicks := 0 }
      have h1 : Reach c r (r.setPeer m.sender pr') :=
        (Effect.setNext m.sender pr pr' hp rfl (hr.next_pos _ pr hp) le_rfl id).reach
      have hpeer : (r.setPeer m.sender pr').peer m.sender = some pr' :=
        peer_setPeer_self hp _
      have hrest : Exact c (if !m.success then pure () else recordMatch pr' m)
          (r.setPeer m.sender pr') := by
        split
        · exact Exact.pure _
        · rename_i hsu
          exact exact_recordMatch (h1.wf hr) hc (Or.inr hty) (by simpa using hsu) ht hpeer
      exact exact_set_bind h1 hrest

/-! ### Elections -/

/-- The effects of taking over: lead, append the empty entry, record it, commit, tell everyone. -/
theorem exact_becomeLeader (hel : c.elects = true) (hr : r.Wf) (hs : r.state = .candidate)
    (hq : r.conf.hasQuorum (fun id => r.votes id = some true) = true) :
    Exact c becomeLeader r := by
  have ha := Call.appends_of_elects hel
  rw [becomeLeader]
  refine Exact.get_bind ?_
  rw [if_neg (by rw [hs]; rintro ⟨⟩)]
  have h1 : Reach c r r.leading := (Effect.lead hs hq hel).reach
  have hw1 := h1.wf hr
  have hlog : r.leading.log = r.log := by rw [leading, reset_eq]
  have hterm : r.leading.term = r.term := by rw [leading, reset_eq]
  let noop : LogEntry := { term := r.term, index := r.log.lastIndex + 1, type := .noOp }
  have hidx : noop.index = r.leading.log.lastIndex + 1 := by rw [hlog]
  have hrest : ∀ r2, r2.Wf → Exact c (do
      let _ ← maybeAdvanceCommit
      persistHardState
      modify RawNode.broadcastAppend : Core Unit) r2 := fun r2 hw2 =>
    (exact_maybeAdvanceCommit ha hw2).bind fun _ r3 h3 =>
      (exact_persistHardState (h3.wf hw2)).bind fun _ r4 h4 =>
        Exact.modify (reach_broadcastAppend (h4.wf (h3.wf hw2))).1
  refine exact_set_bind h1 ?_
  rw [wrapping, Exact, meets_bind, meets_mapFail]
  refine meets_appendNext hw1 hidx (fun faults => ?_) fun e faults => reach_withFaults _ faults
  have h2 : Reach c r.leading ((r.leading.withFaults faults).extended noop) :=
    (reach_withFaults _ faults).tail (.extend noop ha rfl hterm.symm hidx (by rintro ⟨⟩))
  have hw2 := h2.wf hw1
  have hlast : noop.index = ((r.leading.withFaults faults).extended noop).log.lastIndex := by
    rw [extended_lastIndex]
    exact hidx
  rw [extended, if_neg (by rintro ⟨⟩)] at h2 hw2 hlast
  rw [meets_bind, meets_get, meets_bind]
  split
  · exact h2
  · rename_i p hp
    rw [meets_set]
    have h3 := reach_own ha hp hlast
    have hw3 := h3.wf hw2
    exact Meets.mono (hrest _ hw3) (fun _ _ h => (h2.trans h3).trans h)
      fun _ _ h => (h2.trans h3).trans h

/-- How a message that is dispatched stands to the node's term: it is of that term, or of a later
one and about a straw poll. -/
def RawNode.Dispatches (r : RawNode) (m : Message) : Prop :=
  m.term = r.term ∨ r.term < m.term ∧ m.preVote = true ∧ (m.type = .voteReq ∨ m.type = .voteResp)

theorem RawNode.Dispatches.le {m : Message} (h : r.Dispatches m) : r.term ≤ m.term :=
  h.elim (fun h => h.ge) fun h => h.1.le

theorem RawNode.Dispatches.term_eq {m : Message} (h : r.Dispatches m) (hp : m.preVote = false) :
    m.term = r.term := by
  refine h.resolve_right fun h => ?_
  rw [hp] at h
  exact nomatch h.2.1

theorem RawNode.Dispatches.term_of_type {m : Message} {t : MessageType} (h : r.Dispatches m)
    (ht : m.type = t) (h1 : t ≠ .voteReq) (h2 : t ≠ .voteResp) : m.term = r.term :=
  h.resolve_right fun h => h.2.2.elim (fun h' => h1 (ht ▸ h')) fun h' => h2 (ht ▸ h')

/-- A pre-vote is granted only for a later term. -/
theorem term_lt_of_canVote {m : Message} (hp : m.preVote = true) (h : r.canVote m = true) :
    r.term < m.term := by
  rw [canVote, if_pos hp] at h
  split at h
  · exact nomatch h
  · rename_i hle
    exact not_le.mp hle

theorem reach_recordVote {sender : NodeID} {granted : Bool} (hs : r.state ≠ .leader)
    (h : (c.campaigns = true ∨ r.state = .candidate) ∧ sender = r.id ∧ granted = true ∨
      r.CountsVote c sender granted) :
    Reach c r (r.recordVote sender granted) := by
  rw [recordVote]
  split
  · exact .refl
  · rename_i hv
    exact (Effect.tally sender granted hv h hs).reach

/-- A tally that decides nothing leaves the node as it is. -/
theorem meets_tallyVotesWith {campaign : Core Unit} (hel : c.elects = true) (hr : r.Wf)
    (hs : r.state = .candidate ∨ r.state = .preCandidate)
    (hcamp : r.state = .preCandidate → Traced c campaign r) :
    Meets (tallyVotesWith campaign) r (fun done r' => Reach c r r' ∧ (done = false → r' = r))
      fun e r' => if e.ignored then Reach c r r' else Crashed c r r' := by
  rw [tallyVotesWith, meets_bind, meets_get]
  split
  · rename_i hq
    split
    · rename_i hp
      rw [meets_bind]
      exact Meets.mono (hcamp hp) (fun _ _ h => ⟨h, nofun⟩) fun _ _ h => h
    · rename_i hp
      rw [meets_bind]
      exact Meets.mono (exact_becomeLeader hel hr (hs.resolve_right hp) hq).traced
        (fun _ _ h => ⟨h, nofun⟩) fun _ _ h => h
  · split
    · exact ⟨(Effect.resign None).reach, nofun⟩
    · exact ⟨.refl, fun _ => rfl⟩

theorem recordVote_frame (r : RawNode) (sender : NodeID) (granted : Bool) :
    (r.recordVote sender granted).state = r.state ∧ (r.recordVote sender granted).term = r.term ∧
      (r.recordVote sender granted).log = r.log := by
  rw [recordVote]
  split <;> exact ⟨rfl, rfl, rfl⟩

/-- Who votes for itself has started a campaign in this call, or has won a straw poll. -/
theorem campaigns_or_candidate {preVote : Bool}
    (hs : r.state = if preVote then .preCandidate else .candidate)
    (hpoll : preVote = true → c.campaigns = true) : c.campaigns = true ∨ r.state = .candidate := by
  cases preVote with
  | true => exact Or.inl (hpoll rfl)
  | false => exact Or.inr hs

/-- A campaign once the node is a candidate or polls: it votes for itself, and asks the others unless
its own vote decides. -/
def gatherVotes (campaign : Core Unit) (preVote : Bool) : Core Unit := do
  let r ← get
  let campaignTerm := if preVote then r.term + 1 else r.term
  set (r.recordVote r.id true)
  let done ← tallyVotesWith campaign
  if done then pure ()
  else do
    let lastTerm ← reads fun r => r.log.lastTerm
    modify fun r => r.requestVotes campaignTerm preVote lastTerm

/-- A voter that does not lead opens a straw poll without writing anything. -/
theorem meets_campaignWith_poll {campaign : Core Unit} {Q : Unit → RawNode → Prop}
    {F : Fail → RawNode → Prop} (hs : r.state ≠ .leader) (hp : r.promotable = true)
    (h : Meets (gatherVotes campaign true) r.polling Q F) :
    Meets (campaignWith campaign true) r Q F := by
  rw [campaignWith, meets_bind, meets_get, if_neg (by simp [hp]), meets_bind, if_pos rfl,
    becomePreCandidate, meets_bind, meets_get, if_neg hs, meets_set]
  exact h

/-- A voter that does not lead stands for election in the next term, which it first writes down. -/
theorem meets_campaignWith_stand {campaign : Core Unit} {Q : Unit → RawNode → Prop}
    {F : Fail → RawNode → Prop} (hs : r.state ≠ .leader) (hp : r.promotable = true)
    (h : Meets persistHardState r.standing (fun _ r' => Meets (gatherVotes campaign false) r' Q F) F) :
    Meets (campaignWith campaign false) r Q F := by
  rw [campaignWith, meets_bind, meets_get, if_neg (by simp [hp]), meets_bind, if_neg (by rintro ⟨⟩),
    meets_bind, becomeCandidate, meets_bind, meets_get, if_neg hs, meets_set]
  exact h

theorem standing_unsaved (hr : r.Wf) : r.standing.persisted = r.standing.log.mem.hardState ∧
    r.standing.log.mem.hardState.term ≤ r.standing.term := by
  rw [standing, reset_eq]
  exact ⟨hr.synced, hr.term_eq.le.trans (Nat.le_succ _)⟩

/-- A campaign of a leader is a mistake of its driver, and one of a non-voter does nothing. -/
theorem traced_campaignWith_idle {campaign : Core Unit} {preVote : Bool}
    (h : r.promotable = false ∨ r.state = .leader) : Traced c (campaignWith campaign preVote) r := by
  rw [campaignWith]
  refine Traced.get_bind ?_
  split
  · exact (Exact.pure _).traced
  · rename_i hprom
    have hs : r.state = .leader := h.resolve_left (by simpa using hprom)
    rw [Traced, meets_bind]
    cases preVote with
    | true =>
      rw [if_pos rfl, becomePreCandidate, meets_bind, meets_get, if_pos hs]
      exact Reach.crashed .refl
    | false =>
      rw [if_neg nofun, meets_bind, becomeCandidate, meets_bind, meets_get, if_pos hs]
      exact Reach.crashed .refl

theorem traced_votes {campaign : Core Unit} {preVote : Bool} (hel : c.elects = true) (hr : r.Wf)
    (hs : r.state = if preVote then .preCandidate else .candidate)
    (hpoll : preVote = true → c.campaigns = true)
    (hcamp : preVote = true → ∀ r', r'.Wf → r'.state = .preCandidate → Traced c campaign r') :
    Traced c (gatherVotes campaign preVote) r := by
  have hs' : r.state ≠ .leader := by rw [hs]; split <;> nofun
  have h1 : Reach c r (r.recordVote r.id true) :=
    reach_recordVote hs' (Or.inl ⟨campaigns_or_candidate hs hpoll, rfl, rfl⟩)
  obtain ⟨hs1, ht1, hl1⟩ := recordVote_frame r r.id true
  have hw1 := h1.wf hr
  refine Traced.get_bind (traced_set_bind h1 ?_)
  generalize r.recordVote r.id true = r1 at *
  refine Meets.bind (Meets.mono (meets_tallyVotesWith hel hw1 ?_ ?_) ?_ fun _ _ h => h)
  · rw [hs1, hs]
    cases preVote
    · exact Or.inl rfl
    · exact Or.inr rfl
  · intro hp
    refine hcamp ?_ r1 hw1 hp
    cases preVote
    · rw [hs1, hs] at hp
      exact nomatch hp
    · rfl
  · intro done r2 ⟨h2, hsame⟩
    split
    · exact h2
    · rename_i hd
      obtain rfl := hsame (by simpa using hd)
      obtain ⟨lt, _, hlt⟩ := RaftLog.lastTerm_ok r2.log
      rw [meets_bind, meets_reads]
      refine ⟨fun a ha => ?_, fun e he => ?_⟩
      · refine reach_requestVotes ?_
        cases preVote
        · exact Or.inr ⟨rfl, hs1.trans hs, ht1.symm, ha⟩
        · exact Or.inl ⟨rfl, hs1.trans hs, congrArg (· + 1) ht1.symm⟩
      · rw [hlt] at he
        exact nomatch he

theorem traced_campaignWith {campaign : Core Unit} {preVote : Bool} (hel : c.elects = true)
    (hr : r.Wf) (hc : c.campaigns = true ∨ preVote = false ∧ r.state = .preCandidate)
    (hcamp : preVote = true → ∀ r', r'.Wf → r'.state = .preCandidate → Traced c campaign r') :
    Traced c (campaignWith campaign preVote) r := by
  by_cases hidle : r.promotable = false ∨ r.state = .leader
  · exact traced_campaignWith_idle hidle
  · simp only [not_or, Bool.not_eq_false] at hidle
    obtain ⟨hprom, hs⟩ := hidle
    cases preVote with
    | true =>
      have hcall : c.campaigns = true := hc.resolve_right fun h => nomatch h.1
      have h1 : Reach c r r.polling := (Effect.poll hcall hs hprom).reach
      exact meets_campaignWith_poll hs hprom
        ((traced_votes hel (h1.wf hr) rfl (fun _ => hcall) hcamp).after h1)
    | false =>
      obtain ⟨hsync, hterm⟩ := standing_unsaved hr
      refine meets_campaignWith_stand hs hprom
        (meets_persistHardState hsync hterm (fun faults => ?_) fun e faults he => ?_)
      · have h1 : Reach c r (r.standing.saved.withFaults faults) :=
          ((Effect.stand (hc.imp_right And.right) hs hprom).reach).trans (reach_withFaults _ _)
        have hpoll : false = true → c.campaigns = true := nofun
        exact (traced_votes hel (h1.wf hr) rfl hpoll hcamp).after h1
      · rw [he, if_neg nofun]
        refine ⟨r, .refl, ?_, ?_, ?_, ?_⟩ <;> rw [standing, reset_eq] <;> rfl

theorem traced_campaignN (n : ℕ) (preVote : Bool) (hel : c.elects = true) (hr : r.Wf)
    (hc : c.campaigns = true ∨ preVote = false ∧ r.state = .preCandidate) :
    Traced c (campaignN n preVote) r := by
  induction n generalizing preVote r with
  | zero => exact (Exact.throw _).traced
  | succ n ih =>
    exact traced_campaignWith hel hr hc fun _ r' hr' hs => ih false hr' (Or.inr ⟨rfl, hs⟩)

/-- A response that is counted finds the node in a campaign. -/
theorem reach_voteResponse {m : Message} (hc : c = .step m) (hty : m.type = .voteResp)
    (hd : m.dest = r.id ∨ m.dest = None) (ht : r.Dispatches m)
    (hp : ¬ (m.preVote && r.state ≠ .preCandidate) = true)
    (hv : ¬ (!m.preVote && r.state ≠ .candidate) = true) :
    (r.state = .candidate ∨ r.state = .preCandidate) ∧
      Reach c r (r.recordVote m.sender m.granted) := by
  simp only [Bool.and_eq_true, decide_eq_true_eq, not_and, not_not, Bool.not_eq_true'] at hp hv
  have hs : r.state = .candidate ∨ r.state = .preCandidate := by
    cases hpv : m.preVote
    · exact Or.inl (hv hpv)
    · exact Or.inr (hp hpv)
  refine ⟨hs, reach_recordVote (by rcases hs with hs | hs <;> rw [hs] <;> nofun)
    (Or.inr ⟨m, hc, hty, rfl, rfl, hd, ?_⟩)⟩
  cases hpv : m.preVote with
  | false => exact Or.inl ⟨hv hpv, rfl, ht.term_eq hpv⟩
  | true => exact Or.inr ⟨hp hpv, rfl, ht.le⟩

theorem traced_handleVoteResponse {m : Message} (hr : r.Wf) (hc : c = .step m)
    (hty : m.type = .voteResp) (hd : m.dest = r.id ∨ m.dest = None) (ht : r.Dispatches m) :
    Traced c (handleVoteResponse m) r := by
  rw [handleVoteResponse]
  refine Traced.get_bind ?_
  split
  · exact (Exact.throw _).traced
  · rename_i hp
    split
    · exact (Exact.throw _).traced
    · rename_i hv
      obtain ⟨hs, h1⟩ := reach_voteResponse hc hty hd ht hp hv
      obtain ⟨hs1, _, _⟩ := recordVote_frame r m.sender m.granted
      have hel : c.elects = true := by simp [hc, Call.elects, hty]
      refine traced_set_bind h1 (Meets.bind (Meets.mono (meets_tallyVotesWith hel (h1.wf hr)
        (hs1 ▸ hs) fun hp => traced_campaignN 1 false hel (h1.wf hr)
          (Or.inr ⟨rfl, hp⟩)) (fun _ _ h => h.1) fun _ _ h => h))

theorem isUpToDate_ok (l : RaftLog) (i t : ℕ) : ∃ b, l.isUpToDate i t = .ok b := by
  obtain ⟨lt, _, h⟩ := RaftLog.lastTerm_ok l
  rw [RaftLog.isUpToDate, h]
  exact ⟨_, rfl⟩

/-- The reply to a vote request: a real grant needs the vote to be recorded. -/
theorem reach_voteReply {m : Message} {granted : Bool} (hc : c = .step m)
    (hty : m.type = .voteReq) (hd : m.dest = r.id ∨ m.dest = None)
    (hp : granted = true → m.preVote = true → r.term < m.term)
    (hv : granted = true → m.preVote = false → m.sender = r.vote) :
    Reach c r (r.send { type := .voteResp, dest := m.sender,
                        term := if m.preVote && granted then m.term else r.term,
                        preVote := m.preVote, granted }) := by
  refine (Effect.send _ ?_).reach
  cases hpv : m.preVote with
  | true =>
    refine .pollResp m _ granted hc hty hpv hd (fun h => ?_) fun h => ?_
    · simp [h, hp h hpv]
    · simp [h]
  | false =>
    cases granted with
    | true => exact .grant m hc (hv rfl hpv)
    | false => exact .refuse m.sender r.term (Or.inr rfl)

theorem traced_handleVoteRequest {m : Message} (hr : r.Wf) (hc : c = .step m)
    (hty : m.type = .voteReq) (hd : m.dest = r.id ∨ m.dest = None) (ht : r.Dispatches m) :
    Traced c (handleVoteRequest m) r := by
  have hreply : ∀ granted : Bool, (granted = true → r.canVote m = true ∧
      r.log.isUpToDate m.lastLogIndex m.lastLogTerm = .ok true) →
      Traced c (answerVote r m granted) r := by
    intro granted hg
    rw [Traced, answerVote, meets_bind]
    split
    · rename_i hgr
      simp only [Bool.and_eq_true, Bool.not_eq_true'] at hgr
      obtain ⟨h1, h2⟩ := hg hgr.1
      rw [meets_bind, meets_set]
      refine meets_persistHardState hr.synced hr.term_eq.le (fun faults => ?_) fun e faults he => ?_
      · have h3 := (Effect.grant (c := c) m hc hty hgr.2 (ht.term_eq hgr.2) h1 h2).reach.trans
          (reach_withFaults _ faults)
        refine h3.trans (reach_voteReply hc hty hd (fun _ h => ?_) fun _ _ => rfl)
        rw [hgr.2] at h
        exact nomatch h
      · rw [he, if_neg nofun]
        exact ⟨r, .refl, rfl, rfl, rfl, rfl⟩
    · rename_i hgr
      refine reach_voteReply hc hty hd (fun h1 h2 => ?_) fun h1 h2 => ?_
      · exact term_lt_of_canVote h2 (hg h1).1
      · simp [h1, h2] at hgr
  rw [handleVoteRequest]
  refine Traced.get_bind ?_
  rw [Traced, meets_bind]
  split
  · rename_i hcan
    obtain ⟨b, hb⟩ := isUpToDate_ok r.log m.lastLogIndex m.lastLogTerm
    rw [meets_reads]
    refine ⟨fun b' hb' => ?_, fun e he => ?_⟩
    · exact hreply b' fun h1 => ⟨hcan, h1 ▸ hb'⟩
    · rw [hb] at he
      exact nomatch he
  · exact hreply false nofun

/-! ### Requests of a leader -/

theorem reach_hear {m : Message} (hm : m.term = r.term) :
    Reach c r (r.hear m) ∧ (r.hear m).state = .follower ∧ (r.hear m).term = r.term ∧
      (r.hear m).log = r.log ∧ (r.hear m).id = r.id := by
  have hq : Reach c r { r with electionElapsed := 0 } :=
    (Effect.quiet 0 r.heartbeatElapsed r.randomizedElectionTimeout r.draws r.appliedSnapshot
      r.log.storage.faults).reach
  simp only [hear]
  split
  · rename_i hs
    rw [hm]
    refine ⟨(hq.tail (.resign m.sender)).tail (.hear m.sender (by rintro ⟨⟩)), rfl, ?_, ?_, ?_⟩
    · rw [becomeFollower, reset_eq]
    · rw [becomeFollower, reset_eq]
    · rw [becomeFollower, reset_eq]
  · rename_i hs
    have hs' : r.state = .follower := not_not.mp hs
    refine ⟨hq.tail (.hear m.sender ?_), hs', rfl, rfl, rfl⟩
    change r.state ≠ .leader
    rw [hs']
    rintro ⟨⟩

theorem meets_refreshIfNeeded {entries : List LogEntry} {Q : Unit → RawNode → Prop}
    {F : Fail → RawNode → Prop} (hok : Q () (r.refreshedIfNeeded entries))
    (hf : ∀ e, F (.error e) (r.refreshedIfNeeded entries)) :
    Meets (refreshConfigurationIfNeeded entries) r Q F := by
  rw [refreshConfigurationIfNeeded, meets_bind, meets_get]
  rw [refreshedIfNeeded] at hok hf
  split
  · rename_i h
    rw [if_neg (by simpa using h)] at hok
    exact hok
  · rename_i h
    rw [if_pos (by simpa using h)] at hok hf
    exact meets_refresh hok hf

theorem refreshedIfNeeded_log (r : RawNode) (entries : List LogEntry) :
    (r.refreshedIfNeeded entries).log = r.log ∧ (r.refreshedIfNeeded entries).term = r.term ∧
      (r.refreshedIfNeeded entries).journal = r.journal := by
  rw [(refreshedIfNeeded_reconf r entries).eq]
  exact ⟨rfl, rfl, rfl⟩

theorem traced_handleAppendRequest {m : Message} (hr : r.Wf) (hc : c = .step m)
    (hty : m.type = .appendReq) (ht : m.term = r.term) : Traced c (handleAppendRequest m) r := by
  obtain ⟨h1, hs1, ht1, _⟩ := reach_hear (c := c) ht
  have hw1 := h1.wf hr
  rw [handleAppendRequest, Traced, meets_bind, meets_modify]
  generalize r.hear m = r1 at *
  have ht1' : m.term = r1.term := ht.trans ht1.symm
  refine Traced.after h1 (Traced.get_bind ?_)
  split
  · exact (Exact.set (Effect.send _ (.ack m _ hc hty ht1' (Or.inl rfl))).reach).traced
  · rename_i hprev
    have hprev' : r1.log.committed ≤ m.prevLogIndex := not_lt.mp hprev
    refine Meets.bind (meets_onLog (RaftLog.meets_maybeAppend hw1.log (fun _ => ?_)
      (fun l hm hsp hle => ?_) (fun e faults => ?_) fun text l hm hsp _ => ?_))
    · exact (Effect.send _ (.reject m _ _ hc hty ht1')).reach
    · have hok := hsp.ok hw1.log
      have hlc : l.committed = r1.log.committed := by cases hsp <;> rfl
      have hcl := hok.committed_le
      let r2 : RawNode := { r1 with log := { l with
        committed := max r1.log.committed
          (min m.leaderCommit (m.prevLogIndex + m.entries.length)) } }
      have h3 : Reach c r1 (r2.refreshedIfNeeded m.entries) := by
        refine (Effect.follow m l _ hc hty ht1' hs1 hprev' hm hsp ?_ ?_).reach
        · omega
        · omega
      have hw3 := h3.wf hw1
      obtain ⟨hl3, ht3, _⟩ := refreshedIfNeeded_log r2 m.entries
      refine Meets.bind (meets_refreshIfNeeded ?_ fun e => ?_)
      · refine Traced.after h3 (Meets.bind (meets_persistHardState hw3.synced hw3.term_eq.le
          (fun faults => ?_) fun e faults he => ?_))
        · have h4 : Reach c (r2.refreshedIfNeeded m.entries)
              ((r2.refreshedIfNeeded m.entries).saved.withFaults faults) :=
            (Effect.persist.reach).trans (reach_withFaults _ faults)
          refine h4.tail (.send _ (.ack m _ hc hty ?_ (Or.inr ⟨rfl, fun hcon => ?_⟩)))
          · exact ht1'.trans ht3.symm
          · have hh := hsp.holds hw1.log hcon hprev' hm
            change (r2.refreshedIfNeeded m.entries).HoldsRequest m
            rw [HoldsRequest, hl3]
            exact hh
        · rw [he, if_neg nofun]
          exact Reach.crashed (reach_withFaults _ faults)
      · split
        · exact h3
        · exact h3.crashed
    · have hq : Reach c r1 (r1.withFaults faults) := reach_withFaults r1 faults
      split
      · exact hq
      · exact hq.crashed
    · have hlc : l.committed = r1.log.committed := by cases hsp <;> rfl
      have hcl := (hsp.ok hw1.log).committed_le
      have h3 := (Effect.follow (c := c) m l r1.log.committed hc hty ht1' hs1 hprev' hm hsp
        (by omega) (Or.inl rfl)).reach
      rw [if_neg (by simp [Fail.ignored])]
      obtain ⟨hl3, _, hj3⟩ := refreshedIfNeeded_log
        { r1 with log := { l with committed := r1.log.committed } } m.entries
      exact ⟨_, h3, by rw [hl3], hj3, by rw [hl3, hlc], by rw [hl3]⟩

theorem exact_ackSnapshot {m : Message} {i : ℕ} (hr : r.Wf) (hc : c = .step m)
    (hty : m.type = .snapshotReq) (ht : m.term = r.term) (hi : r.log.committed = i) :
    Exact c (do
      persistHardState
      modify fun r => r.send { type := .snapshotResp, dest := m.sender, success := true,
                               matchIndex := i } : Core Unit) r := by
  subst hi
  refine Meets.bind (meets_persistHardState hr.synced hr.term_eq.le (fun faults => ?_)
    fun e faults _ => reach_withFaults _ faults)
  have h : Reach c r (r.saved.withFaults faults) :=
    (Effect.persist.reach).trans (reach_withFaults _ faults)
  exact h.tail (.send _ (.snapshotAck m hc hty ht))

theorem restored_reconf (r : RawNode) (snap : Snapshot) (mem : MemoryStorage) :
    ({ r with log := { r.log with
      storage := { r.log.storage with mem },
      committed := snap.lastIncludedIndex, applied := snap.lastIncludedIndex } } : RawNode).Reconf
      (r.restored snap mem) := by
  rw [restored]
  split
  · exact setConfiguration_reconf _ _ _
  · exact .refl _

theorem traced_handleSnapshotRequest {m : Message} (hr : r.Wf) (hc : c = .step m)
    (hty : m.type = .snapshotReq) (hd : m.dest = r.id ∨ m.dest = None) (ht : m.term = r.term) :
    Traced c (handleSnapshotRequest m) r := by
  obtain ⟨h1, hs1, ht1, -, hid⟩ := reach_hear (c := c) ht
  rw [← hid] at hd
  have hw1 := h1.wf hr
  rw [handleSnapshotRequest, Traced, meets_bind, meets_modify]
  generalize r.hear m = r1 at *
  have ht1' : m.term = r1.term := ht.trans ht1.symm
  split
  · exact Traced.after h1 (Exact.throw _).traced
  · rename_i snap hsnap
    refine Traced.after h1 (Traced.get_bind ?_)
    split
    · exact (Exact.set (Effect.send _ (.snapshotAck m hc hty ht1')).reach).traced
    · rename_i hlt
      have hlt' : r1.log.committed < snap.lastIncludedIndex := not_le.mp hlt
      rw [Traced, meets_bind, installSnapshot, meets_tryCatch, meets_bind]
      refine meets_onLog (RaftLog.meets_restore (fun mem faults _ hsave => ?_) fun e faults => ?_)
      · have h2 : Reach c r1 ((r1.withFaults faults).restored snap mem) :=
          (reach_withFaults r1 faults).tail (.restore m snap mem hc hty ht1' hs1 hsnap hlt' hsave
            ⟨hd, ht1'.ge⟩)
        have hrec := restored_reconf (r1.withFaults faults) snap mem
        have hlog : ((r1.withFaults faults).restored snap mem).log.committed =
            snap.lastIncludedIndex := by rw [hrec.eq]
        have hterm : ((r1.withFaults faults).restored snap mem).term = r1.term := by
          rw [hrec.eq]; rfl
        rw [meets_pure, Bool.not_true, if_neg nofun, meets_bind, meets_modify]
        change Meets _ ((r1.withFaults faults).restored snap mem) _ _
        generalize (r1.withFaults faults).restored snap mem = r2 at *
        have h3 : Reach c r2 { r2 with appliedSnapshot := some snap } :=
          (Effect.quiet r2.electionElapsed r2.heartbeatElapsed r2.randomizedElectionTimeout r2.draws
            (some snap) r2.log.storage.faults).reach
        have h23 : Reach c r1 { r2 with appliedSnapshot := some snap } := h2.trans h3
        rw [meets_bind, meets_modify]
        exact Traced.after h23
          (exact_ackSnapshot (h23.wf hw1) hc hty (ht1'.trans hterm.symm) hlog).traced
      · have h2 := reach_withFaults (c := c) r1 faults
        dsimp only
        split
        · exact h2.tail (.send _ (.snapshotAck m hc hty ht1'))
        · rw [meets_throw]
          split
          · exact h2
          · exact h2.crashed

/-! ### The other calls -/

theorem exact_createSnapshot {data : List UInt8} (hc : c = .createSnapshot data) :
    Exact c (createSnapshot data) r := by
  rw [createSnapshot]
  refine Exact.get_bind ?_
  dsimp only
  split
  · exact Exact.throw _
  · rename_i h0
    split
    · exact Exact.throw _
    · rename_i term ht
      rw [Exact, meets_bind, meets_mapFail]
      refine meets_onLog (RaftLog.meets_onDisk (fun mem faults hsave => ?_) fun e faults =>
        reach_withFaults r faults)
      have h1 : Reach c r ((r.withFaults faults).withMem mem) :=
        (reach_withFaults r faults).tail (.saveSnapshot data term mem hc ht h0 hsave)
      have hsnap : mem.snapshot = ⟨r.log.applied, term, r.conf, data⟩ :=
        (RaftLog.saveSnapshot_ok hsave).2.2.1
      split
      · exact h1
      · generalize (if r.cfg.snapshotCatchUpEntries > 0 then
          r.log.applied - r.cfg.snapshotCatchUpEntries else r.log.applied) = compactTo
        rw [meets_bind, meets_get]
        split
        · exact h1
        · rw [meets_bind, wrapping, meets_mapFail]
          refine meets_onLog (RaftLog.meets_compact (fun mem' faults' hle hcm => ?_)
            fun e faults' => h1.trans (reach_withFaults _ faults'))
          refine (h1.trans (reach_withFaults _ faults')).tail
            (.compact _ mem' data hc ?_ (congrArg Snapshot.config hsnap) hcm)
          exact hle.trans (congrArg Snapshot.lastIncludedIndex hsnap).ge

theorem reach_timers (r : RawNode) (a b : ℕ) :
    Reach c r { r with electionElapsed := a, heartbeatElapsed := b } :=
  (Effect.quiet a b r.randomizedElectionTimeout r.draws r.appliedSnapshot
    r.log.storage.faults).reach

theorem exact_tickHeartbeat (hr : r.Wf) : Exact c tickHeartbeat r := by
  rw [tickHeartbeat]
  refine Exact.bind (Exact.modify (reach_timers r _ _)) fun _ r1 h1 => Exact.get_bind ?_
  split
  · exact Exact.pure _
  · have h2 : Reach c r1 { r1 with heartbeatElapsed := 0 } := reach_timers r1 _ 0
    have hw2 := h2.wf (h1.wf hr)
    have h3 := reach_expirePendingSnapshots (c := c) hw2
    have h4 := reach_broadcastAppend (c := c) (h3.wf hw2)
    have h5 := reach_resendReads (c := c) (h4.1.wf (h3.wf hw2))
    exact Exact.set (((h2.trans h3).trans h4.1).trans h5)

theorem traced_tick (hc : c = .tick) (hr : r.Wf) : Traced c tick r := by
  rw [tick]
  refine Traced.get_bind ?_
  split
  · exact (exact_tickHeartbeat hr).traced
  · rw [tickElection, Traced, meets_bind, meets_modify]
    refine Traced.after (reach_timers r _ _) (Traced.get_bind ?_)
    have hw1 := (reach_timers (c := c) r (r.electionElapsed + 1) r.heartbeatElapsed).wf hr
    split
    · exact (Exact.pure _).traced
    · have h2 : Reach c { r with electionElapsed := r.electionElapsed + 1 }
          { r with electionElapsed := 0 } := reach_timers _ _ _
      exact traced_set_bind h2 (traced_campaignN 2 _ (hc ▸ rfl) (h2.wf hw1) (Or.inl (hc ▸ rfl)))

theorem traced_dispatch {m : Message} (hr : r.Wf) (hc : c = .step m)
    (hd : m.dest = r.id ∨ m.dest = None) (ht : r.Dispatches m) : Traced c (dispatch m) r := by
  rw [dispatch]
  split <;> rename_i hty
  · exact traced_handleVoteRequest hr hc hty hd ht
  · exact traced_handleVoteResponse hr hc hty hd ht
  · exact traced_handleAppendRequest hr hc hty (ht.term_of_type hty nofun nofun)
  · exact (exact_handleAppendResponse hr hc hty (ht.term_of_type hty nofun nofun)).traced
  · exact traced_handleSnapshotRequest hr hc hty hd (ht.term_of_type hty nofun nofun)
  · exact (exact_handleSnapshotResponse hr hc hty (ht.term_of_type hty nofun nofun)).traced
  · exact (Exact.throw _).traced

/-- After a message of a later term the node follows in that term, unless the message is a pre-vote;
then it is as before. -/
theorem meets_stepHigherTerm {m : Message} (hr : r.Wf) (hc : c = .step m) (hgt : m.term > r.term) :
    Meets (stepHigherTerm m) r
      (fun _ r' => Reach c r r' ∧ r'.id = r.id ∧ r'.Dispatches m ∧ (r' = r ∨ r'.state = .follower))
      fun e r' => e.ignored = false ∧ Crashed c r r' := by
  rw [stepHigherTerm, meets_bind, meets_get]
  split
  · rename_i h
    exact ⟨.refl, rfl, Or.inr ⟨hgt, h.2, Or.inl h.1⟩, Or.inl rfl⟩
  · split
    · rename_i h
      exact ⟨.refl, rfl, Or.inr ⟨hgt, h.2.1, Or.inr h.1⟩, Or.inl rfl⟩
    · generalize (if m.type = .appendReq ∨ m.type = .snapshotReq then m.sender else None) = lead
      rw [meets_bind, meets_set]
      have hsync : (r.becomeFollower m.term lead).persisted =
          (r.becomeFollower m.term lead).log.mem.hardState := by
        rw [becomeFollower, reset_eq]; exact hr.synced
      have hterm : (r.becomeFollower m.term lead).log.mem.hardState.term ≤
          (r.becomeFollower m.term lead).term := by
        rw [becomeFollower, reset_eq]
        exact hr.term_eq.le.trans hgt.le
      refine meets_persistHardState hsync hterm (fun faults => ⟨?_, ?_, Or.inl ?_, Or.inr ?_⟩)
        fun e faults he => ⟨he, r, .refl, ?_, ?_, ?_, ?_⟩
      · exact ((Effect.adopt m lead hc hgt).reach).trans (reach_withFaults _ faults)
      all_goals rw [becomeFollower, reset_eq]; rfl

theorem traced_step {m : Message} (hr : r.Wf) (hc : c = .step m) : Traced c (step m) r := by
  rw [step]
  refine Traced.get_bind ?_
  split
  · exact (Exact.throw _).traced
  · rename_i hdest
    have hd : m.dest = r.id ∨ m.dest = None := by
      by_contra hne
      simp only [not_or] at hne
      exact hdest (by simp [hne])
    split
    · rename_i hgt
      refine Meets.bind (Meets.mono (meets_stepHigherTerm hr hc hgt) ?_ ?_)
      · rintro _ r1 ⟨h1, hid, ht, -⟩
        exact (traced_dispatch (h1.wf hr) hc (hid ▸ hd) ht).after h1
      · rintro e r1 ⟨he, h1⟩
        rw [he, if_neg nofun]
        exact h1
    · split
      · rename_i hlt
        rw [stepLowerTerm]
        refine Exact.traced (Exact.get_bind (exact_set_bind ?_ (Exact.throw _)))
        split
        · exact (Effect.send _ (.stale m.sender)).reach
        · exact (Effect.send _ (.stale m.sender)).reach
        · refine (Effect.send _ ?_).reach
          cases hp : m.preVote with
          | true =>
            rename_i hty
            exact .pollResp m 0 false hc hty hp hd nofun fun _ => Or.inl rfl
          | false => exact .refuse m.sender 0 (Or.inl rfl)
        · exact .refl
      · exact traced_dispatch hr hc hd (Or.inl (by omega))

theorem Call.outcome_of_meets {P : RawNode → Prop} (h : Meets c.run r (fun _ => P) fun _ => P) :
    P (c.outcome r) := by
  unfold Meets at h
  rw [outcome]
  split at h <;> rename_i heq <;> rw [heq] <;> exact h

/-- Every call is a sequence of effects; a call that ends the process leaves on disk what a sequence
of effects leaves. -/
theorem Call.meets_run (c : Call) (hr : r.Wf) :
    Meets c.run r (fun _ r' => Reach c r r') fun e r' =>
      if c.stops e then Crashed c r r' else Reach c r r' := by
  have htraced : ∀ x : Core Unit, (∀ e, c.stops e = !e.ignored) → Traced c x r →
      Meets x r (fun _ r' => Reach c r r') fun e r' =>
        if c.stops e then Crashed c r r' else Reach c r r' := by
    intro x hst hx
    refine Meets.mono hx (fun _ _ h => h) fun e r' h => ?_
    rw [hst]
    cases he : e.ignored
    · rw [he, if_neg nofun] at h
      exact h
    · rw [he, if_pos rfl] at h
      exact h
  have hexact : ∀ x : Core Unit, Exact c x r → Meets x r (fun _ r' => Reach c r r') fun e r' =>
      if c.stops e then Crashed c r r' else Reach c r r' := by
    intro x hx
    refine Meets.mono hx (fun _ _ h => h) fun e r' h => ?_
    split
    · exact h.crashed
    · exact h
  cases c with
  | tick => exact htraced _ (by rintro (_ | _ | _) <;> rfl) (traced_tick rfl hr)
  | step m => exact htraced _ (by rintro (_ | _ | _) <;> rfl) (traced_step hr rfl)
  | propose cmd =>
    exact hexact _ ((exact_propose rfl hr (e := { type := .normal, command := cmd }) nofun).bind
      fun _ _ _ => Exact.pure _)
  | proposeConfChange target =>
    exact hexact _ ((exact_proposeConfChange hr rfl).bind fun _ _ _ => Exact.pure _)
  | readIndex id => exact hexact _ (exact_readIndex hr rfl)
  | readStates => exact hexact _ ((Effect.drainReads rfl).reach)
  | messages => exact hexact _ ((Effect.drain rfl).reach)
  | applyTo i =>
    refine hexact _ (meets_onLog ?_)
    rw [RaftLog.appliedTo, meets_bind, meets_get]
    split
    · exact .refl
    · rename_i h
      split
      · exact .refl
      · exact (Effect.apply i rfl (by omega) (by omega)).reach
  | createSnapshot data =>
    exact hexact _ ((exact_createSnapshot rfl).bind fun _ _ _ => Exact.pure _)
  | snapshotToApply =>
    exact hexact _ ((Effect.quiet r.electionElapsed r.heartbeatElapsed r.randomizedElectionTimeout
      r.draws none r.log.storage.faults).reach)
  | campaign =>
    exact htraced _ (by rintro (_ | _ | _) <;> rfl) (Traced.get_bind
      (traced_campaignN 2 _ rfl hr (Or.inl rfl)))

end RaftStore.Raft
