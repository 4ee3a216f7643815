import RaftStore.Raft.ConfInForce
import RaftStore.Raft.MatchSoundness
import RaftStore.Raft.Proposing

/-! What a leader makes of acknowledgements.  A leader that goes on leading commits an entry of its
own as soon as a quorum has confirmed it, and not before; so it has committed the configuration that
it took up last exactly when a quorum of that configuration has confirmed the entry. -/

namespace RaftStore.Raft

open Lib RawNode

variable {c : Call} {r r' : RawNode} {L : ℕ}

/-! ### Entries -/

section

variable {m m' : MemoryStorage} {i : ℕ} {e e' : LogEntry}

theorem getEntry_congr (hb : m'.base = m.base) (he : m'.ents = m.ents) (h : m.getEntry i = .ok e) :
    m'.getEntry i = .ok e := by
  obtain ⟨k, rfl, hk⟩ := getElem_of_getEntry h
  rw [← hb]
  exact getEntry_of_getElem (he ▸ hk)

theorem getEntry_concat (h : m.getEntry i = .ok e) :
    ({ m with ents := m.ents ++ [e'] } : MemoryStorage).getEntry i = .ok e := by
  obtain ⟨k, rfl, hk⟩ := getElem_of_getEntry h
  have hlt := (List.getElem?_eq_some_iff.mp hk).1
  exact getEntry_of_getElem (m := { m with ents := m.ents ++ [e'] })
    ((List.getElem?_append_left hlt).trans hk)

theorem getEntry_of_concat (h : ({ m with ents := m.ents ++ [e'] } : MemoryStorage).getEntry i = .ok e) :
    m.getEntry i = .ok e ∨ i = m.lastIndex + 1 ∧ e = e' := by
  obtain ⟨k, rfl, hk⟩ := getElem_of_getEntry h
  change (m.ents ++ [e'])[k]? = some e at hk
  change m.getEntry (m.base.index + k + 1) = .ok e ∨ _
  rcases lt_or_ge k m.ents.length with hlt | hge
  · rw [List.getElem?_append_left hlt] at hk
    exact .inl (getEntry_of_getElem hk)
  · obtain ⟨hlen, rfl⟩ : k = m.ents.length ∧ e = e' := by
      rw [List.getElem?_append_right hge] at hk
      cases hd : k - m.ents.length with
      | zero =>
        rw [hd] at hk
        cases hk
        exact ⟨by omega, rfl⟩
      | succ d =>
        rw [hd] at hk
        cases hk
    exact .inr ⟨by rw [hlen]; rfl, rfl⟩

theorem getEntry_of_compact {upto : ℕ} (hm : m.InOrder) (h : m.compact upto = .ok m')
    (he : m'.getEntry i = .ok e) : m.getEntry i = .ok e := by
  rcases MemoryStorage.compact_ok hm h with ⟨-, rfl⟩ | ⟨hlt, -, -, -, hbase, -, hents⟩
  · exact he
  · obtain ⟨k, rfl, hk⟩ := getElem_of_getEntry he
    rw [hents, List.getElem?_drop] at hk
    have hi : m'.base.index + k + 1 = m.base.index + (upto - m.offset + k) + 1 := by
      rw [hbase]
      simp only [MemoryStorage.offset] at hlt ⊢
      omega
    rw [hi]
    exact getEntry_of_getElem hk

theorem getEntry_compact {upto : ℕ} (hm : m.InOrder)
    (h : m.compact upto = .ok m') (he : m.getEntry i = .ok e) :
    i ≤ m'.base.index ∨ m'.getEntry i = .ok e := by
  rcases MemoryStorage.compact_ok hm h with ⟨-, rfl⟩ | ⟨hlt, -, -, -, hbase, -, hents⟩
  · exact .inr he
  · obtain ⟨k, rfl, hk⟩ := getElem_of_getEntry he
    rw [hbase]
    rcases le_or_gt (m.base.index + k + 1) upto with hle | hgt
    · exact .inl hle
    · have hi : m.base.index + k + 1 = m'.base.index + (k - (upto - m.offset)) + 1 := by
        rw [hbase]
        simp only [MemoryStorage.offset] at hlt ⊢
        omega
      refine .inr ?_
      rw [hi]
      refine getEntry_of_getElem ?_
      rw [hents, List.getElem?_drop]
      simp only [MemoryStorage.offset] at hlt ⊢
      rw [show upto - m.base.index + (k - (upto - m.base.index)) = k by omega]
      exact hk

theorem term_of_getEntry {l : RaftLog} (h : l.mem.getEntry i = .ok e) : l.term i = .ok e.term := by
  obtain ⟨k, rfl, hk⟩ := getElem_of_getEntry h
  have hlt := (List.getElem?_eq_some_iff.mp hk).1
  have hlast : l.mem.lastIndex = l.mem.base.index + l.mem.ents.length := rfl
  rw [RaftLog.term, if_neg (by omega), MemoryStorage.term_ok (by simp only [MemoryStorage.offset]; omega)
    (by omega), MemoryStorage.offset, MemoryStorage.at?,
    show l.mem.base.index + k + 1 - l.mem.base.index = k + 1 by omega, List.getElem?_cons_succ, hk]
  rfl

end

/-! ### Catching up -/

/-- The entry above `L` that a quorum has confirmed is committed, if it is of the leader's term. -/
def RawNode.CaughtUp (L : ℕ) (r : RawNode) : Prop :=
  r.state = .leader → ∀ e, L < r.conf.committedIndex r.matchOf →
    r.log.mem.getEntry (r.conf.committedIndex r.matchOf) = .ok e → e.term = r.term →
      r.conf.committedIndex r.matchOf ≤ r.log.committed

theorem caughtUp_of_state (h : r.state ≠ .leader) : r.CaughtUp L := fun hs => absurd hs h

/-- A leader is as it was in all that bears on its commit index, and no less is committed. -/
structure RawNode.Rests (r r' : RawNode) : Prop where
  state : r.state = .leader
  term : r'.term = r.term
  conf : r'.conf = r.conf
  matched : r'.matchOf = r.matchOf
  entries : ∀ i e, r'.log.mem.getEntry i = .ok e → r.log.mem.getEntry i = .ok e
  committed : r.log.committed ≤ r'.log.committed

theorem RawNode.CaughtUp.rests (h : r.CaughtUp L) (hr : r'.state = .leader → r.Rests r') :
    r'.CaughtUp L := by
  intro hs e hlt hget hterm
  have hrest := hr hs
  rw [hrest.conf, hrest.matched] at hlt hget ⊢
  exact (h hrest.state e hlt (hrest.entries _ e hget) (hterm.trans hrest.term)).trans hrest.committed

theorem matchOf_setPeer {id : NodeID} {p : Progress} (hp : r.peer id = some p) (q : Progress)
    (v : NodeID) : (r.setPeer id q).matchOf v = if v = id then q.matched else r.matchOf v := by
  by_cases hv : v = id
  · rw [if_pos hv, hv, matchOf, peer_setPeer_self hp]
    rfl
  · rw [if_neg hv, matchOf, peer_setPeer, if_neg hv]
    rfl

theorem matchOf_of_peer {id : NodeID} {p : Progress} (hp : r.peer id = some p) :
    r.matchOf id = p.matched := by
  rw [matchOf, hp]
  rfl

/-- A leader rests in every effect of a call in which it appends nothing. -/
theorem Effect.rests (he : Effect c r r') (hr : r.Wf) (hc : c.appends = false)
    (hs : r'.state = .leader) : r.Rests r' := by
  cases he with
  | hear lead hne => exact absurd hs hne
  | adopt m lead =>
    rw [becomeFollower, reset_eq] at hs
    cases hs
  | resign lead =>
    rw [becomeFollower, reset_eq] at hs
    cases hs
  | poll => cases hs
  | stand =>
    rw [RawNode.standing, reset_eq] at hs
    cases hs
  | tally sender granted _ _ hne => exact absurd hs hne
  | lead _ _ hel => cases hc.symm.trans (Call.appends_of_elects hel)
  | extend e ha => cases hc.symm.trans ha
  | ownMatch p _ ha => cases hc.symm.trans ha
  | setMatch m p hm hty =>
    have ha : c.appends = true := by
      rw [hm]
      rcases hty with hty | hty <;> simp [Call.appends, hty]
    cases hc.symm.trans ha
  | setNext id p p' hp hmatched =>
    refine ⟨hs, rfl, rfl, funext fun v => ?_, fun _ _ h => h, le_rfl⟩
    rw [matchOf_setPeer hp]
    split
    · rename_i hv
      rw [hv, matchOf_of_peer hp, hmatched]
    · rfl
  | commit i _ _ hlt => exact ⟨hs, rfl, rfl, rfl, fun _ _ h => h, hlt.le⟩
  | follow m l committed _ _ _ hst =>
    rw [(refreshedIfNeeded_reconf _ _).eq] at hs
    cases hst.symm.trans hs
  | restore m snap mem _ _ _ hst =>
    rw [(restored_reconf r snap mem).eq] at hs
    cases hst.symm.trans hs
  | saveSnapshot data term mem _ ht h0 hsave =>
    obtain ⟨hb, he⟩ := RaftLog.saveSnapshot_own h0 ht hsave
    exact ⟨hs, rfl, rfl, rfl, fun _ _ h => getEntry_congr hb.symm he.symm h, le_rfl⟩
  | compact upto mem data _ _ _ hcm =>
    exact ⟨hs, rfl, rfl, rfl, fun _ _ h => getEntry_of_compact hr.log.inOrder hcm h, le_rfl⟩
  | _ => exact ⟨hs, rfl, rfl, rfl, fun _ _ h => h, le_rfl⟩

theorem Reach.caughtUp (h : Reach c r r') (hr : r.Wf) (hc : c.appends = false)
    (hcu : r.CaughtUp L) : r'.CaughtUp L := by
  induction h with
  | refl => exact hcu
  | tail hb he ih => exact ih.rests (he.rests (Reach.wf hb hr) hc)

/-! ### Committing and appending -/

/-- However the program ends, the leader has caught up. -/
def CatchesUp {α : Type} (L : ℕ) (x : Core α) (r : RawNode) : Prop :=
  Meets x r (fun _ r' => r'.CaughtUp L) fun _ r' => r'.CaughtUp L

section

variable {α : Type} {x : Core α}

theorem CatchesUp.throw {e : Fail} (h : r.CaughtUp L) : CatchesUp L (throw e : Core α) r := h

theorem CatchesUp.pure {a : α} (h : r.CaughtUp L) : CatchesUp L (pure a : Core α) r := h

/-- A program that is a sequence of effects of any call does not fall behind. -/
theorem CatchesUp.of_exact (hx : Exact .messages x r) (hr : r.Wf) (h : r.CaughtUp L) :
    CatchesUp L x r :=
  Meets.mono hx (fun _ _ hreach => hreach.caughtUp hr rfl h) fun _ _ hreach =>
    hreach.caughtUp hr rfl h

end

theorem catchesUp_maybeAdvanceCommitWith {lj : Core Unit} (hr : r.Wf)
    (hlj : ∀ r', Reach c r r' → r'.committedInCurrentTerm = true → r'.CaughtUp L →
      CatchesUp L lj r') : CatchesUp L (maybeAdvanceCommitWith lj) r := by
  rw [maybeAdvanceCommitWith]
  refine Meets.bind ?_
  rw [meets_get]
  split
  · rename_i hs
    exact CatchesUp.pure (caughtUp_of_state hs)
  · rename_i hs
    have hs' : r.state = .leader := not_not.mp hs
    dsimp only
    split
    · rename_i hle
      exact CatchesUp.pure fun _ _ _ _ _ => hle
    · rename_i hlt
      have hlt' : r.log.committed < r.conf.committedIndex r.matchOf := not_le.mp hlt
      split <;> rename_i hterm
      · refine CatchesUp.throw fun _ e _ hget _ => ?_
        cases (term_of_getEntry hget).symm.trans hterm
      · split
        · rename_i hne
          refine CatchesUp.pure fun _ e _ hget hown => ?_
          cases (term_of_getEntry hget).symm.trans hterm
          exact absurd hown hne
        · rename_i hown
          rw [not_not.mp hown] at hterm
          have hle := RaftLog.le_lastIndex_of_term hterm
          let r₁ : RawNode :=
            { r with log := { r.log with committed := r.conf.committedIndex r.matchOf } }
          have h₁ : Reach c r r₁ := (Effect.commit _ hs' rfl hlt' hle hterm).reach
          have hw₁ : r₁.Wf := h₁.wf hr
          have hup₁ : r₁.CaughtUp L := fun _ _ _ _ _ => le_rfl
          rw [meets_bind]
          refine meets_onLog (RaftLog.meets_commitTo (fun h => absurd h hlt) (fun _ _ => ?_)
            fun _ _ h => absurd h (not_lt.mpr hle))
          rw [meets_bind]
          refine meets_persistHardState hw₁.synced hw₁.term_eq.le (fun faults => ?_)
            fun _ _ _ => hup₁
          have h₂ : Reach c r (r₁.saved.withFaults faults) :=
            (h₁.tail Effect.persist).trans (reach_withFaults _ faults)
          have hc₂ : (r₁.saved.withFaults faults).committedInCurrentTerm = true :=
            committedInCurrentTerm_iff.mpr ⟨(Nat.zero_lt_of_lt hlt').ne', hterm⟩
          refine Meets.bind (Meets.mono (hlj _ h₂ hc₂ hup₁) (fun _ r₃ hup₃ => ?_) fun _ _ h => h)
          rw [meets_bind, meets_modify]
          rw [stepDownIfRemoved]
          split
          · exact hup₃
          · split
            · exact hup₃
            · rw [becomeFollower, reset_eq]
              exact caughtUp_of_state (by rintro ⟨⟩)

theorem catchesUp_maybeLeaveJointWith {propose : LogEntry → Core ℕ}
    (hcm : r.committedInCurrentTerm = true) (h : r.CaughtUp L)
    (hp : ∀ e, (e.type = .confChange → ∃ cc, r.Proposes c cc ∧ e.command = cc.encode) →
      CatchesUp L (propose e) r) : CatchesUp L (maybeLeaveJointWith propose) r := by
  rw [maybeLeaveJointWith]
  refine Meets.bind ?_
  rw [meets_get]
  split
  · exact CatchesUp.pure h
  · split
    · exact CatchesUp.pure h
    · rename_i hi
      split
      · exact CatchesUp.throw h
      · rename_i cc hcc
        rw [meets_tryCatch]
        refine Meets.bind (Meets.mono (hp { type := .confChange, command := cc.encode } fun _ =>
          ⟨cc, ⟨hcm, not_lt.mp hi, .inr hcc⟩, rfl⟩) (fun _ _ h => h) fun e r' h => ?_)
        split
        · split
          · exact CatchesUp.pure h
          · exact CatchesUp.throw h
        · exact CatchesUp.throw h

/-- An append that fails leaves the leader with an entry that no quorum has confirmed, or with
none. -/
theorem meets_appendOwn_failed {e : LogEntry} (hr : r.Wf) (hl : Ledger r) (h : r.CaughtUp L) :
    Meets (appendOwn e) r (fun _ _ => True) fun _ r' => r'.CaughtUp L := by
  have hlast : ∀ e' faults, ((r.withFaults faults).withMem
      { r.log.mem with ents := r.log.mem.ents ++ [e'] }).CaughtUp L := by
    intro e' faults hs e₁ hlt hget hterm
    rcases getEntry_of_concat hget with hget | ⟨hi, -⟩
    · exact h hs e₁ hlt hget hterm
    · have hle := hl.committedIndex_le (Nat.zero_lt_of_lt hlt)
      change r.conf.committedIndex r.matchOf = r.log.lastIndex + 1 at hi
      omega
  rw [appendOwn, meets_bind, meets_get, meets_bind]
  refine meets_appendNext hr rfl (fun faults => ?_) fun _ _ => h
  rw [meets_bind]
  split
  · rw [tryUpdate, meets_bind, meets_get]
    split
    · exact hlast _ faults
    · trivial
  · trivial

section

variable {e : LogEntry} (ha : c.appends = true)

include ha

theorem catchesUp_proposeWith {advance : Core Bool} (hr : r.Wf) (hl : Ledger r) (h : r.CaughtUp L)
    (hcc : e.type = .confChange → ∃ cc, r.Proposes c cc ∧ e.command = cc.encode)
    (hadv : ∀ r', Reach c r r' → Meets advance r' (fun _ r'' => Reach c r' r'' ∧ r''.CaughtUp L)
      fun _ r'' => r''.CaughtUp L) : CatchesUp L (proposeWith advance e) r := by
  rw [proposeWith]
  refine Meets.bind ?_
  rw [meets_get]
  split
  · exact CatchesUp.throw h
  · rename_i hs
    have happend := Meets.and (exact_appendOwn ha hr (not_not.mp hs) hcc)
      (meets_appendOwn_failed (L := L) hr hl h)
    refine Meets.bind (Meets.mono happend (fun _ r₁ h₁ => ?_) fun _ _ h => h.2)
    refine Meets.bind (Meets.mono (hadv r₁ h₁.1) (fun _ r₂ h₂ => ?_) fun _ _ h => h)
    have hw₂ := h₂.1.wf (h₁.1.wf hr)
    exact (reach_broadcastAppend (c := .messages) hw₂).1.caughtUp hw₂ rfl h₂.2

variable (hl : ∀ r', Reach c r r' → Ledger r')

include hl

theorem catchesUp_proposeN (n : ℕ) (hr : r.Wf) (h : r.CaughtUp L)
    (hcc : e.type = .confChange → ∃ cc, r.Proposes c cc ∧ e.command = cc.encode) :
    CatchesUp L (proposeN n e) r := by
  induction n generalizing e r with
  | zero => exact CatchesUp.throw h
  | succ n ih =>
    rw [proposeN]
    refine catchesUp_proposeWith ha hr (hl r .refl) h hcc fun r₁ h₁ => ?_
    refine Meets.mono (Meets.and (exact_maybeAdvanceCommitWith (c := c) (h₁.wf hr) fun r₂ hw₂ hc₂ =>
      exact_maybeLeaveJointWith hc₂ fun e _ he => exact_proposeN n ha hw₂ he)
      (catchesUp_maybeAdvanceCommitWith (L := L) (c := c) (h₁.wf hr) fun r₂ h₂ hc₂ hup₂ => ?_))
      (fun _ _ h => h) fun _ _ h => h.2
    refine catchesUp_maybeLeaveJointWith (c := c) hc₂ hup₂ fun e he => ?_
    exact ih (fun r' h' => hl r' ((h₁.trans h₂).trans h')) (h₂.wf (h₁.wf hr)) hup₂ he

theorem catchesUp_maybeAdvanceCommit (hr : r.Wf) : CatchesUp L maybeAdvanceCommit r := by
  refine catchesUp_maybeAdvanceCommitWith (c := c) hr fun r₁ h₁ hc₁ hup₁ => ?_
  refine catchesUp_maybeLeaveJointWith (c := c) hc₁ hup₁ fun e he => ?_
  exact catchesUp_proposeN ha (fun r' h' => hl r' (h₁.trans h')) 1 (h₁.wf hr) hup₁ he

theorem catchesUp_propose (hr : r.Wf) (h : r.CaughtUp L)
    (hcc : e.type = .confChange → ∃ cc, r.Proposes c cc ∧ e.command = cc.encode) :
    CatchesUp L (propose e) r := by
  refine catchesUp_proposeWith ha hr (hl r .refl) h hcc fun r₁ h₁ => ?_
  exact Meets.mono (Meets.and (exact_maybeAdvanceCommit ha (h₁.wf hr))
    (catchesUp_maybeAdvanceCommit ha (fun r' h' => hl r' (h₁.trans h')) (h₁.wf hr)))
    (fun _ _ h => h) fun _ _ h => h.2

end

theorem catchesUp_proposeConfChange {target : Configuration} (hc : c = .proposeConfChange target)
    (hl : ∀ r', Reach c r r' → Ledger r') (hr : r.Wf) (h : r.CaughtUp L) :
    CatchesUp L (proposeConfChange target) r :=
  meets_proposeConfChange (fun _ => h) fun cc _ hprop =>
    catchesUp_propose (hc ▸ rfl) hl hr h fun _ => ⟨cc, hc ▸ hprop, rfl⟩

/-! ### Responses -/

section

variable {m : Message} (hc : c = .step m) (hl : ∀ r', Reach c r r' → Ledger r')

include hc hl

theorem catchesUp_recordMatch {pr : Progress} (hr : r.Wf) (h : r.CaughtUp L)
    (hty : m.type = .appendResp ∨ m.type = .snapshotResp) (hsu : m.success = true)
    (ht : m.term = r.term) (hp : r.peer m.sender = some pr) :
    CatchesUp L (recordMatch pr m) r := by
  have ha : c.appends = true := by
    rw [hc]
    rcases hty with hty | hty <;> simp [Call.appends, hty]
  have hsend : ∀ r' : RawNode, r'.Wf → r'.CaughtUp L → (r'.sendAppend m.sender).CaughtUp L :=
    fun r' hw hup => (reach_sendAppend (c := .messages) hw m.sender).1.caughtUp hw rfl hup
  rw [recordMatch]
  refine Meets.bind ?_
  rw [meets_get]
  split
  · rename_i hlt
    have h₁ := (Effect.setMatch m pr hc hty hsu ht hp hlt).reach
    refine Meets.bind ?_
    rw [meets_set]
    have hadv := Meets.and (exact_maybeAdvanceCommit ha (h₁.wf hr))
      (catchesUp_maybeAdvanceCommit (L := L) ha (fun r' h' => hl r' (h₁.trans h')) (h₁.wf hr))
    refine Meets.bind (Meets.mono hadv (fun advanced r₂ h₂ => ?_) fun _ _ h => h.2)
    have hw₂ := h₂.1.wf (h₁.wf hr)
    rw [meets_modify]
    split
    · exact (reach_broadcastAppend (c := .messages) hw₂).1.caughtUp hw₂ rfl h₂.2
    · split
      · exact hsend r₂ hw₂ h₂.2
      · exact h₂.2
  · rw [meets_set]
    split
    · exact hsend r hr h
    · exact h

theorem catchesUp_handleAppendResponse (hr : r.Wf) (h : r.CaughtUp L) (hty : m.type = .appendResp)
    (ht : r.state = .leader → m.term = r.term) : CatchesUp L (handleAppendResponse m) r := by
  rw [handleAppendResponse]
  refine Meets.bind ?_
  rw [meets_get]
  split
  · exact CatchesUp.throw h
  · rename_i hs
    have ht := ht (not_not.mp hs)
    split
    · exact CatchesUp.throw h
    · rename_i pr hp
      have hrest : ∀ r₁, Reach c r r₁ → r₁.CaughtUp L → r₁.term = r.term →
          r₁.peer m.sender = some pr →
          CatchesUp L (if m.success then recordMatch pr m else set (r₁.backUp pr m)) r₁ := by
        intro r₁ h₁ hup₁ ht₁ hp₁
        have hw₁ := h₁.wf hr
        split
        · rename_i hsu
          exact catchesUp_recordMatch hc (fun r' h' => hl r' (h₁.trans h')) hw₁ hup₁ (.inl hty) hsu
            (ht.trans ht₁.symm) hp₁
        · exact (reach_backUp (c := .messages) hw₁ hp₁).caughtUp hw₁ rfl hup₁
      dsimp only
      rw [meets_bind, meets_set]
      by_cases hid : m.readID ≠ 0
      · simp only [if_pos hid]
        have h₁ := (Effect.ackRead (c := c) m hc hty ht (not_not.mp hs) hid).reach
        exact hrest _ h₁ h rfl hp
      · simp only [if_neg hid]
        exact hrest r .refl h rfl hp

theorem catchesUp_handleSnapshotResponse (hr : r.Wf) (h : r.CaughtUp L)
    (hty : m.type = .snapshotResp) (ht : r.state = .leader → m.term = r.term) :
    CatchesUp L (handleSnapshotResponse m) r := by
  rw [handleSnapshotResponse]
  refine Meets.bind ?_
  rw [meets_get]
  split
  · exact CatchesUp.throw h
  · rename_i hs
    split
    · exact CatchesUp.throw h
    · rename_i pr hp
      let pr' : Progress := { pr with pendingSnapshot := 0, snapshotTicks := 0 }
      have heffect : ∀ c, Effect c r (r.setPeer m.sender pr') := fun c =>
        Effect.setNext m.sender pr pr' hp rfl (hr.next_pos _ pr hp) le_rfl id
      have hup₁ : (r.setPeer m.sender pr').CaughtUp L :=
        (heffect .messages).reach.caughtUp hr rfl h
      have h₁ := (heffect c).reach
      have hpeer : (r.setPeer m.sender pr').peer m.sender = some pr' :=
        peer_setPeer_self hp _
      dsimp only
      refine Meets.bind ?_
      rw [meets_set]
      split
      · exact CatchesUp.pure hup₁
      · rename_i hsu
        exact catchesUp_recordMatch hc (fun r' h' => hl r' (h₁.trans h')) (h₁.wf hr) hup₁ (.inr hty)
          (by simpa using hsu) (ht (not_not.mp hs)) hpeer

end

/-- A vote that comes after the campaign is not counted. -/
theorem catchesUp_handleVoteResponse {m : Message} (h : r.CaughtUp L)
    (hs : r.state = .leader ∨ r.state = .follower) : CatchesUp L (handleVoteResponse m) r := by
  rw [handleVoteResponse]
  refine Meets.bind ?_
  rw [meets_get]
  split
  · exact CatchesUp.throw h
  · rename_i hp
    split
    · exact CatchesUp.throw h
    · rename_i hv
      rcases hs with hs | hs <;> simp_all

/-- A response that reaches a leader. -/
theorem catchesUp_step {m : Message} (hc : c = .step m) (ha : c.appends = true)
    (hl : ∀ r', Reach c r r' → Ledger r') (hr : r.Wf) (hs : r.state = .leader) (h : r.CaughtUp L) :
    Meets (step m) r (fun _ r' => r'.CaughtUp L) fun e r' => e.ignored = true → r'.CaughtUp L := by
  have hdispatch : ∀ r₁, Reach c r r₁ → r₁.CaughtUp L → r₁.state = .leader ∨ r₁.state = .follower →
      r₁.Dispatches m → CatchesUp L (dispatch m) r₁ := by
    intro r₁ h₁ hup₁ hs₁ ht
    have hl₁ : ∀ r', Reach c r₁ r' → Ledger r' := fun r' h' => hl r' (h₁.trans h')
    rw [hc] at ha
    simp only [Call.appends, decide_eq_true_eq] at ha
    rw [dispatch]
    rcases ha with hty | hty | hty
    · rw [hty]
      exact catchesUp_handleVoteResponse hup₁ hs₁
    · have ht := ht.term_of_type hty (by rintro ⟨⟩) (by rintro ⟨⟩)
      rw [hty]
      exact catchesUp_handleAppendResponse hc hl₁ (h₁.wf hr) hup₁ hty fun _ => ht
    · have ht := ht.term_of_type hty (by rintro ⟨⟩) (by rintro ⟨⟩)
      rw [hty]
      exact catchesUp_handleSnapshotResponse hc hl₁ (h₁.wf hr) hup₁ hty fun _ => ht
  rw [step]
  refine Meets.bind ?_
  rw [meets_get]
  split
  · exact fun _ => h
  · split
    · rename_i hgt
      refine Meets.bind (Meets.mono (meets_stepHigherTerm hr hc hgt) ?_ ?_)
      · rintro _ r₁ ⟨h₁, -, ht, rfl | hf⟩
        · exact Meets.mono (hdispatch _ h₁ h (.inl hs) ht) (fun _ _ h => h) fun _ _ h _ => h
        · exact Meets.mono (hdispatch _ h₁ (caughtUp_of_state (by rw [hf]; rintro ⟨⟩)) (.inr hf) ht)
            (fun _ _ h => h) fun _ _ h _ => h
      · rintro e r₁ ⟨he, -⟩ hi
        cases he.symm.trans hi
    · split
      · rw [hc] at ha
        simp only [Call.appends, decide_eq_true_eq] at ha
        rw [stepLowerTerm]
        refine Meets.bind ?_
        rw [meets_get, meets_bind, meets_set]
        rcases ha with hty | hty | hty <;> rw [hty] <;> exact fun _ => h
      · refine Meets.mono (hdispatch r .refl h (.inl hs) (.inl (by omega))) (fun _ _ h => h)
          fun _ _ h _ => h

/-- A leader that had caught up has caught up after every call that leaves it running. -/
theorem caughtUp_call (hr : r.Wf) (hs : r.state = .leader) (hl : ∀ r', Reach c r r' → Ledger r')
    (h : r.CaughtUp L) :
    Meets c.run r (fun _ r' => r'.CaughtUp L) fun e r' => c.stops e = false → r'.CaughtUp L := by
  cases ha : c.appends with
  | false =>
    refine Meets.mono (c.meets_run hr) (fun _ _ h' => h'.caughtUp hr ha h) fun e r' h' hst => ?_
    rw [if_neg (by rw [hst]; exact Bool.false_ne_true)] at h'
    exact h'.caughtUp hr ha h
  | true =>
    cases c with
    | tick =>
      rw [Call.run, tick, meets_bind, meets_get, if_pos hs]
      exact Meets.mono (CatchesUp.of_exact (exact_tickHeartbeat hr) hr h) (fun _ _ h => h)
        fun _ _ h _ => h
    | step m =>
      refine Meets.mono (catchesUp_step rfl ha hl hr hs h) (fun _ _ h => h) fun e _ h hst => h ?_
      rcases e with e | _ | _
      · simpa [Call.stops, Fail.ignored] using hst
      · cases hst
      · cases hst
    | propose cmd =>
      have hp := catchesUp_propose (e := { type := .normal, command := cmd }) ha hl hr h
        (by rintro ⟨⟩)
      exact Meets.bind (Meets.mono hp (fun _ _ h => h) fun _ _ h _ => h)
    | proposeConfChange target =>
      have hp := catchesUp_proposeConfChange rfl hl hr h
      exact Meets.bind (Meets.mono hp (fun _ _ h => h) fun _ _ h _ => h)
    | campaign =>
      rw [Call.run, meets_bind, meets_get, campaign, campaignN, campaignWith, meets_bind, meets_get]
      split
      · exact h
      · rw [meets_bind]
        split
        · rw [becomePreCandidate, meets_bind, meets_get, if_pos hs]
          rintro ⟨⟩
        · rw [meets_bind, becomeCandidate, meets_bind, meets_get, if_pos hs]
          rintro ⟨⟩
    | _ => cases ha

end RaftStore.Raft
