import RaftStore.Raft.Process
import RaftStore.Raft.Frame

/-! A leader in office.  While a node leads its log only grows, and a command that it accepts is the
next entry of that log. -/

namespace RaftStore.Raft

open Lib RawNode

variable {c : Call} {r r' : RawNode}

theorem Effect.lastIndex_le (he : Effect c r r') (hr : r.Wf) (hs : r.state = .leader)
    (hs' : r'.state = .leader) : r.log.lastIndex ≤ r'.log.lastIndex := by
  have hne : r.state ≠ .follower := by rw [hs]; nofun
  cases he with
  | adopt => exact nomatch hs'
  | resign => exact nomatch hs'
  | poll => exact nomatch hs'
  | stand => exact nomatch hs'
  | lead hst =>
    rw [hs] at hst
    exact nomatch hst
  | extend e =>
    rw [extended_lastIndex]
    exact Nat.le_succ _
  | follow m l committed _ _ _ hst => exact absurd hst hne
  | restore m snap mem _ _ _ hst => exact absurd hst hne
  | saveSnapshot data term mem _ ht h0 hsave =>
    obtain ⟨hbase, hents⟩ := RaftLog.saveSnapshot_own h0 ht hsave
    show r.log.mem.base.index + r.log.mem.ents.length ≤ mem.base.index + mem.ents.length
    rw [hbase, hents]
  | compact upto mem data _ _ _ hcm => exact (MemoryStorage.compact_lastIndex hr.log.inOrder hcm).ge
  | _ => exact le_rfl

/-- In a call that is no campaign a leader stays in office, with a log that does not get shorter, or
becomes a follower for the rest of the call. -/
theorem Reach.in_office (h : Reach c r r') (hc : c.campaigns = false) (hr : r.Wf)
    (hs : r.state = .leader) :
    r'.state = .leader ∧ r.log.lastIndex ≤ r'.log.lastIndex ∨ r'.state = .follower := by
  induction h with
  | refl => exact Or.inl ⟨hs, le_rfl⟩
  | @tail b r' hb he ih =>
    have hcast := he.casting
    rcases ih with ⟨hsb, hle⟩ | hsb
    · cases hcast with
      | same _ hs' =>
        have hs' := hs'.trans hsb
        exact Or.inl ⟨hs', hle.trans (he.lastIndex_le (Reach.wf hb hr) hsb hs')⟩
      | adopted _ hs' => exact Or.inr hs'
      | resigned _ hs' => exact Or.inr hs'
      | polled _ hne => exact absurd hsb hne
      | stood _ hne => exact absurd hsb hne
      | elected hcand =>
        rw [hsb] at hcand
        exact nomatch hcand
    · cases hcast with
      | same _ hs' => exact Or.inr (hs'.trans hsb)
      | adopted _ hs' => exact Or.inr hs'
      | resigned _ hs' => exact Or.inr hs'
      | polled hc' =>
        rw [hc] at hc'
        exact nomatch hc'
      | stood hc' =>
        rw [hc, hsb] at hc'
        rcases hc' with hc' | hc' <;> exact nomatch hc'
      | elected hcand =>
        rw [hsb] at hcand
        exact nomatch hcand

/-- When the clock ticks a leader does nothing that it could not do in any other call. -/
theorem tick_in_office (hr : r.Wf) (hs : r.state = .leader) (h : tick r = .ok () r') :
    Reach c r r' := by
  have hbeat : Exact c tick r := by
    rw [tick]
    refine Exact.get_bind ?_
    rw [if_pos hs]
    exact exact_tickHeartbeat hr
  rw [Exact] at hbeat
  exact hbeat.ok h

/-! ### Proposals -/

theorem Effect.term_eq (he : Effect c r r') (hc : ∀ m, c ≠ .step m) (hcamp : c.campaigns = false)
    (hs : r.state ≠ .preCandidate) : r'.term = r.term := by
  cases he with
  | adopt m _ hm => exact absurd hm (hc m)
  | resign =>
    rw [becomeFollower, reset_eq]
  | stand hst =>
    rw [hcamp] at hst
    exact absurd (hst.resolve_left (by rintro ⟨⟩)) hs
  | lead =>
    rw [leading, reset_eq]
  | extend e => rw [(extended_reconf r e).eq]; rfl
  | follow m l committed hm => exact absurd hm (hc m)
  | restore m snap mem hm => exact absurd hm (hc m)
  | _ => rfl

/-- A proposal adds to a leader's log and keeps the term. -/
theorem Reach.of_propose {cmd : List UInt8} (h : Reach (.propose cmd) r r') (hr : r.Wf)
    (hs : r.state = .leader) : r'.term = r.term ∧ r.log.mem.ents ⊆ r'.log.mem.ents := by
  induction h with
  | refl => exact ⟨rfl, List.Subset.refl _⟩
  | @tail b r' hb he ih =>
    have hsb : b.state ≠ .preCandidate := by
      rcases Reach.in_office hb rfl hr hs with ⟨h, -⟩ | h <;> rw [h] <;> nofun
    refine ⟨(he.term_eq nofun rfl hsb).trans ih.1, List.Subset.trans ih.2 ?_⟩
    cases he.logChange with
    | same _ hsame => rw [hsame.ents]; exact List.Subset.refl _
    | extended e =>
      rw [extended_log]
      exact List.subset_append_left _ _
    | followed m _ _ hm => exact nomatch hm
    | restored m _ _ hm => exact nomatch hm
    | saved _ _ _ hm => exact nomatch hm
    | compacted _ _ _ hm => exact nomatch hm

theorem appendOwn_normal {cmd : List UInt8} (hr : r.Wf) :
    Meets (appendOwn { type := .normal, command := cmd }) r
      (fun i r' => i = r.log.lastIndex + 1 ∧ r'.term = r.term ∧ r'.state = r.state ∧
        { term := r.term, index := i, type := .normal, command := cmd } ∈ r'.log.mem.ents)
      fun _ r' => ∃ faults, r' = r.withFaults faults := by
  rw [appendOwn, meets_bind, meets_get, meets_bind]
  refine meets_appendNext hr rfl (fun faults => ?_) fun _ faults => ⟨faults, rfl⟩
  rw [if_neg (by rintro ⟨⟩), meets_bind, meets_pure, meets_bind, meets_modify, meets_pure]
  refine ⟨rfl, ?_⟩
  split
  · exact ⟨rfl, rfl, List.mem_append_right _ List.mem_cons_self⟩
  · exact ⟨rfl, rfl, List.mem_append_right _ List.mem_cons_self⟩

theorem propose_ok {cmd : List UInt8} {i : ℕ} (hr : r.Wf)
    (h : propose { type := .normal, command := cmd } r = .ok i r') :
    r.state = .leader ∧ i = r.log.lastIndex + 1 ∧ r'.term = r.term ∧
      { term := r.term, index := i, type := .normal, command := cmd } ∈ r'.log.mem.ents := by
  have hmeets : Meets (propose { type := .normal, command := cmd }) r
      (fun i r' => r.state = .leader ∧ i = r.log.lastIndex + 1 ∧ r'.term = r.term ∧
        { term := r.term, index := i, type := .normal, command := cmd } ∈ r'.log.mem.ents)
      fun _ _ => True := by
    rw [propose, proposeWith, meets_bind, meets_get]
    split
    · trivial
    · rename_i hs
      have hs : r.state = .leader := not_not.mp hs
      have happend := exact_appendOwn (c := .propose cmd) (e := { type := .normal, command := cmd })
        rfl hr hs (by rintro ⟨⟩)
      rw [meets_bind]
      refine Meets.mono (Meets.and happend (appendOwn_normal hr)) (fun i r₁ h₁ => ?_)
        fun _ _ _ => trivial
      obtain ⟨hreach, hi, hterm, hstate, hmem⟩ := h₁
      have hw₁ := Reach.wf hreach hr
      rw [meets_bind]
      refine Meets.mono (exact_maybeAdvanceCommit (c := .propose cmd) rfl hw₁) (fun _ r₂ h₂ => ?_)
        fun _ _ _ => trivial
      have hrest : Reach (.propose cmd) r₁ r₂.broadcastAppend :=
        Relation.ReflTransGen.trans h₂ (reach_broadcastAppend (Reach.wf h₂ hw₁)).1
      obtain ⟨hterm', hsub⟩ := hrest.of_propose hw₁ (hstate.trans hs)
      exact ⟨hs, hi, hterm'.trans hterm, hsub hmem⟩
  exact hmeets.ok h

end RaftStore.Raft
