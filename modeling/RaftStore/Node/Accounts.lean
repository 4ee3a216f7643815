import RaftStore.Lib.Tickets
import RaftStore.Node.Turn
import RaftStore.Raft.Office

/-! What becomes of the proposals and reads that the loop takes.  Each is answered once: at once, when
the core has decided it, or when the loop can no longer say what will become of it.  A proposal waits
under the index of its entry, and while the node leads that index is taken by no other. -/

namespace RaftStore.Loop

open Lib Raft RawNode

variable {σ ρ : Type}

/-- No proposal and no read is answered twice, and every proposal has been answered or waits. -/
structure Books (n : Node σ ρ) : Prop where
  tickets : Tickets (fun w : Awaiting => w.p.ticket) n.proposed.length n.pending
    (n.replies.map Prod.fst)
  kept : NoneLost (fun w : Awaiting => w.p.ticket) n.proposed.length n.pending
    (n.replies.map Prod.fst)
  reads : Tickets (fun t : ℕ => t) n.asked n.pendingReads (n.readReplies.map Prod.fst)

/-- The loop's accounts in the middle of a turn. -/
structure Accounted (n : Node σ ρ) : Prop extends Books n where
  wf : n.rn.Wf
  office : ∀ (i : ℕ) w, n.pending[i]? = some w → n.lastState = .leader
  index_le : ∀ (i : ℕ) w, n.pending[i]? = some w → n.rn.state = .leader → i ≤ n.rn.log.lastIndex

section

variable {sm : StateMachine σ ρ} {e : Event} {n n' : Node σ ρ}

/-! ### Answers -/

theorem Books.failPending (h : Books n) (err : Error) : Books (n.failPending err) where
  tickets := by
    have := h.tickets.answerAll
    simpa [Node.failPending, Function.comp_def] using this
  kept := by
    have := h.kept.answerAll
    simpa [Node.failPending, Function.comp_def] using this
  reads := h.reads

theorem Books.failReads (h : Books n) (err : Error) : Books (n.failReads err) where
  tickets := h.tickets
  kept := h.kept
  reads := by
    have := h.reads.answerAll
    simpa [Node.failReads, Function.comp_def] using this

theorem Books.resolve (h : Books n) (e : LogEntry) (response : Option ρ) :
    Books (n.resolve e response) := by
  rw [Node.resolve]
  split
  · exact h
  · rename_i w hw
    dsimp only
    split <;> exact ⟨by simpa [Node.reply] using h.tickets.answer hw,
      by simpa [Node.reply] using h.kept.answer hw, h.reads⟩

theorem Books.resolveRead (h : Books n) (state : ReadState) : Books (n.resolveRead state) := by
  rw [Node.resolveRead]
  split
  · exact h
  · rename_i ticket ht
    exact ⟨h.tickets, h.kept, by simpa [Node.replyRead] using h.reads.answer ht⟩

theorem Books.resolveReads (states : List ReadState) (h : Books n) :
    Books (states.foldl Node.resolveRead n) := by
  induction states generalizing n with
  | nil => exact h
  | cons state states ih => exact ih (h.resolveRead state)

/-- A key that waits after an entry was resolved waited before. -/
theorem Node.pending_resolve {n : Node σ ρ} {entry : LogEntry} {response : Option ρ} {i : ℕ}
    {w : Awaiting} (h : (n.resolve entry response).pending[i]? = some w) :
    n.pending[i]? = some w := by
  have herase : ∀ {t : Std.ExtTreeMap ℕ Awaiting}, (t.erase entry.index)[i]? = some w →
      t[i]? = some w := by
    intro t ht
    rw [Std.ExtTreeMap.getElem?_erase] at ht
    split at ht
    · exact nomatch ht
    · exact ht
  rw [resolve] at h
  split at h
  · exact h
  · dsimp only at h
    split at h <;> exact herase h

theorem Applies.books {entries : List LogEntry} (h : Applies sm n entries n') (hb : Books n) :
    Books n' ∧ ∀ (i : ℕ) w, n'.pending[i]? = some w → n.pending[i]? = some w := by
  induction h with
  | nil n => exact ⟨hb, fun _ _ h => h⟩
  | @normal n n' entry rest response app _ _ _ ih =>
    have hb' : Books (n.told app entry response) := ⟨hb.tickets, hb.kept, hb.reads⟩
    obtain ⟨hb'', hp⟩ := ih (hb'.resolve entry (some response))
    exact ⟨hb'', fun i w h => Node.pending_resolve (n := n.told app entry response) (hp i w h)⟩
  | other _ _ ih =>
    obtain ⟨hb'', hp⟩ := ih (hb.resolve _ none)
    exact ⟨hb'', fun i w h => Node.pending_resolve (hp i w h)⟩

/-! ### Taking an event -/

/-- What a leader does with an event is no campaign. -/
theorem Taken.reach_of_leader (ht : Taken n e n') (hr : n.rn.Wf) (hs : n.rn.state = .leader) :
    ∃ c : Call, c.campaigns = false ∧ Reach c n.rn n'.rn := by
  rcases ht.ran with ⟨hrn, -⟩ | ⟨c, hc, hg, -⟩
  · exact ⟨.messages, rfl, hrn ▸ .refl⟩
  · cases ht with
    | tick r hr' => exact ⟨.messages, rfl, tick_in_office hr hs hr'⟩
    | status => exact nomatch hc
    | _ =>
      cases hc
      exact ⟨_, rfl, hg.reach hr⟩

/-- Between turns whoever waits does so for a leader; if it still leads after it has taken an event,
its log has not become shorter. -/
theorem Accounted.index_le_taken (h : Accounted n) (hstate : n.lastState = n.rn.state)
    (ht : Taken n e n') (i : ℕ) (w : Awaiting) (hw : n.pending[i]? = some w)
    (hlead : n'.rn.state = .leader) : i ≤ n'.rn.log.lastIndex := by
  have hs : n.rn.state = .leader := hstate ▸ h.office i w hw
  obtain ⟨c, hc, hreach⟩ := ht.reach_of_leader h.wf hs
  rcases hreach.in_office hc h.wf hs with ⟨-, hle⟩ | hf
  · exact (h.index_le i w hw hs).trans hle
  · rw [hf] at hlead
    exact nomatch hlead

theorem Accounted.taken (h : Accounted n) (hstate : n.lastState = n.rn.state)
    (ht : Taken n e n') : Accounted n' := by
  have hwf := ht.ran.wf h.wf
  have hle := h.index_le_taken hstate ht
  cases ht with
  | tick r => exact ⟨⟨h.tickets, h.kept, h.reads⟩, hwf, h.office, hle⟩
  | step m r => exact ⟨⟨h.tickets, h.kept, h.reads⟩, hwf, h.office, hle⟩
  | ignore m err r => exact ⟨⟨h.tickets, h.kept, h.reads⟩, hwf, h.office, hle⟩
  | propose cmd i r hr =>
    obtain ⟨hs, hi, -, hmem⟩ := propose_ok h.wf hr
    -- the index is past the log, where nobody can wait
    have hfree : n.pending[i]? = none := by
      by_contra hne
      obtain ⟨w, hw⟩ := Option.ne_none_iff_exists'.mp hne
      have := h.index_le i w hw hs
      omega
    have hkey : ∀ (j : ℕ) w, (n.accepted cmd i r).pending[j]? = some w →
        j = i ∨ n.pending[j]? = some w := by
      intro j w hw
      change (n.pending.insert i _)[j]? = some w at hw
      rw [Std.ExtTreeMap.getElem?_insert] at hw
      split at hw
      · rename_i heq
        exact Or.inl (Std.LawfulEqCmp.eq_of_compare heq).symm
      · exact Or.inr hw
    refine ⟨⟨?_, ?_, h.reads⟩, hwf, fun _ _ _ => hstate.trans hs, fun j w hw hlead => ?_⟩
    · simpa [Node.accepted, Node.called] using h.tickets.insert i rfl
    · simpa [Node.accepted, Node.called] using h.kept.insert rfl hfree
    · rcases hkey j w hw with rfl | hw
      · exact hwf.log.inOrder.index_le hmem
      · exact hle j w hw hlead
  | refuse cmd err r hr =>
    refine ⟨⟨?_, ?_, h.reads⟩, hwf, h.office, hle⟩
    · simpa [Node.refused, Node.called] using h.tickets.refuse
    · simpa [Node.refused, Node.called] using h.kept.refuse
  | read r => exact ⟨⟨h.tickets, h.kept, h.reads.insert _ rfl⟩, hwf, h.office, hle⟩
  | unread err r =>
    refine ⟨⟨h.tickets, h.kept, ?_⟩, hwf, h.office, hle⟩
    simpa [Node.unread, Node.called] using h.reads.refuse
  | change target i r => exact ⟨⟨h.tickets, h.kept, h.reads⟩, hwf, h.office, hle⟩
  | unchanged target err r => exact ⟨⟨h.tickets, h.kept, h.reads⟩, hwf, h.office, hle⟩
  | status => exact ⟨⟨h.tickets, h.kept, h.reads⟩, hwf, h.office, hle⟩

/-! ### Flushing -/

theorem applyTo_state {i : ℕ} {r r' : RawNode} (h : applyTo i r = .ok () r') :
    r'.state = r.state := by
  have hmeets : Meets (applyTo i) r (fun _ r' => r'.state = r.state) fun _ _ => True := by
    rw [applyTo, onLog, meets_onPart, meets_iff]
    exact ⟨fun _ _ _ => rfl, fun _ _ _ => trivial⟩
  exact hmeets.ok h

/-- A flush leaves the role alone. -/
theorem Move.state_eq (h : Move sm n n') : n'.rn.state = n.rn.state := by
  have hstorage : ∀ {r r' : RawNode}, SameButStorage r r' → r'.state = r.state := by
    intro r r' h
    rw [SameButStorage] at h
    rw [h]
  cases h with
  | release => rfl
  | answer =>
    rw [Node.answered, Node.foldl_resolveRead_eq]
    rfl
  | look => rfl
  | restore => rfl
  | batch entries last n₁ r _ _ _ ha hr => exact (applyTo_state hr).trans (by rw [ha.frame.1])
  | capture s data snap r _ _ _ hr => exact hstorage ((createSnapshot_same data n.rn).ok hr).1
  | uncaptured s data err r _ _ _ hr => exact hstorage ((createSnapshot_same data n.rn).error hr)
  | note => rw [Node.noteRole_eq]

theorem Move.lastIndex_le (h : Move sm n n') (hr : n.rn.Wf) (hs : n.rn.state = .leader) :
    n.rn.log.lastIndex ≤ n'.rn.log.lastIndex := by
  rcases h.ran with ⟨hrn, -⟩ | ⟨c, hc, hg, -⟩
  · rw [hrn]
  · have hcamp : c.campaigns = false := by cases c <;> first | rfl | exact nomatch hc
    rcases (hg.reach hr).in_office hcamp hr hs with ⟨-, hle⟩ | hf
    · exact hle
    · rw [h.state_eq, hs] at hf
      exact nomatch hf

theorem Accounted.note (h : Accounted n) : Accounted n.noteRole := by
  have hwf : n.noteRole.rn.Wf := by
    rw [Node.noteRole_eq]
    exact h.wf
  have hempty : ∀ {i : ℕ} {w : Awaiting} {P : Prop},
      (∅ : Std.ExtTreeMap ℕ Awaiting)[i]? = some w → P := by
    intro i w P h
    simp at h
  have hbooks := (h.toBooks.failPending errProposalDropped).failReads errNotLeader
  rw [Node.noteRole] at hwf ⊢
  split
  · split
    · exact ⟨⟨hbooks.tickets, hbooks.kept, hbooks.reads⟩, h.wf, fun i w hw => hempty hw,
        fun i w hw => hempty hw⟩
    · rename_i hstays
      refine ⟨⟨h.tickets, h.kept, h.reads⟩, h.wf, fun i w hw => ?_, h.index_le⟩
      by_contra hne
      exact hstays ⟨h.office i w hw, hne⟩
  · exact h

theorem Accounted.move (h : Accounted n) (hm : Move sm n n') : Accounted n' := by
  have hwf := hm.ran.wf h.wf
  have hle : ∀ (i : ℕ) w, n.pending[i]? = some w → n'.rn.state = .leader →
      i ≤ n'.rn.log.lastIndex := by
    intro i w hw hs
    rw [hm.state_eq] at hs
    exact (h.index_le i w hw hs).trans (hm.lastIndex_le h.wf hs)
  cases hm with
  | release => exact ⟨⟨h.tickets, h.kept, h.reads⟩, hwf, h.office, hle⟩
  | answer =>
    have hbooks : Books n.answered := Books.resolveReads _ ⟨h.tickets, h.kept, h.reads⟩
    have hsame : n.answered.pending = n.pending ∧ n.answered.lastState = n.lastState := by
      rw [Node.answered, Node.foldl_resolveRead_eq]
      exact ⟨rfl, rfl⟩
    refine ⟨hbooks, hwf, ?_, ?_⟩
    · rw [hsame.1, hsame.2]
      exact h.office
    · rw [hsame.1]
      exact hle
  | look => exact ⟨⟨h.tickets, h.kept, h.reads⟩, hwf, h.office, hle⟩
  | restore s snap app =>
    have hbooks : Books { n.looked with
        app, calls := n.calls ++ [.restore snap.data snap.lastIncludedIndex] } :=
      ⟨h.tickets, h.kept, h.reads⟩
    refine ⟨hbooks.failPending errProposalDropped, hwf, fun i w hw => ?_, fun i w hw => ?_⟩
    · change (∅ : Std.ExtTreeMap ℕ Awaiting)[i]? = some w at hw
      simp at hw
    · change (∅ : Std.ExtTreeMap ℕ Awaiting)[i]? = some w at hw
      simp at hw
  | batch entries last n₁ r _ _ _ ha =>
    obtain ⟨hbooks, hpend⟩ := ha.books h.toBooks
    refine ⟨⟨hbooks.tickets, hbooks.kept, hbooks.reads⟩, hwf, fun i w hw => ?_, fun i w hw => ?_⟩
    · rw [ha.eq]
      exact h.office i w (hpend i w hw)
    · exact hle i w (hpend i w hw)
  | capture => exact ⟨⟨h.tickets, h.kept, h.reads⟩, hwf, h.office, hle⟩
  | uncaptured => exact ⟨⟨h.tickets, h.kept, h.reads⟩, hwf, h.office, hle⟩
  | note => exact h.note

/-! ### Runs -/

theorem start_accounted {app : σ} {cfg : Config} {st : MemoryStorage} (hst : st.OK)
    (h : start sm app cfg st = .ok n) : Accounted n ∧ n.lastState = n.rn.state := by
  obtain ⟨cfg', rn, app', calls, -, hnew, rfl, -⟩ := start_ok h
  exact ⟨⟨⟨.empty _, .empty _, .empty _⟩, (started_of_new hnew).wf hst, fun i w hw => by simp at hw,
    fun i w hw => by simp at hw⟩, rfl⟩

theorem Accounted.withFaults (h : Accounted n) (faults : List Bool) :
    Accounted (n.withFaults faults) :=
  ⟨⟨h.tickets, h.kept, h.reads⟩, (reach_withFaults (c := .tick) n.rn faults).wf h.wf, h.office,
    h.index_le⟩

theorem Accounted.moves (h : Accounted n) (hm : Moves sm n n') : Accounted n' := by
  induction hm with
  | refl => exact h
  | tail _ hm ih => exact ih.move hm

theorem Accounted.underway (h : Accounted n) (hstate : n.lastState = n.rn.state)
    (hu : Underway sm e n n') : Accounted n' := by
  rcases hu with rfl | ⟨n₀, ht, hm⟩
  · exact h
  · exact (h.taken hstate ht).moves hm

theorem Books.failing {err : Error} (h : Books n) (hf : Failing sm e n (.error err) n') :
    Books n' := by
  cases hf with
  | idle _ => exact h
  | tick => exact ⟨h.tickets, h.kept, h.reads⟩
  | step => exact ⟨h.tickets, h.kept, h.reads⟩
  | restore => exact ⟨h.tickets, h.kept, h.reads⟩
  | batch done rest _ _ _ _ ha => exact (ha.books h).1
  | capture => exact ⟨h.tickets, h.kept, h.reads⟩
  | panic _ _ _ _ _ _ hf => exact nomatch hf

end

end RaftStore.Loop
