import RaftStore.Raft.PreVote

/-! Straw polls.  A node that is asked for a pre-vote answers and does nothing else.  A node that asks
for pre-votes, and is refused, goes on asking: it neither moves to another term nor writes anything,
however long it keeps trying. -/

namespace RaftStore.Raft

open Lib RawNode

variable {α : Type} {c : Call} {r r' : RawNode}

/-! ### Answering -/

/-- The node with messages added to its outbox. -/
def RawNode.Replied (r r' : RawNode) : Prop :=
  ∃ sent journal, r' = { r with msgs := r.msgs ++ sent, journal }

theorem replied_send (r : RawNode) (m : Message) : r.Replied (r.send m) := ⟨[r.stamp m], _, rfl⟩

theorem replied_of_preVote {m : Message} (r : RawNode) (hty : m.type = .voteReq)
    (hp : m.preVote = true) : r.Replied ((Call.step m).outcome r) := by
  by_cases hd : m.dest = r.id ∨ m.dest = None
  · have hm : m.IsPreVote r.id := ⟨hty, hp, hd⟩
    by_cases hlt : m.term < r.term
    · rw [outcome_lower hm hlt]
      exact replied_send r _
    · obtain ⟨b, hb⟩ := isUpToDate_ok r.log m.lastLogIndex m.lastLogTerm
      have hg : (if r.canVote m then r.log.isUpToDate m.lastLogIndex m.lastLogTerm else .ok false) =
          .ok (r.canVote m && b) := by
        cases r.canVote m
        · rfl
        · exact hb
      rw [outcome_dispatch hm (not_lt.mp hlt) hg]
      exact replied_send r _
  · have hdest : (m.dest ≠ r.id && m.dest ≠ None) = true := by
      simp only [not_or] at hd
      simp [hd]
    have hstep : Meets (Call.step m).run r (fun _ r' => r' = r) fun _ r' => r' = r := by
      change Meets (step m) r _ _
      rw [step, meets_bind, meets_get, if_pos hdest]
      exact rfl
    rw [Call.outcome_of_meets (P := fun r' => r' = r) hstep]
    exact ⟨[], r.journal, by simp⟩

/-! ### What an effect does to a poll -/

/-- A poll goes on or is over, a new one is opened, or an answer is counted. -/
inductive PollChange (c : Call) (r r' : RawNode) : Prop
  | same : r'.state = r.state → r'.term = r.term → r'.votes = r.votes → r'.conf = r.conf →
      PollChange c r r'
  | ended : r'.state ≠ .preCandidate → PollChange c r r'
  | opened : c.campaigns = true → r'.term = r.term → (r'.votes = fun _ => none) → PollChange c r r'
  | counted (sender : NodeID) (granted : Bool) : r'.state = r.state → r'.term = r.term →
      r.votes sender = none → r'.votes = Function.update r.votes sender (some granted) →
      c.campaigns = true ∧ sender = r.id ∧ granted = true ∨ r.CountsVote c sender granted →
      PollChange c r r'

theorem PollChange.of_reconf {r₁ : RawNode} (h : r₁.Reconf r') (hs : r₁.state ≠ .preCandidate) :
    PollChange c r r' := by
  refine .ended ?_
  rw [h.eq]
  exact hs

theorem Effect.pollChange (he : Effect c r r') : PollChange c r r' := by
  cases he with
  | adopt m lead =>
    rw [becomeFollower, reset_eq]
    exact .ended (by rintro ⟨⟩)
  | resign lead =>
    rw [becomeFollower, reset_eq]
    exact .ended (by rintro ⟨⟩)
  | poll hc => exact .opened hc rfl rfl
  | stand =>
    rw [RawNode.standing, reset_eq]
    exact .ended (by rintro ⟨⟩)
  | tally sender granted hv hg =>
    rcases hg with ⟨hc | hs, hown⟩ | hg
    · exact .counted sender granted rfl rfl hv rfl (Or.inl ⟨hc, hown⟩)
    · exact .ended (show r.state ≠ _ from hs ▸ (by rintro ⟨⟩))
    · exact .counted sender granted rfl rfl hv rfl (Or.inr hg)
  | lead =>
    rw [leading, reset_eq]
    exact .ended (by rintro ⟨⟩)
  | extend e _ hs => exact .of_reconf (extended_reconf r e) (show r.state ≠ _ from hs ▸ (by rintro ⟨⟩))
  | follow m l committed _ _ _ hs =>
    exact .of_reconf (refreshedIfNeeded_reconf _ _) (show r.state ≠ _ from hs ▸ (by rintro ⟨⟩))
  | restore m snap mem _ _ _ hs =>
    exact .of_reconf (restored_reconf r snap mem) (show r.state ≠ _ from hs ▸ (by rintro ⟨⟩))
  | _ => exact .same rfl rfl rfl rfl

/-- Who has left a poll does not open one unless it is to campaign. -/
theorem Reach.state_ne_preCandidate (h : Reach c r r') (hc : c.campaigns = false)
    (hs : r.state ≠ .preCandidate) : r'.state ≠ .preCandidate := by
  induction h with
  | refl => exact hs
  | tail _ he ih =>
    cases he.pollChange with
    | same hs' => rw [hs']; exact ih
    | ended hs' => exact hs'
    | opened hc' => rw [hc] at hc'; exact nomatch hc'
    | counted _ _ hs' => rw [hs']; exact ih

/-- Whose answer a poll still waits for after a call that opens none, it waited for before. -/
theorem Reach.waits (h : Reach c r r') (hc : c.campaigns = false) {p : NodeID}
    (hs : r'.state = .preCandidate) (hv : r'.votes p = none) :
    r.state = .preCandidate ∧ r.votes p = none ∧ r'.term = r.term := by
  induction h with
  | refl => exact ⟨hs, hv, rfl⟩
  | tail _ he ih =>
    cases he.pollChange with
    | same hs' ht hv' =>
      rw [ht]
      exact ih (hs' ▸ hs) (hv' ▸ hv)
    | ended hs' => exact absurd hs hs'
    | opened hc' =>
      rw [hc] at hc'
      cases hc'
    | counted sender granted hs' ht _ hv' =>
      have hp : p ≠ sender := by
        rintro rfl
        rw [hv', Function.update_self] at hv
        cases hv
      rw [hv', Function.update_of_ne hp] at hv
      rw [ht]
      exact ih (hs' ▸ hs) hv

/-! ### Polls that are not won -/

/-- A node that polls is a voter and has not won: a poll that is won is over before the call ends. -/
def RawNode.PollOpen (r : RawNode) : Prop :=
  r.state = .preCandidate →
    r.promotable = true ∧ r.conf.hasQuorum (fun id => r.votes id = some true) = false

theorem RawNode.PollOpen.of_state (h : r.state ≠ .preCandidate) : r.PollOpen := fun hs => absurd hs h

/-- The calls in which a poll counts no answer. -/
def Call.polls : Call → Bool
  | .tick | .campaign => true
  | .step m => m.type = .voteResp && m.preVote
  | _ => false

theorem Effect.pollOpen (he : Effect c r r') (hc : c.polls = false) (h : r.PollOpen) :
    r'.PollOpen := by
  have hcamp : c.campaigns = false := by
    cases c <;> first | rfl | exact nomatch hc
  cases he.pollChange with
  | same hs _ hv hcf =>
    intro hs'
    rw [promotable, hcf, hv, he.id_eq]
    exact h (hs ▸ hs')
  | ended hs => exact .of_state hs
  | opened hc' => rw [hcamp] at hc'; exact nomatch hc'
  | counted sender granted hs _ _ _ hg =>
    rcases hg with ⟨hc', -⟩ | ⟨m, rfl, hty, -, -, -, ⟨hcand, -⟩ | ⟨-, hp, -⟩⟩
    · rw [hcamp] at hc'; exact nomatch hc'
    · exact .of_state (by rw [hs, hcand]; nofun)
    · simp [Call.polls, hty, hp] at hc

theorem Reach.pollOpen (h : Reach c r r') (hc : c.polls = false) (hr : r.PollOpen) :
    r'.PollOpen := by
  induction h with
  | refl => exact hr
  | tail _ he ih => exact he.pollOpen hc ih

/-- The program leaves no poll that is won, unless the process ends with it. -/
def LeavesOpen (x : Core α) (r : RawNode) : Prop :=
  Meets x r (fun _ r' => r'.PollOpen) fun e r' => e.ignored = true → r'.PollOpen

theorem LeavesOpen.of_traced {x : Core α} (h : Traced c x r) (hc : c.polls = false)
    (hr : r.PollOpen) : LeavesOpen x r := by
  refine Meets.mono h (fun _ _ h' => h'.pollOpen hc hr) fun e r' h' hi => ?_
  rw [hi, if_pos rfl] at h'
  exact h'.pollOpen hc hr

/-- Whoever stands for election polls no more. -/
theorem leavesOpen_stand {campaign : Core Unit} (hr : r.Wf) (hs : r.state ≠ .leader)
    (hp : r.promotable = true) : LeavesOpen (campaignWith campaign false) r := by
  obtain ⟨hsync, hterm⟩ := standing_unsaved hr
  refine meets_campaignWith_stand hs hp
    (meets_persistHardState hsync hterm (fun faults => ?_) fun e faults he hi => ?_)
  · have hst : (r.standing.saved.withFaults faults).state = .candidate := by
      rw [standing, reset_eq]; rfl
    have hne : (r.standing.saved.withFaults faults).state ≠ .preCandidate := by
      rw [hst]; rintro ⟨⟩
    have h1 : Reach .tick r (r.standing.saved.withFaults faults) :=
      ((Effect.stand (Or.inl rfl) hs hp).reach).trans (reach_withFaults _ _)
    -- The election itself is traced as part of a call that opens no poll.
    have ht : Traced (.step { type := .voteResp }) (gatherVotes campaign false)
        (r.standing.saved.withFaults faults) :=
      traced_votes rfl (h1.wf hr) hst (by rintro ⟨⟩) (by rintro ⟨⟩)
    refine Meets.mono ht (fun _ r' h => .of_state (h.state_ne_preCandidate rfl hne))
      fun e r' h hi => ?_
    rw [hi, if_pos rfl] at h
    exact .of_state (h.state_ne_preCandidate rfl hne)
  · rw [he] at hi
    cases hi

theorem leavesOpen_tally (hr : r.Wf) (hs : r.state = .preCandidate) (hp : r.promotable = true) :
    Meets tallyVotes r (fun done r' => r'.PollOpen ∧ (done = false → r' = r))
      fun e r' => e.ignored = true → r'.PollOpen := by
  rw [tallyVotes, tallyVotesWith, meets_bind, meets_get]
  split
  · rw [meets_bind]
    exact Meets.mono (leavesOpen_stand hr (by rw [hs]; rintro ⟨⟩) hp) (fun _ _ h => ⟨h, (by rintro ⟨⟩)⟩)
      fun _ _ h => h
  · rename_i hq
    split
    · refine ⟨.of_state ?_, (by rintro ⟨⟩)⟩
      rw [becomeFollower]
      rintro ⟨⟩
    · exact ⟨fun _ => ⟨hp, by simpa using hq⟩, fun _ => rfl⟩

theorem recordVote_promotable (r : RawNode) (sender : NodeID) (granted : Bool) :
    (r.recordVote sender granted).promotable = r.promotable := by
  rw [recordVote]
  split <;> rfl

theorem RawNode.Replied.requestVotes (r : RawNode) (term : ℕ) (preVote : Bool) (lastTerm : ℕ) :
    r.Replied (r.requestVotes term preVote lastTerm) := by
  have hloop : ∀ (peers : List NodeID) (r₁ : RawNode), r.Replied r₁ →
      r.Replied (peers.foldl (fun r' peer =>
        if !r.conf.isVoter peer then r'
        else
          r'.send { type := .voteReq, dest := peer, term, preVote,
                    lastLogIndex := r.log.lastIndex, lastLogTerm := lastTerm }) r₁) := by
    intro peers
    induction peers with
    | nil => exact fun _ h => h
    | cons peer peers ih =>
      intro r₁ h
      rw [List.foldl_cons]
      refine ih _ ?_
      split
      · exact h
      · obtain ⟨sent, journal, rfl⟩ := h
        exact ⟨_, _, by rw [send, List.append_assoc]⟩
  exact hloop _ r ⟨[], r.journal, by simp⟩

theorem RawNode.Replied.pollOpen (h : r.Replied r') (ho : r.PollOpen) : r'.PollOpen := by
  obtain ⟨sent, journal, rfl⟩ := h
  exact ho

theorem leavesOpen_poll (hr : r.Wf) (hs : r.state = .preCandidate) (hp : r.promotable = true) :
    LeavesOpen (gatherVotes (campaignN 1 false) true) r := by
  have h1 : Reach .tick r (r.recordVote r.id true) :=
    reach_recordVote (by rw [hs]; nofun) (Or.inl ⟨Or.inl rfl, rfl, rfl⟩)
  have hs1 := (recordVote_frame r r.id true).1.trans hs
  have hp1 := (recordVote_promotable r r.id true).trans hp
  rw [LeavesOpen, gatherVotes, meets_bind, meets_get, meets_bind, meets_set, meets_bind]
  refine Meets.mono (leavesOpen_tally (h1.wf hr) hs1 hp1) (fun done r2 h => ?_) fun _ _ h => h
  split
  · exact h.1
  · rw [meets_bind, meets_reads]
    obtain ⟨lt, -, hlt⟩ := RaftLog.lastTerm_ok r2.log
    refine ⟨fun _ _ => (RawNode.Replied.requestVotes _ _ _ _).pollOpen h.1, fun e he => ?_⟩
    rw [hlt] at he
    exact nomatch he

theorem leavesOpen_campaign {preVote : Bool} (hr : r.Wf) (ho : r.PollOpen) :
    LeavesOpen (campaign preVote) r := by
  by_cases hidle : r.promotable = false ∨ r.state = .leader
  · exact .of_traced (c := .messages) (traced_campaignWith_idle hidle) rfl ho
  · simp only [not_or, Bool.not_eq_false] at hidle
    obtain ⟨hp, hs⟩ := hidle
    cases preVote with
    | true =>
      have h1 : Reach .tick r r.polling := (Effect.poll rfl hs hp).reach
      exact meets_campaignWith_poll hs hp (leavesOpen_poll (h1.wf hr) rfl hp)
    | false => exact leavesOpen_stand hr hs hp

theorem leavesOpen_tick (hr : r.Wf) (ho : r.PollOpen) : LeavesOpen tick r := by
  rw [LeavesOpen, tick, meets_bind, meets_get]
  split
  · exact LeavesOpen.of_traced (c := .messages) (exact_tickHeartbeat hr).traced rfl ho
  · rw [tickElection, meets_bind, meets_modify, meets_bind, meets_get]
    split
    · exact ho
    · rw [meets_bind, meets_set]
      have hw := (reach_timers (c := .tick) r 0 r.heartbeatElapsed).wf hr
      exact leavesOpen_campaign hw ho

theorem leavesOpen_handleVoteResponse {m : Message} (hr : r.Wf) (hp : m.preVote = true)
    (ho : r.PollOpen) : LeavesOpen (handleVoteResponse m) r := by
  rw [LeavesOpen, handleVoteResponse, meets_bind, meets_get]
  split
  · exact fun _ => ho
  · rename_i hs
    have hs' : r.state = .preCandidate := by simpa [hp] using hs
    rw [if_neg (by simp [hp]), meets_bind, meets_set, meets_bind]
    have hw : (r.recordVote m.sender m.granted).Wf := by
      rw [recordVote]
      split
      · exact hr
      · exact ⟨hr.id_ne, hr.log, hr.synced, hr.term_eq, hr.vote_eq, hr.commit_le, hr.lead_self,
          hr.tracked, hr.next_pos, hr.reads⟩
    exact Meets.mono (leavesOpen_tally hw ((recordVote_frame _ _ _).1.trans hs')
      ((recordVote_promotable _ _ _).trans (ho hs').1)) (fun _ _ h => h.1) fun _ _ h => h

theorem leavesOpen_answer {m : Message} (hr : r.Wf) (hty : m.type = .voteResp)
    (hp : m.preVote = true) (ho : r.PollOpen) : LeavesOpen (step m) r := by
  have hdispatch : dispatch m = handleVoteResponse m := by rw [dispatch, hty]
  rw [LeavesOpen, step, meets_bind, meets_get, hdispatch]
  split
  · exact fun _ => ho
  · split
    · rename_i hgt
      refine Meets.bind (Meets.mono (meets_stepHigherTerm hr rfl hgt) ?_ ?_)
      · rintro _ r1 ⟨h1, -, -, hsame⟩
        refine leavesOpen_handleVoteResponse (h1.wf hr) hp ?_
        rcases hsame with rfl | hs1
        · exact ho
        · exact .of_state (by rw [hs1]; rintro ⟨⟩)
      · rintro e r1 ⟨he, -⟩ hi
        rw [he] at hi
        cases hi
    · split
      · rw [stepLowerTerm, meets_bind, meets_get, meets_bind, meets_set, hty]
        exact fun _ => ho
      · exact leavesOpen_handleVoteResponse hr hp ho

/-- A call that the process survives leaves no poll that is won. -/
theorem meets_pollOpen (c : Call) (hr : r.Wf) (ho : r.PollOpen) :
    Meets c.run r (fun _ r' => r'.PollOpen) fun e r' => c.stops e = false → r'.PollOpen := by
  have hstops : ∀ x : Core Unit, (∀ e, c.stops e = !e.ignored) → LeavesOpen x r →
      Meets x r (fun _ r' => r'.PollOpen) fun e r' => c.stops e = false → r'.PollOpen := by
    intro x hst hx
    refine Meets.mono hx (fun _ _ h => h) fun e r' h hs => h ?_
    simpa [hst] using hs
  cases hc : c.polls with
  | false =>
    refine Meets.mono (c.meets_run hr) (fun _ _ h => h.pollOpen hc ho) fun e r' h hs => ?_
    rw [hs, if_neg nofun] at h
    exact h.pollOpen hc ho
  | true =>
    cases c with
    | tick => exact hstops _ (by rintro (_ | _ | _) <;> rfl) (leavesOpen_tick hr ho)
    | campaign =>
      have hcampaign : LeavesOpen (get >>= fun r : RawNode => campaign r.cfg.preVote) r :=
        Meets.bind (leavesOpen_campaign hr ho)
      exact hstops _ (by rintro (_ | _ | _) <;> rfl) hcampaign
    | step m =>
      simp only [Call.polls, Bool.and_eq_true, decide_eq_true_eq] at hc
      exact hstops _ (by rintro (_ | _ | _) <;> rfl) (leavesOpen_answer hr hc.1 hc.2 ho)
    | _ => exact nomatch hc

/-- Between calls no node holds a poll that it has won. -/
theorem pollOpen_of_run {acts : List Act} (hr : (Slot.down {}).run acts = .up r) : r.PollOpen := by
  have h : ((Slot.down {}).run acts).Sat PollOpen fun _ => True := by
    refine Slot.Sat.run_calls trivial MemoryStorage.OK.empty
      (Slot.allows_of_forall (P := fun _ => True) (fun _ _ => trivial) _) ?_ (fun _ _ _ => trivial)
      fun cfg st r _ _ _ hnew => .of_state (by rw [(started_of_new hnew).state]; nofun)
    intro r c faults _ hw ho
    have hw' := (reach_withFaults (c := c) r faults).wf hw
    refine Meets.mono (meets_pollOpen c hw' ho) (fun _ _ h => h) fun e r' h => ?_
    split
    · trivial
    · rename_i hst
      exact h (by simpa using hst)
  rw [hr] at h
  exact h

/-! ### Asking in vain -/

/-- The node has not moved: same term, same vote, same storage. -/
structure RawNode.Stays (r r' : RawNode) : Prop where
  id : r'.id = r.id
  cfg : r'.cfg = r.cfg
  conf : r'.conf = r.conf
  term : r'.term = r.term
  vote : r'.vote = r.vote
  mem : r'.log.mem = r.log.mem

theorem RawNode.Stays.refl (r : RawNode) : r.Stays r := ⟨rfl, rfl, rfl, rfl, rfl, rfl⟩

theorem RawNode.Stays.trans {r'' : RawNode} (h : r.Stays r') (h' : r'.Stays r'') : r.Stays r'' :=
  ⟨h'.id.trans h.id, h'.cfg.trans h.cfg, h'.conf.trans h.conf, h'.term.trans h.term,
    h'.vote.trans h.vote, h'.mem.trans h.mem⟩

theorem RawNode.Replied.stays (h : r.Replied r') : r.Stays r' := by
  obtain ⟨sent, journal, rfl⟩ := h
  exact ⟨rfl, rfl, rfl, rfl, rfl, rfl⟩

theorem RawNode.Replied.state (h : r.Replied r') : r'.state = r.state := by
  obtain ⟨sent, journal, rfl⟩ := h
  rfl

/-- A node that cannot win an election by itself, and polls before it stands. -/
structure RawNode.Waits (r : RawNode) : Prop where
  follows : r.state ≠ .leader
  preVote : r.cfg.preVote = true
  alone : r.conf.hasQuorum (fun id => id = r.id) = false
  pollOpen : r.PollOpen

/-- Nothing has come of the poll, whether it is still open or given up. -/
structure RawNode.Lingers (r r' : RawNode) : Prop where
  stays : r.Stays r'
  follows : r'.state ≠ .leader
  pollOpen : r'.PollOpen

theorem RawNode.Lingers.waits (h : r.Lingers r') (hr : r.Waits) : r'.Waits where
  follows := h.follows
  preVote := by rw [h.stays.cfg]; exact hr.preVote
  alone := by rw [h.stays.conf, h.stays.id]; exact hr.alone
  pollOpen := h.pollOpen

theorem RawNode.Waits.lingers (h : r.Waits) : r.Lingers r := ⟨.refl r, h.follows, h.pollOpen⟩

theorem RawNode.Lingers.replied {r'' : RawNode} (h : r.Lingers r') (h' : r'.Replied r'') :
    r.Lingers r'' :=
  ⟨h.stays.trans h'.stays, by rw [h'.state]; exact h.follows, h'.pollOpen h.pollOpen⟩

/-- Whatever only differs from the node in the poll itself may stand in for it. -/
theorem RawNode.Lingers.after {r'' : RawNode} (h : r.Stays r') (h' : r'.Lingers r'') :
    r.Lingers r'' := ⟨h.trans h'.stays, h'.follows, h'.pollOpen⟩

theorem lingers_becomeFollower (r : RawNode) : r.Lingers (r.becomeFollower r.term None) := by
  rw [becomeFollower, reset_eq, if_pos rfl]
  exact ⟨⟨rfl, rfl, rfl, rfl, rfl, rfl⟩, (by rintro ⟨⟩), .of_state (by rintro ⟨⟩)⟩

/-- A tally without a quorum gives up or changes nothing. -/
theorem meets_tally_lost (hs : r.state = .preCandidate) (hp : r.promotable = true)
    (hq : r.conf.hasQuorum (fun id => r.votes id = some true) = false) :
    Meets tallyVotes r (fun done r' => r.Lingers r' ∧ (done = false → r' = r)) fun _ _ => False := by
  rw [tallyVotes, tallyVotesWith, meets_bind, meets_get, if_neg (by simp [hq])]
  split
  · exact ⟨lingers_becomeFollower r, (by rintro ⟨⟩)⟩
  · exact ⟨⟨.refl r, by rw [hs]; rintro ⟨⟩, fun _ => ⟨hp, hq⟩⟩, fun _ => rfl⟩

/-- A node that is no quorum by itself opens a poll and waits for answers. -/
theorem meets_poll_alone (h : r.Waits) (hp : r.promotable = true) :
    Meets (campaign true) r (fun _ r' => r.Lingers r') fun _ _ => False := by
  refine meets_campaignWith_poll h.follows hp ?_
  have hq : (r.polling.recordVote r.id true).conf.hasQuorum
      (fun id => (r.polling.recordVote r.id true).votes id = some true) = false := by
    rw [← h.alone]
    refine congrArg r.conf.hasQuorum (funext fun id => ?_)
    change decide (Function.update (fun _ => none) r.id (some true) id = some true) = _
    by_cases hid : id = r.id <;> simp [hid]
  have hstays : r.Stays (r.polling.recordVote r.id true) := ⟨rfl, rfl, rfl, rfl, rfl, rfl⟩
  rw [gatherVotes, meets_bind, meets_get, meets_bind, meets_set, meets_bind]
  refine Meets.mono (meets_tally_lost rfl hp hq) (fun done r₁ h₁ => ?_) fun _ _ h => h
  have h1 : r.Lingers r₁ := .after hstays h₁.1
  split
  · exact h1
  · rw [meets_bind, meets_reads]
    obtain ⟨lt, -, hlt⟩ := RaftLog.lastTerm_ok r₁.log
    refine ⟨fun _ _ => h1.replied (.requestVotes _ _ _ _), fun e he => ?_⟩
    rw [hlt] at he
    exact nomatch he

theorem meets_tick_alone (h : r.Waits) :
    Meets tick r (fun _ r' => r.Lingers r') fun _ _ => False := by
  rw [tick, meets_bind, meets_get, if_neg h.follows, tickElection, meets_bind, meets_modify,
    meets_bind, meets_get]
  split
  · exact ⟨⟨rfl, rfl, rfl, rfl, rfl, rfl⟩, h.follows, h.pollOpen⟩
  · rename_i hp
    simp only [Bool.or_eq_true, Bool.not_eq_true', not_or, Bool.not_eq_false] at hp
    have h0 : ({ r with electionElapsed := 0 } : RawNode).Waits :=
      ⟨h.follows, h.preVote, h.alone, h.pollOpen⟩
    have hpoll := meets_poll_alone h0 hp.1
    rw [meets_bind, meets_set]
    change Meets (campaign r.cfg.preVote) { r with electionElapsed := 0 } _ _
    rw [h.preVote]
    exact Meets.mono hpoll (fun _ _ => .after ⟨rfl, rfl, rfl, rfl, rfl, rfl⟩) fun _ _ h => h

/-- A refused pre-vote, from anyone and to anyone. -/
structure Message.IsRefusal (m : Message) : Prop where
  type : m.type = .voteResp
  preVote : m.preVote = true
  refused : m.granted = false

/-- A refusal that is recorded adds nothing to the grants. -/
theorem recordVote_refused (r : RawNode) (sender : NodeID) :
    r.Stays (r.recordVote sender false) ∧ (r.recordVote sender false).state = r.state ∧
      (r.recordVote sender false).conf.hasQuorum
          (fun id => (r.recordVote sender false).votes id = some true) =
        r.conf.hasQuorum (fun id => r.votes id = some true) := by
  rw [recordVote]
  split
  · exact ⟨.refl r, rfl, rfl⟩
  · rename_i hv
    refine ⟨⟨rfl, rfl, rfl, rfl, rfl, rfl⟩, rfl, congrArg r.conf.hasQuorum (funext fun id => ?_)⟩
    by_cases hid : id = sender <;> simp [hid, hv]

theorem meets_refusal {m : Message} (h : r.Waits) (hm : m.IsRefusal) (ht : m.term ≤ r.term) :
    Meets (step m) r (fun _ r' => r.Lingers r') fun e r' => e.ignored = true ∧ r.Lingers r' := by
  have hignored : ∀ text, (Fail.error (Sentinel.ignoredMessage.error.wrap text)).ignored = true :=
    fun _ => rfl
  rw [step, meets_bind, meets_get]
  split
  · exact ⟨hignored _, h.lingers⟩
  · rw [if_neg (by omega)]
    split
    · rw [stepLowerTerm, meets_bind, meets_get, meets_bind, meets_set, hm.type]
      exact ⟨hignored _, h.lingers⟩
    · rw [dispatch, hm.type]
      change Meets (handleVoteResponse m) r _ _
      rw [handleVoteResponse, meets_bind, meets_get]
      split
      · exact ⟨hignored _, h.lingers⟩
      · rename_i hs
        have hs' : r.state = .preCandidate := by simpa [hm.preVote] using hs
        obtain ⟨hp, hq⟩ := h.pollOpen hs'
        rw [if_neg (by simp [hm.preVote]), meets_bind, meets_set, meets_bind, hm.refused]
        obtain ⟨hstays, hs1, hq1⟩ := recordVote_refused r m.sender
        exact Meets.mono (meets_tally_lost (hs1.trans hs') ((recordVote_promotable _ _ _).trans hp)
          (hq1.trans hq)) (fun _ _ h => .after hstays h.1) fun _ _ h => h.elim

/-- What may happen to a node whose polls are all refused: time passes, its messages are taken, and
refusals of its own or an earlier term arrive. -/
inductive InVain (term : ℕ) : Act → Prop
  | tick (faults : List Bool) : InVain term (.call .tick faults)
  | messages (faults : List Bool) : InVain term (.call .messages faults)
  | refusal (m : Message) (faults : List Bool) : m.IsRefusal → m.term ≤ term →
      InVain term (.call (.step m) faults)

theorem RawNode.Waits.act {a : Act} (h : r.Waits) (ha : InVain r.term a) :
    ∃ r', (Slot.up r).act a = .up r' ∧ r.Lingers r' := by
  have hfaults : ∀ faults, (r.withFaults faults).Waits ∧ r.Stays (r.withFaults faults) := fun _ =>
    ⟨⟨h.follows, h.preVote, h.alone, h.pollOpen⟩, ⟨rfl, rfl, rfl, rfl, rfl, rfl⟩⟩
  have hafter : ∀ {c : Call} {faults : List Bool}, (∀ e, e.ignored = true → c.stops e = false) →
      Meets c.run (r.withFaults faults) (fun _ r' => (r.withFaults faults).Lingers r')
        (fun e r' => e.ignored = true ∧ (r.withFaults faults).Lingers r') →
      ∃ r', (Slot.up r).act (.call c faults) = .up r' ∧ r.Lingers r' := by
    intro c faults hst hc
    unfold Meets at hc
    simp only [Slot.act]
    split at hc <;> rename_i hx <;> rw [hx]
    · exact ⟨_, rfl, .after (hfaults faults).2 hc⟩
    · rw [Slot.after, hst _ hc.1, if_neg (by rintro ⟨⟩)]
      exact ⟨_, rfl, .after (hfaults faults).2 hc.2⟩
  have hstops : ∀ (c : Call) (e : Fail), e.ignored = true → c.stops e = false := by
    rintro c (e | _ | _) he
    · cases c <;> first | exact congrArg not he | rfl
    · cases he
    · cases he
  cases ha with
  | tick faults =>
    exact hafter (hstops _) (Meets.mono (meets_tick_alone (hfaults faults).1) (fun _ _ h => h)
      fun _ _ h => h.elim)
  | messages faults =>
    exact hafter (c := .messages) (hstops _)
      ⟨⟨rfl, rfl, rfl, rfl, rfl, rfl⟩, h.follows, h.pollOpen⟩
  | refusal m faults hm ht => exact hafter (hstops _) (meets_refusal (hfaults faults).1 hm ht)

/-- However long a node asks in vain, it stays where it is. -/
theorem RawNode.Waits.run {acts : List Act} (h : r.Waits) (ha : ∀ a ∈ acts, InVain r.term a) :
    ∃ r', (Slot.up r).run acts = .up r' ∧ r.Lingers r' := by
  induction acts generalizing r with
  | nil => exact ⟨r, rfl, h.lingers⟩
  | cons a acts ih =>
    obtain ⟨r₁, hr₁, h₁⟩ := h.act (ha a List.mem_cons_self)
    obtain ⟨r', hr', h'⟩ := ih (h₁.waits h) fun b hb => by
      rw [h₁.stays.term]
      exact ha b (List.mem_cons_of_mem a hb)
    refine ⟨r', ?_, .after h₁.stays h'⟩
    rw [Slot.run, List.foldl_cons, hr₁]
    exact hr'

/-- A straw poll commits nobody to anything.  Whoever is asked only answers, whatever state it is in.
Whoever asks, cannot win alone and is refused, keeps its term, its vote and what is on disk,
through any number of ticks and refusals. -/
theorem straw_poll_commits_to_nothing :
    (∀ (r : RawNode) (m : Message), m.type = .voteReq → m.preVote = true →
      ∃ sent journal, (Call.step m).outcome r = { r with msgs := r.msgs ++ sent, journal }) ∧
    ∀ (acts : List Act) (r : RawNode), (Slot.down {}).run acts = .up r → r.state ≠ .leader →
      r.cfg.preVote = true → r.conf.hasQuorum (fun id => id = r.id) = false →
      ∀ vain : List Act, (∀ a ∈ vain, InVain r.term a) →
        ∃ r', (Slot.up r).run vain = .up r' ∧ r'.term = r.term ∧ r'.vote = r.vote ∧
          r'.log.mem.hardState = r.log.mem.hardState := by
  refine ⟨fun r m => replied_of_preVote r, fun acts r hr hs hp hq vain hv => ?_⟩
  obtain ⟨r', hr', h⟩ := RawNode.Waits.run ⟨hs, hp, hq, pollOpen_of_run hr⟩ hv
  exact ⟨r', hr', h.stays.term, h.stays.vote, congrArg MemoryStorage.hardState h.stays.mem⟩

theorem straw_poll_commits_to_nothing_refused :
    ∃ r r', (Slot.down {}).run [.start (Cluster.trioConfig 1), .call .tick [], .call .tick []] =
        .up r ∧ r.state = .preCandidate ∧
      (Slot.up r).run (.call (.step { type := .voteResp, sender := 2, dest := 1, preVote := true }) []
        :: List.replicate 100 (.call .tick [])) = .up r' ∧
      r'.term = r.term ∧ r'.vote = r.vote ∧ r'.log.mem.hardState = r.log.mem.hardState := by
  obtain ⟨r, hr, ht⟩ := Slot.exists_up
    (s := (Slot.down {}).run [.start (Cluster.trioConfig 1), .call .tick [], .call .tick []])
    (fun r => r.state = .preCandidate ∧ r.cfg.preVote = true ∧
      r.conf.hasQuorum (fun id => id = r.id) = false) (by decide +kernel)
  simp only [decide_eq_true_eq] at ht
  obtain ⟨hs, hp, hq⟩ := ht
  obtain ⟨r', hr'⟩ := straw_poll_commits_to_nothing.2 _ r hr (by rw [hs]; nofun) hp hq
    (.call (.step { type := .voteResp, sender := 2, dest := 1, preVote := true }) []
      :: List.replicate 100 (.call .tick [])) fun a ha => by
    rcases List.mem_cons.mp ha with rfl | ha
    · exact .refusal _ _ ⟨rfl, rfl, rfl⟩ (Nat.zero_le _)
    · rw [List.eq_of_mem_replicate ha]
      exact .tick _
  exact ⟨r, r', hr, hs, hr'⟩

end RaftStore.Raft
