import RaftStore.Node.Accounts
import RaftStore.Node.Applying
import RaftStore.Node.System

/-! What a proposal is told.  A proposal waits under the index of its entry and with the entry's
term.  In a cluster these two name one entry, so the entry that is applied under them is the
proposal's own. -/

namespace RaftStore.Loop

open Lib Raft RawNode

variable {σ ρ : Type}

/-- Every success that was reported is the state machine's response to the proposal's command, and
whoever waits has had its entry in the log. -/
structure Truthful (n : Node σ ρ) : Prop where
  answered : ∀ t i response, (t, .ok (i, response)) ∈ n.replies → ∃ entry result,
    n.proposed[t]? = some entry.command ∧ entry.index = i ∧ response = some result ∧
      AppCall.apply entry result ∈ n.calls
  waiting : ∀ (i : ℕ) w, n.pending[i]? = some w → n.proposed[w.p.ticket]? = some w.p.cmd ∧
    ∃ r ∈ n.trace, ⟨w.term, i, .normal, w.p.cmd⟩ ∈ r.log.mem.ents

section

variable {sm : StateMachine σ ρ} {e : Event} {n n' : Node σ ρ}

theorem OneEntry.mono {trace trace' : List RawNode} (h : OneEntry trace')
    (hsub : trace ⊆ trace') : OneEntry trace :=
  fun r hr r' hr' => h r (hsub hr) r' (hsub hr')

/-- Whoever waits has waited before, and no success has been added. -/
theorem Truthful.grow (h : Truthful n)
    (hreplies : ∀ t a, (t, .ok a) ∈ n'.replies → (t, .ok a) ∈ n.replies)
    (hpending : ∀ (i : ℕ) w, n'.pending[i]? = some w → n.pending[i]? = some w)
    (hproposed : n.proposed <+: n'.proposed) (hcalls : n.calls ⊆ n'.calls)
    (htrace : n.trace ⊆ n'.trace) : Truthful n' := by
  have hcmd : ∀ {t : ℕ} {cmd : List UInt8}, n.proposed[t]? = some cmd →
      n'.proposed[t]? = some cmd := by
    intro t cmd ht
    obtain ⟨rest, hrest⟩ := hproposed
    rw [← hrest, List.getElem?_append_left (List.getElem?_eq_some_iff.mp ht).1, ht]
  refine ⟨fun t i response hmem => ?_, fun i w hw => ?_⟩
  · obtain ⟨entry, result, ht, hi, hresp, hcall⟩ := h.answered t i response (hreplies t _ hmem)
    exact ⟨entry, result, hcmd ht, hi, hresp, hcalls hcall⟩
  · obtain ⟨ht, r, hr, hentry⟩ := h.waiting i w (hpending i w hw)
    exact ⟨hcmd ht, r, htrace hr, hentry⟩

/-- A call on the core, with nothing else that matters here. -/
theorem Truthful.called (h : Truthful n) (r : RawNode) : Truthful (n.called r) :=
  h.grow (fun _ _ hm => hm) (fun _ _ hw => hw) (List.prefix_refl _) (List.Subset.refl _)
    (List.subset_append_left _ _)

theorem Truthful.failPending (h : Truthful n) (err : Error) : Truthful (n.failPending err) := by
  refine h.grow (fun t a hm => ?_) (fun i w hw => ?_) (List.prefix_refl _) (List.Subset.refl _)
    (List.Subset.refl _)
  · rcases List.mem_append.mp hm with hm | hm
    · exact hm
    · obtain ⟨w, -, hw⟩ := List.mem_map.mp hm
      exact nomatch congrArg Prod.snd hw
  · change (∅ : Std.ExtTreeMap ℕ Awaiting)[i]? = some w at hw
    simp at hw

/-- The entry under a proposal's index and term is the proposal's own. -/
theorem Truthful.resolve (h : Truthful n) (hone : OneEntry n.trace) {entry : LogEntry}
    {response : Option ρ} (hentry : ∃ r ∈ n.trace, entry ∈ r.log.mem.ents)
    (hresp : entry.type = .normal → ∃ result, response = some result ∧
      AppCall.apply entry result ∈ n.calls) : Truthful (n.resolve entry response) := by
  have hpending : ∀ (i : ℕ) w, (n.resolve entry response).pending[i]? = some w →
      n.pending[i]? = some w := fun i w => Node.pending_resolve
  rw [Node.resolve] at hpending ⊢
  cases hw : n.pending[entry.index]? with
  | none => exact h
  | some w =>
    rw [hw] at hpending
    dsimp only at hpending ⊢
    split
    · rename_i hterm
      rw [if_pos hterm] at hpending
      refine h.grow (fun t a hm => ?_) hpending (List.prefix_refl _) (List.Subset.refl _)
        (List.Subset.refl _)
      rcases List.mem_append.mp hm with hm | hm
      · exact hm
      · cases congrArg Prod.snd (List.mem_singleton.mp hm)
    · rename_i hterm
      rw [if_neg hterm] at hpending
      obtain ⟨hcmd, r, hr, hown⟩ := h.waiting _ w hw
      obtain ⟨r', hr', hmem⟩ := hentry
      have heq := hone r' hr' r hr entry hmem _ hown rfl (not_not.mp hterm).symm
      obtain ⟨result, rfl, hcall⟩ := hresp (by rw [heq])
      refine ⟨fun t i response hm => ?_, fun i w' hw' => h.waiting i w' (hpending i w' hw')⟩
      rcases List.mem_append.mp hm with hm | hm
      · exact h.answered t i response hm
      · cases List.mem_singleton.mp hm
        exact ⟨entry, result, hcmd.trans (congrArg some (congrArg LogEntry.command heq).symm), rfl, rfl,
          hcall⟩

theorem Truthful.applies {entries : List LogEntry} (h : Truthful n) (hone : OneEntry n.trace)
    (ha : Applies sm n entries n')
    (hentries : ∀ entry ∈ entries, ∃ r ∈ n.trace, entry ∈ r.log.mem.ents) : Truthful n' := by
  induction ha with
  | nil => exact h
  | @normal n n' entry rest response app _ _ _ ih =>
    have htold : Truthful (n.told app entry response) :=
      h.grow (fun _ _ hm => hm) (fun _ _ hw => hw) (List.prefix_refl _)
        (List.subset_append_left _ _) (List.Subset.refl _)
    have hresolve : Truthful ((n.told app entry response).resolve entry (some response)) :=
      htold.resolve hone (hentries entry List.mem_cons_self)
        fun _ => ⟨response, rfl, List.mem_append_right _ List.mem_cons_self⟩
    refine ih hresolve ?_ fun entry' hmem => ?_
    · rw [Node.resolve_eq]
      exact hone
    · rw [Node.resolve_eq]
      exact hentries entry' (List.mem_cons_of_mem _ hmem)
  | @other n n' entry rest hty _ ih =>
    have hresolve : Truthful (n.resolve entry none) :=
      h.resolve hone (hentries entry List.mem_cons_self) fun hty' => absurd hty' hty
    refine ih hresolve ?_ fun entry' hmem => ?_
    · rw [Node.resolve_eq]
      exact hone
    · rw [Node.resolve_eq]
      exact hentries entry' (List.mem_cons_of_mem _ hmem)

theorem Truthful.taken (h : Truthful n) (hr : n.rn.Wf) (ht : Taken n e n') : Truthful n' := by
  cases ht with
  | propose cmd i r hprop =>
    obtain ⟨-, -, hterm, hmem⟩ := propose_ok hr hprop
    have hgrow : Truthful { n.called r with proposed := n.proposed ++ [cmd] } :=
      h.grow (fun _ _ hm => hm) (fun _ _ hw => hw) (List.prefix_append _ _) (List.Subset.refl _)
        (List.subset_append_left _ _)
    refine ⟨hgrow.answered, fun j w hw => ?_⟩
    change (n.pending.insert i ⟨r.term, n.proposed.length, cmd⟩)[j]? = some w at hw
    rw [Std.ExtTreeMap.getElem?_insert] at hw
    split at hw
    · rename_i heq
      cases Std.LawfulEqCmp.eq_of_compare heq
      cases hw
      refine ⟨?_, r, List.mem_append_right _ List.mem_cons_self, ?_⟩
      · change (n.proposed ++ [cmd])[n.proposed.length]? = some cmd
        simp
      · rw [hterm]
        exact hmem
    · exact hgrow.waiting j w hw
  | refuse cmd err r =>
    refine h.grow (fun t a hm => ?_) (fun _ _ hw => hw) (List.prefix_append _ _)
      (List.Subset.refl _) (List.subset_append_left _ _)
    rcases List.mem_append.mp hm with hm | hm
    · exact hm
    · exact nomatch congrArg Prod.snd (List.mem_singleton.mp hm)
  | status => exact ⟨h.answered, h.waiting⟩
  | tick r => exact h.called r
  | step m r => exact h.called r
  | ignore m err r => exact h.called r
  | read r => exact ⟨(h.called r).answered, (h.called r).waiting⟩
  | unread err r => exact ⟨(h.called r).answered, (h.called r).waiting⟩
  | change target i r => exact ⟨(h.called r).answered, (h.called r).waiting⟩
  | unchanged target err r => exact ⟨(h.called r).answered, (h.called r).waiting⟩

theorem Truthful.note (h : Truthful n) : Truthful n.noteRole := by
  rw [Node.noteRole]
  split
  · split
    · have hfail := h.failPending errProposalDropped
      exact ⟨hfail.answered, hfail.waiting⟩
    · exact ⟨h.answered, h.waiting⟩
  · exact h

theorem Truthful.captured (h : Truthful n) (data : List UInt8) (r : RawNode) :
    Truthful (n.captured data r) :=
  h.grow (fun _ _ hm => hm) (fun _ _ hw => hw) (List.prefix_refl _) (List.subset_append_left _ _)
    (List.subset_append_left _ _)

theorem Truthful.move (h : Truthful n) (hl : Logged n) (hone : OneEntry n.trace)
    (hm : Move sm n n') : Truthful n' := by
  cases hm with
  | release =>
    have hcalled := h.called { n.rn with msgs := [] }
    exact ⟨hcalled.answered, hcalled.waiting⟩
  | answer =>
    have hcalled := h.called { n.rn with readStates := [] }
    rw [Node.answered, Node.foldl_resolveRead_eq]
    exact ⟨hcalled.answered, hcalled.waiting⟩
  | look => exact h.called _
  | restore s snap app =>
    refine Truthful.failPending ?_ errProposalDropped
    exact h.grow (fun _ _ hm => hm) (fun _ _ hw => hw) (List.prefix_refl _)
      (List.subset_append_left _ _) (List.subset_append_left _ _)
  | batch entries last n₁ r _ hes _ ha =>
    refine (h.applies hone ha fun entry hmem => ?_).called r
    obtain ⟨r', hr', hent, -⟩ := (hl.batch hes).2.1 entry hmem
    exact ⟨r', hr', hent⟩
  | capture s data snap r => exact h.captured data r
  | uncaptured s data err r => exact h.captured data r
  | note => exact h.note

theorem Moves.logged (hm : Moves sm n n') (hl : Logged n) : Logged n' := by
  induction hm with
  | refl => exact hl
  | tail _ hm ih => exact hm.ran.logged ih

theorem Truthful.moves (h : Truthful n) (hl : Logged n) (hm : Moves sm n n')
    (hone : OneEntry n'.trace) : Truthful n' := by
  induction hm with
  | refl => exact h
  | tail hms hm ih =>
    have hone' := hone.mono hm.ran.subset
    exact (ih hone').move (Moves.logged hms hl) hone' hm

theorem Truthful.withFaults (h : Truthful n) (faults : List Bool) : Truthful (n.withFaults faults) :=
  ⟨h.answered, h.waiting⟩

/-- Also a turn that fails has reported nothing else. -/
theorem Truthful.failing {err : Error} (h : Truthful n) (hl : Logged n) (hone : OneEntry n.trace)
    (hf : Failing sm e n (.error err) n') : Truthful n' := by
  cases hf with
  | idle _ => exact h
  | tick err₀ _ r => exact h.called r
  | step m err₀ _ r => exact h.called r
  | restore snap _ _ => exact h.called _
  | batch done rest _ _ _ hes ha =>
    refine h.applies hone ha fun entry hmem => ?_
    obtain ⟨r, hr, hent, -⟩ := (hl.batch hes).2.1 entry (List.mem_append_left _ hmem)
    exact ⟨r, hr, hent⟩
  | capture s data err₀ _ r => exact h.captured data r
  | panic _ _ _ _ _ _ hf => exact nomatch hf

theorem Truthful.underway (h : Truthful n) (hl : Logged n) (hu : Underway sm e n n')
    (hone : OneEntry n'.trace) : Truthful n' ∧ Logged n' := by
  rcases hu with rfl | ⟨n₀, ht, hm⟩
  · exact ⟨h, hl⟩
  · have hl₀ := ht.ran.logged hl
    exact ⟨(h.taken hl.wf ht).moves hl₀ hm hone, hm.logged hl₀⟩

theorem start_truthful {app : σ} {cfg : Config} {st : MemoryStorage}
    (h : start sm app cfg st = .ok n) : Truthful n := by
  obtain ⟨cfg', rn, app', calls, -, -, rfl, -⟩ := start_ok h
  refine ⟨fun t i response hm => (nomatch hm), fun i w hw => ?_⟩
  simp at hw

end

/-- Every proposal and every read has been answered at most once, a proposal that has not been
answered waits, and a proposal was told of success only with the index of an entry with its own
command and with what the state machine returned for this entry. -/
structure Answered (n : Node σ ρ) : Prop where
  once : (n.replies.map Prod.fst).Nodup
  readsOnce : (n.readReplies.map Prod.fst).Nodup
  apart : ∀ (i : ℕ) w, n.pending[i]? = some w → w.p.ticket ∉ n.replies.map Prod.fst
  kept : ∀ t < n.proposed.length, t ∈ n.replies.map Prod.fst ∨
    ∃ (i : ℕ) (w : Awaiting), n.pending[i]? = some w ∧ w.p.ticket = t
  success : ∀ t i response, (t, .ok (i, response)) ∈ n.replies → ∃ entry result,
    n.proposed[t]? = some entry.command ∧ entry.index = i ∧ response = some result ∧
      AppCall.apply entry result ∈ n.calls

theorem answered_of_books {n : Node σ ρ} (hb : Books n) (ht : Truthful n) : Answered n :=
  ⟨hb.tickets.nodup, hb.reads.nodup, hb.tickets.apart, hb.kept, ht.answered⟩

/-- In every run of the processes of a cluster whose membership is not changed, with whatever events,
storage failures, crashes and restarts, every process has answered its proposals and reads at most
once, has dropped no proposal, and has reported only true successes.  When a turn ends the loop, the
same holds, and nobody is left waiting. -/
theorem proposals_answered (sm : StateMachine σ ρ) (app : σ) (voters : List NodeID)
    (hs : (Configuration.new voters).Sized) {s : System σ ρ}
    (hrun : System.Run sm app (.new voters) {} s) {k : NodeID} {n : Node σ ρ}
    (hp : s.proc k = .up n) :
    Answered n ∧ ∀ e faults n', s.Permits (.new voters) k (.event e faults) →
      n.run sm e faults = .exited n' → Answered n' ∧ n'.pending = ∅ ∧ n'.pendingReads = ∅ := by
  have hn : (Configuration.new voters).Normalized := Configuration.normalize_normalized _
  obtain ⟨⟨hacc, hstate⟩, hlog, htrue⟩ : (Accounted n ∧ n.lastState = n.rn.state) ∧ Logged n ∧
      Truthful n := by
    refine System.Run.invariant (I := fun n => (Accounted n ∧ n.lastState = n.rn.state) ∧ Logged n ∧
      Truthful n) hrun hn hs (fun cfg st n hst hstart => ?_) ?_ hp
    · exact ⟨start_accounted hst hstart, (start_applying hst hstart).1.toLogged,
        start_truthful hstart⟩
    · intro n e faults n₁ n' ⟨⟨hacc, hstate⟩, hlog, htrue⟩ ht hm hset hone
      have hu : Underway sm e (n.withFaults faults) n' := Or.inr ⟨n₁, ht, hm⟩
      obtain ⟨htrue', hlog'⟩ :=
        (htrue.withFaults faults).underway (hlog.withFaults faults) hu hone
      exact ⟨⟨(hacc.withFaults faults).underway hstate hu, hset.state⟩, hlog', htrue'⟩
  refine ⟨answered_of_books hacc.toBooks htrue, fun e faults n' he hexit => ?_⟩
  rcases run_cases sm e hlog.wf faults with ⟨n₁, n₂, hrun', -⟩ | ⟨n₁, n₂, err, hrun', hu, hf⟩ |
    ⟨n₁, n₂, f, hrun', -⟩ <;> rw [hrun'] at hexit <;> cases hexit
  have hone := hrun.oneEntry_underway hn hs hp he hu
  obtain ⟨htrue', hlog'⟩ := (htrue.withFaults faults).underway (hlog.withFaults faults) hu hone
  have hbooks := ((hacc.withFaults faults).underway hstate hu).toBooks.failing hf
  have hfailed := (htrue'.failing hlog' hone hf).failPending err
  exact ⟨answered_of_books ((hbooks.failPending err).failReads err)
    ⟨hfailed.answered, hfailed.waiting⟩, rfl, rfl⟩

/-- One of two nodes. -/
def duoConfig (id : NodeID) : Config :=
  { id, bootstrap := [1, 2], electionTick := 2, heartbeatTick := 1 }

/-- The first of two nodes is elected, takes two proposals and a read, and hears that the first
proposal has arrived. -/
def duoProposals : List (NodeID × Happening) :=
  [(1, .start (duoConfig 1)), (2, .start (duoConfig 2)),
   (1, .event .tick []), (1, .event .tick []), (1, .event .tick []),
   (2, .event (.message { type := .voteReq, sender := 1, dest := 2, term := 1 }) []),
   (1, .event (.message { type := .voteResp, sender := 2, dest := 1, term := 1, granted := true }) []),
   (2, .event (.message { type := .appendReq, sender := 1, dest := 2, term := 1
                          entries := [⟨1, 1, .noOp, []⟩] }) []),
   (1, .event (.message { type := .appendResp, sender := 2, dest := 1, term := 1, success := true
                          matchIndex := 1 }) []),
   (1, .event (.propose [7]) []), (1, .event (.propose [8]) []), (1, .event .read []),
   (2, .event (.message { type := .appendReq, sender := 1, dest := 2, term := 1, prevLogIndex := 1
                          prevLogTerm := 1, entries := [⟨1, 2, .normal, [7]⟩], leaderCommit := 1 }) []),
   (1, .event (.message { type := .appendResp, sender := 2, dest := 1, term := 1, success := true
                          matchIndex := 2 }) [])]

theorem duoProposals_permitted :
    ({} : System (List (List UInt8)) ℕ).AllPermitted scribe [] (.new [1, 2]) duoProposals := by
  decide +kernel

/-- The first proposal is answered; the second one and the read are when the loop is stopped. -/
theorem proposals_answered_duo :
    ∃ n n' : Node (List (List UInt8)) ℕ,
      (({} : System _ _).acts scribe [] duoProposals).proc 1 = .up n ∧ n.proposed = [[7], [8]] ∧
      n.replies.map Prod.fst = [0] ∧ Answered n ∧ n.run scribe .stop [] = .exited n' ∧
      n'.replies.map Prod.fst = [0, 1] ∧ n'.readReplies.map Prod.fst = [0] ∧ Answered n' ∧
      n'.pending = ∅ ∧ n'.pendingReads = ∅ := by
  obtain ⟨n, hn, ht⟩ := Proc.exists_up (p := (({} : System _ _).acts scribe [] duoProposals).proc 1)
    (fun n => n.proposed = [[7], [8]] ∧ n.replies.map Prod.fst = [0] ∧
      (n.run scribe .stop []).node.replies.map Prod.fst = [0, 1] ∧
      (n.run scribe .stop []).node.readReplies.map Prod.fst = [0]) (by decide +kernel)
  obtain ⟨hprop, hreplies, hafter, hreads⟩ := of_decide_eq_true ht
  obtain ⟨hanswered, hexit⟩ := proposals_answered scribe [] [1, 2]
    ⟨by decide, by decide, by decide⟩ (System.run_acts duoProposals_permitted) hn
  obtain ⟨n', hstop⟩ : ∃ n', n.run scribe .stop [] = .exited n' := ⟨_, rfl⟩
  rw [hstop] at hafter hreads
  exact ⟨n, n', hn, hprop, hreplies, hanswered, hstop, hafter, hreads,
    hexit .stop [] n' trivial hstop⟩

end RaftStore.Loop
