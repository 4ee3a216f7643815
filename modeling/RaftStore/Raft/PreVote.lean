import RaftStore.Raft.FixedMembership

/-! Pre-votes.  A follower that hears from its leader refuses every pre-vote, because its election
timer is reset by each heartbeat.  A leader's own timer only ever counts up: after one election
timeout in office it grants a pre-vote to anyone with a log as long as its own. -/

namespace RaftStore.Raft

open Lib RawNode Cluster

/-- A pre-vote request that the node takes as meant for itself. -/
structure Message.IsPreVote (m : Message) (dest : NodeID) : Prop where
  type : m.type = .voteReq
  preVote : m.preVote = true
  dest : m.dest = dest ∨ m.dest = None

/-- The node answers the request with one message, and grants or refuses. -/
def RawNode.Answers (r : RawNode) (m : Message) (granted : Bool) : Prop :=
  ∃ reply, ((Call.step m).outcome r).msgs = r.msgs ++ [reply] ∧ reply.type = .voteResp ∧
    reply.dest = m.sender ∧ reply.preVote = true ∧ reply.granted = granted

/-- Whether the node would encourage the candidate. -/
def RawNode.Encourages (r : RawNode) (m : Message) : Prop :=
  r.term < m.term ∧ (r.lead = None ∨ r.randomizedElectionTimeout ≤ r.electionElapsed) ∧
    r.log.isUpToDate m.lastLogIndex m.lastLogTerm = .ok true

section

variable {r : RawNode} {m : Message}

theorem RawNode.Answers.unique {a b : Bool} (ha : r.Answers m a) (hb : r.Answers m b) : a = b := by
  obtain ⟨p, hp, -, -, -, rfl⟩ := ha
  obtain ⟨q, hq, -, -, -, rfl⟩ := hb
  rw [List.singleton_inj.mp (List.append_cancel_left (hp.symm.trans hq))]

theorem canVote_preVote (hm : m.preVote = true) :
    r.canVote m = true ↔
      r.term < m.term ∧ (r.lead = None ∨ r.randomizedElectionTimeout ≤ r.electionElapsed) := by
  rw [canVote, if_pos hm]
  split
  · rename_i h
    simp only [Bool.false_eq_true, false_iff, not_and]
    omega
  · rename_i h
    simp only [Bool.or_eq_true, decide_eq_true_eq]
    exact ⟨fun hv => ⟨not_le.mp h, hv⟩, fun hv => hv.2⟩

/-- The answer to a request that is not of an earlier term. -/
theorem outcome_dispatch (hm : m.IsPreVote r.id) (hle : r.term ≤ m.term) {granted : Bool}
    (hg : (if r.canVote m then r.log.isUpToDate m.lastLogIndex m.lastLogTerm else .ok false) =
      .ok granted) :
    (Call.step m).outcome r = r.send
      { type := .voteResp, dest := m.sender,
        term := if m.preVote && granted then m.term else r.term, preVote := m.preVote, granted } := by
  let reply : Message :=
    { type := .voteResp, dest := m.sender,
      term := if m.preVote && granted then m.term else r.term, preVote := m.preVote, granted }
  have hdest : ¬ (m.dest ≠ r.id && m.dest ≠ None) = true := by
    rcases hm.dest with h | h <;> simp [h]
  have hhandle : Meets (handleVoteRequest m) r (fun _ r' => r' = r.send reply) fun _ _ => False := by
    rw [handleVoteRequest, meets_bind, meets_get, meets_bind]
    have hread : Meets (if r.canVote m then
        reads fun r => r.log.isUpToDate m.lastLogIndex m.lastLogTerm else pure false : Core Bool) r
        (fun b r' => b = granted ∧ r' = r) fun _ _ => False := by
      split at hg
      · rename_i hcan
        rw [if_pos hcan, meets_reads]
        refine ⟨fun b hb => ⟨?_, rfl⟩, fun e he => ?_⟩
        · rw [hg] at hb
          exact (Except.ok.inj hb).symm
        · rw [hg] at he
          cases he
      · rename_i hcan
        rw [if_neg hcan]
        exact ⟨Except.ok.inj hg, rfl⟩
    refine Meets.mono hread ?_ fun _ _ h => h
    rintro b r' ⟨rfl, rfl⟩
    rw [answerVote, meets_bind, if_neg (by simp [hm.preVote])]
    exact rfl
  have hstep : Meets (Call.step m).run r (fun _ r' => r' = r.send reply)
      fun _ r' => r' = r.send reply := by
    have hdispatch : dispatch m = handleVoteRequest m := by
      rw [dispatch, hm.type]
    change Meets (step m) r _ _
    rw [step, meets_bind, meets_get, if_neg hdest]
    split
    · rw [meets_bind, stepHigherTerm, meets_bind, meets_get, if_pos ⟨hm.type, hm.preVote⟩, meets_pure,
        hdispatch]
      exact Meets.mono hhandle (fun _ _ h => h) fun _ _ h => h.elim
    · rw [if_neg (by omega), hdispatch]
      exact Meets.mono hhandle (fun _ _ h => h) fun _ _ h => h.elim
  exact Call.outcome_of_meets (P := fun r' => r' = r.send reply) hstep

/-- A candidate of an earlier term is refused. -/
theorem outcome_lower (hm : m.IsPreVote r.id) (hlt : m.term < r.term) :
    (Call.step m).outcome r =
      r.send { type := .voteResp, dest := m.sender, granted := false, preVote := m.preVote } := by
  let reply : Message :=
    { type := .voteResp, dest := m.sender, granted := false, preVote := m.preVote }
  have hdest : ¬ (m.dest ≠ r.id && m.dest ≠ None) = true := by
    rcases hm.dest with h | h <;> simp [h]
  have hstep : Meets (Call.step m).run r (fun _ r' => r' = r.send reply)
      fun _ r' => r' = r.send reply := by
    change Meets (step m) r _ _
    rw [step, meets_bind, meets_get, if_neg hdest, if_neg (by omega), if_pos hlt, stepLowerTerm,
      meets_bind, meets_get, meets_bind, hm.type]
    exact rfl
  exact Call.outcome_of_meets (P := fun r' => r' = r.send reply) hstep

theorem RawNode.Answers.of_outcome {reply : Message} (h : (Call.step m).outcome r = r.send reply)
    (hty : reply.type = .voteResp) (hd : reply.dest = m.sender) (hp : reply.preVote = true) :
    r.Answers m reply.granted :=
  ⟨r.stamp reply, by rw [h]; rfl, hty, hd, hp, rfl⟩

theorem answers_dispatch (hm : m.IsPreVote r.id) (hle : r.term ≤ m.term) {granted : Bool}
    (hg : (if r.canVote m then r.log.isUpToDate m.lastLogIndex m.lastLogTerm else .ok false) =
      .ok granted) : r.Answers m granted :=
  .of_outcome (outcome_dispatch hm hle hg) rfl rfl hm.preVote

theorem answers_lower (hm : m.IsPreVote r.id) (hlt : m.term < r.term) : r.Answers m false :=
  .of_outcome (outcome_lower hm hlt) rfl rfl hm.preVote

/-- A pre-vote is granted exactly when the node would encourage the candidate. -/
theorem answers_iff (hm : m.IsPreVote r.id) {granted : Bool} :
    r.Answers m granted ↔ (granted = true ↔ r.Encourages m) := by
  obtain ⟨b, hb⟩ := isUpToDate_ok r.log m.lastLogIndex m.lastLogTerm
  have key : ∃ g, r.Answers m g ∧ (g = true ↔ r.Encourages m) := by
    by_cases hlt : m.term < r.term
    · refine ⟨false, answers_lower hm hlt, ?_⟩
      simp only [Bool.false_eq_true, false_iff]
      exact fun h => absurd h.1 (by omega)
    · by_cases hcan : r.canVote m = true
      · refine ⟨b, answers_dispatch hm (by omega) (by rw [if_pos hcan, hb]), ?_⟩
        obtain ⟨h1, h2⟩ := (canVote_preVote hm.preVote).mp hcan
        constructor
        · rintro rfl
          exact ⟨h1, h2, hb⟩
        · intro h
          have hup := h.2.2
          rw [hb] at hup
          exact Except.ok.inj hup
      · refine ⟨false, answers_dispatch hm (by omega) (if_neg hcan), ?_⟩
        simp only [Bool.false_eq_true, false_iff]
        exact fun h => hcan ((canVote_preVote hm.preVote).mpr ⟨h.1, h.2.1⟩)
  obtain ⟨g, hg, hiff⟩ := key
  constructor
  · intro h
    rw [h.unique hg]
    exact hiff
  · intro h
    have : granted = g := by
      rw [Bool.eq_iff_iff, h, hiff]
    rw [this]
    exact hg

theorem Encourages.refused_iff (hid : r.id ≠ None) (hl : r.lead = r.id) :
    (∀ m, m.IsPreVote r.id → r.Answers m false) ↔ r.electionElapsed < r.randomizedElectionTimeout := by
  constructor
  · intro h
    by_contra hle
    obtain ⟨t, -, ht⟩ := RaftLog.lastTerm_ok r.log
    let m : Message :=
      { type := .voteReq, sender := r.id, dest := r.id, term := r.term + 1, preVote := true,
        lastLogIndex := r.log.lastIndex, lastLogTerm := t }
    have hm : m.IsPreVote r.id := ⟨rfl, rfl, Or.inl rfl⟩
    have henc : r.Encourages m :=
      ⟨Nat.lt_succ_self _, Or.inr (not_lt.mp hle), by simp [RaftLog.isUpToDate, ht, m]⟩
    cases ((answers_iff hm).mp (h m hm)).mpr henc
  · intro hlt m hm
    refine (answers_iff hm).mpr ⟨(by rintro ⟨⟩), fun henc => ?_⟩
    rcases henc.2.1 with h | h
    · exact absurd (hl.symm.trans h) hid
    · omega

end

/-- Pre-vote protects a leader with a healthy quorum exactly as long as the leader's own election
timer has not run out: until then every member of the quorum refuses every pre-vote.  Whoever is
refused by the quorum wins no majority. -/
theorem healthy_quorum_refuses_iff (boot : Configuration) (hn : boot.Normalized) (hs : boot.Sized)
    {c : Cluster} (hrun : Run boot fixedCalls {} c) {leader : NodeID} {r : RawNode}
    (hr : c.node? leader = some r) (hl : r.state = .leader) {Q : NodeID → Bool}
    (hQ : r.conf.hasQuorum Q = true) (hmem : Q leader = true)
    (hhealthy : ∀ v, Q v = true → v ≠ leader → ∃ rv, c.node? v = some rv ∧ rv.state = .follower ∧
      rv.term = r.term ∧ rv.lead = leader ∧ rv.electionElapsed < rv.randomizedElectionTimeout) :
    ((∀ v rv m, Q v = true → c.node? v = some rv → m.IsPreVote v → rv.Answers m false) ↔
        r.electionElapsed < r.randomizedElectionTimeout) ∧
      ∀ conf g, Among boot conf → (∀ v, Q v = true → g v = false) → conf.hasQuorum g = false := by
  obtain ⟨w, -, hw⟩ := (Refines.start (fixed boot hn hs)).run hrun
  obtain ⟨hid, hwf, hnode, -⟩ := hw.up hr
  have hlead : r.lead = r.id := hwf.lead_self hl
  refine ⟨⟨fun h => ?_, fun h v rv m hv hrv hm => ?_⟩, fun conf g ha hg => ?_⟩
  · refine (Encourages.refused_iff hwf.id_ne hlead).mp fun m hm => ?_
    exact h leader r m hmem hr (hid ▸ hm)
  · by_cases hvl : v = leader
    · subst hvl
      obtain rfl := Option.some.inj (hr.symm.trans hrv)
      exact (Encourages.refused_iff hwf.id_ne hlead).mpr h m (hid.symm ▸ hm)
    · obtain ⟨rv', hrv', -, -, hlv, htimer⟩ := hhealthy v hv hvl
      obtain rfl := Option.some.inj (hrv.symm.trans hrv')
      refine (answers_iff ((hw.up hrv).1.symm ▸ hm)).mpr ⟨nofun, fun henc => ?_⟩
      rcases henc.2.1 with hnone | hle
      · rw [hlv, ← hid] at hnone
        exact absurd hnone hwf.id_ne
      · omega
  · by_contra hq
    have hg' : conf.hasQuorum g = true := by simpa using hq
    have hconf : Among boot r.conf := hnode.conf
    obtain ⟨v, hv, hv'⟩ := Configuration.overlaps_of_voters
      ((hconf.voters hn).trans (ha.voters hn).symm) Q g hQ hg'
    rw [hg v hv] at hv'
    exact nomatch hv'

/-- The first two of three nodes. -/
def firstTwo (v : NodeID) : Bool := v = 1 || v = 2

theorem healthy_quorum_refuses_elected :
    ∃ r, (({} : Cluster).plays election).node? 1 = some r ∧ r.state = .leader ∧
      r.conf.hasQuorum firstTwo = true ∧
      ∀ v rv m, firstTwo v = true → (({} : Cluster).plays election).node? v = some rv →
        m.IsPreVote v → rv.Answers m false := by
  have hrun : Run trio fixedCalls {} (({} : Cluster).plays election) := run_plays (by decide +kernel)
  obtain ⟨r, hr, ht⟩ := exists_node (c := ({} : Cluster).plays election) (n := 1)
    (fun r => r.state = .leader ∧ r.conf.hasQuorum firstTwo = true ∧ r.term = 1 ∧
      r.electionElapsed < r.randomizedElectionTimeout) (by decide +kernel)
  obtain ⟨rv, hrv, htv⟩ := exists_node (c := ({} : Cluster).plays election) (n := 2)
    (fun r => r.state = .follower ∧ r.term = 1 ∧ r.lead = 1 ∧
      r.electionElapsed < r.randomizedElectionTimeout) (by decide +kernel)
  simp only [decide_eq_true_eq] at ht htv
  obtain ⟨hl, hq, hterm, htimer⟩ := ht
  have h := healthy_quorum_refuses_iff trio trio_normalized trio_sized hrun hr hl hq rfl
    fun v hv hne => ?_
  · exact ⟨r, hr, hl, hq, h.1.mpr htimer⟩
  · have hv2 : v = 2 := by simpa [firstTwo, hne] using hv
    subst hv2
    exact ⟨rv, hrv, htv.1, htv.2.1.trans hterm.symm, htv.2.2⟩

/-- After one election timeout in office a leader with a healthy quorum grants a pre-vote. -/
theorem leader_grants_preVote :
    ∃ r rv m, Run trio fixedCalls {} ((({} : Cluster).plays election).plays heartbeats) ∧
      ((({} : Cluster).plays election).plays heartbeats).node? 1 = some r ∧
      r.cfg.preVote = true ∧ r.state = .leader ∧ r.conf.hasQuorum firstTwo = true ∧
      ((({} : Cluster).plays election).plays heartbeats).node? 2 = some rv ∧
      rv.state = .follower ∧ rv.term = r.term ∧ rv.lead = 1 ∧
      rv.electionElapsed < rv.randomizedElectionTimeout ∧
      m.IsPreVote 1 ∧ m.sender = 3 ∧ r.Answers m true := by
  have hrun : Run trio fixedCalls {} (({} : Cluster).plays election) := run_plays (by decide +kernel)
  have hrun' : Run trio fixedCalls (({} : Cluster).plays election)
      ((({} : Cluster).plays election).plays heartbeats) := run_plays (by decide +kernel)
  let m : Message :=
    { type := .voteReq, sender := 3, dest := 1, term := 2, preVote := true, lastLogIndex := 1,
      lastLogTerm := 1 }
  obtain ⟨r, hr, ht⟩ := exists_node
    (c := (({} : Cluster).plays election).plays heartbeats) (n := 1)
    (fun r => r.id = 1 ∧ r.cfg.preVote = true ∧ r.state = .leader ∧
      r.conf.hasQuorum firstTwo = true ∧ r.term = 1 ∧
      r.randomizedElectionTimeout ≤ r.electionElapsed ∧
      (r.log.isUpToDate 1 1).toOption = some true) (by decide +kernel)
  obtain ⟨rv, hrv, htv⟩ := exists_node
    (c := (({} : Cluster).plays election).plays heartbeats) (n := 2)
    (fun r => r.state = .follower ∧ r.term = 1 ∧ r.lead = 1 ∧
      r.electionElapsed < r.randomizedElectionTimeout) (by decide +kernel)
  simp only [decide_eq_true_eq] at ht htv
  obtain ⟨hid, hpre, hl, hq, hterm, htimer, hup⟩ := ht
  have hm : m.IsPreVote r.id := ⟨rfl, rfl, Or.inl hid.symm⟩
  have hup' : r.log.isUpToDate m.lastLogIndex m.lastLogTerm = .ok true := eq_ok_of_toOption hup
  have hterm2 : r.term < m.term := by
    rw [hterm]
    exact Nat.lt_succ_self 1
  exact ⟨r, rv, m, hrun.trans hrun', hr, hpre, hl, hq, hrv, htv.1, htv.2.1.trans hterm.symm, htv.2.2.1,
    htv.2.2.2, hid ▸ hm, rfl, (answers_iff hm).mpr ⟨fun _ => ⟨hterm2, Or.inr htimer, hup'⟩,
      fun _ => rfl⟩⟩

end RaftStore.Raft
