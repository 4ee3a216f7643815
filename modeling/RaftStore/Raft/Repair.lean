import RaftStore.Raft.Backup
import RaftStore.Raft.MatchSoundness

/-! The repair loop between a leader and a follower whose log disagrees with it.  Every refusal of a
probe moves the next probe down, because the term that the follower reports is, in the leader's log,
found only below the probe; so a follower that only refuses is probed finitely often. -/

namespace RaftStore.Raft

open Lib Consensus RawNode

/-! ### What the leader does with a refusal -/

section

variable {r f : RawNode} {pr : Progress} {req resp : Message} {v : NodeID}

/-- Sending to a peer leaves what is known of it. -/
theorem sendAppend_peer (hp : r.peer v = some pr) : ∃ pr', (r.sendAppend v).peer v = some pr' ∧
    pr'.next = pr.next ∧ pr'.matched = pr.matched := by
  simp only [sendAppend, sendAppendWithRead, hp]
  split
  · exact ⟨pr, hp, rfl, rfl⟩
  · rename_i hpend
    split
    · simp only [sendSnapshot, hp]
      split
      · exact ⟨pr, hp, rfl, rfl⟩
      · split
        · exact ⟨pr, hp, rfl, rfl⟩
        · exact ⟨_, peer_setPeer_self hp _, rfl, rfl⟩
    · split
      · exact ⟨pr, hp, rfl, rfl⟩
      · exact ⟨pr, hp, rfl, rfl⟩

/-- Where a refusal takes the leader when it resumes below the probe. -/
theorem backUp_peer (hp : r.peer resp.sender = some pr) (h0 : 0 < req.prevLogIndex)
    (hprev : req.prevLogIndex = pr.next - 1) (hm : pr.matched < req.prevLogIndex)
    (hn : r.nextAfterRejection pr resp ≤ req.prevLogIndex) :
    ∃ pr', (r.backUp pr resp).peer resp.sender = some pr' ∧ pr'.next < pr.next ∧
      pr'.matched < pr'.next ∧ 1 ≤ pr'.next := by
  simp only [backUp]
  generalize hnext : (if max 1 (r.nextAfterRejection pr resp) ≤ pr.matched then pr.matched + 1
    else max 1 (r.nextAfterRejection pr resp)) = next
  have hle : pr.matched < next ∧ 1 ≤ next ∧ next ≤ req.prevLogIndex := by
    split at hnext <;> omega
  rw [if_pos (by omega)]
  obtain ⟨pr', hp', h1, h2⟩ := sendAppend_peer (peer_setPeer_self hp { pr with next })
  refine ⟨pr', hp', ?_, ?_, ?_⟩ <;> rw [h1]
  · change next < pr.next
    omega
  · rw [h2]
    exact hle.1
  · exact hle.2.1

/-- The leader resumes at or below the probe when it has the term that the follower reports only
below the probe. -/
theorem nextAfterRejection_le (hl : f.log.OK) (href : f.Refused req resp)
    (h0 : 0 < req.prevLogIndex)
    (hlow : ∀ i t, r.log.term i = .ok t → f.log.term req.prevLogIndex = .ok t →
      i < req.prevLogIndex) : r.nextAfterRejection pr resp ≤ req.prevLogIndex := by
  rcases lt_or_ge f.log.lastIndex req.prevLogIndex with hshort | hlong
  · obtain ⟨hct, hci⟩ := href.hint_of_short hshort
    rw [nextAfterRejection_skip (fun h => by omega) (by omega), hci]
    exact hshort
  · obtain ⟨t, ht⟩ := RaftLog.term_ok (hl.base_le_committed.trans href.committed) hlong
    obtain ⟨hct, hci⟩ := href.hint_of_term hlong ht
    have hfirst : f.log.firstIndex = f.log.mem.offset + 1 := rfl
    have hle := RaftLog.conflictStart_le (l := f.log) (t := t) req.prevLogIndex req.prevLogIndex
    have hpos := RaftLog.le_conflictStart (l := f.log) (t := t) req.prevLogIndex req.prevLogIndex
    cases hfound : r.lastIndexOfTerm t r.log.lastIndex with
    | none =>
      rw [nextAfterRejection_skip (fun _ => hct ▸ hfound) (by omega), hci]
      exact hle
    | some i =>
      have hi := hlow i t (lastIndexOfTerm_some hfound).2.2 ht
      rcases Nat.eq_zero_or_pos t with rfl | htpos
      · rw [nextAfterRejection_skip (fun h => by omega) (by omega), hci]
        exact hle
      · rw [nextAfterRejection_found (hct ▸ htpos) (hct ▸ hfound)]
        exact hi

theorem step_refusal (hl : r.state = .leader) (hp : r.peer resp.sender = some pr)
    (hd : resp.dest = r.id) (hty : resp.type = .appendResp) (ht : resp.term = r.term)
    (hs : resp.success = false) :
    step resp r = .ok () ((if resp.readID ≠ 0 then r.ackRead resp.sender resp.readID else r).backUp
      pr resp) := by
  refine Meets.eq_ok ?_
  rw [step, meets_bind, meets_get]
  simp only [hd, ht, hty, ne_eq, not_true_eq_false, decide_false, Bool.false_and,
    Bool.false_eq_true, if_false, gt_iff_lt, lt_irrefl, dispatch]
  rw [handleAppendResponse, meets_bind, meets_get, if_neg (not_not.mpr hl), hp]
  dsimp only
  rw [meets_bind, meets_set, hs]
  exact ⟨trivial, rfl⟩

end

/-! ### In a run of the cluster -/

open Cluster

/-- In a run through `c₀`, `c₁` and `c₂`: leader `n` has sent a probe to `v` at the end of what it
takes `v` to have, `v` refuses the probe in the same term, and the leader, which still leads and has
heard nothing else that moved its page for `v`, is about to be told. -/
structure Refusal (boot : Configuration) (n v : NodeID) (c₀ c₁ c₂ : Cluster) (pr : Progress)
    (resp : Message) : Prop where
  sent : ∃ r₀ f r₂ req pr₂,
    c₀.node? n = some r₀ ∧ r₀.state = .leader ∧ r₀.peer v = some pr ∧
    (req ∈ r₀.msgs ∨ req ∈ c₀.net) ∧ req.type = .appendReq ∧ req.term = r₀.term ∧
    req.prevLogIndex = pr.next - 1 ∧
    c₁.node? v = some f ∧ f.term = r₀.term ∧ f.Rejects req resp ∧
    c₂.node? n = some r₂ ∧ r₂.state = .leader ∧ r₂.term = r₀.term ∧ r₂.peer v = some pr₂ ∧
    pr₂.matched = pr.matched ∧ pr₂.next = pr.next
  before : Run boot fixedCalls c₀ c₁
  after : Run boot fixedCalls c₁ c₂

section

variable {boot : Configuration} {n v : NodeID} {c₀ c₁ c₂ : Cluster} {pr : Progress}
  {resp : Message}

theorem Acked.later {w w' : World NodeID LogEntry} {t k : ℕ} (h : Acked w.hist v t k)
    (hl : Later w w') : Acked w'.hist v t k := by
  obtain ⟨m, p, hm, hp, hk, ha⟩ := h
  exact ⟨m, p, hl.leader hm, hp.trans (hl.log hm), hk, fun q hq => hl.ack (ha q hq)⟩

/-- A follower of the term that refuses a probe has confirmed less than the probe asks for. -/
theorem Refines.matched_lt {G : Regime} {c : Cluster} {w : World NodeID LogEntry}
    (hw : Refines G c w) {f : RawNode} {req : Message} (hf : c.node? v = some f)
    (href : f.Refused req resp) (h0 : 0 < req.prevLogIndex) {p : List LogEntry}
    (hp : p <+: w.hist.log req.term) (hlen : req.prevLogIndex ≤ p.length)
    (hpt : req.prevLogTerm = termAt p req.prevLogIndex) (hft : f.term = req.term) {k : ℕ}
    (hk : k = 0 ∨ Acked w.hist v req.term k) : k < req.prevLogIndex := by
  rcases hk with rfl | hack
  · exact h0
  · obtain ⟨-, hr, -, hsim⟩ := hw.up hf
    obtain ⟨q, hq, hqv, rfl⟩ := hw.acked hack (by rw [node?_eq_some.mp hf]; exact hft)
    by_contra hle
    have hle := not_lt.mp hle
    have hlast : req.prevLogIndex ≤ f.log.lastIndex := by
      rw [RaftLog.lastIndex_eq hsim.backs]
      exact hle.trans hqv.length_le
    obtain ⟨t, ht⟩ := RaftLog.term_ok (hr.log.base_le_committed.trans href.committed) hlast
    refine href.unmatched ?_
    rw [ht, (RaftLog.term_eq hsim.backs ht).2, hpt]
    congr 1
    have hqp : q.take req.prevLogIndex = p.take req.prevLogIndex := by
      rcases List.prefix_or_prefix_of_prefix hq hp with ⟨rest, rfl⟩ | ⟨rest, rfl⟩
      · rw [List.take_append_of_le_length hle]
      · rw [List.take_append_of_le_length hlen]
    refine termAt_of_le le_rfl ?_
    rw [← hqp]
    obtain ⟨rest, hrest⟩ := hqv
    rw [← hrest, List.take_append_of_le_length hle]

/-- After a refusal the leader's page for the follower goes down, but not below what the follower
has confirmed. -/
theorem Refusal.decreases (hn : boot.Normalized) (hs : boot.Sized)
    (h : Refusal boot n v c₀ c₁ c₂ pr resp)
    (hrun : Run boot fixedCalls {} c₀) (faults : List Bool) :
    ∃ r₃ pr₃, (c₂.act n (.call (.step resp) faults)).node? n = some r₃ ∧
      r₃.peer v = some pr₃ ∧ pr₃.next < pr.next ∧ pr₃.matched < pr₃.next ∧ 1 ≤ pr₃.next := by
  obtain ⟨r₀, f, r₂, req, pr₂, hr₀, hl₀, hp₀, hreq, hty, hrt, hprev, hf, hft, hrej, hr₂, hl₂, ht₂,
    hp₂, hm₂, hn₂⟩ := h.sent
  obtain ⟨w₀, -, hw₀⟩ := (Refines.start (fixed boot hn hs)).run hrun
  obtain ⟨w₁, hl₁, hw₁⟩ := hw₀.run h.before
  obtain ⟨w₂, hl₂', hw₂⟩ := hw₁.run h.after
  obtain ⟨-, -, -, hsim₀⟩ := hw₀.up hr₀
  obtain ⟨hfid, hfw, -, hsimf⟩ := hw₁.up hf
  obtain ⟨hid₂, hwf₂, -, hsim₂⟩ := hw₂.up hr₂
  have href := hrej.refused hfw.log
  -- What the request says of the leader's log stays true.
  have hvalid : Valid w₀.hist req := hreq.elim (hsim₀.msgs req) fun h => (hw₀.net req h).1
  obtain ⟨hsend, -, p, hled, hlen, -, hpt⟩ := hvalid.appendReq hty
  have hp₁ := hled.le.trans (hl₁.log hsend)
  have hp₂' := hp₁.trans (hl₂'.log (hl₁.leader hsend))
  have hlen : req.prevLogIndex ≤ p.length := by omega
  have h0 : 0 < req.prevLogIndex := by
    by_contra h0
    obtain h0 : req.prevLogIndex = 0 := by omega
    refine href.unmatched ?_
    rw [hpt, h0]
    rfl
  have hmatch : pr.matched < req.prevLogIndex := by
    refine hw₁.matched_lt hf href h0 hp₁ hlen hpt (hft.trans hrt.symm) ?_
    rw [hrt]
    exact (hsim₀.peers v pr hp₀).imp_right fun h => h.later hl₁
  obtain ⟨hlead, hlog⟩ := hw₂.leader hr₂ hl₂
  rw [ht₂, ← hrt] at hlead hlog
  have hsender : req.sender = n := by
    have := hl₂'.leader (hl₁.leader hsend)
    rw [hlead] at this
    exact (Option.some.inj this).symm
  -- The term that the follower reports is in the leader's log only below the probe.
  have hlow : ∀ i t, r₂.log.term i = .ok t → f.log.term req.prevLogIndex = .ok t →
      i < req.prevLogIndex := by
    intro i t hi ht
    obtain ⟨hile, hit⟩ := RaftLog.term_eq hsim₂.backs hi
    obtain ⟨hfle, hft'⟩ := RaftLog.term_eq hsimf.backs ht
    refine History.Path.lt_of_term (hw₂.inv.node n).path (hl₂'.path (hw₁.inv.node v).path) hile h0
      hfle (hit.symm.trans hft') fun heq => href.unmatched ?_
    rw [ht, hft', hpt]
    congr 1
    refine heq.symm.trans (termAt_of_le le_rfl ?_)
    rw [hlog]
    obtain ⟨rest, hrest⟩ := hp₂'
    rw [← hrest, List.take_append_of_le_length hlen]
  have hpage : (r₂.withFaults faults).peer resp.sender = some pr₂ := by
    rw [href.sender, hfid]
    exact hp₂
  have hstep := step_refusal (r := r₂.withFaults faults) hl₂ hpage
    (by rw [href.dest, hsender]; exact hid₂.symm) href.type
    ((href.term (hft.trans hrt.symm)).trans (hrt.trans ht₂.symm)) href.success
  generalize hr : (if resp.readID ≠ 0 then (r₂.withFaults faults).ackRead resp.sender resp.readID
    else r₂.withFaults faults) = r at hstep
  have hpeer : r.peer resp.sender = some pr₂ := by
    rw [← hr]
    split <;> exact hpage
  have hnext : r.nextAfterRejection pr₂ resp ≤ req.prevLogIndex := by
    refine nextAfterRejection_le hfw.log href h0 fun i t hi => hlow i t ?_
    rw [← hi, ← hr]
    split <;> rfl
  obtain ⟨pr₃, hp₃, h1, h2, h3⟩ := backUp_peer hpeer h0 (hn₂ ▸ hprev) (hm₂ ▸ hmatch) hnext
  refine ⟨_, pr₃, ?_, href.sender.trans hfid ▸ hp₃, hn₂ ▸ h1, h2, h3⟩
  rw [node?_eq_some]
  simp only [Cluster.act, Function.update_self, node?_eq_some.mp hr₂, Slot.act, Call.run, hstep,
    Slot.after]

/-- One turn of the repair loop: a refusal, and what the leader makes of it. -/
def Round (boot : Configuration) (n v : NodeID) (s s' : Cluster × Progress) : Prop :=
  ∃ c₁ c₂ resp faults r₃, Refusal boot n v s.1 c₁ c₂ s.2 resp ∧ resp ∈ c₂.net ∧
    s'.1 = c₂.act n (.call (.step resp) faults) ∧ s'.1.node? n = some r₃ ∧ r₃.peer v = some s'.2

theorem Round.run {s s' : Cluster × Progress} (h : Round boot n v s s')
    (hrun : Run boot fixedCalls {} s.1) : Run boot fixedCalls {} s'.1 := by
  obtain ⟨c₁, c₂, resp, faults, r₃, href, hnet, hs', -⟩ := h
  rw [hs']
  exact ((hrun.trans href.before).trans href.after).tail
    ⟨n, .call (.step resp) faults, hnet, rfl⟩

theorem Round.lt (hn : boot.Normalized) (hs : boot.Sized) {s s' : Cluster × Progress}
    (h : Round boot n v s s') (hrun : Run boot fixedCalls {} s.1) : s'.2.next < s.2.next := by
  obtain ⟨c₁, c₂, resp, faults, r₃, href, -, hs', hr₃, hp₃⟩ := h
  obtain ⟨r, pr, hr, hp, hlt, -⟩ := href.decreases hn hs hrun faults
  rw [← hs', hr₃] at hr
  cases hr
  rw [hp₃] at hp
  cases hp
  exact hlt

/-- The repair loop makes progress: a refusal takes the leader's next probe of the follower strictly
down, to an index that is at least 1 and above what the follower has confirmed, whatever either log
is and however it was compacted; and no run has refusals without end. -/
theorem repair_makes_progress (boot : Configuration) (hn : boot.Normalized) (hs : boot.Sized)
    (n v : NodeID) :
    (∀ c₀ c₁ c₂ pr resp faults, Run boot fixedCalls {} c₀ → Refusal boot n v c₀ c₁ c₂ pr resp →
      ∃ r₃ pr₃, (c₂.act n (.call (.step resp) faults)).node? n = some r₃ ∧
        r₃.peer v = some pr₃ ∧ pr₃.next < pr.next ∧ pr₃.matched < pr₃.next ∧ 1 ≤ pr₃.next) ∧
    ∀ s : ℕ → Cluster × Progress, Run boot fixedCalls {} (s 0).1 →
      ¬∀ k, Round boot n v (s k) (s (k + 1)) := by
  refine ⟨fun c₀ c₁ c₂ pr resp faults hrun h => h.decreases hn hs hrun faults, fun s h0 hall => ?_⟩
  have hrun : ∀ k, Run boot fixedCalls {} (s k).1 := by
    intro k
    induction k with
    | zero => exact h0
    | succ k ih => exact (hall k).run ih
  have hsum : ∀ k, (s k).2.next + k ≤ (s 0).2.next := by
    intro k
    induction k with
    | zero => exact le_rfl
    | succ k ih =>
      have := (hall k).lt hn hs (hrun k)
      omega
  have := hsum ((s 0).2.next + 1)
  omega

end

/-- The second of the three leads after the first, elected by the third, which has heard of no entry
yet; the first probes are on their way. -/
def succession : List Event :=
  election ++
  [.act 2 (.call .tick []), .act 2 (.call .tick []), .act 2 (.call .messages []), .deliver 3 10,
   .act 3 (.call .messages []), .deliver 2 11, .act 2 (.call .messages []), .deliver 3 13,
   .act 3 (.call .messages []), .deliver 2 14, .act 2 (.call .messages [])]

/-- The probe of the third node, after the entry of the first leader. -/
def firstProbe : Message :=
  { type := .appendReq, sender := 2, dest := 3, term := 2, prevLogIndex := 1, prevLogTerm := 1
    entries := [⟨2, 2, .noOp, []⟩] }

def firstRefusal : Message :=
  { type := .appendResp, sender := 3, dest := 2, term := 2, conflictIndex := 1 }

/-- The third node is handed the probe, and its answer is sent. -/
def refused : List Event := [.deliver 3 16, .act 3 (.call .messages [])]

theorem repair_makes_progress_succession :
    ∃ r₃ pr₃, (((({} : Cluster).plays succession).plays refused).act 2
        (.call (.step firstRefusal) [])).node? 2 = some r₃ ∧
      r₃.peer 3 = some pr₃ ∧ pr₃.next < 2 ∧ pr₃.matched < pr₃.next ∧ 1 ≤ pr₃.next := by
  have hrun₀ : Run trio fixedCalls {} (({} : Cluster).plays succession) :=
    run_plays (by decide +kernel)
  have hrun₂ : Run trio fixedCalls (({} : Cluster).plays succession)
      ((({} : Cluster).plays succession).plays refused) := run_plays (by decide +kernel)
  obtain ⟨r₀, hr₀, h₀⟩ := exists_node (c := ({} : Cluster).plays succession) (n := 2)
    (fun r => r.state = .leader ∧ r.term = 2 ∧ r.peer 3 = some { next := 2 }) (by decide +kernel)
  obtain ⟨f, hf, h₁⟩ := exists_node (c := ({} : Cluster).plays succession) (n := 3)
    (fun f => f.term = 2 && succeeds (fun _ f' => f'.msgs = f.msgs ++ [firstRefusal])
      (handleAppendRequest firstProbe f)) (by decide +kernel)
  obtain ⟨r₂, hr₂, h₂⟩ := exists_node (c := (({} : Cluster).plays succession).plays refused) (n := 2)
    (fun r => r.state = .leader ∧ r.term = 2 ∧ r.peer 3 = some { next := 2 }) (by decide +kernel)
  simp only [decide_eq_true_eq, Bool.and_eq_true] at h₀ h₁ h₂
  have hrej : f.Rejects firstProbe firstRefusal := by
    obtain ⟨_, f', hrun, hmsgs⟩ := exists_ok_of_succeeds h₁.2
    exact ⟨f', hrun, of_decide_eq_true hmsgs, rfl⟩
  have hnet : firstProbe ∈ (({} : Cluster).plays succession).net := by decide +kernel
  exact (repair_makes_progress trio trio_normalized trio_sized 2 3).1 _ _ _ { next := 2 } _ [] hrun₀
    ⟨⟨r₀, f, r₂, firstProbe, { next := 2 }, hr₀, h₀.1, h₀.2.2, Or.inr hnet, rfl, h₀.2.1.symm, rfl,
      hf, h₁.1.trans h₀.2.1.symm, hrej, hr₂, h₂.1, h₂.2.1.trans h₀.2.1.symm, h₂.2.2, rfl, rfl⟩,
      .refl, hrun₂⟩

end RaftStore.Raft
