import RaftStore.Raft.Process
import RaftStore.Raft.Validity

/-! Every effect of a call is matched by actions of the abstract protocol.  `Sim` ties a node to its
abstract counterpart and to what has happened so far; an effect that only this node can see is
matched by no action, and one that others may come to rely on by the action of the same name. -/

namespace RaftStore.Raft

open Consensus RawNode

def State.role : State → Role
  | .leader => .leader
  | .candidate => .candidate
  | _ => .follower

theorem State.role_leader {s : State} : s.role = .leader ↔ s = .leader := by
  cases s <;> simp [State.role]

/-- The node `r` is the abstract node `x`, and what it believes of others is so. -/
structure Sim (H : Past) (r : RawNode) (x : Node LogEntry) : Prop where
  backs : Backs x.log r.log.mem
  term : x.term = r.term
  done : x.done = x.log.take r.log.committed
  role : x.role = r.state.role
  vote : r.vote = None ∧ H.vote r.id r.term = none ∨
    r.vote ≠ None ∧ ∃ vl, H.vote r.id r.term = some (r.vote, vl)
  stood : r.state = .candidate → ∃ vl, H.vote r.id r.term = some (r.id, vl)
  votes : r.state = .candidate → ∀ v, r.votes v = some true →
    ∃ vl, H.vote v r.term = some (r.id, vl)
  self : r.state = .leader → Acked H r.id r.term x.log.length
  peers : ∀ v p, r.peer v = some p → p.matched = 0 ∨ Acked H v r.term p.matched
  msgs : ∀ m ∈ r.msgs, Valid H m

/-- Actions of the node's counterpart lead to a counterpart of `r'`. -/
def Advances (M : Membership) (w : World NodeID LogEntry) (r r' : RawNode) : Prop :=
  ∃ w', Steps M.rules r.id w w' ∧ Sim w'.hist r' (w'.node r.id)

namespace Sim

variable {H H' : Past} {r r' : RawNode} {x : Node LogEntry}

theorem length_done (h : Sim H r x) (hr : r.Wf) : x.done.length = r.log.committed := by
  have := hr.log.committed_le
  rw [RaftLog.lastIndex_eq h.backs] at this
  rw [h.done, List.length_take, min_eq_left this]

/-- A leader that has committed an entry of its term knows a prefix that ends in it. -/
theorem done_of_current (h : Sim H r x) (hr : r.Wf) (hc : r.committedInCurrentTerm = true) :
    x.done ≠ [] ∧ lastTerm LogEntry.term x.done = x.term := by
  rw [committedInCurrentTerm] at hc
  split at hc
  · cases hc
  · rename_i hne
    split at hc
    · cases hc
    · rename_i t ht
      obtain ⟨-, hterm⟩ := RaftLog.term_eq h.backs ht
      refine ⟨fun hnil => hne ?_, ?_⟩
      · rw [← h.length_done hr, hnil, List.length_nil]
      · rw [h.done, h.term, ← of_decide_eq_true hc, hterm]

/-- Others may act. -/
theorem other {v : NodeID} (h : Sim H r x) (hg : Grows v H H') (hv : r.id ≠ v) : Sim H' r x where
  backs := h.backs
  term := h.term
  done := h.done
  role := h.role
  vote := by
    rcases h.vote with ⟨h1, h2⟩ | ⟨h1, vl, h2⟩
    · exact Or.inl ⟨h1, hg.vote_none hv h2⟩
    · exact Or.inr ⟨h1, vl, hg.vote h2⟩
  stood hst := (h.stood hst).imp fun _ => hg.vote
  votes hst u hu := (h.votes hst u hu).imp fun _ => hg.vote
  self hst := (h.self hst).mono hg
  peers u p hp := (h.peers u p hp).imp_right fun ha => ha.mono hg
  msgs m hm := (h.msgs m hm).mono hg

theorem reconf (h : Sim H r x) (hr : r.Wf) (hc : r.Reconf r') : Sim H r' x := by
  obtain ⟨heq, hsome, hpeer⟩ := hc
  have hterm : r'.term = r.term := by rw [heq]
  have hstate : r'.state = r.state := by rw [heq]
  have hid : r'.id = r.id := by rw [heq]
  have hlog : r'.log = r.log := by rw [heq]
  have hvotes : r'.votes = r.votes := by rw [heq]
  refine ⟨hlog ▸ h.backs, hterm ▸ h.term, hlog ▸ h.done, hstate ▸ h.role, ?_, ?_, ?_, ?_,
    fun u p hp => ?_, ?_⟩
  · rw [hid, hterm, heq]
    exact h.vote
  · rw [hstate, hid, hterm]
    exact h.stood
  · rw [hstate, hid, hterm, hvotes]
    exact h.votes
  · rw [hstate, hid, hterm]
    exact h.self
  · rw [hterm]
    rcases hpeer u p hp with hp' | ⟨-, hm⟩
    · exact h.peers u p hp'
    · rw [hm]
      split
      · rename_i hu
        have hlead : r'.state = .leader := (Reconf.wf ⟨heq, hsome, hpeer⟩ hr).leader_of_peer hp
        rw [hstate] at hlead
        rw [hu, RaftLog.lastIndex_eq h.backs]
        exact Or.inr (h.self hlead)
      · exact Or.inl rfl
  · rw [heq]
    exact h.msgs

theorem setPeer (h : Sim H r x) {v : NodeID} {p : Progress}
    (hp : p.matched = 0 ∨ Acked H v r.term p.matched) : Sim H (r.setPeer v p) x := by
  refine ⟨h.backs, h.term, h.done, h.role, h.vote, h.stood, h.votes, h.self, fun u q hq => ?_,
    h.msgs⟩
  rw [peer_setPeer] at hq
  split at hq
  · rename_i hu
    cases hpr : r.progress with
    | none => simp [hpr] at hq
    | some prs =>
      rw [hpr] at hq
      cases hq
      exact hu ▸ hp
  · exact h.peers u q hq

end Sim

theorem Sim.send {H : Past} {r : RawNode} {x : Node LogEntry} {m : Message} (h : Sim H r x)
    (hm : Valid H (r.stamp m)) : Sim H (r.send m) x := by
  refine ⟨h.backs, h.term, h.done, h.role, h.vote, h.stood, h.votes, h.self, h.peers,
    fun m' hm' => ?_⟩
  rcases List.mem_append.mp hm' with hm' | hm'
  · exact h.msgs m' hm'
  · rw [List.mem_singleton.mp hm']
    exact hm

section Effects

variable {M : Membership} {w : World NodeID LogEntry} {c : Call} {r r' : RawNode}

theorem Advances.none (h : Sim w.hist r' (w.node r.id)) : Advances M w r r' := ⟨w, .refl, h⟩

theorem Advances.one {x : Node LogEntry} {H : Past} (hstep : Step M.rules r.id w (w.put r.id x H))
    (h : Sim H r' x) : Advances M w r r' :=
  ⟨_, .single hstep, by rwa [World.put_self]⟩

theorem advances_adopt (hw : Inv M.rules w) (hs : Sim w.hist r (w.node r.id)) {t : ℕ} {lead : NodeID}
    (ht : r.term < t) : Advances M w r (r.becomeFollower t lead).saved := by
  refine .one (.adopt t (hs.term ▸ ht)) ?_
  rw [becomeFollower, reset_eq]
  refine ⟨hs.backs.congr rfl rfl rfl, rfl, hs.done, rfl, Or.inl ⟨if_neg ht.ne, ?_⟩,
    by rintro ⟨⟩, by rintro ⟨⟩, by rintro ⟨⟩, by rintro _ _ ⟨⟩, hs.msgs⟩
  by_contra hne
  obtain ⟨y, hy⟩ := Option.ne_none_iff_exists'.mp hne
  have hle := (hw.node r.id).vote_le hy
  rw [hs.term] at hle
  exact absurd hle (not_le.mpr ht)

theorem advances_resign (hs : Sim w.hist r (w.node r.id)) (lead : NodeID) :
    Advances M w r (r.becomeFollower r.term lead) := by
  refine .one .resign ?_
  rw [becomeFollower, reset_eq, if_pos rfl]
  exact ⟨hs.backs, hs.term, hs.done, rfl, hs.vote, by rintro ⟨⟩, by rintro ⟨⟩, by rintro ⟨⟩,
    by rintro _ _ ⟨⟩, hs.msgs⟩

theorem advances_stand (hw : Inv M.rules w) (hr : r.Wf) (hs : Sim w.hist r (w.node r.id)) :
    Advances M w r r.standing.saved := by
  have hg := (Step.stand (R := M.rules) (v := r.id) (w := w)).moves hw
  have hvote : (w.hist.stand (r.term + 1) r.id (w.node r.id).log).vote r.id (r.term + 1) =
      some (r.id, (w.node r.id).log) := by
    simp [History.stand]
  refine .one .stand ?_
  rw [standing, reset_eq, hs.term]
  refine ⟨hs.backs.congr rfl rfl rfl, rfl, hs.done, rfl, Or.inr ⟨hr.id_ne, _, hvote⟩,
    fun _ => ⟨_, hvote⟩, by rintro _ _ ⟨⟩, by rintro ⟨⟩, by rintro _ _ ⟨⟩, fun m hm => ?_⟩
  have := (hs.msgs m hm).mono hg.grows
  rwa [World.put_hist, hs.term] at this

theorem advances_tally (hs : Sim w.hist r (w.node r.id)) {sender : NodeID} {granted : Bool}
    (hmsg : ∀ m, c = .step m → Valid w.hist m)
    (hg : (c.campaigns = true ∨ r.state = .candidate) ∧ sender = r.id ∧ granted = true ∨
      r.CountsVote c sender granted) :
    Advances M w r { r with votes := Function.update r.votes sender (some granted) } := by
  refine .none ⟨hs.backs, hs.term, hs.done, hs.role, hs.vote, hs.stood, fun hst v hv => ?_,
    hs.self, hs.peers, hs.msgs⟩
  by_cases hvs : v = sender
  · subst hvs
    obtain rfl : granted = true := by simpa using hv
    rcases hg with ⟨-, rfl, -⟩ | ⟨m, hc, hty, hsend, hgr, hd, hwhen⟩
    · exact hs.stood hst
    · obtain ⟨-, hpre, ht⟩ := hwhen.resolve_right fun h => by
        rw [hst] at h
        exact nomatch h.1
      obtain ⟨hne, hvote⟩ := (hmsg m hc).voteResp hty hpre hgr
      rw [hsend, ht, hd.resolve_right hne] at hvote
      exact hvote
  · exact hs.votes hst v (by simpa [hvs] using hv)

theorem advances_grant (hw : Inv M.rules w) (hs : Sim w.hist r (w.node r.id)) {m : Message}
    (hm : Valid w.hist m) (hty : m.type = .voteReq) (hpre : m.preVote = false)
    (ht : m.term = r.term) (hcan : r.canVote m = true)
    (hup : r.log.isUpToDate m.lastLogIndex m.lastLogTerm = .ok true) :
    Advances M w r { r with vote := m.sender, electionElapsed := 0 : RawNode }.saved := by
  obtain ⟨cl, hcand, hlen, hlast⟩ := hm.voteReq hty hpre
  rw [hlen, hlast] at hup
  rw [canVote, hpre, if_neg (by simp)] at hcan
  split at hcan
  · -- The vote was cast before, and is repeated.
    rename_i heq
    rw [← heq]
    exact .none ⟨hs.backs.congr rfl rfl rfl, hs.term, hs.done, hs.role, hs.vote, hs.stood, hs.votes,
      hs.self, hs.peers, hs.msgs⟩
  · split at hcan
    · rename_i hnone
      have hfree : w.hist.vote r.id r.term = none := by
        rcases hs.vote with ⟨-, h⟩ | ⟨h, -⟩
        · exact h
        · simp [h] at hnone
      have hstep : Step M.rules r.id w _ := .grant m.sender cl (by rw [hs.term, ← ht]; exact hcand)
        (RaftLog.isUpToDate_true hs.backs hup) (by rw [hs.term]; exact hfree)
      have hg := (hstep.moves hw).grows
      refine .one hstep ?_
      rw [World.put_hist] at hg
      refine ⟨hs.backs.congr rfl rfl rfl, hs.term, hs.done, hs.role,
        Or.inr ⟨hm.sender_ne, (w.node r.id).log, ?_⟩, fun hst => (hs.stood hst).imp fun _ => hg.vote,
        fun hst u hu => (hs.votes hst u hu).imp fun _ => hg.vote, fun hst => (hs.self hst).mono hg,
        fun u p hp => (hs.peers u p hp).imp_right fun ha => ha.mono hg,
        fun m' hm' => (hs.msgs m' hm').mono hg⟩
      change (w.hist.grant (w.node r.id).term r.id m.sender (w.node r.id).log).vote r.id r.term =
        some (m.sender, (w.node r.id).log)
      rw [hs.term]
      simp [History.grant]
    · cases hcan

/-- Whatever the leader's log and the node's have in common, the node may acknowledge. -/
theorem Sim.acknowledge (hw : Inv M.rules w) (hs : Sim w.hist r (w.node r.id)) {n : NodeID}
    {p : List LogEntry} (hn : w.hist.leader r.term = some n) (hp : p <+: w.hist.log r.term)
    (hpx : p <+: (w.node r.id).log) :
    ∃ w', Steps M.rules r.id w w' ∧ Sim w'.hist r (w'.node r.id) ∧
      Acked w'.hist r.id r.term p.length := by
  have hstep : Step M.rules r.id w _ := .ack n p (hs.term ▸ hn) (hs.term ▸ hp) hpx
  have hg := (hstep.moves hw).grows
  rw [World.put_hist, hs.term] at hg
  rw [hs.term] at hstep
  refine ⟨_, .single hstep, ?_, n, p, hn, hp, rfl, fun q hq => Or.inr ⟨rfl, rfl, hq⟩⟩
  rw [World.put_self, World.put_hist]
  exact ⟨hs.backs, hs.term, hs.done, hs.role, hs.vote, hs.stood, hs.votes,
    fun hst => (hs.self hst).mono hg, fun u p hp => (hs.peers u p hp).imp_right fun ha => ha.mono hg,
    fun m' hm' => (hs.msgs m' hm').mono hg⟩

/-- A leader counts itself among those that hold its log, as soon as it is one. -/
theorem advances_lead (hw : Inv M.rules w) (hs : Sim w.hist r (w.node r.id))
    (hst : r.state = .candidate)
    (hQ : M.Quorum (w.node r.id).log {v | r.votes v = some true}) : Advances M w r r.leading := by
  have hcand : (w.node r.id).role = .candidate := by rw [hs.role, hst]; rfl
  have h1 : Step M.rules r.id w _ := .elect {v | r.votes v = some true} hcand hQ
    (by rw [hs.term]; exact hs.votes hst)
  have hw1 := h1.inv hw
  have h2 : Step M.rules r.id _ _ := .ack (w := w.put r.id { w.node r.id with role := .leader }
      (w.hist.elect (w.node r.id).term r.id (w.node r.id).log)) r.id (w.node r.id).log
    (by simp [History.elect]) (by simp [History.elect]) (by simp)
  have hg := ((h1.moves hw).trans (h2.moves hw1)).grows
  refine ⟨_, .tail (.single h1) h2, ?_⟩
  simp only [World.put_self, World.put_hist, hs.term] at hg ⊢
  have hself : Acked ((w.hist.elect r.term r.id (w.node r.id).log).acknowledge r.term r.id
      (w.node r.id).log) r.id r.term (w.node r.id).log.length :=
    ⟨r.id, (w.node r.id).log, by simp [History.elect, History.acknowledge],
      by simp [History.elect, History.acknowledge], rfl, fun q hq => Or.inr ⟨rfl, rfl, hq⟩⟩
  rw [leading, reset_eq, if_pos rfl]
  refine ⟨hs.backs, rfl, hs.done, rfl, hs.vote, by rintro ⟨⟩, by rintro ⟨⟩, fun _ => hself,
    fun u p hp => ?_, fun m hm => (hs.msgs m hm).mono hg⟩
  simp only [peer, Option.bind_some] at hp
  split at hp
  · cases hp
    by_cases hu : u = r.id
    · refine Or.inr ?_
      simp only [hu, RaftLog.lastIndex_eq hs.backs]
      exact hself
    · exact Or.inl (if_neg hu)
  · cases hp

theorem Sim.leader_log (hw : Inv M.rules w) (hs : Sim w.hist r (w.node r.id))
    (hst : r.state = .leader) :
    w.hist.leader r.term = some r.id ∧ (w.node r.id).log = w.hist.log r.term := by
  have := (hw.node r.id).lead (by rw [hs.role, hst]; rfl)
  rwa [hs.term] at this

theorem advances_extend (hw : Inv M.rules w) (hr : r.Wf) (hs : Sim w.hist r (w.node r.id))
    {e : LogEntry} (hst : r.state = .leader) (ht : e.term = r.term)
    (hi : e.index = r.log.lastIndex + 1) (hadm : M.admits (w.node r.id).log e)
    (hconf : M.isConf e → (w.node r.id).done ≠ [] ∧
      lastTerm LogEntry.term (w.node r.id).done = (w.node r.id).term ∧
      Covers M.isConf (w.node r.id).done (w.node r.id).log) :
    Advances M w r (r.extended e) := by
  have hlead : (w.node r.id).role = .leader := by rw [hs.role, hst]; rfl
  obtain ⟨hld, hlog⟩ := hs.leader_log hw hst
  have h1 : Step M.rules r.id w _ := .extend e hlead (ht.trans hs.term.symm) hadm hconf
  have hw1 := h1.inv hw
  have h2 : Step M.rules r.id _ _ := .ack (w := w.put r.id
      { w.node r.id with log := (w.node r.id).log ++ [e] }
      (w.hist.extend (w.node r.id).term ((w.node r.id).log ++ [e]))) r.id ((w.node r.id).log ++ [e])
    (by simpa [History.extend, hs.term] using hld) (by simp [History.extend]) (by simp)
  have hg := ((h1.moves hw).trans (h2.moves hw1)).grows
  simp only [World.put_self, World.put_hist, hs.term] at hg
  have hself : Acked ((w.hist.extend r.term ((w.node r.id).log ++ [e])).acknowledge r.term r.id
      ((w.node r.id).log ++ [e])) r.id r.term ((w.node r.id).log ++ [e]).length :=
    ⟨r.id, (w.node r.id).log ++ [e], by simpa [History.extend, History.acknowledge] using hld,
      by simp [History.extend, History.acknowledge], rfl, fun q hq => Or.inr ⟨rfl, rfl, hq⟩⟩
  have hmem : Sim ((w.hist.extend r.term ((w.node r.id).log ++ [e])).acknowledge r.term r.id
      ((w.node r.id).log ++ [e])) (r.withMem { r.log.mem with ents := r.log.mem.ents ++ [e] })
      ⟨r.term, (w.node r.id).log ++ [e], (w.node r.id).done, (w.node r.id).role⟩ := by
    refine ⟨hs.backs.concat (by rw [hi, RaftLog.lastIndex_eq hs.backs]), rfl, ?_, hs.role,
      hs.vote, hs.stood, hs.votes, fun _ => hself,
      fun u p hp => (hs.peers u p hp).imp_right fun ha => ha.mono hg,
      fun m' hm' => (hs.msgs m' hm').mono hg⟩
    have hle := hr.log.committed_le
    rw [RaftLog.lastIndex_eq hs.backs] at hle
    change (w.node r.id).done = ((w.node r.id).log ++ [e]).take r.log.committed
    rw [List.take_append_of_le_length hle]
    exact hs.done
  refine ⟨_, .tail (.single h1) h2, ?_⟩
  simp only [World.put_self, World.put_hist, hs.term]
  rw [extended]
  split
  · exact hmem.reconf (hr.concat hi) (refreshed_reconf _)
  · exact hmem

theorem advances_commit (hw : Inv M.rules w) (hr : r.Wf) (hs : Sim w.hist r (w.node r.id)) {i : ℕ}
    (hst : r.state = .leader) (hlt : r.log.committed < i) (hle : i ≤ r.log.lastIndex)
    (ht : r.log.term i = .ok r.term)
    (hQ : M.Quorum (w.node r.id).log {v | i ≤ r.matchOf v}) :
    Advances M w r { r with log := { r.log with committed := i } } := by
  obtain ⟨hld, hlog⟩ := hs.leader_log hw hst
  rw [RaftLog.lastIndex_eq hs.backs] at hle
  obtain ⟨-, hterm⟩ := RaftLog.term_eq hs.backs ht
  have hlen : ((w.node r.id).log.take i).length = i := by simp [hle]
  have hack : ∀ v ∈ {v | i ≤ r.matchOf v},
      w.hist.ack v (w.node r.id).term ((w.node r.id).log.take i) := by
    intro v hv
    simp only [matchOf, Set.mem_ofPred_eq] at hv
    cases hp : r.peer v with
    | none => simp [hp] at hv; omega
    | some p =>
      simp only [hp, Option.map_some, Option.getD_some] at hv
      rcases hs.peers v p hp with h0 | ⟨n, q, hn, hq, hqlen, hall⟩
      · omega
      · rw [hs.term]
        refine hall _ (List.prefix_of_prefix_length_le ?_ hq (by omega))
        rw [← hlog]
        exact List.take_prefix ..
  have hstep : Step M.rules r.id w _ := .commit ((w.node r.id).log.take i) {v | i ≤ r.matchOf v}
    (by rw [hs.role, hst]; rfl) (List.take_prefix ..) (by rw [hs.length_done hr, hlen]; exact hlt)
    (by rw [hs.term]; exact hterm.symm) hQ hack
  have hg := (hstep.moves hw).grows
  refine .one hstep ?_
  rw [World.put_hist] at hg
  exact ⟨hs.backs, hs.term, rfl, hs.role, hs.vote, hs.stood, hs.votes,
    fun hst => (hs.self hst).mono hg, fun u p hp => (hs.peers u p hp).imp_right fun ha => ha.mono hg,
    fun m' hm' => (hs.msgs m' hm').mono hg⟩

/-- A follower takes over `p` from the leader, and may learn that more of it is committed. -/
theorem advances_accept (hw : Inv M.rules w) (hr : r.Wf) (hs : Sim w.hist r (w.node r.id))
    {p l : List LogEntry} {rl : RaftLog} (hst : r.state = .follower) (hp : Led w.hist r.term p)
    (hdone : (w.node r.id).done <+: p)
    (hl : p <+: (w.node r.id).log ∧ l = (w.node r.id).log ∨ ¬p <+: (w.node r.id).log ∧ l = p)
    (hb : Backs l rl.mem)
    (hc : rl.committed = r.log.committed ∨ r.log.committed < rl.committed ∧
      rl.committed ≤ p.length ∧ CommittedBy w.hist r.term rl.committed) :
    Advances M w r { r with log := rl } := by
  obtain ⟨n, hn⟩ := hp.leader
  have hpl : p <+: l := by
    rcases hl with ⟨h, rfl⟩ | ⟨-, rfl⟩
    · exact h
    · exact List.prefix_refl _
  have hstep : Step M.rules r.id w
      (w.put r.id ⟨(w.node r.id).term, l, (w.node r.id).done, .follower⟩ w.hist) := by
    have h : Step M.rules r.id w _ := .accept n p (hs.term ▸ hn) (hs.term ▸ hp.le) hdone
      (by rw [hs.role, hst]; exact nofun)
    rcases hl with ⟨h1, rfl⟩ | ⟨h1, rfl⟩
    · rwa [if_pos h1] at h
    · rwa [if_neg h1] at h
  have hsim : ∀ done : List LogEntry, done = l.take rl.committed →
      Sim w.hist { r with log := rl } ⟨(w.node r.id).term, l, done, .follower⟩ := fun done hd =>
    ⟨hb, hs.term, hd, by rw [hst]; rfl, hs.vote, by rw [hst]; exact nofun, by rw [hst]; exact nofun,
      by rw [hst]; exact nofun, hs.peers, hs.msgs⟩
  rcases hc with hc | ⟨hlt, hle, hc⟩
  · refine .one hstep (hsim _ ?_)
    rw [hc, ← hs.length_done hr]
    exact List.prefix_iff_eq_take.mp (hdone.trans hpl)
  · obtain ⟨t0, q, lq, ht0, hcommit, hkq⟩ := hc.resolve_left (by omega)
    have htake : l.take rl.committed <+: w.hist.log r.term := by
      obtain ⟨rest, rfl⟩ := hpl
      rw [List.take_append_of_le_length hle]
      exact (List.take_prefix ..).trans hp.le
    have h2 : Step M.rules r.id _ _ := .learn (w := w.put r.id
        ⟨(w.node r.id).term, l, (w.node r.id).done, .follower⟩ w.hist) t0 (l.take rl.committed) q lq
      (by rw [World.put_self]; exact List.take_prefix ..) (by rw [World.put_self, hs.term]; exact ht0)
      hcommit (List.prefix_of_prefix_length_le htake (hw.hist.commit_prefix_log ht0 hcommit hn)
        (by rw [List.length_take]; omega))
      (by rw [World.put_self]; exact nofun)
    refine ⟨_, .tail (.single hstep) h2, ?_⟩
    simp only [World.put_self, World.put_hist]
    exact hsim _ rfl

theorem Advances.reconf {r'' : RawNode} (h : Advances M w r r') (hr' : r'.Wf)
    (hc : r'.Reconf r'') : Advances M w r r'' := by
  obtain ⟨w', hsteps, hsim⟩ := h
  exact ⟨w', hsteps, hsim.reconf hr' hc⟩

theorem Led.entries_contiguous {H : Past} {t prev : ℕ} {p ents : List LogEntry} (hp : Led H t p)
    (hents : ents = p.drop prev) : Contiguous (prev + 1) ents := by
  have := hp.contiguous.drop prev
  rwa [Nat.add_comm, ← hents] at this

theorem Led.entry {H : Past} {t prev k : ℕ} {p ents : List LogEntry} {e : LogEntry} (hp : Led H t p)
    (hents : ents = p.drop prev) (he : ents[k]? = some e) :
    p[prev + k]? = some e ∧ e.index = prev + k + 1 := by
  rw [hents, List.getElem?_drop] at he
  have := hp.contiguous _ _ he
  exact ⟨he, by omega⟩

/-- As far as a request's entries match, the node has the leader's log. -/
theorem Sim.take_eq (hw : Inv M.rules w) (hs : Sim w.hist r (w.node r.id)) {m : Message}
    {p : List LogEntry} (hp : Led w.hist r.term p)
    (hlen : p.length = m.prevLogIndex + m.entries.length) (hents : m.entries = p.drop m.prevLogIndex)
    (hprev : m.prevLogTerm = termAt p m.prevLogIndex)
    (hmatch : r.log.matchTerm m.prevLogIndex m.prevLogTerm = true) {k : ℕ}
    (hk : k ≤ m.entries.length)
    (hall : ∀ e ∈ m.entries.take k, r.log.matchTerm e.index e.term = true) :
    m.prevLogIndex + k ≤ (w.node r.id).log.length ∧
      (w.node r.id).log.take (m.prevLogIndex + k) = p.take (m.prevLogIndex + k) := by
  obtain ⟨i, t, hi, hterm, hmt⟩ : ∃ i t, i = m.prevLogIndex + k ∧ t = termAt p i ∧
      r.log.matchTerm i t = true := by
    cases k with
    | zero => exact ⟨m.prevLogIndex, m.prevLogTerm, rfl, hprev, hmatch⟩
    | succ k =>
      have hk' : m.entries[k]? = some m.entries[k] := List.getElem?_eq_getElem (by omega)
      obtain ⟨hpk, hidx⟩ := hp.entry hents hk'
      refine ⟨m.prevLogIndex + k + 1, m.entries[k].term, rfl, (termAt_succ hpk).symm, ?_⟩
      rw [← hidx]
      refine hall _ (List.mem_of_getElem? (i := k) ?_)
      rw [List.getElem?_take, if_pos (Nat.lt_succ_self k)]
      exact hk'
  obtain ⟨hle, ht⟩ := RaftLog.term_eq hs.backs (RaftLog.matchTerm_eq.mp hmt)
  rw [← hi]
  exact ⟨hle, take_eq_of_term hw.hist (hw.node r.id) hp hle (by omega) (ht.symm.trans hterm)⟩

theorem advances_follow (hw : Inv M.rules w) (hr : r.Wf) (hs : Sim w.hist r (w.node r.id))
    {m : Message} {l : RaftLog} {committed : ℕ} (hm : Valid w.hist m) (hty : m.type = .appendReq)
    (ht : m.term = r.term) (hst : r.state = .follower) (hcp : r.log.committed ≤ m.prevLogIndex)
    (hmatch : r.log.matchTerm m.prevLogIndex m.prevLogTerm = true)
    (hsp : r.log.Spliced m.prevLogIndex m.entries l) (hle : committed ≤ l.lastIndex)
    (hcm : committed = r.log.committed ∨ r.log.committed < committed ∧
      committed = min m.leaderCommit (m.prevLogIndex + m.entries.length)) :
    Advances M w r ({ r with log := { l with committed } }.refreshedIfNeeded m.entries) := by
  refine .reconf ?_ (hr.followed hsp (by omega) hle) (refreshedIfNeeded_reconf _ _)
  obtain ⟨-, hcommit, p, hp, hplen, hents, hprev⟩ := hm.appendReq hty
  rw [ht] at hcommit hp
  have hcont := hp.entries_contiguous hents
  have hc : committed = r.log.committed ∨ r.log.committed < committed ∧
      committed ≤ p.length ∧ CommittedBy w.hist r.term committed := by
    rcases hcm with h | ⟨h1, h2⟩
    · exact Or.inl h
    · exact Or.inr ⟨h1, by omega, hcommit.le (by omega)⟩
  have hdone : (w.node r.id).done <+: p := by
    obtain ⟨-, htake⟩ := hs.take_eq hw hp hplen hents hprev hmatch (Nat.zero_le _) (by simp)
    rw [Nat.add_zero] at htake
    rw [hs.done, ← min_eq_left hcp, ← List.take_take, htake]
    exact (List.take_prefix ..).trans (List.take_prefix ..)
  cases hsp with
  | same hsame =>
    rcases RaftLog.findConflict_spec (l := r.log) hcont with ⟨-, hall⟩ | ⟨k, -, hk, -⟩
    · obtain ⟨-, htake⟩ := hs.take_eq hw hp hplen hents hprev hmatch le_rfl (by simpa using hall)
      rw [← hplen, List.take_length] at htake
      exact advances_accept hw hr hs hst hp hdone
        (Or.inl ⟨htake ▸ List.take_prefix .., rfl⟩) hs.backs hc
    · have := hsame hcont
      omega
  | wrote k e rest faults hk hdrop hlt hi hce =>
    rcases RaftLog.findConflict_spec (l := r.log) hcont with ⟨h0, -⟩ | ⟨k', hk', hf, hall, hno⟩
    · omega
    · obtain rfl : k = k' := by omega
      obtain ⟨hlek, htake⟩ := hs.take_eq hw hp hplen hents hprev hmatch hk'.le hall
      have hek : m.entries[k]? = some e := by
        rw [← Nat.add_zero k, ← List.getElem?_drop, hdrop]
        rfl
      obtain ⟨hpk, hidx⟩ := hp.entry hents hek
      have hbase := hr.log.base_le_committed
      have hnot : ¬p <+: (w.node r.id).log := by
        intro hpx
        have hlt' : m.prevLogIndex + k < p.length := by omega
        have hxk : (w.node r.id).log[m.prevLogIndex + k]? = some e := by
          obtain ⟨rest', hrest⟩ := hpx
          rw [← hrest, List.getElem?_append_left hlt', hpk]
        have hterm : r.log.term e.index = .ok e.term := by
          rw [hidx, ← termAt_succ hxk]
          exact RaftLog.term_of_le hs.backs (by simp only [MemoryStorage.offset] at hbase; omega)
            (Nat.succ_le_of_lt (hlt'.trans_le hpx.length_le))
        exact absurd (RaftLog.matchTerm_eq.mpr hterm) (by simp [hno e hek])
      have hsnap := hr.log.snap_le.trans hr.log.applied_le
      refine advances_accept hw hr hs hst hp hdone (Or.inr ⟨hnot, rfl⟩) ?_ hc
      refine hs.backs.splice (by simp only [MemoryStorage.offset] at hbase; omega) (by omega)
        (by rw [← RaftLog.lastIndex_eq hs.backs]; exact hi) ?_ hp.contiguous
      rw [hidx, Nat.add_sub_cancel, htake, ← hdrop, hents, List.drop_drop, List.take_append_drop]

theorem advances_restore (hw : Inv M.rules w) (hr : r.Wf) (hs : Sim w.hist r (w.node r.id))
    {m : Message} {snap : Snapshot} {mem : MemoryStorage} (hm : Valid w.hist m)
    (hty : m.type = .snapshotReq) (ht : m.term = r.term) (hst : r.state = .follower)
    (hsn : m.snapshot = some snap) (hlt : r.log.committed < snap.lastIncludedIndex)
    (hsave : r.log.mem.saveSnapshot snap = .ok mem) : Advances M w r (r.restored snap mem) := by
  suffices h : Advances M w r { r with log := { r.log with
      storage := { r.log.storage with mem },
      committed := snap.lastIncludedIndex, applied := snap.lastIncludedIndex } } by
    rw [restored]
    split
    · exact h.reconf (hr.replaced hlt hsave) (setConfiguration_reconf _ _ _)
    · exact h
  obtain ⟨hcommit, p, hp, hplen, hpt⟩ := (hm.snapshotReq hty).2 snap hsn
  rw [ht] at hcommit hp
  obtain ⟨n, hn⟩ := hp.leader
  have hdone : (w.node r.id).done <+: p := by
    have hlog := done_prefix_log hw.hist (hw.node r.id) (hs.term ▸ hn)
    rw [hs.term] at hlog
    exact List.prefix_of_prefix_length_le hlog hp.le (by rw [hs.length_done hr]; omega)
  have hbase := hr.log.base_le_committed
  simp only [MemoryStorage.offset] at hbase
  have hat : snap.lastIncludedIndex ≤ (w.node r.id).log.length →
      (r.log.mem.at? (snap.lastIncludedIndex - r.log.mem.offset)).map LogEntry.term =
        some (termAt (w.node r.id).log snap.lastIncludedIndex) := by
    intro hle
    have hterm := RaftLog.term_of_le hs.backs (i := snap.lastIncludedIndex) (by omega) hle
    exact (RaftLog.at?_of_term (by omega) hterm).2.2
  obtain ⟨-, -, hsnap, ⟨hle, hkeep, hb, he⟩ | ⟨hno, hb, he⟩⟩ := RaftLog.saveSnapshot_ok hsave
  · -- The log holds the snapshot's boundary, so it holds everything below it.
    rw [hs.backs.lastIndex] at hle
    rw [hat hle, Option.some.injEq, hpt] at hkeep
    have htake := take_eq_of_term hw.hist (hw.node r.id) hp hle (by omega)
      (by rw [hkeep, termAt, ← hplen, List.take_length])
    rw [← hplen, List.take_length] at htake
    refine advances_accept hw hr hs hst hp hdone (Or.inl ⟨htake ▸ List.take_prefix .., rfl⟩) ?_
      (Or.inr ⟨hlt, hplen.ge, hcommit⟩)
    exact hs.backs.save ⟨hb, he⟩ (by rw [hsnap]; exact hle) (by rw [hsnap, hkeep, hpt])
  · have hnot : ¬p <+: (w.node r.id).log := by
      intro hpx
      have hle : snap.lastIncludedIndex ≤ (w.node r.id).log.length := hplen ▸ hpx.length_le
      refine hno ⟨hs.backs.lastIndex ▸ hle, ?_⟩
      rw [hat hle, hpt, termAt, ← hplen, ← List.prefix_iff_eq_take.mp hpx]
    refine advances_accept hw hr hs hst hp hdone (Or.inr ⟨hnot, rfl⟩) ?_
      (Or.inr ⟨hlt, hplen.ge, hcommit⟩)
    exact .boundary hp.contiguous hplen.symm hpt (by rw [hb, hplen]) (by rw [hb]) he hsnap

/-- What is sent from `next` on continues the leader's log. -/
theorem entriesFrom_eq {l : List LogEntry} (hb : Backs l r.log.mem) {next : ℕ}
    {es : List LogEntry} (h1 : 1 ≤ next) (hle : next - 1 ≤ l.length)
    (he : r.entriesFrom next = .ok es) :
    ∃ p, p <+: l ∧ p.length = next - 1 + es.length ∧ es = p.drop (next - 1) := by
  simp only [entriesFrom, RaftLog.lastIndex_eq hb] at he
  split at he
  · rename_i hlast
    obtain ⟨hi, hhi⟩ : ∃ hi, hi = min (l.length + 1) (next + r.maxEntriesPerMessage) := ⟨_, rfl⟩
    have hmax : 1 ≤ r.maxEntriesPerMessage := by
      simp only [maxEntriesPerMessage, defaultMaxEntriesPerMessage]
      split <;> omega
    rw [← hhi, RaftLog.entries, if_neg (by omega), RaftLog.lastIndex_eq hb, if_neg (by omega)] at he
    obtain ⟨-, -, hes⟩ := hb.entries (by omega) he
    refine ⟨l.take (hi - 1), List.take_prefix .., ?_, hes⟩
    rw [hes, List.length_drop, List.length_take]
    omega
  · cases he
    refine ⟨l.take (next - 1), List.take_prefix .., by simpa using hle, ?_⟩
    rw [List.drop_of_length_le (by simp)]

theorem valid_append (hw : Inv M.rules w) (hr : r.Wf) (hs : Sim w.hist r (w.node r.id))
    {dest : NodeID} {pr : Progress} {prevTerm : ℕ} {entries : List LogEntry} {readID : UInt64}
    (hpr : r.peer dest = some pr) (ht : r.log.term (pr.next - 1) = .ok prevTerm)
    (he : r.entriesFrom pr.next = .ok entries) :
    Valid w.hist (r.stamp { type := .appendReq, dest, prevLogIndex := pr.next - 1,
                            prevLogTerm := prevTerm, entries, leaderCommit := r.log.committed,
                            readID }) := by
  obtain ⟨hld, hlog⟩ := hs.leader_log hw (hr.leader_of_peer hpr)
  obtain ⟨hle, hterm⟩ := RaftLog.term_eq hs.backs ht
  obtain ⟨p, hp, hlen, hents⟩ := entriesFrom_eq hs.backs (hr.next_pos dest pr hpr) hle he
  have hcont : Contiguous 1 p := by
    rw [List.prefix_iff_eq_take.mp hp]
    exact hs.backs.contiguous.take _
  refine ⟨hr.id_ne, hld, ?_, p, ⟨hcont, ⟨_, hld⟩, hlog ▸ hp⟩, hlen, hents, ?_⟩
  · have := committedBy_of_done (hw.node r.id) (hs.length_done hr).ge
    rwa [hs.term] at this
  · rw [hterm]
    refine termAt_of_le le_rfl ?_
    obtain ⟨rest, hrest⟩ := hp
    rw [← hrest, List.take_append_of_le_length (by omega)]

theorem valid_snapshot (hw : Inv M.rules w) (hr : r.Wf) (hs : Sim w.hist r (w.node r.id))
    {dest : NodeID} {pr : Progress} (hpr : r.peer dest = some pr) :
    Valid w.hist (r.stamp { type := .snapshotReq, dest, snapshot := some r.log.mem.snapshot }) := by
  obtain ⟨hld, hlog⟩ := hs.leader_log hw (hr.leader_of_peer hpr)
  refine ⟨hr.id_ne, ⟨_, hld⟩, fun snap hsnap => ?_⟩
  cases hsnap
  refine ⟨?_, (w.node r.id).log.take r.log.mem.snapshot.lastIncludedIndex,
    ⟨hs.backs.contiguous.take _, ⟨_, hld⟩, hlog ▸ List.take_prefix ..⟩, ?_, hs.backs.snap_term⟩
  · have hle := hr.log.snap_le.trans hr.log.applied_le
    have := committedBy_of_done (hw.node r.id) (hle.trans (hs.length_done hr).ge)
    rwa [hs.term] at this
  · rw [List.length_take]
    exact min_eq_left hs.backs.snap_le

/-- Before it reports that it holds `k` entries, the node acknowledges them. -/
theorem advances_response (hw : Inv M.rules w) (hr : r.Wf) (hs : Sim w.hist r (w.node r.id))
    {n : NodeID} {p : List LogEntry} {m : Message} (hn : w.hist.leader r.term = some n)
    (hp : p <+: w.hist.log r.term) (hpx : p <+: (w.node r.id).log)
    (hty : m.type = .appendResp ∨ m.type = .snapshotResp) (ht : m.term = 0)
    (hk : m.matchIndex = p.length) : Advances M w r (r.send m) := by
  obtain ⟨w', hsteps, hsim, hack⟩ := hs.acknowledge hw hn hp hpx
  refine ⟨w', hsteps, hsim.send ⟨hr.id_ne, ?_⟩⟩
  rw [← hk] at hack
  rcases hty with hty | hty <;> simp only [Holds, stamp, hty] <;> intro _ <;>
    rw [if_pos ht] <;> exact hack

theorem advances_send (hw : Inv M.rules w) (hr : r.Wf) (hs : Sim w.hist r (w.node r.id))
    (hmsg : ∀ m, c = .step m → Valid w.hist m) {m : Message} (hm : Sendable c r m) :
    Advances M w r (r.send m) := by
  have hcovered : ∀ {n}, w.hist.leader r.term = some n →
      (w.node r.id).done <+: w.hist.log r.term := by
    intro n hn
    rw [← hs.term] at hn ⊢
    exact done_prefix_log hw.hist (hw.node r.id) hn
  cases hm with
  | pollReq => exact .none (hs.send ⟨hr.id_ne, nofun⟩)
  | pollResp => exact .none (hs.send ⟨hr.id_ne, nofun⟩)
  | voteReq dest lastTerm hst hlast =>
    rw [RaftLog.lastTerm_eq hs.backs] at hlast
    obtain ⟨hcand, -⟩ := (hw.node r.id).cand (by rw [hs.role, hst]; rfl)
    rw [hs.term] at hcand
    refine .none (hs.send ⟨hr.id_ne, fun _ => ⟨_, ?_, RaftLog.lastIndex_eq hs.backs,
      (Except.ok.inj hlast).symm⟩⟩)
    simpa [stamp] using hcand
  | refuse dest term ht => exact .none (hs.send ⟨hr.id_ne, fun _ h => nomatch h⟩)
  | grant req hc hv =>
    have hne : r.vote ≠ None := hv ▸ (hmsg req hc).sender_ne
    obtain ⟨-, vl, hvote⟩ := hs.vote.resolve_left fun h => hne h.1
    refine .none (hs.send ⟨hr.id_ne, fun _ _ => ⟨hv ▸ hne, vl, ?_⟩⟩)
    simpa [stamp, hv] using hvote
  | append dest pr prevTerm entries readID hpr ht he _ =>
    exact .none (hs.send (valid_append hw hr hs hpr ht he))
  | snapshot dest pr hpr hne => exact .none (hs.send (valid_snapshot hw hr hs hpr))
  | stale dest => exact .none (hs.send ⟨hr.id_ne, fun h => nomatch h⟩)
  | reject req ci ct hc hty ht => exact .none (hs.send ⟨hr.id_ne, fun h => nomatch h⟩)
  | ack req k hc hty ht hk =>
    obtain ⟨-, -, p, hp, hplen, hents, hprev⟩ := (hmsg req hc).appendReq hty
    rw [ht] at hp
    obtain ⟨n, hn⟩ := hp.leader
    rcases hk with rfl | ⟨rfl, hholds⟩
    · exact advances_response hw hr hs hn (hcovered hn) (hw.node r.id).done_le (Or.inl rfl) rfl
        (hs.length_done hr).symm
    · obtain ⟨hmt, hall⟩ := hholds (hp.entries_contiguous hents)
      obtain ⟨-, htake⟩ := hs.take_eq hw hp hplen hents hprev hmt le_rfl (by simpa using hall)
      rw [← hplen, List.take_length] at htake
      exact advances_response hw hr hs hn hp.le (htake ▸ List.take_prefix ..) (Or.inl rfl) rfl
        hplen.symm
  | snapshotAck req hc hty ht =>
    obtain ⟨⟨n, hn⟩, -⟩ := (hmsg req hc).snapshotReq hty
    rw [ht] at hn
    exact advances_response hw hr hs hn (hcovered hn) (hw.node r.id).done_le (Or.inr rfl) rfl
      (hs.length_done hr).symm

/-- Every effect of a call is matched, when the call is given only messages that were sent, and
when the node's configuration counts as its log demands. -/
theorem Effect.advances (he : Effect c r r') (hw : Inv M.rules w) (hr : r.Wf)
    (hs : Sim w.hist r (w.node r.id)) (hmsg : ∀ m, c = .step m → Valid w.hist m)
    (hQ : ∀ g, r.conf.hasQuorum g = true → M.Quorum (w.node r.id).log {v | g v = true})
    (hadm : ∀ e, r.state = .leader → e.term = r.term →
      (e.type = .confChange → ∃ cc, r.Proposes c cc ∧ e.command = cc.encode) →
      M.admits (w.node r.id).log e ∧ (M.isConf e → e.type = .confChange ∧
        Covers M.isConf ((w.node r.id).log.take r.log.committed) (w.node r.id).log)) :
    Advances M w r r' := by
  cases he with
  | adopt m lead hc ht => exact advances_adopt hw hs ht
  | resign lead => exact advances_resign hs lead
  | poll _ hst =>
    refine .one .resign ⟨hs.backs, hs.term, hs.done, rfl, hs.vote, nofun, nofun, nofun, hs.peers,
      hs.msgs⟩
  | stand _ hst => exact advances_stand hw hr hs
  | tally sender granted hv hg hst => exact advances_tally hs hmsg hg
  | grant m hc hty hpre ht hcan hup => exact advances_grant hw hs (hmsg m hc) hty hpre ht hcan hup
  | lead hst hq =>
    refine advances_lead hw hs hst ?_
    simpa using hQ _ hq
  | extend e _ hst ht hi hcc =>
    obtain ⟨hadm, hconf⟩ := hadm e hst ht hcc
    refine advances_extend hw hr hs hst ht hi hadm fun hic => ?_
    obtain ⟨hty, hcov⟩ := hconf hic
    obtain ⟨cc, hprop, -⟩ := hcc hty
    obtain ⟨hne, hlast⟩ := hs.done_of_current hr hprop.committed
    exact ⟨hne, hlast, hs.done ▸ hcov⟩
  | ownMatch p hp =>
    refine .none (hs.setPeer (Or.inr ?_))
    simp only [RaftLog.lastIndex_eq hs.backs]
    exact hs.self (hr.leader_of_peer hp)
  | setMatch m p hc hty hsucc ht hp hlt =>
    have := (hmsg m hc).response hty hsucc
    rw [ht] at this
    exact .none (hs.setPeer (Or.inr this))
  | setNext id p p' hp hm hn _ _ =>
    refine .none (hs.setPeer ?_)
    rw [hm]
    exact hs.peers id p hp
  | commit i hst hi hlt hle ht =>
    subst hi
    refine advances_commit hw hr hs hst hlt hle ht ?_
    simpa using hQ _ (Configuration.hasQuorum_committedIndex (by omega))
  | follow m l committed hc hty ht hst hcp hmt hsp hle hcm =>
    exact advances_follow hw hr hs (hmsg m hc) hty ht hst hcp hmt hsp hle hcm
  | restore m snap mem hc hty ht hst hsn hlt hsave =>
    exact advances_restore hw hr hs (hmsg m hc) hty ht hst hsn hlt hsave
  | send m hm => exact advances_send hw hr hs hmsg hm
  | saveSnapshot data term mem hc ht h0 hsave =>
    obtain ⟨hle, hterm⟩ := RaftLog.term_eq hs.backs ht
    obtain ⟨-, -, hsnap, -⟩ := RaftLog.saveSnapshot_ok hsave
    have hb := hs.backs.save (RaftLog.saveSnapshot_own h0 ht hsave) (by rw [hsnap]; exact hle)
      (by rw [hsnap]; exact hterm)
    exact .none ⟨hb, hs.term, hs.done, hs.role, hs.vote, hs.stood, hs.votes, hs.self, hs.peers,
      hs.msgs⟩
  | compact upto mem data hc hu _ hcm =>
    exact .none ⟨hs.backs.compact hr.log.inOrder hcm, hs.term, hs.done, hs.role, hs.vote, hs.stood,
      hs.votes, hs.self, hs.peers, hs.msgs⟩
  | persist =>
    exact .none ⟨hs.backs.congr rfl rfl rfl, hs.term, hs.done, hs.role, hs.vote, hs.stood,
      hs.votes, hs.self, hs.peers, hs.msgs⟩
  | drain =>
    exact .none ⟨hs.backs, hs.term, hs.done, hs.role, hs.vote, hs.stood, hs.votes, hs.self,
      hs.peers, nofun⟩
  | _ =>
    exact .none ⟨hs.backs, hs.term, hs.done, hs.role, hs.vote, hs.stood, hs.votes, hs.self,
      hs.peers, hs.msgs⟩

end Effects

end RaftStore.Raft
