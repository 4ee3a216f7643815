import RaftStore.Raft.Safety
import RaftStore.Raft.StrawPoll

/-! Whose answers a straw poll counts.  A granted pre-vote carries the term that was asked for, one
above the asking node's own.  When the node itself has reached that term in the meantime, a late copy
of the grant is of its own term, and is counted in its next poll. -/

namespace RaftStore.Raft

open Lib RawNode

/-- A request by `n` for a pre-vote of `p` in a term. -/
def Message.AsksPreVote (m : Message) (n p : NodeID) (term : ℕ) : Prop :=
  m.type = .voteReq ∧ m.preVote = true ∧ m.sender = n ∧ (m.dest = p ∨ m.dest = None) ∧
    m.term = term

/-- A pre-vote that `p` grants to `n` for a term. -/
def Message.GrantsPreVote (m : Message) (p n : NodeID) (term : ℕ) : Prop :=
  m.type = .voteResp ∧ m.preVote = true ∧ m.granted = true ∧ m.sender = p ∧ m.dest = n ∧
    m.term = term

instance (m : Message) (p n : NodeID) (term : ℕ) : Decidable (m.GrantsPreVote p n term) :=
  inferInstanceAs (Decidable (_ ∧ _))

namespace Cluster

/-- The node `n` asked `p` for a pre-vote in the term, and `p` granted it. -/
def Encouraged (c : Cluster) (n p : NodeID) (term : ℕ) : Prop :=
  ∃ req ∈ c.net, ∃ resp ∈ c.net, req.AsksPreVote n p term ∧ resp.GrantsPreVote p n term

/-- Drivers that deliver only what was sent, and call anything else. -/
def honestCalls (c : Cluster) (_ : NodeID) : Call → Prop
  | .step m => m ∈ c.net
  | _ => True

instance (c : Cluster) (n : NodeID) : ∀ k, Decidable (honestCalls c n k)
  | .step m => inferInstanceAs (Decidable (m ∈ c.net))
  | .proposeConfChange _ | .tick | .propose _ | .readIndex _ | .readStates | .messages | .applyTo _
  | .createSnapshot _ | .snapshotToApply | .campaign => inferInstanceAs (Decidable True)

end Cluster

/-! ### One node -/

section

variable {net net' : List Message} {k : Call} {r r' : RawNode} {m : Message} {t t' : ℕ}

/-- What a message about a straw poll says, when its sender is in term `t`: no request is more than a
term ahead, and a grant repeats the term of a request. -/
structure PollWord (net : List Message) (t : ℕ) (m : Message) : Prop where
  asks : m.type = .voteReq → m.preVote = true → m.term ≤ t + 1
  grants : m.type = .voteResp → m.preVote = true → m.granted = true →
    ∃ req ∈ net, req.AsksPreVote m.dest m.sender m.term

theorem PollWord.mono (h : PollWord net t m) (hnet : net ⊆ net') (ht : t ≤ t') :
    PollWord net' t' m where
  asks hty hp := (h.asks hty hp).trans (Nat.succ_le_succ ht)
  grants hty hp hg := by
    obtain ⟨req, hreq, hasks⟩ := h.grants hty hp hg
    exact ⟨req, hnet hreq, hasks⟩

theorem pollWord_of_sendable (hdel : ∀ m, k = .step m → m ∈ net) (h : Sendable k r m) :
    PollWord net r.term (r.stamp m) := by
  cases h with
  | pollReq dest lastTerm => exact ⟨fun _ _ => le_rfl, nofun⟩
  | pollResp req term granted hk hty hp hd hgrant =>
    refine ⟨nofun, fun _ _ hg => ⟨req, hdel req hk, hty, hp, rfl, hd, ?_⟩⟩
    obtain ⟨rfl, hlt⟩ := hgrant hg
    exact (if_neg (show ¬ req.term = 0 by omega)).symm
  | _ => exact ⟨nofun, nofun⟩

/-- The outbox of a node, and the grants that its poll has counted. -/
structure PollBook (net : List Message) (r : RawNode) : Prop where
  msgs : ∀ m ∈ r.msgs, m.sender = r.id ∧ PollWord net r.term m
  table : r.state = .preCandidate → ∀ p, p ≠ r.id → r.votes p = some true →
    ∃ resp ∈ net, resp.type = .voteResp ∧ resp.preVote = true ∧ resp.granted = true ∧
      resp.sender = p ∧ (resp.dest = r.id ∨ resp.dest = None) ∧ r.term ≤ resp.term

theorem PollBook.mono (h : PollBook net r) (hnet : net ⊆ net') : PollBook net' r where
  msgs m hm := ⟨(h.msgs m hm).1, (h.msgs m hm).2.mono hnet le_rfl⟩
  table hs p hp hv := by
    obtain ⟨resp, hresp, hsays⟩ := h.table hs p hp hv
    exact ⟨resp, hnet hresp, hsays⟩

theorem PollBook.effect (h : PollBook net r) (hdel : ∀ m, k = .step m → m ∈ net)
    (he : Effect k r r') : PollBook net r' where
  msgs m hm := by
    have hsent := he.outbox.msgs h.msgs fun m hm => ⟨rfl, pollWord_of_sendable hdel hm⟩
    rw [he.id_eq]
    exact ⟨(hsent m hm).1, (hsent m hm).2.mono (List.Subset.refl net) he.term_le⟩
  table hs p hp hv := by
    rw [he.id_eq] at hp ⊢
    cases he.pollChange with
    | same hs' ht hv' =>
      rw [ht]
      exact h.table (hs' ▸ hs) p hp (hv' ▸ hv)
    | ended hs' => exact absurd hs hs'
    | opened _ _ hv' =>
      rw [hv'] at hv
      exact nomatch hv
    | counted sender granted hs' ht _ hv' hg =>
      rw [ht]
      by_cases hps : p = sender
      · -- The answer that this call delivers.
        subst hps
        rw [hv', Function.update_self] at hv
        obtain rfl : granted = true := Option.some.inj hv
        rcases hg with ⟨-, hself, -⟩ | ⟨m, hk, hty, hsender, hgr, hd, ⟨hcand, -⟩ | ⟨-, hpv, hle⟩⟩
        · exact absurd hself hp
        · rw [hs', hcand] at hs
          exact nomatch hs
        · exact ⟨m, hdel m hk, hty, hpv, hgr, hsender, hd, hle⟩
      · rw [hv', Function.update_of_ne hps] at hv
        exact h.table (hs' ▸ hs) p hp hv

theorem PollBook.start {cfg : Config} {st : MemoryStorage} (h : new cfg { mem := st } = .ok r) :
    PollBook net r where
  msgs m hm := by
    rw [(started_of_new h).msgs] at hm
    exact nomatch hm
  table hs := by
    rw [(started_of_new h).state] at hs
    exact nomatch hs

end

/-! ### The cluster -/

namespace Cluster

variable {boot : Configuration} {c c' : Cluster} {n : NodeID} {a : Act}

/-- Every node's outbox and poll, and every message about a poll, are in order. -/
structure PollsKept (c : Cluster) : Prop where
  ok : ∀ n, (c.slot n).OK
  slot : ∀ n, (c.slot n).Sat (fun r => r.id = n ∧ PollBook c.net r) fun _ => True
  net : ∀ m ∈ c.net, m.sender ≠ None ∧ PollWord c.net (c.slot m.sender).term m

theorem PollsKept.start : PollsKept {} where
  ok _ := MemoryStorage.OK.empty
  slot _ := trivial
  net := nofun

/-- The node that acts keeps its book and does not go back to an earlier term. -/
theorem PollsKept.act_slot (h : PollsKept c) (hp : c.Permits boot honestCalls n a) :
    ((c.slot n).act a).Sat (fun r => (r.id = n ∧ PollBook c.net r) ∧ (c.slot n).term ≤ r.term)
      fun st => (c.slot n).term ≤ st.hardState.term := by
  refine Slot.Sat.act ?_ (h.ok n) ?_ ?_ ?_
  · have hs := h.slot n
    cases hslot : c.slot n with
    | down st => exact le_rfl
    | up r =>
      rw [hslot] at hs
      exact ⟨hs, le_rfl⟩
  · rintro r₀ k faults hslot rfl - r r' - - ⟨⟨hid, hbook⟩, hle⟩ he
    have hdel : ∀ m, k = .step m → m ∈ c.net := by
      rintro m rfl
      exact hp
    exact ⟨⟨he.id_eq.trans hid, hbook.effect hdel he⟩, hle.trans he.term_le⟩
  · rintro r hr ⟨-, hle⟩
    rw [hr.term_eq]
    exact hle
  · rintro cfg st r hslot rfl - hle hnew
    have hr := started_of_new hnew
    exact ⟨⟨hr.id.trans hp.1, .start hnew⟩, by rw [hr.term]; exact hle⟩

theorem PollsKept.act (h : PollsKept c) (hp : c.Permits boot honestCalls n a) :
    PollsKept (c.act n a) := by
  have hact := h.act_slot hp
  have hnet : c.net ⊆ (c.act n a).net := List.subset_append_left _ _
  have hterm : ∀ u, (c.slot u).term ≤ ((c.act n a).slot u).term := by
    refine forall_slot_act (P := fun u s => (c.slot u).term ≤ s.term).mpr ⟨?_, fun u _ => le_rfl⟩
    cases hs : (c.slot n).act a with
    | down st => rw [hs] at hact; exact hact
    | up r => rw [hs] at hact; exact hact.2
  refine ⟨forall_slot_act.mpr ⟨(h.ok n).act a, fun u _ => h.ok u⟩,
    forall_slot_act.mpr ⟨?_, fun u _ => ?_⟩, fun m hm => ?_⟩
  · cases hs : (c.slot n).act a with
    | down st => trivial
    | up r =>
      rw [hs] at hact
      exact ⟨hact.1.1, hact.1.2.mono hnet⟩
  · have hs := h.slot u
    cases hslot : c.slot u with
    | down st => trivial
    | up r =>
      rw [hslot] at hs
      exact ⟨hs.1, hs.2.mono hnet⟩
  · rcases List.mem_append.mp hm with hm | hm
    · obtain ⟨hid, hword⟩ := h.net m hm
      exact ⟨hid, hword.mono hnet (hterm _)⟩
    · obtain ⟨r, faults, hslot, -, hmem⟩ := mem_released hm
      have hs := h.slot n
      have hok := h.ok n
      have hle := hterm n
      rw [hslot] at hs hok hle
      obtain ⟨hsender, hword⟩ := hs.2.msgs m hmem
      refine ⟨by rw [hsender]; exact hok.id_ne, ?_⟩
      rw [hsender, hs.1]
      exact hword.mono hnet hle

theorem PollsKept.run (h : PollsKept c) (hrun : Run boot honestCalls c c') : PollsKept c' := by
  induction hrun with
  | refl => exact h
  | tail _ hstep ih =>
    obtain ⟨n, a, hp, rfl⟩ := hstep
    exact ih.act hp

/-- A pre-vote is granted to who asked for it. -/
theorem PollsKept.dest_ne (h : PollsKept c) {m : Message} (hm : m ∈ c.net) (hty : m.type = .voteResp)
    (hp : m.preVote = true) (hg : m.granted = true) : m.dest ≠ None := by
  obtain ⟨req, hreq, -, -, hsender, -⟩ := (h.net m hm).2.grants hty hp hg
  exact hsender ▸ (h.net req hreq).1

/-- A grant answers a request of this node, for no term after the next. -/
theorem PollsKept.encouraged (h : PollsKept c) {r : RawNode} (hr : c.node? n = some r) {p : NodeID}
    {term : ℕ} {resp : Message} (hresp : resp ∈ c.net) (hg : resp.GrantsPreVote p n term) :
    term ≤ r.term + 1 ∧ c.Encouraged n p term := by
  obtain ⟨hty, hpv, hgr, rfl, rfl, rfl⟩ := hg
  obtain ⟨req, hreq, hasks⟩ := (h.net resp hresp).2.grants hty hpv hgr
  have hbound := (h.net req hreq).2.asks hasks.1 hasks.2.1
  rw [hasks.2.2.1, node?_eq_some.mp hr, hasks.2.2.2.2] at hbound
  exact ⟨hbound, req, hreq, resp, hresp, hasks, hty, hpv, hgr, rfl, rfl, rfl⟩

/-- A grant that a poll has counted answers a request of this node, for the next term or for the term
it is in. -/
theorem PollsKept.counted (h : PollsKept c) {r : RawNode} (hr : c.node? n = some r)
    (hs : r.state = .preCandidate) {p : NodeID} (hp : p ≠ n) (hv : r.votes p = some true) :
    ∃ term, (term = r.term ∨ term = r.term + 1) ∧ c.Encouraged n p term := by
  have hup := h.slot n
  rw [node?_eq_some.mp hr] at hup
  obtain ⟨rfl, hbook⟩ := hup
  obtain ⟨resp, hresp, hty, hpv, hg, hsender, hd, hle⟩ := hbook.table hs p hp hv
  have hdest : resp.dest = r.id := hd.resolve_right (h.dest_ne hresp hty hpv hg)
  obtain ⟨hbound, henc⟩ := h.encouraged hr hresp ⟨hty, hpv, hg, hsender, hdest, rfl⟩
  exact ⟨resp.term, by omega, henc⟩

/-! ### Grants that come late -/

/-- The message is a grant of `p` for the term that `n` is in, while `n` polls for the next one and
still waits for an answer of `p`. -/
def Late (c : Cluster) (n p : NodeID) (m : Message) : Prop :=
  ∃ r ∈ c.node? n, r.state = .preCandidate ∧ r.votes p = none ∧ m.GrantsPreVote p n r.term

instance (c : Cluster) (n p : NodeID) (m : Message) : Decidable (c.Late n p m) :=
  inferInstanceAs (Decidable (∃ r ∈ c.node? n, _ ∧ _ ∧ _))

/-- Drivers that deliver only what was sent, and to `n` no grant of `p` that comes late. -/
def promptCalls (n p : NodeID) (c : Cluster) (u : NodeID) : Call → Prop
  | .step m => m ∈ c.net ∧ (u = n → ¬c.Late n p m)
  | _ => True

instance (n p : NodeID) (c : Cluster) (u : NodeID) : ∀ k, Decidable (promptCalls n p c u k)
  | .step m => inferInstanceAs (Decidable (m ∈ c.net ∧ (u = n → ¬c.Late n p m)))
  | .proposeConfChange _ | .tick | .propose _ | .readIndex _ | .readStates | .messages | .applyTo _
  | .createSnapshot _ | .snapshotToApply | .campaign => inferInstanceAs (Decidable True)

theorem permits_honest {n p u : NodeID} (h : c.Permits boot (promptCalls n p) u a) :
    c.Permits boot honestCalls u a := by
  cases a with
  | call k faults =>
    cases k with
    | step m => exact h.1
    | _ => trivial
  | _ => exact h

/-- The poll of `n` counts a grant of `p`. -/
def Counts (c : Cluster) (n p : NodeID) : Prop :=
  ∃ r, c.node? n = some r ∧ r.state = .preCandidate ∧ r.votes p = some true

/-- What the poll of `n` has counted of `p` is a grant for a later term than `n`'s own. -/
def CountsAhead (net : List Message) (p : NodeID) (r : RawNode) : Prop :=
  r.state = .preCandidate → r.votes p = some true →
    ∃ resp ∈ net, resp.GrantsPreVote p r.id resp.term ∧ r.term < resp.term

theorem CountsAhead.mono {net net' : List Message} {p : NodeID} {r : RawNode}
    (h : CountsAhead net p r) (hnet : net ⊆ net') : CountsAhead net' p r := by
  intro hs hv
  obtain ⟨resp, hresp, hsays⟩ := h hs hv
  exact ⟨resp, hnet hresp, hsays⟩

/-- In a call that delivers no late grant of `p`, the poll counts none. -/
theorem CountsAhead.effect {k : Call} {p : NodeID} {r₀ r r' : RawNode} (h : CountsAhead c.net p r)
    (hp : p ≠ r₀.id) (hk : PollsKept c) (hr₀ : c.node? r₀.id = some r₀)
    (hcall : promptCalls r₀.id p c r₀.id k) (hreach : Reach k r₀ r) (he : Effect k r r') :
    CountsAhead c.net p r' := by
  intro hs hv
  have hid : r.id = r₀.id := hreach.id_eq
  rw [he.id_eq]
  cases he.pollChange with
  | same hs' ht hv' =>
    rw [ht]
    exact h (hs' ▸ hs) (hv' ▸ hv)
  | ended hs' => exact absurd hs hs'
  | opened _ _ hv' =>
    rw [hv'] at hv
    cases hv
  | counted sender granted hs' ht hnone hv' hg =>
    rw [ht]
    by_cases hps : p = sender
    · subst hps
      rw [hv', Function.update_self] at hv
      obtain rfl : granted = true := Option.some.inj hv
      rcases hg with ⟨-, hself, -⟩ | ⟨m, rfl, hty, hsender, hgr, hd, ⟨hcand, -⟩ | ⟨hpoll, hpv, hle⟩⟩
      · exact absurd (hself.trans hid) hp
      · rw [hs', hcand] at hs
        cases hs
      · -- The node waited for this answer when the call began, so the grant is not late.
        obtain ⟨hs₀, hv₀, ht₀⟩ := hreach.waits rfl hpoll hnone
        have hdest : m.dest = r.id := hd.resolve_right (hk.dest_ne hcall.1 hty hpv hgr)
        refine ⟨m, hcall.1, ⟨hty, hpv, hgr, hsender, hdest, rfl⟩, lt_of_le_of_ne hle fun heq => ?_⟩
        exact hcall.2 rfl ⟨r₀, hr₀, hs₀, hv₀, hty, hpv, hgr, hsender, hdest.trans hid,
          (ht₀.symm.trans heq).symm⟩
    · rw [hv', Function.update_of_ne hps] at hv
      exact h (hs' ▸ hs) hv

/-- The polls are kept, and the poll of `n` has counted no grant of `p` that came late. -/
structure Prompt (n p : NodeID) (c : Cluster) : Prop where
  kept : PollsKept c
  ahead : (c.slot n).Sat (CountsAhead c.net p) fun _ => True

theorem Prompt.act {p u : NodeID} (h : Prompt n p c) (hp : p ≠ n)
    (hperm : c.Permits boot (promptCalls n p) u a) : Prompt n p (c.act u a) := by
  have hnet : c.net ⊆ (c.act u a).net := List.subset_append_left _ _
  refine ⟨h.kept.act (permits_honest hperm), ?_⟩
  have hslot : ((c.act u a).slot n).Sat (CountsAhead c.net p) fun _ => True := by
    by_cases hu : n = u
    · subst hu
      rw [show (c.act n a).slot n = (c.slot n).act a from Function.update_self ..]
      refine h.ahead.act (h.kept.ok n) ?_ (fun _ _ _ => trivial) ?_
      · rintro r₀ k faults hslot rfl - r r' hreach - hahead he
        have hid := h.kept.slot n
        rw [hslot] at hid
        obtain ⟨rfl, -⟩ := hid
        exact hahead.effect hp h.kept (node?_eq_some.mpr hslot) hperm hreach he
      · rintro cfg st r - - - - hnew hs
        rw [(started_of_new hnew).state] at hs
        cases hs
    · rw [show (c.act u a).slot n = c.slot n from Function.update_of_ne hu ..]
      exact h.ahead
  cases hs : (c.act u a).slot n with
  | down st => trivial
  | up r =>
    rw [hs] at hslot
    exact CountsAhead.mono hslot hnet

theorem Prompt.run {p : NodeID} (h : Prompt n p c) (hp : p ≠ n)
    (hrun : Run boot (promptCalls n p) c c') : Prompt n p c' := by
  induction hrun with
  | refl => exact h
  | tail _ hstep ih =>
    obtain ⟨u, a, hperm, rfl⟩ := hstep
    exact ih.act hp hperm

/-- What a pre-candidate counts answers a request of its own, for the next term or for the term it is
in; and it answers the poll that is running if, since a moment when the poll had counted nothing of
the peer, no grant of the peer has come late. -/
theorem poll_counts_current_answers (boot : Configuration) {c₀ c : Cluster} {n p : NodeID}
    (hrun₀ : Run boot honestCalls {} c₀) (hcounts : ¬c₀.Counts n p)
    (hrun : Run boot honestCalls c₀ c) {r : RawNode} (hr : c.node? n = some r)
    (hs : r.state = .preCandidate) (hp : p ≠ n) (hv : r.votes p = some true) :
    (∃ term, (term = r.term ∨ term = r.term + 1) ∧ c.Encouraged n p term) ∧
      (Run boot (promptCalls n p) c₀ c → c.Encouraged n p (r.term + 1)) := by
  have hkept₀ : PollsKept c₀ := PollsKept.start.run hrun₀
  have hkept : PollsKept c := hkept₀.run hrun
  refine ⟨hkept.counted hr hs hp hv, fun hprompt => ?_⟩
  have hstart : Prompt n p c₀ := by
    refine ⟨hkept₀, ?_⟩
    cases hslot : c₀.slot n with
    | down st => trivial
    | up r₀ => exact fun hs hv => absurd ⟨r₀, node?_eq_some.mpr hslot, hs, hv⟩ hcounts
  have hahead := (hstart.run hp hprompt).ahead
  have hid := hkept.slot n
  rw [node?_eq_some.mp hr] at hahead hid
  obtain ⟨rfl, -⟩ := hid
  obtain ⟨resp, hresp, hgrants, hlt⟩ := hahead hs hv
  obtain ⟨hle, henc⟩ := hkept.encouraged hr hresp hgrants
  have hterm : resp.term = r.term + 1 := by omega
  exact hterm ▸ henc

/-- Four voters, of whom three are a quorum. -/
def quartet : Configuration := { voters := [1, 2, 3, 4] }

def quartetConfig (id : NodeID) : Config :=
  { id, electionTick := 2, heartbeatTick := 1, preVote := true, bootstrap := quartet }

/-- The first of the four polls for term 1, the second and the third encourage it, and it stands in
term 1, hears nothing and polls for term 2. -/
def secondPoll : List Event :=
  [.act 1 (.start (quartetConfig 1)), .act 2 (.start (quartetConfig 2)),
   .act 3 (.start (quartetConfig 3)), .act 1 (.call .tick []), .act 1 (.call .tick []),
   .act 1 (.call .messages []), .deliver 2 0, .act 2 (.call .messages []), .deliver 1 3,
   .deliver 3 1, .act 3 (.call .messages []), .deliver 1 4, .act 1 (.call .tick []),
   .act 1 (.call .tick []), .act 1 (.call .messages [])]

/-- The second answers this poll as well. -/
def encouragedAgain : List Event := [.deliver 2 8, .act 2 (.call .messages []), .deliver 1 11]

/-- The earlier grant of the second is still under way. -/
theorem poll_counts_current_answers_quartet :
    ∃ (c : Cluster) (r : RawNode), c.node? 1 = some r ∧ r.state = .preCandidate ∧ r.term = 1 ∧
      r.votes 2 = some true ∧
      (∃ m ∈ c.net, m.GrantsPreVote 2 1 r.term) ∧ c.Encouraged 1 2 (r.term + 1) := by
  obtain ⟨r, hr, ht⟩ := exists_node
    (c := ({} : Cluster).plays (secondPoll ++ encouragedAgain)) (n := 1)
    (fun r => r.state = .preCandidate ∧ r.votes 2 = some true ∧ r.term = 1) (by decide +kernel)
  simp only [decide_eq_true_eq] at ht
  obtain ⟨hs, hv, hterm⟩ := ht
  refine ⟨_, r, hr, hs, hterm, hv, ?_, (poll_counts_current_answers quartet .refl ?_
    (run_plays (by decide +kernel)) hr hs (by decide) hv).2 (run_plays (by decide +kernel))⟩
  · rw [hterm]
    decide +kernel
  · rintro ⟨r, ⟨⟩, -⟩

/-- A grant for the term that the node has reached since is counted in its poll for the next one. -/
theorem late_grant_counted :
    ∃ c r, Run quartet honestCalls {} c ∧ c.node? 1 = some r ∧ r.cfg.preVote = true ∧
      r.state = .preCandidate ∧ r.term = 1 ∧ r.votes 2 = some true ∧
      ∀ m ∈ c.net, ¬ m.GrantsPreVote 2 1 (r.term + 1) := by
  obtain ⟨r, hr, ht⟩ := exists_node (c := ({} : Cluster).plays (secondPoll ++ [.deliver 1 3])) (n := 1)
    (fun r => r.cfg.preVote = true ∧ r.state = .preCandidate ∧ r.term = 1 ∧ r.votes 2 = some true)
    (by decide +kernel)
  simp only [decide_eq_true_eq] at ht
  obtain ⟨hp, hs, hterm, hv⟩ := ht
  refine ⟨_, r, run_plays (by decide +kernel), hr, hp, hs, hterm, hv, ?_⟩
  rw [hterm]
  decide +kernel

end Cluster

end RaftStore.Raft
