import RaftStore.Raft.Addressees
import RaftStore.Raft.NeverFails

/-! A cluster hosted by one program.  The nodes draw from one source of random numbers, so a node may
find it at another place each time it is called.  What a run of the protocol guarantees does not
depend on what is drawn. -/

namespace RaftStore.Raft

open Consensus RawNode Cluster

/-- The node with another source of random numbers, at its `k`-th number. -/
def RawNode.reseed (r : RawNode) (rand : ℕ → ℕ) (k : ℕ) : RawNode :=
  { r with cfg := { r.cfg with rand }, draws := k }

section

variable {r r' : RawNode} {rand : ℕ → ℕ} {k : ℕ} {boot : Configuration}

theorem RawNode.Wf.reseed (h : r.Wf) : (r.reseed rand k).Wf :=
  ⟨h.id_ne, h.log, h.synced, h.term_eq, h.vote_eq, h.commit_le, h.lead_self, h.tracked, h.next_pos,
    h.reads⟩

theorem Sim.reseed {H : Past} {x : Node LogEntry} (h : Sim H r x) : Sim H (r.reseed rand k) x :=
  ⟨h.backs, h.term, h.done, h.role, h.vote, h.stood, h.votes, h.self, h.peers, h.msgs⟩

theorem FixedNode.reseed (h : FixedNode boot r) : FixedNode boot (r.reseed rand k) :=
  ⟨h.conf, h.bootstrap, h.disk, h.msgs⟩

theorem Ledger.reseed (h : Ledger r) : Ledger (r.reseed rand k) := ⟨h.bounds, h.isSome, h.members⟩

theorem Mannered.reseed (h : Mannered boot r) : Mannered boot (r.reseed rand k) :=
  ⟨⟨h.mailing.tracks, h.mailing.sender, h.mailing.requests⟩, h.between,
    fun hid => ⟨(h.idle hid).state, (h.idle hid).msgs⟩⟩

end

/-- What drivers may call depends on what was sent. -/
theorem Cluster.fixedCalls_of_net {c c' : Cluster} {n : NodeID} {k : Call} (h : c'.net = c.net)
    (hk : fixedCalls c n k) : fixedCalls c' n k := by
  cases k with
  | step m =>
    change m ∈ c'.net
    rw [h]
    exact hk
  | proposeConfChange => exact hk
  | _ => trivial

/-- A refusal does not stop the process. -/
theorem Call.stops_of_refusal {c : Call} {e : Error} {s : Sentinel} (hs : s ∈ c.refusals)
    (he : e.wraps = [s]) : c.stops (.error e) = false := by
  cases c with
  | tick => cases hs
  | step m =>
    rw [List.mem_singleton.mp hs] at he
    rw [Call.stops, Error.is, he]
    rfl
  | campaign => cases hs
  | _ => rfl

/-- The nodes in their places and what has been sent, as a state of the protocol.  Only voters
campaign, leaders keep account of their peers, and members write to members. -/
structure Hosted (boot : Configuration) (hn : boot.Normalized) (hs : boot.Sized)
    (slot : NodeID → Slot) (net : List Message) (w : World NodeID LogEntry) : Prop where
  refines : Refines (fixed boot hn hs) { slot, net } w
  ledger : ∀ n, (slot n).Sat Ledger fun _ => True
  standing : ∀ n, (slot n).Sat
    (fun r => r.state = .candidate ∨ r.state = .preCandidate → r.promotable = true) fun _ => True
  manners : ({ slot, net } : Cluster).Mannerly boot

namespace Hosted

variable {boot : Configuration} {hn : boot.Normalized} {hs : boot.Sized} {slot : NodeID → Slot}
  {net : List Message} {w : World NodeID LogEntry} {n : NodeID} {r r' : RawNode} {c : Call}

/-- Before anything is started. -/
theorem init : Hosted boot hn hs (fun _ => .down {}) [] World.start where
  refines := Refines.start _
  ledger _ := trivial
  standing _ := trivial
  manners := ⟨fun _ => trivial, nofun⟩

theorem up (h : Hosted boot hn hs slot net w) (hr : slot n = .up r) :
    r.id = n ∧ r.Wf ∧ FixedNode boot r ∧ Sim w.hist r (w.node n) :=
  h.refines.up (c := { slot, net }) (node?_eq_some.mpr hr)

/-- Anything that can happen to a node. -/
theorem act (hnone : None ∉ boot.members) (h : Hosted boot hn hs slot net w) {a : Act}
    (hp : Cluster.Permits boot fixedCalls { slot, net } n a) :
    ∃ w', Later w w' ∧ Hosted boot hn hs (Function.update slot n ((slot n).act a))
      (net ++ Cluster.released (slot n) a) w' := by
  obtain ⟨w', hl, hw'⟩ := h.refines.step ⟨n, a, hp, rfl⟩
  have hledger := ((fixed boot hn hs).keeps_ledger n).act h.refines hp (h.ledger n)
  have hstanding := (fixed_keeps_standing hn hs n).act h.refines hp (h.standing n)
  have hmanners := h.manners.act hnone h.refines hp
  refine ⟨w', hl, ⟨hw'.inv, hw'.slot, hw'.net⟩, ?_, ?_, ⟨hmanners.slot, hmanners.net⟩⟩
  · exact Function.forall_update_iff slot _ |>.mpr ⟨hledger, fun u _ => h.ledger u⟩
  · exact Function.forall_update_iff slot _ |>.mpr ⟨hstanding, fun u _ => h.standing u⟩

theorem reseed (h : Hosted boot hn hs slot net w) (hr : slot n = .up r) (rand : ℕ → ℕ) (k : ℕ) :
    Hosted boot hn hs (Function.update slot n (.up (r.reseed rand k))) net w := by
  have hslot := h.refines.slot n
  have hledger := h.ledger n
  have hstanding := h.standing n
  have hmanners := h.manners.slot n
  simp only [hr] at hslot hledger hstanding hmanners
  obtain ⟨hid, hwf, hfix, hsim⟩ := hslot
  refine ⟨⟨h.refines.inv, ?_, h.refines.net⟩, ?_, ?_, ⟨?_, h.manners.net⟩⟩
  · refine Function.forall_update_iff slot _ |>.mpr ⟨?_, fun u _ => h.refines.slot u⟩
    exact ⟨hid, hwf.reseed, FixedNode.reseed hfix, hsim.reseed⟩
  · exact Function.forall_update_iff slot _ |>.mpr ⟨Ledger.reseed hledger, fun u _ => h.ledger u⟩
  · exact Function.forall_update_iff slot _ |>.mpr ⟨hstanding, fun u _ => h.standing u⟩
  · exact Function.forall_update_iff slot _ |>.mpr
      ⟨Mannered.reseed hmanners, fun u _ => h.manners.slot u⟩

theorem fit (h : Hosted boot hn hs slot net w) (hr : slot n = .up r)
    (hc : fixedCalls { slot, net } n c) : Fit boot hn c r := by
  have hledger := h.ledger n
  have hstanding := h.standing n
  simp only [hr] at hledger hstanding
  obtain ⟨rfl, hwf, hfix, hsim⟩ := h.up hr
  refine ⟨⟨_, hc⟩, hwf, hfix, hledger, hstanding, w, h.refines.inv, hsim, ?_⟩
  rintro m rfl
  exact h.refines.net m hc

/-- The node as it is called: with another source, and a storage that does not fail. -/
def ready (r : RawNode) (rand : ℕ → ℕ) : RawNode := (r.reseed rand 0).withFaults []

/-- A call that is not a campaign, and applies nothing that is not committed, fails only where it is
refused. -/
theorem onlyFails (h : Hosted boot hn hs slot net w) (hr : slot n = .up r) (rand : ℕ → ℕ)
    (hc : fixedCalls { slot, net } n c) (hcamp : c ≠ .campaign)
    (happly : ∀ i, c = .applyTo i → i ≤ r.log.committed) :
    OnlyFails (Fail.Wraps c.refusals) c.run (ready r rand) := by
  have hfit := (h.reseed hr rand 0).fit (Function.update_self ..)
    (fixedCalls_of_net (c := { slot, net }) (n := n) rfl hc)
  exact onlyFails_run hs (hfit.reach hs (reach_withFaults _ [])) (faultsLeft_withFaults (by simp))
    (fun h => absurd h hcamp) happly

/-- What a call can return: a result or a refusal. -/
def Returns (c : Call) (r r' : RawNode) : Prop :=
  c.run r = .ok () r' ∨
    ∃ e s, c.run r = .error (.error e) r' ∧ s ∈ c.refusals ∧ e.wraps = [s]

theorem ready_wf (hr : r.Wf) (rand : ℕ → ℕ) : (ready r rand).Wf :=
  Reach.wf (reach_withFaults (c := .tick) _ []) hr.reseed

theorem Returns.reach (h : Returns c r r') (hr : r.Wf) : Reach c r r' := by
  have hrun := c.meets_run hr
  rcases h with h | ⟨e, s, h, hs, he⟩
  · exact hrun.ok h
  · have := hrun.error h
    rwa [Call.stops_of_refusal hs he, if_neg Bool.false_ne_true] at this

/-- A call on a hosted node. -/
theorem call (hnone : None ∉ boot.members) (h : Hosted boot hn hs slot net w) (hr : slot n = .up r) {rand : ℕ → ℕ}
    (hc : fixedCalls { slot, net } n c) (hrun : Returns c (ready r rand) r') :
    ∃ w', Later w w' ∧ Hosted boot hn hs (Function.update slot n (.up r'))
      (net ++ Cluster.released (.up (r.reseed rand 0)) (.call c [])) w' := by
  have h₀ := h.reseed hr rand 0
  obtain ⟨w', hl, hw'⟩ := h₀.act hnone (n := n) (a := .call c [])
    (fixedCalls_of_net (c := { slot, net }) (n := n) rfl hc)
  refine ⟨w', hl, ?_⟩
  have hslot : (Slot.up (r.reseed rand 0)).act (.call c []) = .up r' := by
    change Slot.after c (c.run (ready r rand)) = .up r'
    rcases hrun with hrun | ⟨e, s, hrun, hs, he⟩
    · rw [hrun]
      rfl
    · rw [hrun, Slot.after, if_neg]
      rw [Call.stops_of_refusal hs he]
      exact Bool.false_ne_true
  rwa [Function.update_self, Function.update_idem, hslot] at hw'

theorem crash (hnone : None ∉ boot.members) (h : Hosted boot hn hs slot net w) (hr : slot n = .up r) :
    ∃ w', Later w w' ∧ Hosted boot hn hs (Function.update slot n (.down r.log.mem)) net w' := by
  obtain ⟨w', hl, hw'⟩ := h.act hnone (n := n) (a := .crash) trivial
  rw [hr] at hw'
  simp only [Slot.act, Cluster.released, List.append_nil] at hw'
  exact ⟨w', hl, hw'⟩

theorem start (hnone : None ∉ boot.members) (h : Hosted boot hn hs slot net w) {st : MemoryStorage} (hst : slot n = .down st)
    {cfg : Config} (hid : cfg.id = n) (hboot : cfg.bootstrap = boot)
    (hnew : RawNode.new cfg { mem := st } = .ok r) :
    ∃ w', Later w w' ∧ Hosted boot hn hs (Function.update slot n (.up r)) net w' := by
  obtain ⟨w', hl, hw'⟩ := h.act hnone (n := n) (a := .start cfg) ⟨hid, hboot⟩
  rw [hst] at hw'
  simp only [Slot.act, hnew, Cluster.released, List.append_nil] at hw'
  exact ⟨w', hl, hw'⟩

end Hosted

end RaftStore.Raft
