import RaftStore.Raft.FixedMembership

/-! What a leader records of its peers.  A match index is the peer's own word, given in some reply of
the term; it stays true for as long as the peer is in that term, and the leader never goes back on
it. -/

namespace RaftStore.Raft

open Consensus RawNode

variable {r r' : RawNode} {v : NodeID} {p : Progress}

/-- A leader keeps a ledger: what is confirmed lies below what is sent next, which lies at most one beyond
the log, and every member has a page. -/
structure Ledger (r : RawNode) : Prop where
  bounds : ∀ v p, r.peer v = some p → p.matched < p.next ∧ p.next ≤ r.log.lastIndex + 1
  isSome : r.state = .leader → r.progress.isSome
  members : r.state = .leader → ∀ v ∈ r.conf.members, (r.peer v).isSome

/-- A node that leads nobody has nothing to keep. -/
theorem ledger_of_none (hs : r.state ≠ .leader) (hp : r.progress = none) : Ledger r := by
  refine ⟨fun v p h => ?_, fun h => absurd h hs, fun h => absurd h hs⟩
  simp [peer, hp] at h

theorem ledger_of_follower {r₁ : RawNode} (hr : r.Wf) (hst : r.state = .follower)
    (hrec : r₁.Reconf r') (hs : r₁.state = r.state) (hp : r₁.progress = r.progress) :
    Ledger r' := by
  have hne : r.state ≠ .leader := by rw [hst]; nofun
  refine ledger_of_none (by rw [hrec.eq]; exact hs ▸ hne) ?_
  refine Option.not_isSome_iff_eq_none.mp fun h => hne (hr.tracked ?_)
  rwa [hrec.isSome, hp] at h

theorem peer_of_setPeer {id : NodeID} {q : Progress} (h : (r.setPeer id q).peer v = some p) :
    v = id ∧ p = q ∨ r.peer v = some p := by
  rw [peer_setPeer] at h
  split at h
  · rename_i hv
    cases hpr : r.progress with
    | none => simp [hpr] at h
    | some prs =>
      rw [hpr] at h
      exact Or.inl ⟨hv, (Option.some.inj h).symm⟩
  · exact Or.inr h

theorem Ledger.setPeer (h : Ledger r) {id : NodeID} {q : Progress} (h1 : q.matched < q.next)
    (h2 : q.next ≤ r.log.lastIndex + 1) : Ledger (r.setPeer id q) := by
  refine ⟨fun v p hp => ?_, fun hs => ?_, fun hs v hv => ?_⟩
  · rcases peer_of_setPeer hp with ⟨-, rfl⟩ | hp
    · exact ⟨h1, h2⟩
    · exact h.bounds v p hp
  · simpa [RawNode.setPeer] using h.isSome hs
  · rw [peer_setPeer]
    split
    · simpa using h.isSome hs
    · exact h.members hs v hv

/-- A leader that takes up a configuration opens a page for each new member. -/
theorem Ledger.setConfiguration (h : Ledger r) (hs : r.state = .leader) (conf : Configuration)
    (i : ℕ) : Ledger (r.setConfiguration conf i) := by
  have hrec := setConfiguration_reconf r conf i
  have hlog : (r.setConfiguration conf i).log = r.log := by rw [hrec.eq]
  refine ⟨fun v p hp => ?_, fun _ => ?_, fun _ v hv => ?_⟩
  · rw [hlog]
    rcases hrec.peer v p hp with hp | ⟨hn, hm⟩
    · exact h.bounds v p hp
    · rw [hn, hm]
      split <;> omega
  · rw [hrec.isSome]
    exact h.isSome hs
  · obtain ⟨prs, hprs⟩ := Option.isSome_iff_exists.mp (h.isSome hs)
    rw [(setConfiguration_conf r conf i).1] at hv
    simp only [RawNode.setConfiguration, hs]
    split
    · rename_i hsame
      exact h.members hs v (hsame.1 ▸ hv)
    · rw [if_pos trivial]
      simp only [refreshProgress, hprs, peer, Option.bind_some]
      rw [if_pos hv]
      rfl

/-- A member that had a page keeps it. -/
theorem setConfiguration_peer {conf : Configuration} {i : ℕ}
    (hall : ∀ v ∈ conf.members, (r.peer v).isSome)
    (hp : (r.setConfiguration conf i).peer v = some p) : r.peer v = some p := by
  simp only [RawNode.setConfiguration] at hp
  split at hp
  · exact hp
  · split at hp
    · simp only [refreshProgress] at hp
      split at hp
      · exact hp
      · rename_i prs hprs
        change r.progress = some prs at hprs
        simp only [peer, Option.bind_some, hprs] at hall hp ⊢
        split at hp
        · rename_i hv
          obtain ⟨q, hq⟩ := Option.isSome_iff_exists.mp (hall v hv)
          rw [hq, Option.getD_some] at hp
          rw [hq, hp]
        · split at hp
          · exact hp
          · cases hp
    · exact hp

/-- Recomputing the configuration takes up some configuration, or changes nothing. -/
theorem refreshed_cases (r : RawNode) :
    r.refreshed = r ∨ ∃ conf i, r.refreshed = r.setConfiguration conf i := by
  simp only [refreshed, refreshConfiguration]
  split
  · rename_i h
    split at h
    · cases h
    · cases h
      exact Or.inr ⟨_, _, rfl⟩
    · split at h <;> cases h <;> exact Or.inr ⟨_, _, rfl⟩
  · exact Or.inl rfl

theorem Ledger.refreshed (h : Ledger r) (hs : r.state = .leader) : Ledger r.refreshed := by
  rcases refreshed_cases r with heq | ⟨conf, i, heq⟩
  · rwa [heq]
  · rw [heq]
    exact h.setConfiguration hs conf i

theorem refreshed_peer (hall : ∀ v ∈ r.refreshed.conf.members, (r.peer v).isSome)
    (hp : r.refreshed.peer v = some p) : r.peer v = some p := by
  rcases refreshed_cases r with heq | ⟨conf, i, heq⟩
  · rwa [heq] at hp
  · rw [heq] at hp hall
    rw [(setConfiguration_conf r conf i).1] at hall
    exact setConfiguration_peer hall hp

theorem Ledger.concat (h : Ledger r) (e : LogEntry) :
    Ledger (r.withMem { r.log.mem with ents := r.log.mem.ents ++ [e] }) := by
  refine ⟨fun v p hp => ?_, h.isSome, h.members⟩
  have hb := h.bounds v p hp
  have hlast : (r.withMem { r.log.mem with ents := r.log.mem.ents ++ [e] }).log.lastIndex =
      r.log.lastIndex + 1 := by
    simp [RaftLog.lastIndex, MemoryStorage.lastIndex, withMem, MemoryStorage.offset]
    omega
  omega

theorem Ledger.extended (h : Ledger r) (hs : r.state = .leader) (e : LogEntry) :
    Ledger (r.extended e) := by
  rw [RawNode.extended]
  split
  · exact (h.concat e).refreshed hs
  · exact h.concat e

/-- A change of the log that keeps its last index. -/
theorem Ledger.withMem (h : Ledger r) {mem : MemoryStorage}
    (hm : mem.lastIndex = r.log.mem.lastIndex) : Ledger (r.withMem mem) := by
  refine ⟨fun v p hp => ?_, h.isSome, h.members⟩
  have hb := h.bounds v p hp
  change p.matched < p.next ∧ p.next ≤ mem.lastIndex + 1
  rw [hm]
  exact hb

/-- What a peer says it holds, the leader of that term holds. -/
theorem Acked.le_lastIndex {M : Membership} {w : World NodeID LogEntry} {k : ℕ}
    (h : Acked w.hist v r.term k) (hw : Inv M.rules w) (hs : Sim w.hist r (w.node r.id))
    (hl : r.state = .leader) : k ≤ r.log.lastIndex := by
  obtain ⟨-, q, -, hq, rfl, -⟩ := h
  rw [RaftLog.lastIndex_eq hs.backs, (hs.leader_log hw hl).2]
  exact hq.length_le

/-- The ledger is kept as long as no peer confirms what the leader does not have. -/
theorem Ledger.kept {c : Call} (h : Ledger r) (hr : r.Wf)
    (hmatch : ∀ m p, c = .step m → m.type = .appendResp ∨ m.type = .snapshotResp →
      m.success = true → m.term = r.term → r.peer m.sender = some p →
      m.matchIndex ≤ r.log.lastIndex) (he : Effect c r r') : Ledger r' := by
  cases he with
  | adopt m lead hc ht =>
    rw [becomeFollower, reset_eq]
    exact ledger_of_none (by rintro ⟨⟩) rfl
  | resign lead =>
    rw [becomeFollower, reset_eq]
    exact ledger_of_none (by rintro ⟨⟩) rfl
  | poll _ hst =>
    exact ledger_of_none (by rintro ⟨⟩) (Option.not_isSome_iff_eq_none.mp fun hp => hst (hr.tracked hp))
  | stand =>
    rw [standing, reset_eq]
    exact ledger_of_none (by rintro ⟨⟩) rfl
  | lead hst hq =>
    rw [leading, reset_eq, if_pos rfl]
    refine ⟨fun v p hp => ?_, fun _ => rfl, fun _ v hv => ?_⟩
    · simp only [peer, Option.bind_some] at hp
      split at hp
      · cases hp
        dsimp only
        constructor
        · split <;> omega
        · exact le_rfl
      · cases hp
    · change v ∈ r.conf.members at hv
      simp only [peer, Option.bind_some]
      rw [if_pos hv]
      rfl
  | extend e ha hst => exact h.extended hst e
  | ownMatch p hp => exact h.setPeer (Nat.lt_succ_self _) le_rfl
  | setMatch m p hc hty hsu ht hp hlt =>
    exact h.setPeer (Nat.lt_succ_self _) (Nat.succ_le_succ (hmatch m p hc hty hsu ht hp))
  | setNext id p p' hp hm hpos hle hlt =>
    obtain ⟨h1, h2⟩ := h.bounds id p hp
    exact h.setPeer (hm ▸ hlt h1) (hle.trans h2)
  | follow m l committed hc hty ht hst =>
    exact ledger_of_follower hr hst (refreshedIfNeeded_reconf _ _) rfl rfl
  | restore m snap mem hc hty ht hst => exact ledger_of_follower hr hst (restored_reconf ..) rfl rfl
  | saveSnapshot data term mem hc ht h0 hsave =>
    obtain ⟨hb, he⟩ := RaftLog.saveSnapshot_own h0 ht hsave
    refine h.withMem ?_
    rw [MemoryStorage.lastIndex, MemoryStorage.lastIndex, MemoryStorage.offset, hb, he]
    rfl
  | compact upto mem data hc hu hcf hcm =>
    refine h.withMem ?_
    rcases MemoryStorage.compact_ok hr.log.inOrder hcm with ⟨-, rfl⟩ | ⟨h1, h2, -, -, hb, -, hen⟩
    · rfl
    · simp only [MemoryStorage.lastIndex, MemoryStorage.offset] at h1 h2 hen ⊢
      rw [hb, hen, List.length_drop]
      omega
  | _ => exact ⟨h.bounds, h.isSome, h.members⟩

theorem Ledger.effect {M : Membership} {w : World NodeID LogEntry} {c : Call}
    (h : Ledger r) (hw : Inv M.rules w) (hr : r.Wf) (hs : Sim w.hist r (w.node r.id))
    (hmsg : ∀ m, c = .step m → Valid w.hist m) (he : Effect c r r') : Ledger r' := by
  refine h.kept hr (fun m p hc hty hsu ht hp => ?_) he
  have hack := (hmsg m hc).response hty hsu
  rw [ht] at hack
  exact hack.le_lastIndex hw hs (hr.leader_of_peer hp)

/-- What a quorum has confirmed is in the leader's log. -/
theorem Ledger.committedIndex_le (h : Ledger r) (hpos : 0 < r.conf.committedIndex r.matchOf) :
    r.conf.committedIndex r.matchOf ≤ r.log.lastIndex := by
  obtain ⟨v, hv, -⟩ := r.conf.overlaps_self _ _ (Configuration.hasQuorum_committedIndex hpos)
    (Configuration.hasQuorum_committedIndex hpos)
  have hle : r.conf.committedIndex r.matchOf ≤ r.matchOf v := of_decide_eq_true hv
  cases hp : r.peer v with
  | none =>
    rw [matchOf, hp] at hle
    exact absurd (hpos.trans_le hle) (Nat.lt_irrefl 0)
  | some p =>
    obtain ⟨h1, h2⟩ := h.bounds v p hp
    have hm : r.matchOf v = p.matched := by rw [matchOf, hp]; rfl
    omega

/-! ### What is confirmed is not taken back -/

/-- Every page of `r'` continues one of `r`, with no less confirmed. -/
def Continues (r r' : RawNode) : Prop :=
  ∀ v p', r'.peer v = some p' → ∃ p, r.peer v = some p ∧ p.matched ≤ p'.matched

theorem Continues.refl (r : RawNode) : Continues r r := fun _ p h => ⟨p, h, le_rfl⟩

theorem Continues.trans {r'' : RawNode} (h : Continues r r') (h' : Continues r' r'') :
    Continues r r'' := by
  intro v p'' hp''
  obtain ⟨p', hp', hle'⟩ := h' v p'' hp''
  obtain ⟨p, hp, hle⟩ := h v p' hp'
  exact ⟨p, hp, hle.trans hle'⟩

theorem continues_setPeer {id : NodeID} {p q : Progress} (hp : r.peer id = some p)
    (hle : p.matched ≤ q.matched) : Continues r (r.setPeer id q) := by
  intro v p' hp'
  rcases peer_of_setPeer hp' with ⟨rfl, rfl⟩ | hp'
  · exact ⟨p, hp, hle⟩
  · exact ⟨p', hp', le_rfl⟩

/-- Leaving a joint configuration adds no member. -/
theorem Among.members_subset {boot conf : Configuration} (h : Among boot conf) {v : NodeID}
    (hv : v ∈ conf.members) : v ∈ boot.members := by
  rcases h with rfl | ⟨cc, hcc, rfl⟩
  · exact hv
  · rw [(leaveJoint_ok hcc).2.2] at hv
    simp only [Configuration.mem_members, Configuration.normalize, mem_sortedUnique,
      List.mem_filter] at hv ⊢
    rcases hv with hv | hv | ⟨hv, -⟩
    · exact Or.inl hv
    · cases hv
    · exact Or.inr (Or.inr hv)

/-- A leader that extends its log opens no page: the members of a cluster whose membership nobody
changes only become fewer. -/
theorem continues_extended {boot : Configuration} {c : Call} {e : LogEntry} (h : Ledger r)
    (hs : r.state = .leader) (hf : FixedNode boot r) (hf' : FixedNode boot (r.extended e))
    (hcc : e.type = .confChange → ∃ cc, r.Proposes c cc ∧ e.command = cc.encode)
    (hc : ∀ target, c ≠ .proposeConfChange target) : Continues r (r.extended e) := by
  intro v p hp
  refine ⟨p, ?_, le_rfl⟩
  by_cases hty : e.type = .confChange
  · obtain ⟨cc, hprop, -⟩ := hcc hty
    have hleave := hprop.change.resolve_left fun ⟨target, ht, _⟩ => hc target ht
    have hboot : r.conf = boot := by
      rcases hf.conf with hb | ⟨cc', hcc', hb⟩
      · exact hb
      · have hj := (leaveJoint_ok hleave).1
        rw [hb, leaveJoint_not_joint hcc'] at hj
        exact nomatch hj
    have hconf := hf'.conf
    rw [RawNode.extended, if_pos hty] at hp hconf
    exact refreshed_peer (r := r.withMem { r.log.mem with ents := r.log.mem.ents ++ [e] })
      (fun u hu => h.members hs u (hboot ▸ hconf.members_subset hu)) hp
  · rwa [RawNode.extended, if_neg hty] at hp

/-- A node that neither leads nor stands does not come to lead in its term. -/
theorem Effect.out_of_office {c : Call} (he : Effect c r r') (hs : r.state ≠ .leader ∧ r.state ≠ .candidate) :
    r.term < r'.term ∨ r'.term = r.term ∧ r'.state ≠ .leader ∧ r'.state ≠ .candidate := by
  cases he.casting with
  | same ht hs' => exact .inr ⟨ht, hs' ▸ hs⟩
  | adopted hlt => exact .inl hlt
  | resigned ht hs' => exact .inr ⟨ht, by rw [hs']; constructor <;> rintro ⟨⟩⟩
  | polled _ _ ht hs' => exact .inr ⟨ht, by rw [hs']; constructor <;> rintro ⟨⟩⟩
  | stood _ _ ht => exact .inl (by omega)
  | elected hcand => exact absurd hcand hs.2

/-- A leader keeps `I` through the rest of its term, or neither leads nor stands in that term again,
as long as every effect in which it leads on keeps `I`. -/
theorem Effect.rest_of_term {c : Call} {T : ℕ} {I : RawNode → Prop} (he : Effect c r r')
    (hlead : I r → r.state = .leader)
    (hkeep : I r → r'.state = .leader → r'.term = r.term → I r')
    (h : T < r.term ∨ r.term = T ∧ (I r ∨ r.state ≠ .leader ∧ r.state ≠ .candidate)) :
    T < r'.term ∨ r'.term = T ∧ (I r' ∨ r'.state ≠ .leader ∧ r'.state ≠ .candidate) := by
  rcases h with hlt | ⟨ht, hI | hs⟩
  · exact .inl (hlt.trans_le he.term_le)
  · have hs := hlead hI
    cases he.casting with
    | same ht' hs' => exact .inr ⟨ht'.trans ht, .inl (hkeep hI (hs'.trans hs) ht')⟩
    | adopted hlt => exact .inl (ht ▸ hlt)
    | resigned ht' hs' =>
      exact .inr ⟨ht'.trans ht, .inr (by rw [hs']; constructor <;> rintro ⟨⟩)⟩
    | polled _ hne => exact absurd hs hne
    | stood _ hne => exact absurd hs hne
    | elected hcand => cases hs.symm.trans hcand
  · rw [← ht]
    exact he.out_of_office hs |>.imp_right fun h => ⟨h.1, .inr h.2⟩

/-- The rest of a leader's term: it leads on and keeps its book, or it neither leads nor stands in
that term again. -/
def Tenure (r₀ r : RawNode) : Prop :=
  r₀.term < r.term ∨ r.term = r₀.term ∧
    (r.state = .leader ∧ Continues r₀ r ∨ r.state ≠ .leader ∧ r.state ≠ .candidate)

theorem Effect.continues {boot : Configuration} {c : Call} (he : Effect c r r') (h : Ledger r)
    (hs : r.state = .leader) (hs' : r'.state = .leader) (hf : FixedNode boot r)
    (hf' : FixedNode boot r') (hc : ∀ target, c ≠ .proposeConfChange target) : Continues r r' := by
  have hne : r.state ≠ .follower := by rw [hs]; nofun
  cases he with
  | adopt => exact nomatch hs'
  | resign => exact nomatch hs'
  | poll => exact nomatch hs'
  | stand => exact nomatch hs'
  | lead hst =>
    rw [hs] at hst
    exact nomatch hst
  | extend e _ _ _ _ hcc => exact continues_extended h hs hf hf' hcc hc
  | ownMatch p hp =>
    have hb := h.bounds r.id p hp
    refine continues_setPeer hp ?_
    change p.matched ≤ r.log.lastIndex
    omega
  | setMatch m p _ _ _ _ hp hlt => exact continues_setPeer hp hlt.le
  | setNext id p p' hp hm => exact continues_setPeer hp hm.ge
  | follow m l committed _ _ _ hst => exact absurd hst hne
  | restore m snap mem _ _ _ hst => exact absurd hst hne
  | _ => exact .refl r

theorem Tenure.effect {boot : Configuration} {r₀ : RawNode} {c : Call} (h : Tenure r₀ r)
    (htr : Ledger r) (hf : FixedNode boot r) (hf' : FixedNode boot r')
    (hc : ∀ target, c ≠ .proposeConfChange target) (he : Effect c r r') : Tenure r₀ r' := by
  refine he.rest_of_term (I := fun r => r.state = .leader ∧ Continues r₀ r) And.left ?_ h
  rintro ⟨hs, hcont⟩ hs' -
  exact ⟨hs', hcont.trans (he.continues htr hs hs' hf hf' hc)⟩

/-! ### In a run of the cluster -/

open Cluster

variable {boot : Configuration} {hn : boot.Normalized} {hs : boot.Sized}

theorem ledger_of_new {cfg : Config} {st : MemoryStorage} (hnew : new cfg { mem := st } = .ok r) :
    Ledger r := by
  have hst := started_of_new hnew
  refine ledger_of_none ?_ hst.progress
  rw [hst.state]
  rintro ⟨⟩

theorem Regime.keeps_ledger (G : Regime) (n : NodeID) : G.Keeps n Ledger (fun _ => True) where
  effect _ hw hid hr _ hsim hmsg h he := by
    subst hid
    exact h.effect hw hr hsim (fun m hm => (hmsg m hm).1) he
  stop _ _ := trivial
  start _ _ _ h := ledger_of_new h

theorem fixed_keeps_tenure (n : NodeID) (r₀ : RawNode) :
    (fixed boot hn hs).Keeps n (fun r => Ledger r ∧ Tenure r₀ r)
      (fun st => r₀.term ≤ st.hardState.term) where
  effect hc hw hid hr hf hsim hmsg h he := by
    subst hid
    have hf' : FixedNode boot _ := (fixed boot hn hs).effect hc hr hf (fun m hm => (hmsg m hm).2) he
    refine ⟨h.1.effect hw hr hsim (fun m hm => (hmsg m hm).1) he, h.2.effect h.1 hf hf' ?_ he⟩
    rintro target rfl
    exact hc
  stop hr h := by
    rw [hr.term_eq]
    rcases h.2 with hlt | ⟨ht, -⟩
    · exact hlt.le
    · exact ht.ge
  start _ hJ _ h := by
    have hr := started_of_new h
    refine ⟨ledger_of_new h, ?_⟩
    rcases hJ.lt_or_eq with hlt | heq
    · exact Or.inl (hr.term ▸ hlt)
    · exact Or.inr ⟨hr.term.trans heq.symm, Or.inr (by rw [hr.state]; exact ⟨nofun, nofun⟩)⟩

theorem sat_up {I : RawNode → Prop} {J : MemoryStorage → Prop} {c : Cluster} {n : NodeID}
    (h : (c.slot n).Sat I J) (hr : c.node? n = some r) : I r := by
  rw [node?_eq_some.mp hr] at h
  exact h

theorem Regime.ledger (G : Regime) {c : Cluster} (hrun : Run G.boot G.calls {} c) {n : NodeID}
    (hr : c.node? n = some r) : Ledger r :=
  sat_up ((G.keeps_ledger n).run (Refines.start _) trivial hrun) hr

/-- What a peer has confirmed to the leader of its term is in its log. -/
theorem Refines.acked {G : Regime} {c : Cluster} {w : World NodeID LogEntry} (h : Refines G c w)
    {t k : ℕ} (ha : Acked w.hist v t k) (ht : (c.slot v).term = t) :
    ∃ q, q <+: w.hist.log t ∧ q <+: (w.node v).log ∧ q.length = k := by
  obtain ⟨-, q, -, hq, hk, hack⟩ := ha
  have hterm := (h.backs v).2.trans ht
  refine ⟨q, hq, ?_, hk⟩
  refine (h.inv.node v).keeps t q (by omega) (hack q (List.prefix_refl q)) fun t1 el h1 h2 => ?_
  exact absurd h2 (by omega)

/-- Match indexes are sound: they lie below what is sent next, they never go back while the leader
leads, and a peer of the leader's term holds what it has confirmed. -/
theorem fixed_match_sound (boot : Configuration) (hn : boot.Normalized) (hs : boot.Sized)
    {c c' : Cluster} (hrun : Run boot fixedCalls {} c) (hrun' : Run boot fixedCalls c c')
    {n : NodeID} {r : RawNode} (hr : c.node? n = some r) (hl : r.state = .leader)
    {v : NodeID} {p : Progress} (hp : r.peer v = some p) :
    (p.matched < p.next ∧ p.next ≤ r.log.lastIndex + 1) ∧
    (∀ r' p', c'.node? n = some r' → r'.state = .leader → r'.term = r.term →
      r'.peer v = some p' → p.matched ≤ p'.matched) ∧
    ((c.slot v).term = r.term → p.matched ≤ (c.slot v).log.lastIndex ∧
      ∀ i ≤ p.matched, ∀ t t', r.log.term i = .ok t → (c.slot v).log.term i = .ok t' → t = t') := by
  obtain ⟨w, -, hw⟩ := (Refines.start (fixed boot hn hs)).run hrun
  have htr := (fixed boot hn hs).ledger hrun hr
  refine ⟨htr.bounds v p hp, fun r' p' hr' hl' ht' hp' => ?_, fun ht => ?_⟩
  · have hsat : (c.slot n).Sat (fun r' => Ledger r' ∧ Tenure r r')
        (fun st => r.term ≤ st.hardState.term) := by
      rw [node?_eq_some.mp hr]
      exact ⟨htr, Or.inr ⟨rfl, Or.inl ⟨hl, .refl r⟩⟩⟩
    have hten := (sat_up ((fixed_keeps_tenure n r).run hw hsat hrun') hr').2
    rcases hten with hlt | ⟨-, ⟨-, hcont⟩ | ⟨hne, -⟩⟩
    · omega
    · obtain ⟨q, hq, hle⟩ := hcont v p' hp'
      rw [hp] at hq
      cases hq
      exact hle
    · exact absurd hl' hne
  · obtain ⟨hid, -, -, hsim⟩ := hw.up hr
    rcases hsim.peers v p hp with h0 | hack
    · rw [h0]
      refine ⟨Nat.zero_le _, fun i hi t t' h1 h2 => ?_⟩
      obtain rfl := Nat.le_zero.mp hi
      rw [RaftLog.term, if_pos rfl] at h1 h2
      cases h1
      cases h2
      rfl
    · obtain ⟨q, hq, hqv, hk⟩ := hw.acked hack ht
      have hbv := (hw.backs v).1
      subst hid
      obtain ⟨-, hlog⟩ := hw.leader hr hl
      rw [← hlog] at hq
      refine ⟨?_, fun i hi t t' h1 h2 => ?_⟩
      · rw [RaftLog.lastIndex_eq hbv, ← hk]
        exact hqv.length_le
      · obtain ⟨-, h1⟩ := RaftLog.term_eq hsim.backs h1
        obtain ⟨-, h2⟩ := RaftLog.term_eq hbv h2
        rw [h1, h2]
        refine termAt_of_le (n := q.length) (by omega) ?_
        rw [← List.prefix_iff_eq_take.mp hq, ← List.prefix_iff_eq_take.mp hqv]

theorem fixed_match_sound_trio :
    ∃ r p, (({} : Cluster).plays election).node? 1 = some r ∧ r.peer 2 = some p ∧ p.matched = 1 ∧
      p.next ≤ r.log.lastIndex + 1 ∧
      1 ≤ ((({} : Cluster).plays election).slot 2).log.lastIndex := by
  have hrun : Run trio fixedCalls {} (({} : Cluster).plays election) := run_plays (by decide +kernel)
  obtain ⟨r, hr, ht⟩ := exists_node (c := ({} : Cluster).plays election) (n := 1)
    (fun r => r.state = .leader ∧ r.term = 1 ∧ (r.peer 2).map Progress.matched = some 1)
    (by decide +kernel)
  simp only [decide_eq_true_eq] at ht
  obtain ⟨hl, hterm, hm⟩ := ht
  obtain ⟨p, hp, hpm⟩ := Option.map_eq_some_iff.mp hm
  have hterm2 : ((({} : Cluster).plays election).slot 2).term = r.term := by
    rw [hterm]
    decide +kernel
  have h := fixed_match_sound trio trio_normalized trio_sized hrun .refl hr hl hp
  exact ⟨r, p, hr, hp, hpm, h.1.2, hpm ▸ (h.2.2 hterm2).1⟩

end RaftStore.Raft
