import RaftStore.Consensus.Protocol

/-! Every action of the protocol keeps the invariant. -/

namespace RaftStore.Consensus

variable {N E : Type} {R : Rules N E}

namespace History

variable {H : History N E} {v n : N} {t : ℕ} {l p : List E}

/-- An election that was won stays won, whatever is acknowledged in later terms. -/
theorem OK.won_grows (hH : H.OK R) {H' : History N E} (hg : Grows v H H')
    (hack : ∀ {u t' y}, H.vote u t' = some y → ∀ t0 q, t0 < t' → H'.ack u t0 q → H.ack u t0 q)
    (h : H.leader t = some n) :
    ∃ el Q, H'.cand t n = some el ∧ R.Quorum el Q ∧
      ∀ u ∈ Q, ∃ vl, H'.vote u t = some (n, vl) ∧ H'.Keeps u t (· < t) vl := by
  obtain ⟨el, Q, hcand, hQ, hvotes⟩ := hH.won h
  refine ⟨el, Q, hg.cand hcand, hQ, fun u hu => ?_⟩
  obtain ⟨vl, hvote, hkeeps⟩ := hvotes u hu
  exact ⟨vl, hg.vote hvote, hg.keeps (hack hvote) hkeeps⟩

/-! ### Standing for election -/

theorem grows_stand (hc : H.cand t v = none) (hv : H.vote v t = none) :
    Grows v H (H.stand t v l) := by
  constructor <;> intros <;> simp_all [stand]
  · rintro rfl rfl
    simp_all
  · rintro rfl rfl
    simp_all

theorem OK.stand (hH : H.OK R) (hc : H.cand t v = none) (hv : H.vote v t = none)
    (hlt : ∀ e ∈ l, R.term e < t) (hmono : Mono R.term l) (hpath : H.Path R l)
    (hkeep : H.Keeps v t (· ≤ t) l) : (H.stand t v l).OK R := by
  have hg : Grows v H (H.stand t v l) := grows_stand hc hv
  have hcand : ∀ {t' n' l'}, (H.stand t v l).cand t' n' = some l' →
      (t' = t ∧ n' = v ∧ l' = l) ∨ H.cand t' n' = some l' := by
    intro t' n' l' h
    simp only [History.stand] at h
    split at h
    · simp_all
    · exact .inr h
  constructor
  · intro t' n' l' h
    rcases hcand h with ⟨rfl, rfl, rfl⟩ | h
    · exact hlt
    · exact hH.cand_lt h
  · intro t' n' l' h
    rcases hcand h with ⟨rfl, rfl, rfl⟩ | h
    · exact hmono
    · exact hH.cand_mono h
  · intro t' n' l' h
    rcases hcand h with ⟨rfl, rfl, rfl⟩ | h
    · exact hg.path hpath
    · exact hg.path (hH.cand_path h)
  · intro t' n' h
    obtain ⟨el, own, h1, h2, h3⟩ := hH.led h
    exact ⟨el, own, hg.cand h1, h2, h3⟩
  · intro t' n' h
    exact hg.path (hH.log_path h)
  · exact fun h => hH.log_admits h
  · exact fun h => hH.won_grows hg (fun _ _ _ _ ha => ha) h
  · intro u t' n' vl h
    simp only [History.stand] at h
    split at h
    · obtain ⟨rfl, rfl⟩ := ‹_ ∧ _›
      obtain ⟨rfl, rfl⟩ : u = n' ∧ l = vl := by simpa using h
      exact ⟨l, by simp [History.stand], .inr ⟨rfl, le_rfl⟩, hmono,
        hg.keeps (fun _ _ _ h => h) hkeep⟩
    · obtain ⟨cl, h1, h2, h3, h4⟩ := hH.voted h
      exact ⟨cl, hg.cand h1, h2, h3, hg.keeps (fun _ _ _ h => h) h4⟩
  · exact fun h => hH.acked h
  · exact fun h => hH.committed h
  · exact fun h => hH.conf h
  · exact fun h => hH.commit_conf h

/-! ### Voting -/

theorem grows_grant (hv : H.vote v t = none) : Grows v H (H.grant t v n l) := by
  constructor <;> intros <;> simp_all [grant]
  rintro rfl rfl
  simp_all

theorem OK.grant (hH : H.OK R) (hv : H.vote v t = none) {cl : List E}
    (hcl : H.cand t n = some cl) (hup : UpToDate R.term cl l) (hmono : Mono R.term l)
    (hkeep : H.Keeps v t (· ≤ t) l) : (H.grant t v n l).OK R := by
  have hg : Grows v H (H.grant t v n l) := grows_grant hv
  refine ⟨fun h => hH.cand_lt h, fun h => hH.cand_mono h, fun h => hH.cand_path h,
    fun h => hH.led h, fun h => hH.log_path h, fun h => hH.log_admits h, fun {t' n'} h => ?_,
    fun {u t' n' vl} h => ?_, fun h => hH.acked h, fun h => hH.committed h, fun h => hH.conf h,
    fun h => hH.commit_conf h⟩
  · exact hH.won_grows hg (fun _ _ _ _ ha => ha) h
  · simp only [History.grant] at h
    split at h
    · obtain ⟨rfl, rfl⟩ := ‹_ ∧ _›
      obtain ⟨rfl, rfl⟩ : n = n' ∧ l = vl := by simpa using h
      exact ⟨cl, hcl, hup, hmono, hkeep⟩
    · exact hH.voted h

/-! ### Winning an election -/

theorem grows_elect (hn : H.leader t = none) : Grows n H (H.elect t n l) := by
  constructor <;> intros <;> simp_all [elect]
  all_goals grind

theorem OK.elect (hH : H.OK R) (hn : H.leader t = none) (hcand : H.cand t n = some l) {Q : Set N}
    (hQ : R.Quorum l Q) (hv : ∀ v ∈ Q, ∃ vl, H.vote v t = some (n, vl)) :
    (H.elect t n l).OK R := by
  have hg : Grows n H (H.elect t n l) := grows_elect hn
  have hother : ∀ {t' n'}, t' ≠ t → (H.elect t n l).leader t' = some n' →
      H.leader t' = some n' ∧ (H.elect t n l).log t' = H.log t' := by
    intro t' n' ht h
    simpa [History.elect, ht] using h
  have hself : ∀ {n'}, (H.elect t n l).leader t = some n' →
      n' = n ∧ (H.elect t n l).log t = l := by
    intro n' h
    simpa [History.elect, eq_comm] using h
  refine ⟨fun h => hH.cand_lt h, fun h => hH.cand_mono h, fun h => hg.path (hH.cand_path h),
    fun {t' n'} h => ?_, fun {t' n'} h => ?_, fun {t' n'} h => ?_, fun {t' n'} h => ?_,
    fun {u t' n' vl} h => ?_, fun {u t' p'} h => ?_, fun {t' p' l'} h => ?_, fun {t' n'} h => ?_,
    fun h => hH.commit_conf h⟩
  · by_cases ht : t' = t
    · subst ht
      obtain ⟨rfl, hl⟩ := hself h
      exact ⟨l, [], hcand, by simp [hl], by simp⟩
    · obtain ⟨h1, h2⟩ := hother ht h
      rw [h2]
      exact hH.led h1
  · by_cases ht : t' = t
    · subst ht
      rw [(hself h).2]
      exact hg.path (hH.cand_path hcand)
    · obtain ⟨h1, h2⟩ := hother ht h
      rw [h2]
      exact hg.path (hH.log_path h1)
  · by_cases ht : t' = t
    · subst ht
      rw [(hself h).2]
      exact fun q e hq => hH.admits_of_path (hH.cand_path hcand) hq
    · obtain ⟨h1, h2⟩ := hother ht h
      rw [h2]
      exact hH.log_admits h1
  · by_cases ht : t' = t
    · subst ht
      obtain ⟨rfl, -⟩ := hself h
      refine ⟨l, Q, hcand, hQ, fun u hu => ?_⟩
      obtain ⟨vl, hvote⟩ := hv u hu
      obtain ⟨-, -, -, -, hkeep⟩ := hH.voted hvote
      refine ⟨vl, hvote, fun t0 p h0 ha hup => ?_⟩
      refine hkeep t0 p h0 ha fun t1 el h1 h2 he => ?_
      rcases Nat.lt_or_eq_of_le h2 with hlt | rfl
      · exact hup t1 el h1 hlt (hg.elected he)
      · obtain ⟨m, hm, -⟩ := he
        rw [hn] at hm
        cases hm
    · obtain ⟨h1, h2⟩ := hother ht h
      exact hH.won_grows hg (fun _ _ _ _ ha => ha) h1
  · obtain ⟨cl, h1, h2, h3, h4⟩ := hH.voted h
    exact ⟨cl, h1, h2, h3, hg.keeps (fun _ _ _ h => h) h4⟩
  · obtain ⟨m, hm, hp⟩ := hH.acked h
    exact ⟨m, hg.leader hm, hp.trans (hg.log hm)⟩
  · obtain ⟨m, Q', hm, h1, h2, h3⟩ := hH.committed h
    exact ⟨m, Q', hg.leader hm, h1, h2.trans (hg.log hm), h3⟩
  · by_cases ht : t' = t
    · subst ht
      rw [(hself h).2]
      intro q e hq _ he
      have := hH.cand_lt hcand e (hq.subset (by simp))
      omega
    · obtain ⟨h1, h2⟩ := hother ht h
      rw [h2]
      exact hH.conf h1

/-! ### Appending -/

theorem grows_extend (hn : H.leader t = some n) (hl : H.log t <+: l) :
    Grows n H (H.extend t l) := by
  constructor <;> intros <;> simp_all [extend]
  all_goals grind

theorem OK.extend (hH : H.OK R) (hn : H.leader t = some n) {e : E} (he : R.term e = t)
    (hadm : R.admits (H.log t) e)
    (hconf : R.isConf e → ∃ p l, H.commit t p l ∧ Covers R.isConf p (H.log t)) :
    (H.extend t (H.log t ++ [e])).OK R := by
  have hg : Grows n H (H.extend t (H.log t ++ [e])) := grows_extend hn (List.prefix_append ..)
  have hlog : ∀ t', (H.extend t (H.log t ++ [e])).log t' =
      if t' = t then H.log t ++ [e] else H.log t' := fun _ => rfl
  refine ⟨fun h => hH.cand_lt h, fun h => hH.cand_mono h, fun h => hg.path (hH.cand_path h),
    fun {t' n'} h => ?_, fun {t' n'} h => ?_, fun {t' n'} h => ?_, fun {t' n'} h => ?_,
    fun {u t' n' vl} h => ?_, fun {u t' p'} h => ?_, fun {t' p' l'} h => ?_, fun {t' n'} h => ?_,
    fun h => hH.commit_conf h⟩
  · obtain ⟨el, own, h1, h2, h3⟩ := hH.led h
    rw [hlog]
    split
    · subst t'
      refine ⟨el, own ++ [e], h1, by rw [h2, List.append_assoc], fun x hx => ?_⟩
      rcases List.mem_append.mp hx with hx | hx
      · exact h3 x hx
      · rw [List.mem_singleton.mp hx, he]
    · exact ⟨el, own, h1, h2, h3⟩
  · have hp := hg.path (hH.log_path h)
    rw [hlog]
    split
    · subst t'
      intro q x hq
      rcases List.prefix_concat_iff.mp hq with heq | hq
      · obtain ⟨rfl, rfl⟩ := List.append_singleton_inj.mp heq
        rw [he, hlog, if_pos rfl]
        exact ⟨by simp [History.extend, hn], List.prefix_refl _⟩
      · exact hp q x hq
    · exact hp
  · rw [hlog]
    split
    · subst t'
      intro q x hq
      rcases List.prefix_concat_iff.mp hq with heq | hq
      · obtain ⟨rfl, rfl⟩ := List.append_singleton_inj.mp heq
        exact hadm
      · exact hH.log_admits hn q x hq
    · exact hH.log_admits h
  · exact hH.won_grows hg (fun _ _ _ _ ha => ha) h
  · obtain ⟨cl, h1, h2, h3, h4⟩ := hH.voted h
    exact ⟨cl, h1, h2, h3, hg.keeps (fun _ _ _ h => h) h4⟩
  · obtain ⟨m, hm, hp⟩ := hH.acked h
    exact ⟨m, hm, hp.trans (hg.log hm)⟩
  · obtain ⟨m, Q', hm, h1, h2, h3⟩ := hH.committed h
    exact ⟨m, Q', hm, h1, h2.trans (hg.log hm), h3⟩
  · rw [hlog]
    split
    · subst t'
      intro q x hq hx hxt
      rcases List.prefix_concat_iff.mp hq with heq | hq
      · obtain ⟨rfl, rfl⟩ := List.append_singleton_inj.mp heq
        obtain ⟨p, l, h1, h2⟩ := hconf hx
        obtain ⟨-, -, -, h3, h4, -⟩ := hH.committed h1
        exact ⟨p, l, h1, h3.trans h4, h2⟩
      · exact hH.conf hn q x hq hx hxt
    · exact hH.conf h

/-! ### Acknowledging and committing -/

theorem grows_acknowledge : Grows v H (H.acknowledge t v p) := by
  constructor <;> intros <;> simp_all [acknowledge]

theorem OK.acknowledge (hH : H.OK R) (hn : H.leader t = some n) (hp : p <+: H.log t)
    (hfresh : ∀ {t' y}, H.vote v t' = some y → t' ≤ t) : (H.acknowledge t v p).OK R := by
  have hg : Grows v H (H.acknowledge t v p) := grows_acknowledge
  have hback : ∀ {u t' y}, H.vote u t' = some y → ∀ t0 q, t0 < t' →
      (H.acknowledge t v p).ack u t0 q → H.ack u t0 q := by
    rintro u t' y hy t0 q h0 (h | ⟨rfl, rfl, -⟩)
    · exact h
    · have := hfresh hy
      omega
  refine ⟨fun h => hH.cand_lt h, fun h => hH.cand_mono h, fun h => hH.cand_path h,
    fun h => hH.led h, fun h => hH.log_path h, fun h => hH.log_admits h, fun {t' n'} h => ?_,
    fun {u t' n' vl} h => ?_, ?_, fun {t' p' l'} h => ?_, fun h => hH.conf h,
    fun h => hH.commit_conf h⟩
  · exact hH.won_grows hg hback h
  · obtain ⟨cl, h1, h2, h3, h4⟩ := hH.voted h
    exact ⟨cl, h1, h2, h3, hg.keeps (hback h) h4⟩
  · rintro u t' q (h | ⟨rfl, rfl, hq⟩)
    · exact hH.acked h
    · exact ⟨n, hn, hq.trans hp⟩
  · obtain ⟨m, Q', hm, h1, h2, h3, h4, h5, h6⟩ := hH.committed h
    exact ⟨m, Q', hm, h1, h2, h3, h4, h5, fun u hu => .inl (h6 u hu)⟩

theorem grows_record (hn : H.leader t = some n) : Grows n H (H.record t p l) := by
  constructor <;> intros <;> simp_all [record]
  rename_i h1 h2 h3
  rcases h3 with h3 | ⟨rfl, -, -⟩
  · exact h3
  · rw [hn] at h2
    exact absurd (Option.some.inj h2).symm h1

theorem OK.record (hH : H.OK R) (hn : H.leader t = some n) (hpl : p <+: l) (hl : l <+: H.log t)
    (hne : p ≠ []) (ht : lastTerm R.term p = t) {Q : Set N} (hQ : R.Quorum l Q)
    (hack : ∀ v ∈ Q, H.ack v t p)
    (hbelow : ∀ p0 l0, H.commit t p0 l0 → p0.length < p.length) : (H.record t p l).OK R := by
  have hg : Grows n H (H.record t p l) := grows_record hn
  refine ⟨fun h => hH.cand_lt h, fun h => hH.cand_mono h, fun h => hH.cand_path h,
    fun h => hH.led h, fun h => hH.log_path h, fun h => hH.log_admits h, fun h => hH.won h,
    fun h => hH.voted h, fun h => hH.acked h, ?_, fun {t' n'} h q e hq hc he => ?_, ?_⟩
  · rintro t' p' l' (h | ⟨rfl, rfl, rfl⟩)
    · exact hH.committed h
    · exact ⟨n, Q, hn, hpl, hl, hne, ht, hQ, hack⟩
  · obtain ⟨p0, l0, h1, h2⟩ := hH.conf h q e hq hc he
    exact ⟨p0, l0, .inl h1, h2⟩
  · rintro t' p' l' (h | ⟨rfl, rfl, rfl⟩) q e hq hc he
    · obtain ⟨p0, l0, h1, h2⟩ := hH.commit_conf h q e hq hc he
      exact ⟨p0, l0, .inl h1, h2⟩
    · obtain ⟨p0, l0, h1, h2, h3⟩ := hH.conf hn q e (hq.trans hl) hc he
      exact ⟨p0, l0, .inl h1, h2, h3, hbelow p0 l0 h1⟩

end History

/-! ### The invariant -/

variable {w w' : World N E}

theorem inv_start : Inv R (World.start : World N E) := by
  constructor
  · constructor <;> simp [World.start, History.empty]
  · intro v
    constructor <;> simp [World.start, History.empty, Node.fresh, Mono, History.Path, History.Keeps]

/-- A step of node `v` keeps the invariant when it keeps it for `v` and only grows the history. -/
theorem Inv.put (hw : Inv R w) {v : N} {x : Node E} {H : History N E} (hg : Grows v w.hist H)
    (hH : H.OK R) (hx : NodeOK R H v x) : Inv R (w.put v x H) := by
  refine ⟨hH, fun u => ?_⟩
  by_cases hu : u = v
  · subst hu
    rwa [World.put_self]
  · rw [World.put_ne w hu]
    exact hg.node_other hu (hw.node u)

/-- What holds of a node holds of it as a follower. -/
theorem NodeOK.follower {H : History N E} {v : N} {x : Node E} (hx : NodeOK R H v x) :
    NodeOK R H v { x with role := .follower } where
  mono := hx.mono
  path := hx.path
  term_le := hx.term_le
  vote_le h := hx.vote_le h
  cand_le h := hx.cand_le h
  ack_le h := hx.ack_le h
  keeps := hx.keeps
  lead h := nomatch h
  cand h := nomatch h
  done_le := hx.done_le
  done_ok := hx.done_ok
  lead_commit h := nomatch h

theorem NodeOK.adopt {H : History N E} {v : N} {x : Node E} (hx : NodeOK R H v x) {t : ℕ}
    (ht : x.term < t) : NodeOK R H v { x with term := t, role := .follower } where
  mono := hx.mono
  path := hx.path
  term_le e he := (hx.term_le e he).trans ht.le
  vote_le h := (hx.vote_le h).trans ht.le
  cand_le h := (hx.cand_le h).trans ht.le
  ack_le h := (hx.ack_le h).trans ht.le
  keeps t0 p _ ha hup := hx.keeps t0 p (Nat.lt_succ_of_le (hx.ack_le ha)) ha
    fun t1 el h1 h2 he => hup t1 el h1 (h2.trans ht.le) he
  lead h := nomatch h
  cand h := nomatch h
  done_le := hx.done_le
  done_ok hne := by
    obtain ⟨t0, p, l, h0, hc, hp⟩ := hx.done_ok hne
    exact ⟨t0, p, l, h0.trans ht.le, hc, hp⟩
  lead_commit h := nomatch h

/-- Taking over a prefix of the leader's log loses nothing that the node acknowledged. -/
theorem NodeOK.keeps_accept {H : History N E} (hH : H.OK R) {v m : N} {x : Node E}
    (hx : NodeOK R H v x) (hm : H.leader x.term = some m) {p : List E} (hp : p <+: H.log x.term)
    (hnp : ¬p <+: x.log) : H.Keeps v (x.term + 1) (· ≤ x.term) p := by
  intro t0 q h0 ha hup
  have hq : q <+: x.log := hx.keeps t0 q h0 ha hup
  have hlog : q <+: H.log x.term := by
    rcases Nat.lt_or_eq_of_le (Nat.le_of_lt_succ h0) with hlt | rfl
    · obtain ⟨el, he⟩ := hH.exists_elected (Option.isSome_iff_exists.mpr ⟨m, hm⟩)
      exact (hup _ el hlt le_rfl he).trans (hH.elected_le he)
    · exact (hH.acked ha).choose_spec.2
  rcases List.prefix_or_prefix_of_prefix hlog hp with h | h
  · exact h
  · exact absurd (h.trans hq) hnp

theorem NodeOK.cand_none {H : History N E} {v : N} {x : Node E} (hx : NodeOK R H v x) :
    H.cand (x.term + 1) v = none := by
  by_contra h
  obtain ⟨l, hl⟩ := Option.ne_none_iff_exists'.mp h
  have := hx.cand_le hl
  omega

theorem NodeOK.vote_none {H : History N E} {v : N} {x : Node E} (hx : NodeOK R H v x) :
    H.vote v (x.term + 1) = none := by
  by_contra h
  obtain ⟨y, hy⟩ := Option.ne_none_iff_exists'.mp h
  have := hx.vote_le hy
  omega

/-- A term whose candidate has a quorum of votes had no leader before. -/
theorem Inv.leader_none (hw : Inv R w) {v : N} {Q : Set N} (hr : (w.node v).role = .candidate)
    (hQ : R.Quorum (w.node v).log Q)
    (hv : ∀ u ∈ Q, ∃ vl, w.hist.vote u (w.node v).term = some (v, vl)) :
    w.hist.leader (w.node v).term = none := by
  obtain ⟨hcand, hlead⟩ := (hw.node v).cand hr
  by_contra h
  obtain ⟨m, hm⟩ := Option.ne_none_iff_exists'.mp h
  have := hw.hist.leader_of_wins ⟨_, Q, hcand, hQ, hv⟩ hm
  exact hlead (this ▸ hm)

theorem Inv.stand (hw : Inv R w) (v : N) :
    Inv R (w.put v { w.node v with term := (w.node v).term + 1, role := .candidate }
      (w.hist.stand ((w.node v).term + 1) v (w.node v).log)) := by
  have hx := hw.node v
  have hc := hx.cand_none
  have hv := hx.vote_none
  have hg := History.grows_stand (l := (w.node v).log) hc hv
  have hkeep : w.hist.Keeps v ((w.node v).term + 1) (· ≤ (w.node v).term + 1)
      (w.node v).log := fun t0 p h0 ha hup => hx.keeps t0 p h0 ha
    fun t1 el h1 h2 he => hup t1 el h1 (by omega) he
  refine hw.put hg (hw.hist.stand hc hv (fun e he => Nat.lt_succ_of_le (hx.term_le e he))
    hx.mono hx.path hkeep) ?_
  have hx' := hx.adopt (Nat.lt_succ_self _)
  refine ⟨hx.mono, hg.path hx.path, hx'.term_le, fun {t y} h => ?_, fun {t l} h => ?_,
    hx'.ack_le, hg.keeps (fun _ _ _ h => h) hx'.keeps, (nomatch ·), fun _ => ⟨?_, fun h => ?_⟩,
    hx.done_le, hx'.done_ok, (nomatch ·)⟩
  · simp only [History.stand] at h
    split at h
    · rename_i hc
      exact hc.1.le
    · exact hx'.vote_le h
  · simp only [History.stand] at h
    split at h
    · rename_i hc
      exact hc.1.le
    · exact hx'.cand_le h
  · simp [History.stand]
  · obtain ⟨el, -, hc', -⟩ := hw.hist.led h
    rw [hc] at hc'
    cases hc'

theorem Inv.grant (hw : Inv R w) {v n : N} {cl : List E}
    (hcl : w.hist.cand (w.node v).term n = some cl) (hup : UpToDate R.term cl (w.node v).log)
    (hv : w.hist.vote v (w.node v).term = none) :
    Inv R (w.put v (w.node v) (w.hist.grant (w.node v).term v n (w.node v).log)) := by
  have hx := hw.node v
  have hg := History.grows_grant (n := n) (l := (w.node v).log) hv
  have hkeep : w.hist.Keeps v (w.node v).term (· ≤ (w.node v).term) (w.node v).log :=
    fun t0 p h0 ha hup => hx.keeps t0 p (h0.trans (Nat.lt_succ_self _)) ha hup
  refine hw.put hg (hw.hist.grant hv hcl hup hx.mono hkeep) ?_
  refine ⟨hx.mono, hg.path hx.path, hx.term_le, fun {t y} h => ?_, hx.cand_le, hx.ack_le,
    hx.keeps, hx.lead, hx.cand, hx.done_le, hx.done_ok, hx.lead_commit⟩
  simp only [History.grant] at h
  split at h
  · rename_i hc
    exact hc.1.le
  · exact hx.vote_le h

theorem Inv.elect (hw : Inv R w) {v : N} {Q : Set N} (hr : (w.node v).role = .candidate)
    (hQ : R.Quorum (w.node v).log Q)
    (hv : ∀ u ∈ Q, ∃ vl, w.hist.vote u (w.node v).term = some (v, vl)) :
    Inv R (w.put v { w.node v with role := .leader }
      (w.hist.elect (w.node v).term v (w.node v).log)) := by
  have hx := hw.node v
  obtain ⟨hcand, hlead⟩ := hx.cand hr
  have hnone := hw.leader_none hr hQ hv
  have hg := History.grows_elect (n := v) (l := (w.node v).log) hnone
  refine hw.put hg (hw.hist.elect hnone hcand hQ hv) ?_
  refine ⟨hx.mono, hg.path hx.path, hx.term_le, hx.vote_le, hx.cand_le, hx.ack_le,
    hg.keeps (fun _ _ _ h => h) hx.keeps, fun _ => ⟨by simp [History.elect],
    by simp [History.elect]⟩, (nomatch ·), hx.done_le, hx.done_ok, fun _ p l h => ?_⟩
  obtain ⟨m, -, hm, -⟩ := hw.hist.committed h
  rw [hnone] at hm
  cases hm

theorem Inv.extend (hw : Inv R w) {v : N} {e : E} (hr : (w.node v).role = .leader)
    (he : R.term e = (w.node v).term) (hadm : R.admits (w.node v).log e)
    (hconf : R.isConf e → (w.node v).done ≠ [] ∧
      lastTerm R.term (w.node v).done = (w.node v).term ∧
      Covers R.isConf (w.node v).done (w.node v).log) :
    Inv R (w.put v { w.node v with log := (w.node v).log ++ [e] }
      (w.hist.extend (w.node v).term ((w.node v).log ++ [e]))) := by
  have hx := hw.node v
  obtain ⟨hlead, hlog⟩ := hx.lead hr
  have hg := History.grows_extend (l := (w.node v).log ++ [e]) hlead
    (by rw [hlog]; exact List.prefix_append ..)
  have hH : (w.hist.extend (w.node v).term ((w.node v).log ++ [e])).OK R := by
    rw [hlog] at hadm ⊢
    refine hw.hist.extend hlead he hadm fun hc => ?_
    obtain ⟨h1, h2, h3⟩ := hconf hc
    obtain ⟨t, p, l, h4, h5, h6⟩ := hx.done_ok h1
    obtain ⟨m, -, hm, h7, h8, -, h9, -⟩ := hw.hist.committed h5
    have hle := ((hw.hist.log_mono hm).shorter (h7.trans h8)).lastTerm_le h6
    obtain rfl : t = (w.node v).term := by omega
    refine ⟨p, l, h5, fun r x hr hxc => ?_⟩
    rw [← hlog] at hr
    exact (h3 r x hr hxc).trans h6
  refine hw.put hg hH ⟨?_, ?_, fun x hxm => ?_, hx.vote_le, hx.cand_le, hx.ack_le,
    fun t0 p h0 ha hup => ?_, fun _ => ⟨hlead, ?_⟩, fun h => ?_, ?_, hx.done_ok,
    hx.lead_commit⟩
  · have := hH.log_mono hlead
    simpa [History.extend] using this
  · have := hH.log_path hlead
    simpa [History.extend] using this
  · rcases List.mem_append.mp hxm with h | h
    · exact hx.term_le x h
    · rw [List.mem_singleton.mp h, he]
  · exact (hx.keeps t0 p h0 ha hup).trans (List.prefix_append ..)
  · simp [History.extend]
  · rw [hr] at h
    cases h
  · exact hx.done_le.trans (List.prefix_append ..)

open Classical in
theorem Inv.accept (hw : Inv R w) {v m : N} {p : List E}
    (hm : w.hist.leader (w.node v).term = some m) (hp : p <+: w.hist.log (w.node v).term)
    (hdone : (w.node v).done <+: p) :
    Inv R (w.put v { w.node v with log := if p <+: (w.node v).log then (w.node v).log else p,
                                   role := .follower } w.hist) := by
  have hx := hw.node v
  refine hw.put (.refl ..) hw.hist ?_
  split
  · exact hx.follower
  · rename_i hnp
    exact ⟨(hw.hist.log_mono hm).shorter hp, (hw.hist.log_path hm).shorter hp,
      fun e he => hw.hist.term_le_of_led hm (hp.subset he), hx.vote_le, hx.cand_le, hx.ack_le,
      hx.keeps_accept hw.hist hm hp hnp, (nomatch ·), (nomatch ·), hdone, hx.done_ok, (nomatch ·)⟩

theorem Inv.ack (hw : Inv R w) {v m : N} {p : List E}
    (hm : w.hist.leader (w.node v).term = some m) (hp : p <+: w.hist.log (w.node v).term)
    (hpl : p <+: (w.node v).log) :
    Inv R (w.put v (w.node v) (w.hist.acknowledge (w.node v).term v p)) := by
  have hx := hw.node v
  have hg : Grows v w.hist (w.hist.acknowledge (w.node v).term v p) := History.grows_acknowledge
  refine hw.put hg (hw.hist.acknowledge hm hp fun h => hx.vote_le h) ?_
  refine ⟨hx.mono, hx.path, hx.term_le, hx.vote_le, hx.cand_le, ?_, ?_, hx.lead, hx.cand,
    hx.done_le, hx.done_ok, hx.lead_commit⟩
  · rintro t q (h | ⟨-, rfl, -⟩)
    · exact hx.ack_le h
    · exact le_rfl
  · rintro t0 q h0 (ha | ⟨-, rfl, hq⟩) hup
    · exact hx.keeps t0 q h0 ha hup
    · exact hq.trans hpl

theorem Inv.commit (hw : Inv R w) {v : N} {p : List E} {Q : Set N}
    (hr : (w.node v).role = .leader) (hp : p <+: (w.node v).log)
    (hlen : (w.node v).done.length < p.length) (ht : lastTerm R.term p = (w.node v).term)
    (hQ : R.Quorum (w.node v).log Q) (hack : ∀ u ∈ Q, w.hist.ack u (w.node v).term p) :
    Inv R (w.put v { w.node v with done := p }
      (w.hist.record (w.node v).term p (w.node v).log)) := by
  have hx := hw.node v
  obtain ⟨hlead, hlog⟩ := hx.lead hr
  have hg := History.grows_record (p := p) (l := (w.node v).log) hlead
  have hne : p ≠ [] := by
    rintro rfl
    simp at hlen
  have hbelow : ∀ p0 l0, w.hist.commit (w.node v).term p0 l0 → p0.length < p.length :=
    fun p0 l0 h => (hx.lead_commit hr p0 l0 h).length_le.trans_lt hlen
  refine hw.put hg (hw.hist.record hlead hp (by rw [hlog]) hne ht hQ hack hbelow) ?_
  refine ⟨hx.mono, hx.path, hx.term_le, hx.vote_le, hx.cand_le, hx.ack_le, hx.keeps, hx.lead,
    hx.cand, hp, fun _ => ⟨_, p, _, le_rfl, .inr ⟨rfl, rfl, rfl⟩, List.prefix_refl _⟩, ?_⟩
  rintro - p0 l0 (h | ⟨-, rfl, -⟩)
  · obtain ⟨-, -, -, h1, h2, -⟩ := hw.hist.committed h
    exact List.prefix_of_prefix_length_le (h1.trans h2) (by rw [← hlog]; exact hp)
      (hbelow p0 l0 h).le
  · exact List.prefix_refl _

theorem Step.inv {v : N} (hw : Inv R w) (hs : Step R v w w') : Inv R w' := by
  cases hs with
  | adopt t ht => exact hw.put (.refl ..) hw.hist ((hw.node v).adopt ht)
  | resign => exact hw.put (.refl ..) hw.hist (hw.node v).follower
  | stand => exact hw.stand v
  | grant n cl hcl hup hv => exact hw.grant hcl hup hv
  | elect Q hr hQ hv => exact hw.elect hr hQ hv
  | extend e hr he hadm hconf => exact hw.extend hr he hadm hconf
  | accept m p hm hp hdone hr => exact hw.accept hm hp hdone
  | ack m p hm hp hpl => exact hw.ack hm hp hpl
  | commit p Q hr hp hlen ht hQ hack => exact hw.commit hr hp hlen ht hQ hack
  | learn t p q l hp ht hc hpq hr =>
    have hx := hw.node v
    exact hw.put (.refl ..) hw.hist ⟨hx.mono, hx.path, hx.term_le, hx.vote_le, hx.cand_le,
      hx.ack_le, hx.keeps, hx.lead, hx.cand, hp, fun _ => ⟨t, q, l, ht, hc, hpq⟩,
      fun h p0 l0 h0 => (hx.lead_commit h p0 l0 h0).trans (hr h)⟩
  | forget =>
    have hx := (hw.node v).follower
    exact hw.put (.refl ..) hw.hist ⟨hx.mono, hx.path, hx.term_le, hx.vote_le, hx.cand_le,
      hx.ack_le, hx.keeps, (nomatch ·), (nomatch ·), List.nil_prefix, fun h => absurd rfl h,
      (nomatch ·)⟩

/-! ### What an action leaves alone -/

/-- What the actions of node `v` can have done: the history has grown by them, the node's term has
not gone back, and the other nodes are as they were. -/
structure Moves (v : N) (w w' : World N E) : Prop where
  grows : Grows v w.hist w'.hist
  term_le : (w.node v).term ≤ (w'.node v).term
  others : ∀ u, u ≠ v → w'.node u = w.node u
  /-- A leader that has stopped leading a term does not lead it again. -/
  regain : ∀ {t}, w.hist.leader t = some v → (w'.node v).role = .leader → (w'.node v).term = t →
    (w.node v).role = .leader ∧ (w.node v).term = t

theorem Moves.refl (v : N) (w : World N E) : Moves v w w :=
  ⟨.refl v _, le_rfl, fun _ _ => rfl, fun _ hr ht => ⟨hr, ht⟩⟩

theorem Moves.trans {v : N} {w'' : World N E} (h : Moves v w w') (h' : Moves v w' w'') :
    Moves v w w'' :=
  ⟨h.grows.trans h'.grows, h.term_le.trans h'.term_le,
    fun u hu => (h'.others u hu).trans (h.others u hu), fun hl hr ht => by
      obtain ⟨hr, ht⟩ := h'.regain (h.grows.leader hl) hr ht
      exact h.regain hl hr ht⟩

theorem moves_put {v : N} {x : Node E} {H : History N E} (hg : Grows v w.hist H)
    (ht : (w.node v).term ≤ x.term)
    (hr : x.role = .leader → w.hist.leader x.term ≠ none →
      (w.node v).role = .leader ∧ (w.node v).term = x.term) : Moves v w (w.put v x H) := by
  refine ⟨hg, by rwa [World.put_self], fun _ hu => World.put_ne w hu x H, fun hl hx hxt => ?_⟩
  rw [World.put_self] at hx hxt
  subst hxt
  exact hr hx (by simp [hl])

theorem Step.moves {v : N} (hw : Inv R w) (hs : Step R v w w') : Moves v w w' := by
  cases hs with
  | adopt t ht => exact moves_put (.refl ..) ht.le nofun
  | resign => exact moves_put (.refl ..) le_rfl nofun
  | stand =>
    exact moves_put (History.grows_stand (hw.node v).cand_none (hw.node v).vote_none)
      (Nat.le_succ _) nofun
  | grant n cl hcl hup hv => exact moves_put (History.grows_grant hv) le_rfl fun h _ => ⟨h, rfl⟩
  | elect Q hr hQ hv =>
    have hnone := hw.leader_none hr hQ hv
    exact moves_put (History.grows_elect hnone) le_rfl fun _ h => absurd hnone h
  | extend e hr he hadm hconf =>
    obtain ⟨hlead, hlog⟩ := (hw.node v).lead hr
    exact moves_put (History.grows_extend hlead (by rw [hlog]; exact List.prefix_append ..)) le_rfl
      fun h _ => ⟨h, rfl⟩
  | accept m p hm hp hdone hr => exact moves_put (.refl ..) le_rfl nofun
  | ack m p hm hp hpl => exact moves_put History.grows_acknowledge le_rfl fun h _ => ⟨h, rfl⟩
  | commit p Q hr hp hlen ht hQ hack =>
    exact moves_put (History.grows_record ((hw.node v).lead hr).1) le_rfl fun h _ => ⟨h, rfl⟩
  | learn t p q l hp ht hc hpq hr => exact moves_put (.refl ..) le_rfl fun h _ => ⟨h, rfl⟩
  | forget => exact moves_put (.refl ..) le_rfl nofun

/-- Action after action of node `v`. -/
abbrev Steps (R : Rules N E) (v : N) : World N E → World N E → Prop := Relation.ReflTransGen (Step R v)

theorem Steps.inv_moves {v : N} (hw : Inv R w) (hs : Steps R v w w') : Inv R w' ∧ Moves v w w' := by
  induction hs with
  | refl => exact ⟨hw, .refl v w⟩
  | tail _ h ih => exact ⟨h.inv ih.1, ih.2.trans (h.moves ih.1)⟩

/-- `w'` comes after `w` in some run: what had happened has happened, and no term has gone back. -/
structure Later (w w' : World N E) : Prop where
  cand : ∀ {t n l}, w.hist.cand t n = some l → w'.hist.cand t n = some l
  vote : ∀ {n t y}, w.hist.vote n t = some y → w'.hist.vote n t = some y
  leader : ∀ {t n}, w.hist.leader t = some n → w'.hist.leader t = some n
  log : ∀ {t n}, w.hist.leader t = some n → w.hist.log t <+: w'.hist.log t
  ack : ∀ {n t p}, w.hist.ack n t p → w'.hist.ack n t p
  commit : ∀ {t p l}, w.hist.commit t p l → w'.hist.commit t p l
  term_le : ∀ v, (w.node v).term ≤ (w'.node v).term
  regain : ∀ {t v}, w.hist.leader t = some v → (w'.node v).role = .leader →
    (w'.node v).term = t → (w.node v).role = .leader ∧ (w.node v).term = t

theorem Later.refl (w : World N E) : Later w w :=
  ⟨id, id, id, fun _ => List.prefix_refl _, id, id, fun _ => le_rfl, fun _ hr ht => ⟨hr, ht⟩⟩

theorem Later.trans {w'' : World N E} (h : Later w w') (h' : Later w' w'') : Later w w'' :=
  ⟨h'.cand ∘ h.cand, h'.vote ∘ h.vote, h'.leader ∘ h.leader,
    fun hl => (h.log hl).trans (h'.log (h.leader hl)), h'.ack ∘ h.ack, h'.commit ∘ h.commit,
    fun v => (h.term_le v).trans (h'.term_le v), fun hl hr ht => by
      obtain ⟨hr, ht⟩ := h'.regain (h.leader hl) hr ht
      exact h.regain hl hr ht⟩

theorem Moves.later {v : N} (h : Moves v w w') : Later w w' where
  cand := h.grows.cand
  vote := h.grows.vote
  leader := h.grows.leader
  log := h.grows.log
  ack := h.grows.ack
  commit := h.grows.commit
  term_le u := by
    by_cases hu : u = v
    · rw [hu]
      exact h.term_le
    · rw [h.others u hu]
  regain {t u} hl hr ht := by
    by_cases hu : u = v
    · subst hu
      exact h.regain hl hr ht
    · rw [h.others u hu] at hr ht
      exact ⟨hr, ht⟩

theorem Later.path {w w' : World N E} (h : Later w w') {l : List E} (hl : w.hist.Path R l) :
    w'.hist.Path R l := by
  intro q e hq
  obtain ⟨hs, hlog⟩ := hl q e hq
  obtain ⟨n, hn⟩ := Option.isSome_iff_exists.mp hs
  exact ⟨Option.isSome_iff_exists.mpr ⟨n, h.leader hn⟩, hlog.trans (h.log hn)⟩

end RaftStore.Consensus
