import RaftStore.Consensus.History

/-! Leader completeness and election safety, from the conditions on a history alone.  Both are
proved together by strong induction on the term: an election in a term needs the leaders of the
terms below it to hold what was committed before them, in order to see that the configuration it
counts votes in overlaps every configuration that a commit counted in. -/

namespace RaftStore.Consensus

variable {N E : Type}

/-! ### Terms along a log -/

@[simp] theorem lastTerm_concat (term : E → ℕ) (q : List E) (e : E) :
    lastTerm term (q ++ [e]) = term e := by
  simp [lastTerm]

theorem Mono.shorter {term : E → ℕ} {p l : List E} (h : Mono term l) (hp : p <+: l) :
    Mono term p :=
  List.Pairwise.sublist hp.sublist h

/-- An entry at or below the end of a prefix has a term no later than the prefix's last. -/
theorem Mono.le_lastTerm {term : E → ℕ} {l : List E} (h : Mono term l) {e : E} (he : e ∈ l) :
    term e ≤ lastTerm term l := by
  induction l using List.reverseRecOn with
  | nil => simp at he
  | append_singleton q x _ =>
    rw [lastTerm_concat]
    rcases List.mem_append.mp he with hq | hx
    · exact (List.pairwise_append.mp h).2.2 e hq x (by simp)
    · rw [List.mem_singleton.mp hx]

theorem Mono.lastTerm_le {term : E → ℕ} {p l : List E} (h : Mono term l) (hp : p <+: l) :
    lastTerm term p ≤ lastTerm term l := by
  induction p using List.reverseRecOn with
  | nil => exact Nat.zero_le _
  | append_singleton q x _ =>
    rw [lastTerm_concat]
    exact h.le_lastTerm (hp.subset (by simp))

theorem exists_concat {l : List E} (h : l ≠ []) : ∃ q e, l = q ++ [e] :=
  ⟨l.dropLast, l.getLast h, (List.dropLast_append_getLast h).symm⟩

/-! ### Reading a history -/

namespace History

variable {R : Rules N E} {H : History N E}

theorem Path.shorter {p l : List E} (h : H.Path R l) (hp : p <+: l) : H.Path R p :=
  fun q e hq => h q e (hq.trans hp)

theorem OK.log_mono (hH : H.OK R) {t : ℕ} {n : N} (hn : H.leader t = some n) :
    Mono R.term (H.log t) := by
  obtain ⟨el, own, hc, hlog, hown⟩ := hH.led hn
  rw [hlog]
  refine List.pairwise_append.mpr ⟨hH.cand_mono hc, ?_, fun a ha b hb => ?_⟩
  · exact List.pairwise_of_forall_mem_list fun a ha b hb => by rw [hown a ha, hown b hb]
  · rw [hown b hb]
    exact (hH.cand_lt hc a ha).le

theorem OK.elected_le (hH : H.OK R) {t : ℕ} {el : List E} (he : H.Elected t el) :
    el <+: H.log t := by
  obtain ⟨n, hn, hc⟩ := he
  obtain ⟨el', own, hc', hlog, -⟩ := hH.led hn
  obtain rfl : el = el' := by simpa [hc] using hc'
  exact ⟨own, hlog.symm⟩

/-- A prefix of a leader's log that ends in the leader's term is longer than the log it was elected
with. -/
theorem OK.elected_lt (hH : H.OK R) {t : ℕ} {el p : List E} (he : H.Elected t el)
    (hp : p <+: H.log t) (hne : p ≠ []) (ht : lastTerm R.term p = t) : el.length < p.length := by
  obtain ⟨q, e, rfl⟩ := exists_concat hne
  rw [lastTerm_concat] at ht
  by_contra hlen
  have hpe : q ++ [e] <+: el :=
    List.prefix_of_prefix_length_le hp (hH.elected_le he) (by omega)
  obtain ⟨n, hn, hc⟩ := he
  have := hH.cand_lt hc e (hpe.subset (by simp))
  omega

/-- A log that holds an entry of a leader's term holds everything that leader was elected with. -/
theorem OK.elected_prefix_of_entry (hH : H.OK R) {l q el : List E} {e : E} (hl : H.Path R l)
    (hq : q ++ [e] <+: l) (he : H.Elected (R.term e) el) : el <+: l := by
  have hlog := (hl q e hq).2
  have hlt := hH.elected_lt he hlog (by simp) (lastTerm_concat ..)
  exact (List.prefix_of_prefix_length_le (hH.elected_le he) hlog hlt.le).trans hq

theorem OK.exists_elected (hH : H.OK R) {t : ℕ} (h : (H.leader t).isSome) :
    ∃ el, H.Elected t el := by
  obtain ⟨n, hn⟩ := Option.isSome_iff_exists.mp h
  obtain ⟨el, own, hc, -⟩ := hH.led hn
  exact ⟨el, n, hn, hc⟩

theorem Path.same {l l' q q' : List E} {e e' : E} (hl : H.Path R l) (hl' : H.Path R l')
    (hq : q ++ [e] <+: l) (hq' : q' ++ [e'] <+: l') (ht : R.term e = R.term e') :
    q ++ [e] <+: l' ∨ q' ++ [e'] <+: l := by
  have h1 := (hl q e hq).2
  have h2 := (hl' q' e' hq').2
  rw [ht] at h1
  rcases List.prefix_or_prefix_of_prefix h1 h2 with h | h
  · exact .inl (h.trans hq')
  · exact .inr (h.trans hq)

/-- Logs of which one has at `i` the term that the other has at a lower `j` are the same up to `j`. -/
theorem Path.take_eq_of_le {l l' : List E} (hl : H.Path R l) (hl' : H.Path R l') {i j : ℕ}
    (hi : i ≤ l.length) (hj : 0 < j) (hj' : j ≤ l'.length) (hle : j ≤ i)
    (ht : lastTerm R.term (l.take i) = lastTerm R.term (l'.take j)) : l.take j = l'.take j := by
  have hlen : (l.take i).length = i := by simp [hi]
  have hlen' : (l'.take j).length = j := by simp [hj']
  obtain ⟨q, e, hq⟩ := exists_concat (l := l.take i) fun h => by simp [h] at hlen; omega
  obtain ⟨q', e', hq'⟩ := exists_concat (l := l'.take j) fun h => by simp [h] at hlen'; omega
  rw [hq, hq', lastTerm_concat, lastTerm_concat] at ht
  -- One of the two beginnings lies in the other log.
  rcases hl.same hl' (hq ▸ List.take_prefix i l) (hq' ▸ List.take_prefix j l') ht with h | h
  · rw [← hq] at h
    have := congrArg (List.take j) (List.prefix_iff_eq_take.mp h)
    rwa [hlen, List.take_take, List.take_take, min_eq_left hle] at this
  · rw [← hq'] at h
    rw [List.prefix_iff_eq_take.mp h, hlen']

/-- Log matching: logs that have the same term at an index are the same up to it. -/
theorem Path.take_eq {l l' : List E} (hl : H.Path R l) (hl' : H.Path R l') {i : ℕ}
    (hi : i ≤ l.length) (hi' : i ≤ l'.length)
    (ht : lastTerm R.term (l.take i) = lastTerm R.term (l'.take i)) : l.take i = l'.take i := by
  rcases Nat.eq_zero_or_pos i with rfl | hpos
  · simp
  · exact hl.take_eq_of_le hl' hi hpos hi' le_rfl ht

/-- Where a log has the term that another has at index `j`, but does not have it at `j`, it has it
below `j`. -/
theorem Path.lt_of_term {l l' : List E} (hl : H.Path R l) (hl' : H.Path R l') {i j : ℕ}
    (hi : i ≤ l.length) (hj : 0 < j) (hj' : j ≤ l'.length)
    (ht : lastTerm R.term (l.take i) = lastTerm R.term (l'.take j))
    (hne : lastTerm R.term (l.take j) ≠ lastTerm R.term (l'.take j)) : i < j := by
  by_contra hle
  exact hne (by rw [hl.take_eq_of_le hl' hi hj hj' (not_lt.mp hle) ht])

theorem OK.admits_of_path (hH : H.OK R) {l q : List E} {e : E} (hl : H.Path R l)
    (hq : q ++ [e] <+: l) : R.admits q e := by
  obtain ⟨hsome, hlog⟩ := hl q e hq
  obtain ⟨n, hn⟩ := Option.isSome_iff_exists.mp hsome
  exact hH.log_admits hn q e hlog

/-- The commit behind a configuration entry, wherever the entry is found. -/
theorem OK.conf_of_path (hH : H.OK R) {l q : List E} {e : E} (hl : H.Path R l)
    (hq : q ++ [e] <+: l) (hc : R.isConf e) :
    ∃ p l0, H.commit (R.term e) p l0 ∧ p <+: q ∧ Covers R.isConf p q := by
  obtain ⟨hsome, hlog⟩ := hl q e hq
  obtain ⟨n, hn⟩ := Option.isSome_iff_exists.mp hsome
  exact hH.conf hn q e hlog hc rfl

/-! ### Leader completeness -/

/-- The leaders elected in terms that satisfy `upto` hold what was committed before their terms. -/
def Complete (H : History N E) (upto : ℕ → Prop) : Prop :=
  ∀ t1 el, upto t1 → H.Elected t1 el → ∀ t0 p l, t0 < t1 → H.commit t0 p l → p <+: el

/-- A log that holds an entry of a term after `t0`, from a complete leader, holds every prefix that
was committed in `t0`. -/
theorem OK.holds_of_later (hH : H.OK R) {t0 : ℕ} {upto : ℕ → Prop} {el q p l : List E} {e : E}
    (hC : H.Complete upto) (hel : H.Path R el) (hq : q ++ [e] <+: el) (hlt : t0 < R.term e)
    (het : upto (R.term e)) (hc : H.commit t0 p l) : p <+: el := by
  obtain ⟨el', he'⟩ := hH.exists_elected (hel q e hq).1
  exact (hC _ _ het he' _ _ _ hlt hc).trans (hH.elected_prefix_of_entry hel hq he')

/-- A log that ends before what term `t0` committed does: its entries are of terms up to `t0`, and
those of `t0` end before `p` does. -/
structure Short (R : Rules N E) (t0 : ℕ) (p el : List E) : Prop where
  term_le : ∀ q e, q ++ [e] <+: el → R.term e ≤ t0
  length_lt : ∀ q e, q ++ [e] <+: el → R.term e = t0 → q.length + 1 < p.length

/-- A candidate that lacks a committed prefix has a log that ends before it. -/
theorem OK.short_of_lacks (hH : H.OK R) {t t0 : ℕ} {upto : ℕ → Prop} (hC : H.Complete upto)
    (hupto : ∀ t1 < t, upto t1) {n : N} {el p l : List E} (hcand : H.cand t n = some el)
    (hcommit : H.commit t0 p l) (hnot : ¬p <+: el) : Short R t0 p el where
  term_le q e hq := by
    by_contra hlt
    exact hnot (hH.holds_of_later hC (hH.cand_path hcand) hq (by omega)
      (hupto _ (hH.cand_lt hcand e (hq.subset (by simp)))) hcommit)
  length_lt q e hq het := by
    by_contra hlen
    obtain ⟨-, -, -, hpl, hll, -⟩ := hH.committed hcommit
    have hlog := (hH.cand_path hcand q e hq).2
    rw [het] at hlog
    refine hnot (.trans ?_ hq)
    exact List.prefix_of_prefix_length_le (hpl.trans hll) hlog (by simp; omega)

/-- Such a log does not get the vote of a node that holds the committed prefix. -/
theorem Short.not_upToDate {t0 : ℕ} {p el vl : List E} (h : Short R t0 p el) (hpne : p ≠ [])
    (hpt : lastTerm R.term p = t0) (hmono : Mono R.term vl) (hp : p <+: vl) :
    ¬UpToDate R.term el vl := by
  intro hup
  have hvt : t0 ≤ lastTerm R.term vl := hpt ▸ hmono.lastTerm_le hp
  have hlen := hp.length_le
  have hpos : 0 < p.length := List.length_pos_of_ne_nil hpne
  rcases List.eq_nil_or_concat' el with rfl | ⟨q, e, rfl⟩
  · rcases hup with hlt | ⟨-, hle⟩
    · exact absurd hlt (Nat.not_lt_zero _)
    · rw [List.length_nil] at hle
      omega
  · have hle := h.term_le q e (List.prefix_refl _)
    rcases hup with hlt | ⟨heq, hlonger⟩
    · rw [lastTerm_concat] at hlt
      omega
    · rw [lastTerm_concat] at heq
      have := h.length_lt q e (List.prefix_refl _) (by omega)
      simp at hlonger
      omega

/-- A leader's own entries are of its term, and the others are of terms before it. -/
theorem OK.term_le_of_led (hH : H.OK R) {t0 : ℕ} {m : N} (hm : H.leader t0 = some m) {e : E}
    (he : e ∈ H.log t0) : R.term e ≤ t0 := by
  obtain ⟨el, own, hcand, hlog, hown⟩ := hH.led hm
  rw [hlog] at he
  rcases List.mem_append.mp he with he | he
  · exact (hH.cand_lt hcand e he).le
  · exact (hown e he).le

/-- The log `l` that a commit of `p` in term `t0` counts with and a candidate's log that ends before
`p` are compatible, when the candidate holds what was committed before. -/
theorem OK.compatible_of_short (hH : H.OK R) {t t0 : ℕ} {upto : ℕ → Prop} (hC : H.Complete upto)
    (ht0 : upto t0) {n : N} {el p l : List E} (hcand : H.cand t n = some el)
    (hcommit : H.commit t0 p l) (hshort : Short R t0 p el)
    (hbefore : ∀ t1 < t0, ∀ p0 l0, H.commit t1 p0 l0 → p0 <+: el)
    (hsmaller : ∀ p0 l0, H.commit t0 p0 l0 → p0.length < p.length → p0 <+: el) :
    Compatible R.term R.isConf R.admits l el := by
  obtain ⟨m, -, hm, hpl, hll, hpne, hpt, -⟩ := hH.committed hcommit
  obtain ⟨el0, he0⟩ := hH.exists_elected (Option.isSome_iff_exists.mpr ⟨m, hm⟩)
  have hpath := hH.cand_path hcand
  have hlog0 := hH.log_path hm
  have hel0 : el0 <+: l :=
    List.prefix_of_prefix_length_le (hH.elected_le he0) hll
      ((hH.elected_lt he0 (hpl.trans hll) hpne hpt).le.trans hpl.length_le)
  refine ⟨(hH.log_mono hm).shorter hll, hH.cand_mono hcand,
    fun q e hq => hH.admits_of_path hlog0 (hq.trans hll),
    fun q e hq => hH.admits_of_path hpath hq, fun q e hq hconf => ?_, fun q e hq hconf => ?_,
    fun q e q' e' hq hq' ht => (hlog0.shorter hll).same hpath hq hq' ht⟩
  · have hterm := hH.term_le_of_led hm ((hq.trans hll).subset (show e ∈ q ++ [e] by simp))
    rcases Nat.lt_or_eq_of_le hterm with hlt | heq
    · obtain ⟨p0, l0, hc0, hp0, hcov⟩ := hH.conf_of_path hlog0 (hq.trans hll) hconf
      obtain ⟨-, -, -, -, -, hne0, ht0', -, -⟩ := hH.committed hc0
      exact ⟨p0, hne0, hp0, hbefore _ hlt _ _ hc0, ht0', hcov⟩
    · obtain ⟨p0, l0, hc0, hp0, hcov, hlen⟩ := hH.commit_conf hcommit q e hq hconf heq
      obtain ⟨-, -, -, -, -, hne0, ht0', -, -⟩ := hH.committed hc0
      exact ⟨p0, hne0, hp0, hsmaller _ _ hc0 hlen, by rw [ht0', heq], hcov⟩
  · obtain ⟨p0, l0, hc0, hp0, hcov⟩ := hH.conf_of_path hpath hq hconf
    obtain ⟨-, -, -, -, -, hne0, ht0', -, -⟩ := hH.committed hc0
    refine ⟨p0, hne0, hp0, ?_, ht0', hcov⟩
    rcases Nat.lt_or_eq_of_le (hshort.term_le q e hq) with hlt | heq
    · exact (hC t0 el0 ht0 he0 _ _ _ hlt hc0).trans hel0
    · have hqlog := (hpath q e hq).2
      rw [heq] at hqlog
      have hqp : q ++ [e] <+: p := by
        refine List.prefix_of_prefix_length_le hqlog (hpl.trans hll) ?_
        have := hshort.length_lt q e hq heq
        simp
        omega
      exact (hp0.trans (List.prefix_append q [e])).trans (hqp.trans hpl)

/-- The step of leader completeness: a log that a quorum voted for in term `t` holds what was
committed before `t`, when the leaders before `t` do. -/
theorem OK.complete_of_votes (hH : H.OK R) {t : ℕ} {upto : ℕ → Prop} (hC : H.Complete upto)
    (hupto : ∀ t1 < t, upto t1) {n : N} {el : List E} {Q : Set N} (hcand : H.cand t n = some el)
    (hQ : R.Quorum el Q)
    (hv : ∀ v ∈ Q, ∃ vl, H.vote v t = some (n, vl) ∧ H.Keeps v t upto vl) :
    ∀ t0 < t, ∀ k p l, p.length = k → H.commit t0 p l → p <+: el := by
  -- Commits of one term are taken in the order of their lengths: the configuration that a commit
  -- counts with is justified by a smaller one.
  intro t0
  induction t0 using Nat.strong_induction_on with
  | _ t0 iht =>
  intro ht0 k
  induction k using Nat.strong_induction_on with
  | _ k ihk =>
  rintro p l rfl hcommit
  by_contra hnot
  obtain ⟨-, Qc, -, -, -, hpne, hpt, hQc, hack⟩ := hH.committed hcommit
  have hshort := hH.short_of_lacks hC hupto hcand hcommit hnot
  have hcompat := hH.compatible_of_short hC (hupto t0 ht0) hcand hcommit hshort
    (fun t1 h1 p0 l0 hc => iht t1 h1 (h1.trans ht0) _ p0 l0 rfl hc)
    (fun p0 l0 hc hlen => ihk _ hlen p0 l0 rfl hc)
  -- A voter has acknowledged the commit, and so it had the prefix when it voted.
  obtain ⟨v, hvc, hve⟩ := R.overlap l el hcompat Qc Q hQc hQ
  obtain ⟨vl, hvote, hkeep⟩ := hv v hve
  have hpvl : p <+: vl := hkeep t0 p ht0 (hack v hvc)
    fun t1 el1 h1 h2 he1 => hC t1 el1 h2 he1 t0 p l h1 hcommit
  obtain ⟨cl, hcl, hup, hmono, -⟩ := hH.voted hvote
  obtain rfl : el = cl := by simpa [hcand] using hcl
  exact hshort.not_upToDate hpne hpt hmono hpvl hup

/-- Every leader holds what was committed in the terms before its own. -/
theorem OK.complete (hH : H.OK R) : H.Complete fun _ => True := by
  have key : ∀ t, H.Complete (· < t) := by
    intro t
    induction t with
    | zero => intro t1 el h
              omega
    | succ t ih =>
      intro t1 el h1 he t0 p l h01 hc
      rcases Nat.lt_or_eq_of_le (Nat.le_of_lt_succ h1) with hlt | rfl
      · exact ih t1 el hlt he t0 p l h01 hc
      · obtain ⟨n, hn, hcand⟩ := he
        obtain ⟨el', Q, hcand', hQ, hv⟩ := hH.won hn
        obtain rfl : el = el' := by simpa [hcand] using hcand'
        exact hH.complete_of_votes ih (fun _ h => h) hcand hQ hv t0 h01 _ p l rfl hc
  intro t1 el _ he
  exact key (t1 + 1) t1 el (Nat.lt_succ_self t1) he

/-- A node wins term `t` when a quorum of its log voted for it. -/
def Wins (R : Rules N E) (H : History N E) (t : ℕ) (n : N) : Prop :=
  ∃ el Q, H.cand t n = some el ∧ R.Quorum el Q ∧ ∀ v ∈ Q, ∃ vl, H.vote v t = some (n, vl)

theorem OK.complete_of_wins (hH : H.OK R) {t : ℕ} {n : N} (hw : H.Wins R t n) {el : List E}
    (hcand : H.cand t n = some el) {t0 : ℕ} {p l : List E} (h0 : t0 < t) (hc : H.commit t0 p l) :
    p <+: el := by
  obtain ⟨el', Q, hcand', hQ, hv⟩ := hw
  obtain rfl : el = el' := by simpa [hcand] using hcand'
  have hC : H.Complete (· ≤ t) := fun t1 el1 _ => hH.complete t1 el1 trivial
  refine hH.complete_of_votes hC (fun _ h => h.le) hcand hQ (fun v hvQ => ?_) t0 h0 _ p l rfl hc
  obtain ⟨vl, hvote⟩ := hv v hvQ
  obtain ⟨-, -, -, -, hkeep⟩ := hH.voted hvote
  exact ⟨vl, hvote, hkeep⟩

/-- Two logs that stood in term `t` and hold what was committed before it are compatible. -/
theorem OK.compatible_of_complete (hH : H.OK R) {t : ℕ} {n m : N} {l l' : List E}
    (hl : H.cand t n = some l) (hl' : H.cand t m = some l')
    (hc : ∀ t0 p l0, t0 < t → H.commit t0 p l0 → p <+: l)
    (hc' : ∀ t0 p l0, t0 < t → H.commit t0 p l0 → p <+: l') :
    Compatible R.term R.isConf R.admits l l' := by
  have link : ∀ {n l l'}, H.cand t n = some l →
      (∀ t0 p l0, t0 < t → H.commit t0 p l0 → p <+: l') → Linked R.term R.isConf l l' := by
    intro n l l' hl hc' q e hq hconf
    obtain ⟨p, l0, hcommit, hp, hcov⟩ := hH.conf_of_path (hH.cand_path hl) hq hconf
    obtain ⟨-, -, -, -, -, hne, ht, -, -⟩ := hH.committed hcommit
    exact ⟨p, hne, hp, hc' _ p l0 (hH.cand_lt hl e (hq.subset (by simp))) hcommit, ht, hcov⟩
  exact ⟨hH.cand_mono hl, hH.cand_mono hl', fun q e => hH.admits_of_path (hH.cand_path hl),
    fun q e => hH.admits_of_path (hH.cand_path hl'), link hl hc', link hl' hc,
    fun q e q' e' hq hq' ht => (hH.cand_path hl).same (hH.cand_path hl') hq hq' ht⟩

/-- Election safety: whoever wins a term that has a leader is that leader. -/
theorem OK.leader_of_wins (hH : H.OK R) {t : ℕ} {n m : N} (hw : H.Wins R t n)
    (hm : H.leader t = some m) : n = m := by
  obtain ⟨lm, Qm, hcm, hQm, hvm⟩ := hH.won hm
  have hcn := hw
  obtain ⟨ln, Qn, hcn, hQn, hvn⟩ := hcn
  have hcompat := hH.compatible_of_complete hcn hcm
    (fun t0 p l0 h0 hc => hH.complete_of_wins hw hcn h0 hc)
    (fun t0 p l0 h0 hc => hH.complete t lm trivial ⟨m, hm, hcm⟩ t0 p l0 h0 hc)
  obtain ⟨v, h1, h2⟩ := R.overlap ln lm hcompat Qn Qm hQn hQm
  obtain ⟨vl, hv1⟩ := hvn v h1
  obtain ⟨vl', hv2, -⟩ := hvm v h2
  simpa using (congrArg (Option.map Prod.fst) (hv1.symm.trans hv2))

/-- A prefix committed in an earlier term, or in the same one, is held by the leader's log. -/
theorem OK.commit_prefix_log (hH : H.OK R) {t0 t : ℕ} {p l : List E} {n : N} (h0 : t0 ≤ t)
    (hc : H.commit t0 p l) (hn : H.leader t = some n) : p <+: H.log t := by
  rcases Nat.lt_or_eq_of_le h0 with hlt | rfl
  · obtain ⟨el, he⟩ := hH.exists_elected (Option.isSome_iff_exists.mpr ⟨n, hn⟩)
    exact (hH.complete t el trivial he t0 p l hlt hc).trans (hH.elected_le he)
  · obtain ⟨-, -, -, hpl, hll, -⟩ := hH.committed hc
    exact hpl.trans hll

/-- Of two committed prefixes one extends the other. -/
theorem OK.commit_total (hH : H.OK R) {t t' : ℕ} {p l p' l' : List E} (hc : H.commit t p l)
    (hc' : H.commit t' p' l') : p <+: p' ∨ p' <+: p := by
  obtain ⟨n, -, hn, -⟩ := hH.committed hc
  obtain ⟨n', -, hn', -⟩ := hH.committed hc'
  rcases Nat.le_total t t' with h | h
  · exact List.prefix_or_prefix_of_prefix (hH.commit_prefix_log h hc hn')
      (hH.commit_prefix_log le_rfl hc' hn')
  · exact List.prefix_or_prefix_of_prefix (hH.commit_prefix_log le_rfl hc hn)
      (hH.commit_prefix_log h hc' hn)

end History
end RaftStore.Consensus
