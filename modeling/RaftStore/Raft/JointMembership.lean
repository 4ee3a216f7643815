import RaftStore.Raft.ConfInForce
import RaftStore.Raft.FixedMembership

/-! A cluster whose membership changes by joint consensus, and that takes no snapshots.  A node's
configuration is the one its log establishes, so two nodes may count with different ones at the same
time; the rules by which a configuration entry is appended make those that can meet overlap. -/

namespace RaftStore.Raft

open Consensus RawNode

/-- A configuration entry may follow `l` if quorums of the two configurations share a voter. -/
def Admits (boot : Configuration) (l : List LogEntry) (e : LogEntry) : Prop :=
  IsConf e → ∃ cc, ConfChange.decode e.command = .ok cc ∧ (confOf boot l).Overlaps cc.config

section ConfOf

variable {boot : Configuration} {l l' q q' : List LogEntry} {e e' : LogEntry}

/-- `e` after `q` is the last configuration entry of `l`. -/
structure IsLast (l q : List LogEntry) (e : LogEntry) : Prop where
  le : q ++ [e] <+: l
  conf : IsConf e
  last : ∀ r x, r ++ [x] <+: l → IsConf x → r ++ [x] <+: q ++ [e]

theorem noConf_or_last (l : List LogEntry) : NoConf l ∨ ∃ q e, IsLast l q e := by
  induction l using List.reverseRecOn with
  | nil => exact Or.inl nofun
  | append_singleton l x ih =>
    by_cases hx : IsConf x
    · exact Or.inr ⟨l, x, List.prefix_refl _, hx, fun r y hr _ => hr⟩
    · rcases ih with h | ⟨q, e, h⟩
      · exact Or.inl (h.append (by simpa [NoConf] using hx))
      · refine Or.inr ⟨q, e, h.le.trans (List.prefix_append ..), h.conf, fun r y hr hy => ?_⟩
        rcases List.prefix_concat_iff.mp hr with heq | hr
        · obtain ⟨-, hyx⟩ := List.append_inj' heq rfl
          cases hyx
          exact absurd hy hx
        · exact h.last r y hr hy

theorem NoConf.not_prefix (h : NoConf l) (hq : q ++ [e] <+: l) : ¬IsConf e :=
  h e (hq.subset (by simp))

theorem IsLast.confOf_eq (h : IsLast l q e) : confOf boot l = confOf boot (q ++ [e]) := by
  obtain ⟨b, rfl⟩ := h.le
  refine confOf_append_noConf fun x hx hty => ?_
  obtain ⟨b1, b2, rfl⟩ := List.append_of_mem hx
  have := (h.last (q ++ [e] ++ b1) x ⟨b2, by simp⟩ hty).length_le
  simp at this

/-- If the last configuration entry of `l` is also in `l'`, the two configurations overlap. -/
theorem overlaps_of_last (hadm : ∀ q e, q ++ [e] <+: l' → Admits boot q e)
    (hlink : Linked LogEntry.term IsConf l' l) (hl : IsLast l q e) (hl' : IsLast l' q' e')
    (hin : q ++ [e] <+: l') : (confOf boot l).Overlaps (confOf boot l') := by
  rcases List.prefix_concat_iff.mp (hl'.last q e hin hl.conf) with heq | hlt
  · rw [hl.confOf_eq, hl'.confOf_eq, heq]
    exact Configuration.overlaps_self _
  · obtain ⟨p, -, hpq, hpl, -, hcov⟩ := hlink q' e' hl'.le hl'.conf
    have hlast : IsLast q' q e :=
      ⟨hlt, hl.conf, fun r x hr hx => hl.last r x ((hcov r x hr hx).trans hpl) hx⟩
    obtain ⟨cc, hdec, hover⟩ := hadm q' e' hl'.le hl'.conf
    rw [hl'.confOf_eq, confOf_concat hl'.conf hdec, hl.confOf_eq, ← hlast.confOf_eq]
    exact hover

/-- A log with a configuration entry against one without any. -/
theorem overlaps_of_noConf (hadm : ∀ q e, q ++ [e] <+: l' → Admits boot q e)
    (hlink : Linked LogEntry.term IsConf l' l) (hl : NoConf l) (hl' : IsLast l' q' e') :
    (confOf boot l).Overlaps (confOf boot l') := by
  obtain ⟨p, -, hpq, hpl, -, hcov⟩ := hlink q' e' hl'.le hl'.conf
  have hq : NoConf q' := by
    intro x hx hty
    obtain ⟨b1, b2, rfl⟩ := List.append_of_mem hx
    exact hl.not_prefix ((hcov b1 x ⟨b2, by simp⟩ hty).trans hpl) hty
  obtain ⟨cc, hdec, hover⟩ := hadm q' e' hl'.le hl'.conf
  rw [confOf_noConf hq] at hover
  rw [hl'.confOf_eq, confOf_concat hl'.conf hdec, confOf_noConf hl]
  exact hover

/-- An entry of an earlier term than one that the other log justifies is in the other log. -/
theorem prefix_of_term_lt (hmono : Mono LogEntry.term l)
    (hlink : Linked LogEntry.term IsConf l' l) (hq : q ++ [e] <+: l) (hq' : q' ++ [e'] <+: l')
    (hconf' : IsConf e') (hlt : e.term < e'.term) : q ++ [e] <+: l' := by
  obtain ⟨p, hne, hpq, hpl, hlast, -⟩ := hlink q' e' hq' hconf'
  rcases List.prefix_or_prefix_of_prefix hq hpl with h | h
  · exact (h.trans hpq).trans ((List.prefix_append ..).trans hq')
  · have := (hmono.shorter hq).lastTerm_le h
    rw [lastTerm_concat, hlast] at this
    omega

theorem overlaps_of_compatible
    (h : Compatible LogEntry.term IsConf (Admits boot) l l') :
    (confOf boot l).Overlaps (confOf boot l') := by
  rcases noConf_or_last l with hl | ⟨q, e, hl⟩ <;> rcases noConf_or_last l' with hl' | ⟨q', e', hl'⟩
  · rw [confOf_noConf hl, confOf_noConf hl']
    exact Configuration.overlaps_self _
  · exact overlaps_of_noConf h.admitted' h.linked' hl hl'
  · exact (overlaps_of_noConf h.admitted h.linked hl' hl).symm
  · rcases Nat.lt_trichotomy e.term e'.term with hlt | heq | hgt
    · exact overlaps_of_last h.admitted' h.linked' hl hl'
        (prefix_of_term_lt h.mono h.linked' hl.le hl'.le hl'.conf hlt)
    · rcases h.same q e q' e' hl.le hl'.le heq with hin | hin
      · exact overlaps_of_last h.admitted' h.linked' hl hl' hin
      · exact (overlaps_of_last h.admitted h.linked hl' hl hin).symm
    · exact (overlaps_of_last h.admitted h.linked hl' hl
        (prefix_of_term_lt h.mono' h.linked hl'.le hl.le hl.conf hgt)).symm

end ConfOf

/-- A node counts in the configuration that its log establishes. -/
def jointMembership (boot : Configuration) : Membership where
  isConf := IsConf
  admits := Admits boot
  Quorum l Q := ∃ g, (confOf boot l).hasQuorum g = true ∧ Q = {v | g v = true}
  overlap := by
    rintro l l' hc Q Q' ⟨g, hg, rfl⟩ ⟨g', hg', rfl⟩
    obtain ⟨v, hv, hv'⟩ := overlaps_of_compatible hc g g' hg hg'
    exact ⟨v, hv, hv'⟩

/-! ### What holds of every node and message -/

/-- A configuration entry carries a configuration that can be read and written, and names someone. -/
def ReadableEntry (e : LogEntry) : Prop :=
  IsConf e → ∃ cc, ConfChange.decode e.command = .ok cc ∧ cc.config.Sized ∧
    cc.config.isEmpty = false

theorem ReadableEntry.meaningful {e : LogEntry} (h : ReadableEntry e) : Meaningful e := by
  intro hty
  obtain ⟨cc, hdec, -, hne⟩ := h hty
  exact ⟨cc, hdec, hne⟩

structure JointMsg (m : Message) : Prop where
  entries : ∀ e ∈ m.entries, ReadableEntry e
  snapshot : m.snapshot = none

/-- The storage has its whole log. -/
structure JointDisk (m : MemoryStorage) : Prop where
  base : m.base = {}
  snapshot : m.snapshot = {}
  ents : ∀ e ∈ m.ents, ReadableEntry e

structure JointNode (boot : Configuration) (r : RawNode) : Prop where
  disk : JointDisk r.log.mem
  bootstrap : r.bootstrap = boot
  conf : ConfFrom r.log.mem boot r.conf r.confIndex
  msgs : ∀ m ∈ r.msgs, JointMsg m

theorem LastConf.isLast {l a : List LogEntry} {conf : Configuration} (h : LastConf l a conf) :
    ∃ e cc, IsLast l a e ∧ ConfChange.decode e.command = .ok cc ∧ cc.config = conf := by
  obtain ⟨e, b, cc, rfl, hty, hdec, hcc, hb⟩ := h.split
  refine ⟨e, cc, ⟨⟨b, by simp⟩, hty, fun r x hr hx => ?_⟩, hdec, hcc⟩
  by_cases hlen : r.length ≤ a.length
  · exact List.prefix_of_prefix_length_le hr ⟨b, by simp⟩ (by simpa using hlen)
  · -- A longer prefix ends in `b`, which has no configuration entry.
    obtain ⟨s, hs⟩ := hr
    have hget : (a ++ e :: b)[r.length]? = some x := by
      rw [← hs]
      simp
    rw [List.getElem?_append_right (by omega),
      show r.length - a.length = (r.length - a.length - 1) + 1 by omega,
      List.getElem?_cons_succ] at hget
    exact absurd hx (hb x (List.mem_of_getElem? hget))

section ConfFrom

variable {boot conf : Configuration} {m : MemoryStorage} {i : ℕ}

theorem ConfFrom.eq_confOf (h : ConfFrom m boot conf i) (hm : JointDisk m) :
    conf = confOf boot m.ents := by
  cases h with
  | entry a conf hl =>
    obtain ⟨e, cc, hlast, hdec, hcc⟩ := hl.isLast
    rw [hlast.confOf_eq, confOf_concat hlast.conf hdec, hcc]
  | snapshot _ hne =>
    rw [hm.snapshot] at hne
    exact nomatch hne
  | bootstrap hno => exact (confOf_noConf hno).symm

/-- Every configuration entry is within the first `i`, where `i` is the last one's index. -/
theorem ConfFrom.covers (h : ConfFrom m boot conf i) {k : ℕ} (hk : i ≤ k) :
    Covers IsConf (m.ents.take k) m.ents := by
  intro q e hq hconf
  cases h with
  | entry a conf hl =>
    obtain ⟨e', cc, hlast, -, -⟩ := hl.isLast
    have hle := (hlast.last q e hq hconf).length_le
    refine List.prefix_of_prefix_length_le hq (List.take_prefix ..) ?_
    have := hq.length_le
    simp only [List.length_append, List.length_singleton, List.length_take] at *
    omega
  | snapshot hno => exact absurd hconf (hno.not_prefix hq)
  | bootstrap hno => exact absurd hconf (hno.not_prefix hq)

/-- The configuration in force is in normal form and can be written. -/
theorem ConfFrom.normalized (h : ConfFrom m boot conf i) (hm : JointDisk m) (hn : boot.Normalized)
    (hs : boot.Sized) : conf.Normalized ∧ conf.Sized := by
  cases h with
  | entry a conf hl =>
    obtain ⟨e, b, cc, hents, hty, hdec, rfl, -⟩ := hl.split
    obtain ⟨cc', hdec', hsz, -⟩ := hm.ents e (by rw [hents]; simp) hty
    rw [hdec] at hdec'
    cases hdec'
    exact ⟨ConfChange.normalized_of_decode hdec, hsz⟩
  | snapshot _ hne =>
    rw [hm.snapshot] at hne
    exact nomatch hne
  | bootstrap => exact ⟨hn, hs⟩

end ConfFrom

/-- A change that a node proposes can be read back, and its configuration overlaps the one in
force. -/
theorem proposed_change {cl : Cluster} {n : NodeID} {c : Call} {r : RawNode} {cc : ConfChange}
    (hc : Cluster.jointCalls cl n c) (hp : r.Proposes c cc) (hn : r.conf.Normalized)
    (hs : r.conf.Sized) :
    ∃ cc', ConfChange.decode cc.encode = .ok cc' ∧ cc'.config.Sized ∧
      cc'.config.isEmpty = false ∧ r.conf.Overlaps cc'.config := by
  have htarget : ∀ target, c = .proposeConfChange target → target.Sized := by
    rintro target rfl
    exact hc
  have hsz : cc.config.Sized := hp.sized hs htarget
  have hcc : cc.config.Normalized ∧ r.conf.Overlaps cc.config := by
    rcases hp.change with ⟨target, rfl, henter⟩ | hleave
    · refine ⟨?_, enterJoint_overlaps hn henter⟩
      rw [enterJoint_ok henter]
      exact Configuration.normalize_normalized _
    · refine ⟨?_, leaveJoint_overlaps hn hleave⟩
      rw [(leaveJoint_ok hleave).2.2]
      exact Configuration.normalize_normalized _
  obtain ⟨hnorm, hover⟩ := hcc
  obtain ⟨cc', hdec, hne⟩ := hp.meaningful hs htarget
  obtain rfl := Except.ok.inj (hdec.symm.trans (cc.decode_encode hsz))
  refine ⟨_, hdec, ?_, hne, ?_⟩ <;> rw [hnorm.normalize_eq] <;> assumption

namespace JointNode

variable {boot : Configuration} {r : RawNode}

theorem withLog (h : JointNode boot r) {l : RaftLog} (hl : JointDisk l.mem)
    (hc : ConfFrom l.mem boot r.conf r.confIndex) : JointNode boot { r with log := l } :=
  ⟨hl, h.bootstrap, hc, h.msgs⟩

/-- Recomputing the configuration makes it the one of the log. -/
theorem of_refreshed (hd : JointDisk r.log.mem) (hb : r.bootstrap = boot)
    (hm : ∀ m ∈ r.msgs, JointMsg m) : JointNode boot r.refreshed := by
  obtain ⟨r', hr'⟩ := refreshConfiguration_isOk (r := r) fun e he hty =>
    (hd.ents e he hty).imp fun _ h => h.1
  have heq : r.refreshed = r' := by rw [refreshed, hr']
  have hrec := refreshed_reconf r
  rw [heq] at hrec ⊢
  have hc := refreshConfiguration_ok hr'
  refine ⟨?_, ?_, ?_, ?_⟩
  · rw [hrec.eq]
    exact hd
  · rw [hrec.eq]
    exact hb
  · have hlog : r'.log = r.log := by rw [hrec.eq]
    rw [hlog, ← hb]
    exact hc
  · rw [hrec.eq]
    exact hm

theorem sendable {c : Call} {m : Message} (h : JointNode boot r) (hm : Sendable c r m) :
    JointMsg m := by
  cases hm with
  | append dest pr prevTerm entries readID _ _ he _ =>
    exact ⟨fun e hx => h.disk.ents e (mem_entriesFrom he e hx), rfl⟩
  | snapshot dest pr _ hne =>
    rw [h.disk.snapshot] at hne
    exact nomatch hne
  | _ => exact ⟨nofun, rfl⟩

theorem effect (hn : boot.Normalized) (hs : boot.Sized) {cl : Cluster} {n : NodeID} {c : Call}
    {r' : RawNode} (hc : Cluster.jointCalls cl n c) (h : JointNode boot r)
    (hmsg : ∀ m, c = .step m → JointMsg m) (he : Effect c r r') : JointNode boot r' := by
  have hmsgs := he.outbox.msgs h.msgs fun m hm =>
    ⟨(h.sendable hm).entries, (h.sendable hm).snapshot⟩
  have hboot := he.frame.1.bootstrap.trans h.bootstrap
  cases he.logChange with
  | same _ hsame =>
    refine ⟨⟨?_, ?_, ?_⟩, hboot, ?_, hmsgs⟩
    · rw [hsame.base]
      exact h.disk.base
    · rw [hsame.snapshot]
      exact h.disk.snapshot
    · rw [hsame.ents]
      exact h.disk.ents
    · rw [hsame.conf, hsame.confIndex]
      exact h.conf.congr hsame.base hsame.ents hsame.snapshot
  | extended e _ _ _ hcc =>
    have hent : ReadableEntry e := by
      intro hty
      obtain ⟨cc, hprop, hcmd⟩ := hcc hty
      obtain ⟨hnorm, hsz⟩ := h.conf.normalized h.disk hn hs
      obtain ⟨cc', hdec, hsz', hne, -⟩ := proposed_change hc hprop hnorm hsz
      exact ⟨cc', hcmd ▸ hdec, hsz', hne⟩
    have hdisk : JointDisk { r.log.mem with ents := r.log.mem.ents ++ [e] } := by
      refine ⟨h.disk.base, h.disk.snapshot, fun x hx => ?_⟩
      rcases List.mem_append.mp hx with hx | hx
      · exact h.disk.ents x hx
      · rw [List.mem_singleton.mp hx]
        exact hent
    rw [extended]
    split
    · exact of_refreshed hdisk h.bootstrap h.msgs
    · rename_i hty
      exact h.withLog hdisk (h.conf.concat hty)
  | followed m l committed hcm _ hsp =>
    have hdisk : JointDisk l.mem := by
      refine ⟨?_, ?_, fun x hx => ?_⟩
      · cases hsp <;> exact h.disk.base
      · cases hsp <;> exact h.disk.snapshot
      · rcases mem_spliced hsp x hx with hx | hx
        · exact h.disk.ents x hx
        · exact (hmsg m hcm).entries x hx
    rw [refreshedIfNeeded]
    split
    · exact of_refreshed hdisk h.bootstrap h.msgs
    · rename_i hno
      obtain ⟨h1, h2⟩ := confChanged_false (Bool.eq_false_iff.mpr hno)
      have hconf : ConfFrom l.mem boot r.conf r.confIndex := h.conf.spliced hsp h1 h2
      exact h.withLog hdisk hconf
  | restored m snap mem hcm _ hsn =>
    rw [(hmsg m hcm).snapshot] at hsn
    cases hsn
  | saved data term mem hcm =>
    subst hcm
    exact hc.elim
  | compacted upto mem data hcm =>
    subst hcm
    exact hc.elim

theorem start {cfg : Config} {st : MemoryStorage} (hd : JointDisk st) (hb : cfg.bootstrap = boot)
    (h : new cfg { mem := st } = .ok r) : JointNode boot r := by
  have hr := started_of_new h
  have hlog : r.log.mem = st := by rw [hr.log]; rfl
  refine ⟨hlog ▸ hd, hr.bootstrap.trans hb, ?_, by rw [hr.msgs]; exact fun _ h => nomatch h⟩
  rw [hlog, ← hb]
  exact confFrom_of_new h

theorem log_eq (h : JointNode boot r) {l : List LogEntry} (hb : Backs l r.log.mem) :
    l = r.log.mem.ents := by
  rw [hb.ents, h.disk.base]
  rfl

/-- What a leader appends may follow its log. -/
theorem admits (hn : boot.Normalized) (hs : boot.Sized) {cl : Cluster} {n : NodeID} {c : Call}
    {e : LogEntry} (hc : Cluster.jointCalls cl n c) (h : JointNode boot r)
    (hcc : e.type = .confChange → ∃ cc, r.Proposes c cc ∧ e.command = cc.encode) :
    Admits boot r.log.mem.ents e ∧
      (IsConf e → IsConf e ∧ Covers IsConf (r.log.mem.ents.take r.log.committed) r.log.mem.ents) := by
  refine ⟨fun hty => ?_, fun hty => ⟨hty, ?_⟩⟩
  · obtain ⟨cc, hprop, hcmd⟩ := hcc hty
    obtain ⟨hnorm, hsz⟩ := h.conf.normalized h.disk hn hs
    obtain ⟨cc', hdec, -, -, hover⟩ := proposed_change hc hprop hnorm hsz
    refine ⟨cc', hcmd ▸ hdec, ?_⟩
    rw [← h.conf.eq_confOf h.disk]
    exact hover
  · obtain ⟨cc, hprop, -⟩ := hcc hty
    exact h.conf.covers hprop.settled

end JointNode

/-- Runs in which any leader may change the membership, and no snapshot is taken. -/
def joint (boot : Configuration) (hn : boot.Normalized) (hs : boot.Sized) : Regime where
  M := jointMembership boot
  boot := boot
  calls := Cluster.jointCalls
  node := JointNode boot
  disk := JointDisk
  msg := JointMsg
  sent h := h
  fresh := ⟨rfl, rfl, nofun⟩
  start _ hd hb h := .start hd hb h
  stop h := h.disk
  msgs h := h.msgs
  effect hc _ h hmsg he := h.effect hn hs hc hmsg he
  quorum h hb hg := by
    refine ⟨_, ?_, rfl⟩
    rw [h.log_eq hb, ← h.conf.eq_confOf h.disk]
    exact hg
  admits hc _ h hb _ _ hcc := by
    rw [h.log_eq hb]
    exact h.admits hn hs hc hcc

/-- Joint-consensus safety: a term has one leader, and nodes agree on what both have committed,
whatever membership changes are proposed, completed or rolled back in between. -/
theorem joint_consensus_safety (boot : Configuration) (hn : boot.Normalized) (hs : boot.Sized)
    {c c' : Cluster} (hm : Cluster.Moments boot Cluster.jointCalls c c') {a b : NodeID}
    {r r' : RawNode} (ha : c.node? a = some r) (hb : c'.node? b = some r') :
    (r.state = .leader → r'.state = .leader → r.term = r'.term → a = b) ∧
      ∀ i e e', i ≤ r.log.committed → i ≤ r'.log.committed → r.log.mem.getEntry i = .ok e →
        r'.log.mem.getEntry i = .ok e' → e = e' :=
  ⟨(joint boot hn hs).one_leader hm ha hb, fun _ _ _ hi hi' he he' =>
    (joint boot hn hs).committed_agree hm ha hb hi he hi' he'⟩

/-- After the election the third node is voted out; the change is committed and left. -/
def votedOut : List Cluster.Event :=
  [.act 1 (.call (.proposeConfChange { voters := [1, 2] }) []), .act 1 (.call .messages []),
   .deliver 2 9, .deliver 2 11, .act 2 (.call .messages []), .deliver 1 14]

theorem joint_consensus_safety_votedOut :
    ∃ r r', (({} : Cluster).plays (Cluster.election ++ votedOut)).node? 1 = some r ∧
      r.conf = { voters := [1, 2] } ∧ 2 ≤ r.log.committed ∧
      (({} : Cluster).plays (Cluster.election ++ votedOut)).node? 2 = some r' ∧
      1 ≤ r'.log.committed ∧ ∀ e e', r.log.mem.getEntry 1 = .ok e →
        r'.log.mem.getEntry 1 = .ok e' → e = e' := by
  have hrun : Cluster.Run Cluster.trio Cluster.jointCalls {}
      (({} : Cluster).plays (Cluster.election ++ votedOut)) := Cluster.run_plays (by decide +kernel)
  obtain ⟨r, hr, ht⟩ := Cluster.exists_node
    (c := ({} : Cluster).plays (Cluster.election ++ votedOut)) (n := 1)
    (fun r => r.conf = { voters := [1, 2] } ∧ 2 ≤ r.log.committed) (by decide +kernel)
  obtain ⟨r', hr', hi'⟩ := Cluster.exists_node
    (c := ({} : Cluster).plays (Cluster.election ++ votedOut)) (n := 2)
    (fun r => 1 ≤ r.log.committed) (by decide +kernel)
  simp only [decide_eq_true_eq] at ht hi'
  have h := joint_consensus_safety Cluster.trio Cluster.trio_normalized Cluster.trio_sized
    (Or.inl ⟨hrun, .refl⟩) hr hr'
  exact ⟨r, r', hr, ht.1, ht.2, hr', hi', fun e e' => h.2 1 e e' (by omega) hi'⟩

end RaftStore.Raft
