import RaftStore.Raft.ConfInForce
import RaftStore.Raft.Backing

/-! A follower of one leader.  Its log is always a beginning of the leader's, and recomputing its
configuration always yields the one that this beginning establishes.  Installing a snapshot sets the
configuration to the snapshot's even when the log is kept, entries above the boundary included; the
two agree when none of those entries changes the configuration. -/

namespace RaftStore.Raft

open Consensus RawNode

/-- A log as a leader may have it. -/
structure LeaderLog (l : List LogEntry) : Prop where
  contiguous : Contiguous 1 l
  meaningful : ∀ e ∈ l, Meaningful e

/-- A message that agrees with the leader's log `l`: a slice of it, or a snapshot of a beginning with
the configuration in force there. -/
inductive FromLog (boot : Configuration) (l : List LogEntry) (m : Message) : Prop
  | append (prev n : ℕ) : prev ≤ l.length → m.type = .appendReq → m.prevLogIndex = prev →
      m.prevLogTerm = termAt l prev → m.entries = (l.drop prev).take n → FromLog boot l m
  | snapshot (k : ℕ) (data : List UInt8) : k ≤ l.length → m.type = .snapshotReq →
      m.snapshot = some ⟨k, termAt l k, confOf boot (l.take k), data⟩ → FromLog boot l m

/-- What the storage of a follower holds: a beginning `p` of the leader's log. -/
structure MirrorDisk (boot : Configuration) (l p : List LogEntry) (m : MemoryStorage) : Prop where
  le : p <+: l
  backs : Backs p m
  base_le : m.base.index ≤ m.snapshot.lastIncludedIndex
  snapshot : m.snapshot.config = confOf boot (l.take m.snapshot.lastIncludedIndex) ∨
    m.snapshot.lastIncludedIndex = 0 ∧ m.snapshot.config.isEmpty = true

section

variable {boot conf : Configuration} {l p : List LogEntry} {m : MemoryStorage} {i : ℕ}

/-- A configuration that names nobody was not established by any entry. -/
theorem noConf_of_isEmpty (hm : ∀ e ∈ l, Meaningful e) (h : (confOf boot l).isEmpty = true) :
    NoConf l := by
  induction l using List.reverseRecOn with
  | nil => exact nofun
  | append_singleton l e ih =>
    by_cases hty : e.type = .confChange
    · obtain ⟨cc, hdec, hne⟩ := hm e (by simp) hty
      rw [confOf_concat hty hdec, hne] at h
      exact nomatch h
    · have hno : NoConf [e] := by simpa [NoConf] using hty
      rw [confOf_append_noConf hno] at h
      exact (ih (fun x hx => hm x (List.mem_append_left _ hx)) h).append hno

/-- What recomputing yields is the configuration of the mirrored log. -/
theorem MirrorDisk.confFrom (hl : LeaderLog l) (h : MirrorDisk boot l p m)
    (hc : ConfFrom m boot conf i) : conf = confOf boot p := by
  have hp : p = p.take m.base.index ++ m.ents := by
    rw [h.backs.ents, List.take_append_drop]
  have hmean : ∀ n, ∀ e ∈ l.take n, Meaningful e := fun n e he =>
    hl.meaningful e (List.mem_of_mem_take he)
  -- Without configuration entries in the storage, the snapshot's beginning has them all.
  have hsame : NoConf m.ents → confOf boot p =
      confOf boot (l.take m.snapshot.lastIncludedIndex) := by
    intro hno
    have htake : l.take m.snapshot.lastIncludedIndex = p.take m.snapshot.lastIncludedIndex := by
      obtain ⟨t, rfl⟩ := h.le
      exact List.take_append_of_le_length h.backs.snap_le
    have hsplit : p.take m.snapshot.lastIncludedIndex = p.take m.base.index ++
        m.ents.take (m.snapshot.lastIncludedIndex - m.base.index) := by
      rw [h.backs.ents, List.take_drop, Nat.add_sub_cancel' h.base_le]
      nth_rewrite 1 [← List.take_append_drop m.base.index (p.take m.snapshot.lastIncludedIndex)]
      rw [List.take_take, min_eq_left h.base_le]
    rw [htake, hsplit, confOf_append_noConf fun e he => hno e (List.mem_of_mem_take he)]
    nth_rewrite 1 [hp]
    rw [confOf_append_noConf hno]
  cases hc with
  | entry a conf hlast =>
    rw [hp]
    exact hlast.confOf_eq.symm
  | snapshot hno hne =>
    rw [hsame hno]
    rcases h.snapshot with hs | ⟨-, hs⟩
    · exact hs
    · rw [hs] at hne
      exact nomatch hne
  | bootstrap hno hemp =>
    rw [hsame hno]
    rcases h.snapshot with hs | ⟨h0, -⟩
    · rw [hs] at hemp
      exact (confOf_noConf (noConf_of_isEmpty (hmean _) hemp)).symm
    · rw [h0]
      rfl

theorem MirrorDisk.meaningful (hl : LeaderLog l) (h : MirrorDisk boot l p m) :
    ∀ e ∈ m.ents, Meaningful e := by
  intro e he
  rw [h.backs.ents] at he
  exact hl.meaningful e (h.le.subset (List.mem_of_mem_drop he))

end

/-- A follower whose configuration is that of the beginning `p` that it holds. -/
structure Mirrors (boot : Configuration) (l p : List LogEntry) (r : RawNode) : Prop where
  disk : MirrorDisk boot l p r.log.mem
  bootstrap : r.bootstrap = boot
  conf : r.conf = confOf boot p

section

variable {boot : Configuration} {l p : List LogEntry} {r r' : RawNode}

theorem MirrorDisk.refreshConfiguration (hl : LeaderLog l) (h : MirrorDisk boot l p r.log.mem)
    (hb : r.bootstrap = boot) :
    ∃ r', r.refreshConfiguration = .ok r' ∧ r'.conf = confOf boot p := by
  obtain ⟨r', hr'⟩ := refreshConfiguration_isOk (r := r) fun e he hty =>
    (h.meaningful hl e he hty).imp fun _ h => h.1
  have hc := refreshConfiguration_ok hr'
  rw [hb] at hc
  exact ⟨r', hr', h.confFrom hl hc⟩

theorem MirrorDisk.refreshed (hl : LeaderLog l) (h : MirrorDisk boot l p r.log.mem)
    (hb : r.bootstrap = boot) : Mirrors boot l p r.refreshed := by
  obtain ⟨r', hr', hconf⟩ := h.refreshConfiguration hl hb
  have heq : r.refreshed = r' := by rw [RawNode.refreshed, hr']
  have hrec := refreshed_reconf r
  rw [heq] at hrec ⊢
  have hlog : r'.log = r.log := by rw [hrec.eq]
  have hboot : r'.bootstrap = r.bootstrap := by rw [hrec.eq]
  exact ⟨hlog ▸ h, hboot.trans hb, hconf⟩

/-- Entries of the leader's log that a follower does not hold come right after those it holds. -/
theorem Mirrors.next (hl : LeaderLog l) (h : MirrorDisk boot l p r.log.mem) (hr : r.Wf)
    {prev n k : ℕ} {e : LogEntry} {rest : List LogEntry}
    (hconf : r.log.findConflict ((l.drop prev).take n) = prev + 1 + k)
    (hdrop : ((l.drop prev).take n).drop k = e :: rest) (hlt : r.log.committed < e.index)
    (hle : e.index ≤ r.log.lastIndex + 1) : e.index = p.length + 1 ∧ p ++ e :: rest <+: l := by
  have hslice : e :: rest = (l.drop (prev + k)).take (n - k) := by
    rw [← hdrop, List.drop_take, List.drop_drop]
  have hat : l[prev + k]? = some e := by
    have : ((l.drop (prev + k)).take (n - k))[0]? = some e := by rw [← hslice]; rfl
    rw [List.getElem?_take] at this
    split at this
    · simpa using this
    · exact nomatch this
  have hidx : e.index = prev + k + 1 := by
    rw [hl.contiguous (prev + k) e hat]
    omega
  have hcont : Contiguous (prev + 1) ((l.drop prev).take n) := by
    have := (hl.contiguous.drop prev).take n
    rwa [Nat.add_comm 1 prev] at this
  have hlast : r.log.lastIndex = p.length := RaftLog.lastIndex_eq h.backs
  have hpl : p.length < e.index := by
    by_contra hge
    -- A held entry is the leader's, so it does not conflict.
    have hterm : r.log.term e.index = .ok (termAt p e.index) :=
      RaftLog.term_of_le h.backs (hr.log.base_le_committed.trans hlt.le) (by omega)
    have hpt : termAt p e.index = e.term := by
      have htake : p.take p.length = l.take p.length := by
        rw [List.take_length]
        exact List.prefix_iff_eq_take.mp h.le
      rw [termAt_of_le (not_lt.mp hge) htake, hidx]
      exact termAt_succ hat
    rcases RaftLog.findConflict_spec (l := r.log) hcont with ⟨h0, -⟩ | ⟨k', -, hk', -, hno⟩
    · omega
    · obtain rfl : k' = k := by omega
      have hmem : ((l.drop prev).take n)[k']? = some e := by
        have h0 : (((l.drop prev).take n).drop k')[0]? = some e := by rw [hdrop]; rfl
        rwa [List.getElem?_drop, Nat.add_zero] at h0
      have := hno e hmem
      rw [RaftLog.matchTerm_eq.mpr (hpt ▸ hterm)] at this
      exact nomatch this
  refine ⟨by omega, ?_⟩
  have hp : p = l.take (prev + k) := by
    rw [List.prefix_iff_eq_take.mp h.le]
    congr 1
    omega
  rw [hslice, hp, ← List.take_add]
  exact List.take_prefix _ _

/-- An append that agrees with the leader's log extends the beginning that is held. -/
theorem Mirrors.follow (hl : LeaderLog l) (h : Mirrors boot l p r) (hr : r.Wf) {m : Message}
    (hm : FromLog boot l m) {l' : RaftLog} {committed : ℕ} (hty : m.type = .appendReq)
    (hsp : r.log.Spliced m.prevLogIndex m.entries l') :
    ∃ p', Mirrors boot l p' ({ r with log := { l' with committed } }.refreshedIfNeeded m.entries) := by
  obtain ⟨prev, n, -, -, hprev, -, hents⟩ | ⟨k, data, -, hty', -⟩ := hm
  swap
  · rw [hty] at hty'
    exact nomatch hty'
  have hdisk : ∃ p', MirrorDisk boot l p' l'.mem ∧
      (NoConf m.entries → confOf boot p' = confOf boot p) := by
    cases hsp with
    | same _ => exact ⟨p, h.disk, fun _ => rfl⟩
    | wrote k e rest faults hconf hdrop hlt hle hcont =>
      rw [hents] at hconf hdrop
      rw [hprev] at hconf
      obtain ⟨hidx, hpre⟩ := Mirrors.next hl h.disk hr hconf hdrop hlt hle
      have hbase := hr.log.base_le_committed
      have hsnap := hr.log.snap_le.trans hr.log.applied_le
      have hcont' : Contiguous 1 (p ++ e :: rest) := by
        rw [List.prefix_iff_eq_take.mp hpre]
        exact hl.contiguous.take _
      refine ⟨p ++ e :: rest, ⟨hpre, ?_, h.disk.base_le, h.disk.snapshot⟩, fun hno => ?_⟩
      · refine h.disk.backs.splice (by simp only [MemoryStorage.offset] at hbase; omega) (by omega)
          (by omega) ?_ hcont'
        rw [hidx, Nat.add_sub_cancel, List.take_length]
      · refine confOf_append_noConf fun x hx => hno x ?_
        rw [hents]
        exact List.mem_of_mem_drop (hdrop ▸ hx)
  obtain ⟨p', hd, hconf⟩ := hdisk
  refine ⟨p', ?_⟩
  rw [refreshedIfNeeded]
  split
  · exact hd.refreshed hl h.bootstrap
  · rename_i hno
    obtain ⟨h1, -⟩ := confChanged_false (Bool.eq_false_iff.mpr hno)
    exact ⟨hd, h.bootstrap, h.conf.trans (hconf h1).symm⟩

/-- Whatever the snapshot says, the configuration becomes that of the new beginning. -/
theorem Mirrors.conf_restored (hl : LeaderLog l) (h : Mirrors boot l p r) {k : ℕ}
    {data : List UInt8} {mem : MemoryStorage} {p' : List LogEntry}
    (hp' : confOf boot p' = confOf boot (l.take k))
    (hempty : NoConf (l.take k) → confOf boot p = confOf boot p') :
    (r.restored ⟨k, termAt l k, confOf boot (l.take k), data⟩ mem).conf = confOf boot p' := by
  cases hemp : (confOf boot (l.take k)).isEmpty with
  | false => rw [(restored_conf r mem hemp).1, hp']
  | true =>
    have hmean : ∀ e ∈ l.take k, Meaningful e := fun e he =>
      hl.meaningful e (List.mem_of_mem_take he)
    have hno := noConf_of_isEmpty hmean hemp
    rw [restored, hemp]
    exact h.conf.trans (hempty hno)

/-- If every configuration entry that is retained is at or below `k`, there is none above `k`. -/
theorem MirrorDisk.noConf_drop (h : MirrorDisk boot l p r.log.mem) {k : ℕ}
    (hbase : r.log.mem.base.index ≤ k)
    (habove : ∀ e ∈ r.log.mem.ents, e.type = .confChange → e.index ≤ k) : NoConf (p.drop k) := by
  intro e hx hty
  obtain ⟨j, hj⟩ := List.getElem?_of_mem hx
  rw [List.getElem?_drop] at hj
  have hmem : e ∈ r.log.mem.ents := by
    rw [h.backs.ents]
    refine List.mem_of_getElem? (i := k + j - r.log.mem.base.index) ?_
    rw [List.getElem?_drop, ← hj]
    congr 1
    omega
  have hidx := h.backs.contiguous (k + j) e hj
  have := habove e hmem hty
  omega

/-- A snapshot that agrees with the leader's log, and above which no configuration entry lies. -/
theorem Mirrors.restore (hl : LeaderLog l) (h : Mirrors boot l p r) (hr : r.Wf) {k : ℕ}
    {data : List UInt8} {mem : MemoryStorage} (hk : k ≤ l.length) (hlt : r.log.committed < k)
    (habove : ∀ e ∈ r.log.mem.ents, e.type = .confChange → e.index ≤ k)
    (hsave : r.log.mem.saveSnapshot ⟨k, termAt l k, confOf boot (l.take k), data⟩ = .ok mem) :
    ∃ p', Mirrors boot l p' (r.restored ⟨k, termAt l k, confOf boot (l.take k), data⟩ mem) := by
  obtain ⟨-, -, hsn, hkept⟩ := RaftLog.saveSnapshot_ok hsave
  obtain ⟨hlog, hboot⟩ := restored_log r ⟨k, termAt l k, confOf boot (l.take k), data⟩ mem
  have hbase : r.log.mem.base.index ≤ r.log.committed := hr.log.base_le_committed
  have hlast : r.log.mem.lastIndex = p.length := h.disk.backs.lastIndex
  have hpl : p = l.take p.length := List.prefix_iff_eq_take.mp h.disk.le
  rcases hkept with ⟨hle, -, hb, he⟩ | ⟨hnot, hb, he⟩
  · -- The entries above the snapshot are kept.
    change k ≤ r.log.mem.lastIndex at hle
    have hkp : l.take k = p.take k := by
      rw [hpl, List.take_take, min_eq_left (by omega)]
    have hsame : confOf boot p = confOf boot (l.take k) := by
      have happ : confOf boot (p.take k ++ p.drop k) = _ :=
        confOf_append_noConf (l := p.take k) (h.disk.noConf_drop (hbase.trans hlt.le) habove)
      rwa [List.take_append_drop, ← hkp] at happ
    refine ⟨p, ⟨?_, hboot.trans h.bootstrap, h.conf_restored hl hsame fun _ => rfl⟩⟩
    rw [hlog]
    refine ⟨h.disk.le, h.disk.backs.save ⟨hb, he⟩ ?_ ?_, ?_, Or.inl ?_⟩ <;> rw [hsn]
    · exact hlast ▸ hle
    · refine termAt_of_le (n := k) le_rfl ?_
      rw [hkp]
    · rw [hb]
      exact hbase.trans hlt.le
  · -- The snapshot takes the place of the log, which ends before it.
    have hshort : p.length < k := by
      by_contra hge
      have hterm : r.log.term k = .ok (termAt p k) :=
        RaftLog.term_of_le h.disk.backs (by omega) (by omega)
      obtain ⟨-, -, hat⟩ := RaftLog.at?_of_term (by omega) hterm
      refine hnot ⟨by simp only []; omega, ?_⟩
      rw [hat]
      congr 1
      exact termAt_of_le (n := p.length) (by omega) (by rw [List.take_length]; exact hpl)
    have hlen : (l.take k).length = k := by
      rw [List.length_take]
      omega
    have hpk : p = (l.take k).take p.length := by
      rw [List.take_take, min_eq_left hshort.le]
      exact hpl
    refine ⟨l.take k, ⟨?_, hboot.trans h.bootstrap, h.conf_restored hl rfl fun hno => ?_⟩⟩
    · rw [hlog]
      refine ⟨List.take_prefix _ _, ?_, ?_, Or.inl ?_⟩
      · refine Backs.boundary (hl.contiguous.take k) hlen.symm ?_ ?_ ?_ he hsn
        · rfl
        · rw [hb, hlen]
        · rw [hb]
      · rw [hb, hsn]
      · rw [hsn]
    · rw [confOf_noConf hno, confOf_noConf]
      rw [hpk]
      exact fun e hx => hno e (List.mem_of_mem_take hx)

/-- Every effect of a message that agrees with the leader's log keeps the follower a mirror. -/
theorem Mirrors.effect (hl : LeaderLog l) (h : Mirrors boot l p r) (hr : r.Wf) {m : Message}
    (hm : FromLog boot l m)
    (habove : m.type = .snapshotReq → r.Admits m → ∀ snap, m.snapshot = some snap →
      r.log.committed < snap.lastIncludedIndex →
      ∀ e ∈ r.log.mem.ents, e.type = .confChange → e.index ≤ snap.lastIncludedIndex)
    (he : Effect (.step m) r r') : ∃ p', Mirrors boot l p' r' := by
  cases he.logChange with
  | same _ hs =>
    refine ⟨p, ⟨⟨h.disk.le, h.disk.backs.congr hs.base hs.ents hs.snapshot, ?_, ?_⟩, ?_, ?_⟩⟩
    · rw [hs.base, hs.snapshot]
      exact h.disk.base_le
    · rw [hs.snapshot]
      exact h.disk.snapshot
    · exact he.frame.1.bootstrap.trans h.bootstrap
    · exact hs.conf.trans h.conf
  | extended e ha =>
    rcases hm with ⟨_, _, _, hty, _⟩ | ⟨_, _, _, hty, _⟩ <;> simp [Call.appends, hty] at ha
  | followed m' l' committed hc hty hsp =>
    cases hc
    exact h.follow hl hr hm hty hsp
  | restored m' snap mem hc hty hsn hlt hsave htakes =>
    cases hc
    obtain ⟨_, _, _, hty', _⟩ | ⟨k, data, hk, _, hsnap⟩ := hm
    · rw [hty] at hty'
      cases hty'
    · rw [hsn] at hsnap
      cases hsnap
      exact h.restore hl hr hk hlt (habove hty htakes _ hsn hlt) hsave
  | saved _ _ _ hc => cases hc
  | compacted _ _ _ hc => cases hc

end

/-- The node is started, crashes, and is told what agrees with the leader's log. -/
def AgreesWith (boot : Configuration) (l : List LogEntry) : Act → Prop
  | .start cfg => cfg.bootstrap = boot
  | .crash => True
  | .call (.step m) _ => FromLog boot l m
  | .call _ _ => False

/-- No configuration entry lies above a snapshot that the node installs: one that is for it, of its
term or a later one, and reaches above what it has committed. -/
def NothingAbove (s : Slot) : Act → Prop
  | .call (.step m) _ => m.type = .snapshotReq → ∀ r snap, s = .up r → r.Admits m →
      m.snapshot = some snap → r.log.committed < snap.lastIncludedIndex →
      ∀ e ∈ r.log.mem.ents, e.type = .confChange → e.index ≤ snap.lastIncludedIndex
  | _ => True

theorem Mirrors.run {boot : Configuration} {l : List LogEntry} (hl : LeaderLog l) {acts : List Act}
    (hp : (Slot.down {}).Allows (fun s a => AgreesWith boot l a ∧ NothingAbove s a) acts)
    {r : RawNode} (hr : (Slot.down {}).run acts = .up r) : ∃ p, Mirrors boot l p r := by
  have h : ((Slot.down {}).run acts).Sat (fun r => ∃ p, Mirrors boot l p r)
      fun m => ∃ p, MirrorDisk boot l p m := by
    refine Slot.Sat.run (s := .down {}) ?_ MemoryStorage.OK.empty hp ?_ ?_ ?_
    · exact ⟨[], List.nil_prefix, .empty, le_rfl, Or.inr ⟨rfl, rfl⟩⟩
    · rintro r₀ c faults ⟨hagree, habove⟩ - r r' hreach hw ⟨p, h⟩ he
      cases c with
      | step m =>
        refine h.effect hl hw hagree (fun hty htakes snap hsn hlt => ?_) he
        rcases Reach.sameLog_or_restored hty hreach with hsame | ⟨snap', hsn', hle⟩
        · rw [hsame.ents]
          exact habove hty r₀ snap rfl (hreach.admits htakes) hsn (hsame.committed.trans_lt hlt)
        · rw [hsn] at hsn'
          cases hsn'
          omega
      | _ => exact hagree.elim
    · rintro r - ⟨p, h⟩
      exact ⟨p, h.disk⟩
    · rintro cfg st r ⟨hagree, -⟩ - ⟨p, hd⟩ hnew
      have hst := started_of_new hnew
      have hboot : r.bootstrap = boot := hst.bootstrap.trans hagree
      have hc := confFrom_of_new hnew
      rw [show cfg.bootstrap = boot from hagree] at hc
      refine ⟨p, ?_, hboot, hd.confFrom hl hc⟩
      rw [hst.log]
      exact hd
  rw [hr] at h
  exact h

/-- A follower that only hears what agrees with one leader's log has the configuration that its
storage establishes, and keeps it over a restart, in every run in which no configuration entry lies
above an installed snapshot. -/
theorem snapshot_install_conf {boot : Configuration} {l : List LogEntry} (hl : LeaderLog l)
    {acts : List Act}
    (hp : (Slot.down {}).Allows (fun s a => AgreesWith boot l a ∧ NothingAbove s a) acts)
    {r : RawNode} (hr : (Slot.down {}).run acts = .up r) :
    (∃ r', r.refreshConfiguration = .ok r' ∧ r'.conf = r.conf) ∧
      ∀ cfg r', cfg.bootstrap = boot → new cfg { mem := r.log.mem } = .ok r' → r'.conf = r.conf := by
  obtain ⟨p, h⟩ := Mirrors.run hl hp hr
  constructor
  · obtain ⟨r', hr', hconf⟩ := h.disk.refreshConfiguration hl h.bootstrap
    exact ⟨r', hr', hconf.trans h.conf.symm⟩
  · intro cfg r' hboot hnew
    have hc := confFrom_of_new hnew
    rw [hboot] at hc
    exact (h.disk.confFrom hl hc).trans h.conf.symm

/-- A log with an empty entry and the change from three voters to four. -/
def fourthVoter : List LogEntry :=
  [{ term := 1, index := 1, type := .noOp },
   { term := 1, index := 2, type := .confChange,
     command := ConfChange.encode ⟨confChangeEnterJoint,
       { voters := [1, 2, 3, 4], oldVoters := [1, 2, 3] }⟩ }]

theorem leaderLog_fourthVoter : LeaderLog fourthVoter where
  contiguous := .cons rfl (.cons rfl (.nil _))
  meaningful e he hty := by
    simp only [fourthVoter, List.mem_cons, List.not_mem_nil, or_false] at he
    rcases he with rfl | rfl
    · exact nomatch hty
    · exact ⟨_, ConfChange.decode_encode _ (by decide), by decide⟩

/-- A follower of three is sent the log, and a snapshot of its first `k` entries. -/
def caughtUp (k : ℕ) : List Act :=
  [.start { id := 2, electionTick := 2, heartbeatTick := 1, bootstrap := { voters := [1, 2, 3] } },
   .call (.step { type := .appendReq, sender := 1, dest := 2, term := 1, entries := fourthVoter }) [],
   .call (.step { type := .snapshotReq, sender := 1, dest := 2, term := 1,
                  snapshot := some ⟨k, termAt fourthVoter k,
                    confOf { voters := [1, 2, 3] } (fourthVoter.take k), []⟩ }) []]

theorem caughtUp_agrees {k : ℕ} (hk : k ≤ 2) :
    ∀ a ∈ caughtUp k, AgreesWith { voters := [1, 2, 3] } fourthVoter a := by
  intro a ha
  simp only [caughtUp, List.mem_cons, List.not_mem_nil, or_false] at ha
  rcases ha with rfl | rfl | rfl
  · rfl
  · exact .append 0 2 (by decide) rfl rfl rfl rfl
  · exact .snapshot k [] hk rfl rfl

/-- The snapshot is taken at the change that the follower holds, and installing it keeps that
configuration. -/
theorem snapshot_install_conf_caughtUp :
    ∃ r, (Slot.down {}).run (caughtUp 2) = .up r ∧ r.log.mem.snapshot.lastIncludedIndex = 2 ∧
      (∃ e ∈ r.log.mem.ents, e.type = .confChange ∧ e.index = 2) ∧
      r.conf = { voters := [1, 2, 3, 4], oldVoters := [1, 2, 3] } ∧
      ∃ r', r.refreshConfiguration = .ok r' ∧ r'.conf = r.conf := by
  have hagree := caughtUp_agrees (k := 2) le_rfl
  have hp : (Slot.down {}).Allows
      (fun s a => AgreesWith { voters := [1, 2, 3] } fourthVoter a ∧ NothingAbove s a)
      (caughtUp 2) := by
    refine ⟨⟨hagree _ (by simp [caughtUp]), trivial⟩,
      ⟨hagree _ (by simp [caughtUp]), by rintro ⟨⟩⟩,
      ⟨hagree _ (by simp [caughtUp]), fun _ r snap hr _ hsnap _ e he _ => ?_⟩, trivial⟩
    cases hsnap
    obtain ⟨r', hr', ht⟩ := Slot.exists_up (s := (Slot.down {}).run ((caughtUp 2).take 2))
      (fun r => r.log.mem.ents.all fun e => e.index ≤ 2) (by decide)
    obtain rfl : r' = r := Slot.up.inj (hr'.symm.trans hr)
    rw [List.all_eq_true] at ht
    exact of_decide_eq_true (ht e he)
  obtain ⟨r, hr, ht⟩ := Slot.exists_up (s := (Slot.down {}).run (caughtUp 2))
    (fun r => r.log.mem.snapshot.lastIncludedIndex = 2 ∧
      (r.log.mem.ents.any fun e => e.type = .confChange ∧ e.index = 2) ∧
      r.conf = { voters := [1, 2, 3, 4], oldVoters := [1, 2, 3] }) (by decide +kernel)
  obtain ⟨hidx, hentry, hconf⟩ := of_decide_eq_true ht
  simp only [List.any_eq_true, decide_eq_true_eq] at hentry
  exact ⟨r, hr, hidx, hentry, hconf, (snapshot_install_conf leaderLog_fourthVoter hp hr).1⟩

/-- The change is in the log, above the snapshot; the snapshot's configuration wins until the node
restarts. -/
theorem snapshot_install_forgets_change :
    (∀ a ∈ caughtUp 1, AgreesWith { voters := [1, 2, 3] } fourthVoter a) ∧
      ∃ r r', (Slot.down {}).run (caughtUp 1) = .up r ∧ r.refreshConfiguration = .ok r' ∧
        r.conf = { voters := [1, 2, 3] } ∧
        r'.conf = { voters := [1, 2, 3, 4], oldVoters := [1, 2, 3] } := by
  refine ⟨caughtUp_agrees (by decide), ?_⟩
  obtain ⟨r, hr, ht⟩ := Slot.exists_up (s := (Slot.down {}).run (caughtUp 1))
    (fun r => r.conf = { voters := [1, 2, 3] } && r.refreshConfiguration.toOption.any fun r' =>
      r'.conf = { voters := [1, 2, 3, 4], oldVoters := [1, 2, 3] }) (by decide)
  rw [Bool.and_eq_true] at ht
  cases href : r.refreshConfiguration with
  | error e =>
    rw [href] at ht
    cases ht.2
  | ok r' =>
    rw [href] at ht
    exact ⟨r, r', hr, href, by simpa using ht.1, of_decide_eq_true ht.2⟩

end RaftStore.Raft
