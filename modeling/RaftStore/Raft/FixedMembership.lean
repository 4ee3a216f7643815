import RaftStore.Raft.Safety
import RaftStore.Raft.ConfLog

/-! A cluster whose membership nobody changes.  The only configurations that can ever be in force
are the initial one and, if that is joint, the one that leaving it gives; every two quorums of these
share a voter. -/

namespace RaftStore.Raft

open Consensus RawNode

/-- The configurations of a cluster that was started with `boot`. -/
def Among (boot conf : Configuration) : Prop :=
  conf = boot ∨ ∃ cc, boot.leaveJoint = .ok cc ∧ conf = cc.config

theorem Among.voters {boot conf : Configuration} (hn : boot.Normalized) (h : Among boot conf) :
    conf.voters = boot.voters := by
  rcases h with rfl | ⟨cc, hcc, rfl⟩
  · rfl
  · exact leaveJoint_voters hn hcc

theorem Among.sized {boot conf : Configuration} (hs : boot.Sized) (h : Among boot conf) :
    conf.Sized := by
  rcases h with rfl | ⟨cc, hcc, rfl⟩
  · exact hs
  · exact hs.leaveJoint hcc

/-- What is written when a configuration of the cluster is left reads back, and is again one of the
cluster's. -/
theorem Among.decode_leave {boot conf : Configuration} (hs : boot.Sized) (h : Among boot conf)
    {cc : ConfChange} (hl : conf.leaveJoint = .ok cc) :
    ∃ cc', ConfChange.decode cc.encode = .ok cc' ∧ cc'.config = cc.config ∧
      Among boot cc'.config := by
  rcases h with rfl | ⟨cc0, hcc0, rfl⟩
  · have hnorm : cc.config.normalize = cc.config := by
      rw [(leaveJoint_ok hl).2.2]
      exact (Configuration.normalize_normalized _).normalize_eq
    exact ⟨_, cc.decode_encode (hs.leaveJoint hl), hnorm, Or.inr ⟨cc, hl, hnorm⟩⟩
  · have := (leaveJoint_ok hl).1
    rw [leaveJoint_not_joint hcc0] at this
    exact nomatch this

/-- Any two configurations of the cluster count in the same voters. -/
def fixedMembership (boot : Configuration) (hn : boot.Normalized) : Membership where
  isConf _ := False
  admits _ _ := True
  Quorum _ Q := ∃ conf g, Among boot conf ∧ conf.hasQuorum g = true ∧ Q = {v | g v = true}
  overlap := by
    rintro l l' - Q Q' ⟨conf, g, ha, hg, rfl⟩ ⟨conf', g', ha', hg', rfl⟩
    obtain ⟨v, hv, hv'⟩ := Configuration.overlaps_of_voters
      ((ha.voters hn).trans (ha'.voters hn).symm) g g' hg hg'
    exact ⟨v, hv, hv'⟩

/-! ### What holds of every node, storage and message -/

section

variable (boot : Configuration)

/-- A configuration entry carries a configuration of the cluster. -/
def FixedEntry (e : LogEntry) : Prop :=
  e.type = .confChange → ∃ cc, ConfChange.decode e.command = .ok cc ∧ Among boot cc.config

def FixedSnapshot (s : Snapshot) : Prop := s.config.isEmpty = true ∨ Among boot s.config

structure FixedDisk (m : MemoryStorage) : Prop where
  ents : ∀ e ∈ m.ents, FixedEntry boot e
  snapshot : FixedSnapshot boot m.snapshot

structure FixedMsg (m : Message) : Prop where
  entries : ∀ e ∈ m.entries, FixedEntry boot e
  snapshot : ∀ s, m.snapshot = some s → FixedSnapshot boot s

structure FixedNode (r : RawNode) : Prop where
  conf : Among boot r.conf
  bootstrap : r.bootstrap = boot
  disk : FixedDisk boot r.log.mem
  msgs : ∀ m ∈ r.msgs, FixedMsg boot m

end

namespace FixedNode

variable {boot : Configuration} {r r' : RawNode}

theorem conf_of_from (h : FixedDisk boot r.log.mem) (hb : r.bootstrap = boot) {conf : Configuration}
    {i : ℕ} (hc : ConfFrom r.log.mem r.bootstrap conf i) : Among boot conf := by
  cases hc with
  | entry a conf hl =>
    obtain ⟨e, b, cc, hents, hty, hdec, hcc, -⟩ := hl.split
    obtain ⟨cc', hdec', ha⟩ := h.ents e (by rw [hents]; simp) hty
    rw [hdec] at hdec'
    cases hdec'
    exact hcc ▸ ha
  | snapshot _ hne =>
    rcases h.snapshot with he | ha
    · rw [he] at hne
      exact nomatch hne
    · exact ha
  | bootstrap => exact Or.inl hb

theorem reconf (h : FixedNode boot r) (hc : r.Reconf r') (ha : Among boot r'.conf) :
    FixedNode boot r' := by
  refine ⟨ha, ?_, ?_, ?_⟩ <;> rw [hc.eq]
  · exact h.bootstrap
  · exact h.disk
  · exact h.msgs

theorem refreshed (h : FixedNode boot r) : FixedNode boot r.refreshed := by
  refine h.reconf (refreshed_reconf r) ?_
  unfold RawNode.refreshed
  split
  · rename_i r1 hr1
    exact conf_of_from h.disk h.bootstrap (refreshConfiguration_ok hr1)
  · exact h.conf

theorem withLog (h : FixedNode boot r) {l : RaftLog} (hl : FixedDisk boot l.mem) :
    FixedNode boot { r with log := l } :=
  ⟨h.conf, h.bootstrap, hl, h.msgs⟩

end FixedNode

/-- A message without entries and snapshot carries no configuration. -/
theorem fixedMsg_plain {boot : Configuration} {m : Message} (he : m.entries = [])
    (hs : m.snapshot = none) : FixedMsg boot m :=
  ⟨by rw [he]; exact nofun, by rw [hs]; exact nofun⟩

theorem mem_entries {m : MemoryStorage} {lo hi : ℕ} {es : List LogEntry}
    (h : m.entries lo hi = .ok es) : ∀ e ∈ es, e ∈ m.ents := by
  rw [MemoryStorage.entries] at h
  split at h
  · cases h
    rintro _ ⟨⟩
  · split at h
    · cases h
    · split at h
      · cases h
      · rename_i h1 h2 h3
        cases h
        intro e he
        obtain ⟨k, hk⟩ : ∃ k, lo - m.offset = k + 1 := by
          simp only [MemoryStorage.firstIndex] at h2
          exact ⟨lo - m.offset - 1, by omega⟩
        rw [hk] at he
        cases hn : hi - m.offset with
        | zero => simp [hn] at he
        | succ n =>
          rw [hn, List.take_succ_cons, List.drop_succ_cons] at he
          exact List.mem_of_mem_take (List.mem_of_mem_drop he)

theorem mem_entriesFrom {r : RawNode} {next : ℕ} {es : List LogEntry}
    (h : r.entriesFrom next = .ok es) : ∀ e ∈ es, e ∈ r.log.mem.ents := by
  unfold entriesFrom at h
  dsimp only at h
  split at h
  · unfold RaftLog.entries at h
    split at h
    · cases h
      exact nofun
    · split at h
      · exact nomatch h
      · exact mem_entries h
  · cases h
    exact nofun

theorem FixedNode.sendable {boot : Configuration} {c : Call} {r : RawNode} {m : Message}
    (h : FixedNode boot r) (hm : Sendable c r m) : FixedMsg boot m := by
  cases hm with
  | append dest pr prevTerm entries readID _ _ he _ =>
    exact ⟨fun e hx => h.disk.ents e (mem_entriesFrom he e hx), nofun⟩
  | snapshot dest pr _ _ =>
    refine ⟨nofun, fun s hs => ?_⟩
    cases hs
    exact h.disk.snapshot
  | _ => exact fixedMsg_plain rfl rfl

/-- The configuration that leaving the one in force writes. -/
theorem FixedNode.entry {boot : Configuration} (hs : boot.Sized) {cl : Cluster} {n : NodeID}
    {c : Call} {r : RawNode} {e : LogEntry} (h : FixedNode boot r)
    (hc : Cluster.fixedCalls cl n c)
    (he : e.type = .confChange → ∃ cc, r.Proposes c cc ∧ e.command = cc.encode) :
    FixedEntry boot e := by
  intro hty
  obtain ⟨cc, hprop, hcmd⟩ := he hty
  rcases hprop.change with ⟨target, rfl, -⟩ | hl
  · exact hc.elim
  · obtain ⟨cc', hdec, -, ha⟩ := h.conf.decode_leave hs hl
    rw [hcmd]
    exact ⟨cc', hdec, ha⟩

theorem FixedNode.effect {boot : Configuration} (hs : boot.Sized) {cl : Cluster} {n : NodeID}
    {c : Call} {r r' : RawNode} (hc : Cluster.fixedCalls cl n c) (hr : r.Wf) (h : FixedNode boot r)
    (hmsg : ∀ m, c = .step m → FixedMsg boot m) (he : Effect c r r') : FixedNode boot r' := by
  have hmsgs := he.outbox.msgs h.msgs fun m hm =>
    ⟨(h.sendable hm).entries, (h.sendable hm).snapshot⟩
  have hboot := he.frame.1.bootstrap.trans h.bootstrap
  cases he.logChange with
  | same _ hsame =>
    refine ⟨hsame.conf ▸ h.conf, hboot, ⟨?_, ?_⟩, hmsgs⟩
    · rw [hsame.ents]
      exact h.disk.ents
    · rw [hsame.snapshot]
      exact h.disk.snapshot
  | extended e _ _ _ hcc =>
    have hent := h.entry hs hc hcc
    have hw : FixedNode boot (r.withMem { r.log.mem with ents := r.log.mem.ents ++ [e] }) := by
      refine h.withLog ⟨fun x hx => ?_, h.disk.snapshot⟩
      rcases List.mem_append.mp hx with hx | hx
      · exact h.disk.ents x hx
      · rw [List.mem_singleton.mp hx]
        exact hent
    rw [extended]
    split
    · exact hw.refreshed
    · exact hw
  | followed m l committed hcm _ hsp =>
    have hw : FixedNode boot { r with log := { l with committed } } := by
      refine h.withLog ⟨fun x hx => ?_, ?_⟩
      · rcases mem_spliced hsp x hx with hx | hx
        · exact h.disk.ents x hx
        · exact (hmsg m hcm).entries x hx
      · cases hsp <;> exact h.disk.snapshot
    rw [refreshedIfNeeded]
    split
    · exact hw.refreshed
    · exact hw
  | restored m snap mem hcm _ hsn _ hsave =>
    have hsnap := (hmsg m hcm).snapshot snap hsn
    obtain ⟨-, -, hms, hkeep⟩ := RaftLog.saveSnapshot_ok hsave
    have hw : FixedNode boot { r with log := { r.log with
        storage := { r.log.storage with mem },
        committed := snap.lastIncludedIndex, applied := snap.lastIncludedIndex } } := by
      refine h.withLog ⟨fun x hx => ?_, by rw [hms]; exact hsnap⟩
      change x ∈ mem.ents at hx
      rcases hkeep with ⟨-, -, -, he⟩ | ⟨-, -, he⟩
      · rw [he] at hx
        exact h.disk.ents x hx
      · rw [he] at hx
        cases hx
    rw [restored]
    split
    · rename_i hne
      refine hw.reconf (setConfiguration_reconf _ _ _) ?_
      rw [(setConfiguration_conf ..).1]
      exact hsnap.resolve_left fun hemp => by simp [hemp] at hne
    · exact hw
  | saved data term mem _ ht h0 hsave =>
    obtain ⟨-, he⟩ := RaftLog.saveSnapshot_own h0 ht hsave
    obtain ⟨-, -, hms, -⟩ := RaftLog.saveSnapshot_ok hsave
    refine h.withLog ⟨fun x hx => h.disk.ents x ?_, ?_⟩
    · rw [← he]
      exact hx
    · change FixedSnapshot boot mem.snapshot
      rw [hms]
      exact Or.inr h.conf
  | compacted upto mem data _ _ _ hcomp =>
    refine h.withLog ?_
    rcases MemoryStorage.compact_ok hr.log.inOrder hcomp with ⟨-, rfl⟩ | ⟨_, _, _, hsn, _, _, he⟩
    · exact h.disk
    · refine ⟨fun x hx => h.disk.ents x ?_, ?_⟩
      · change x ∈ mem.ents at hx
        rw [he] at hx
        exact List.mem_of_mem_drop hx
      · change FixedSnapshot boot mem.snapshot
        rw [hsn]
        exact h.disk.snapshot

theorem FixedNode.start {boot : Configuration} {cfg : Config} {st : MemoryStorage} {r : RawNode}
    (hd : FixedDisk boot st) (hb : cfg.bootstrap = boot) (h : new cfg { mem := st } = .ok r) :
    FixedNode boot r := by
  have hr := started_of_new h
  have hlog : r.log.mem = st := by rw [hr.log]; rfl
  have hboot : r.bootstrap = boot := hr.bootstrap.trans hb
  have hdisk : FixedDisk boot r.log.mem := hlog ▸ hd
  refine ⟨conf_of_from hdisk hboot (i := r.confIndex) ?_, hboot, hdisk,
    by rw [hr.msgs]; exact fun _ h => nomatch h⟩
  rw [hlog, hr.bootstrap]
  exact confFrom_of_new h

/-- Runs in which nobody changes the membership. -/
def fixed (boot : Configuration) (hn : boot.Normalized) (hs : boot.Sized) : Regime where
  M := fixedMembership boot hn
  boot := boot
  calls := Cluster.fixedCalls
  node := FixedNode boot
  disk := FixedDisk boot
  msg := FixedMsg boot
  sent h := h
  fresh := ⟨nofun, Or.inl rfl⟩
  start _ hd hb h := .start hd hb h
  stop h := h.disk
  msgs h := h.msgs
  effect hc hr h hmsg he := h.effect hs hc hr hmsg he
  quorum h _ hg := ⟨_, _, h.conf, hg, rfl⟩
  admits _ _ _ _ _ _ _ := ⟨trivial, False.elim⟩

/-! ### Safety -/

open Cluster

/-- State machine safety and leader completeness: what is committed at some moment is what every
node commits there at every moment, and every leader of a later term holds it. -/
theorem fixed_state_machine_safety (boot : Configuration) (hn : boot.Normalized) (hs : boot.Sized)
    {c c' : Cluster} (hm : Moments boot fixedCalls c c') {a : NodeID} {r : RawNode}
    (ha : c.node? a = some r) {i : ℕ} {e : LogEntry} (hi : i ≤ r.log.committed)
    (he : r.log.mem.getEntry i = .ok e) {b : NodeID} {r' : RawNode} (hb : c'.node? b = some r') :
    (∀ e', i ≤ r'.log.committed → r'.log.mem.getEntry i = .ok e' → e' = e) ∧
      (r'.state = .leader → r.term < r'.term →
        r'.log.mem.getEntry i = .ok e ∨ i ≤ r'.log.mem.snapshot.lastIncludedIndex) :=
  ⟨fun _ hi' he' => ((fixed boot hn hs).committed_agree hm ha hb hi he hi' he').symm,
    fun hl ht => (fixed boot hn hs).leader_holds hm ha hb hi he hl ht⟩

/-- The first leader takes two commands, which the second node takes over too. -/
def dictation : List Event :=
  election ++
  [.act 1 (.call (.propose [7]) []), .act 1 (.call (.propose [8]) []), .act 1 (.call .messages []),
   .deliver 2 13, .act 2 (.call .messages []), .deliver 1 15]

/-- The first leader crashes, the second node is elected by the third, and the first one comes back
and confirms the log of its successor. -/
def handover : List Event :=
  [.act 1 .crash, .act 2 (.call .tick []), .act 2 (.call .tick []), .act 2 (.call .messages []),
   .deliver 3 17, .act 3 (.call .messages []), .deliver 2 18, .act 2 (.call .messages []),
   .deliver 3 20, .act 3 (.call .messages []), .deliver 2 21, .act 2 (.call .messages []),
   .act 1 (.start (trioConfig 1)), .deliver 1 22, .act 1 (.call .messages []), .deliver 2 24]

theorem moments_handover : Moments trio fixedCalls (({} : Cluster).plays dictation)
    ((({} : Cluster).plays dictation).plays handover) :=
  .inl ⟨run_plays (by decide +kernel), run_plays (by decide +kernel)⟩

/-- What the first leader has committed, the second one commits and holds. -/
theorem fixed_state_machine_safety_trio :
    ∃ r r' e, (({} : Cluster).plays dictation).node? 1 = some r ∧ r.log.committed = 3 ∧
      r.log.mem.getEntry 3 = .ok e ∧ e.command = [8] ∧
      ((({} : Cluster).plays dictation).plays handover).node? 2 = some r' ∧
      r'.state = .leader ∧ r.term < r'.term ∧ r'.log.committed = 4 ∧
      r'.log.mem.getEntry 3 = .ok e ∧ ∀ e', r'.log.mem.getEntry 3 = .ok e' → e' = e := by
  obtain ⟨r, hr, ht⟩ := exists_node (c := ({} : Cluster).plays dictation) (n := 1)
    (fun r => r.term = 1 ∧ r.log.committed = 3 ∧ (r.log.mem.getEntry 3).toOption =
      some { term := 1, index := 3, type := .normal, command := [8] }) (by decide +kernel)
  obtain ⟨r', hr', ht'⟩ := exists_node
    (c := (({} : Cluster).plays dictation).plays handover) (n := 2)
    (fun r => r.state = .leader ∧ r.term = 2 ∧ r.log.committed = 4 ∧
      r.log.mem.snapshot.lastIncludedIndex = 0) (by decide +kernel)
  simp only [decide_eq_true_eq] at ht ht'
  obtain ⟨hterm, hcom, hget⟩ := ht
  obtain ⟨hl, hterm', hcom', hsnap⟩ := ht'
  have he := Lib.eq_ok_of_toOption hget
  have hlt : r.term < r'.term := by omega
  obtain ⟨hsame, hholds⟩ := fixed_state_machine_safety trio trio_normalized trio_sized
    moments_handover hr (i := 3) (by omega) he hr'
  exact ⟨r, r', _, hr, hcom, he, rfl, hr', hl, hlt, hcom', (hholds hl hlt).resolve_right (by omega),
    fun e' => hsame e' (by omega)⟩

/-- Election safety: a term has one leader, whenever and however often the nodes crash. -/
theorem fixed_election_safety (boot : Configuration) (hn : boot.Normalized) (hs : boot.Sized)
    {c c' : Cluster} (hm : Moments boot fixedCalls c c') {a b : NodeID} {r r' : RawNode}
    (ha : c.node? a = some r) (hb : c'.node? b = some r') (hl : r.state = .leader)
    (hl' : r'.state = .leader) (ht : r.term = r'.term) : a = b :=
  (fixed boot hn hs).one_leader hm ha hb hl hl' ht

/-- After the handover nobody else leads in the term of the first leader, and in the term of the
second one nobody else ever led. -/
theorem fixed_election_safety_trio :
    ∃ r r', (({} : Cluster).plays dictation).node? 1 = some r ∧ r.state = .leader ∧ r.term = 1 ∧
      ((({} : Cluster).plays dictation).plays handover).node? 2 = some r' ∧ r'.state = .leader ∧
      r'.term = 2 ∧
      (∀ b r'', ((({} : Cluster).plays dictation).plays handover).node? b = some r'' →
        r''.state = .leader → r''.term = 1 → b = 1) ∧
      ∀ b r'', (({} : Cluster).plays dictation).node? b = some r'' → r''.state = .leader →
        r''.term = 2 → b = 2 := by
  obtain ⟨r, hr, ht⟩ := exists_node (c := ({} : Cluster).plays dictation) (n := 1)
    (fun r => r.state = .leader ∧ r.term = 1) (by decide +kernel)
  obtain ⟨r', hr', ht'⟩ := exists_node
    (c := (({} : Cluster).plays dictation).plays handover) (n := 2)
    (fun r => r.state = .leader ∧ r.term = 2) (by decide +kernel)
  simp only [decide_eq_true_eq] at ht ht'
  refine ⟨r, r', hr, ht.1, ht.2, hr', ht'.1, ht'.2, fun b r'' hb hl hterm => ?_,
    fun b r'' hb hl hterm => ?_⟩
  · exact (fixed_election_safety trio trio_normalized trio_sized moments_handover hr hb ht.1 hl
      (ht.2.trans hterm.symm)).symm
  · exact fixed_election_safety trio trio_normalized trio_sized moments_handover hb hr' hl ht'.1
      (hterm.trans ht'.2.symm)

/-- Log matching: every log is in order, and two nodes that report the same term at an index hold
the same entries up to it, as far as both still hold them. -/
theorem fixed_log_matching (boot : Configuration) (hn : boot.Normalized) (hs : boot.Sized)
    {c : Cluster} (hrun : Run boot fixedCalls {} c) (a b : NodeID) :
    (Contiguous (c.slot a).log.firstIndex (c.slot a).log.mem.ents ∧
      (c.slot a).log.mem.ents.Pairwise (fun x y => x.term ≤ y.term) ∧
      ∀ e ∈ (c.slot a).log.mem.ents, e.term ≤ (c.slot a).term) ∧
    ∀ i t, (c.slot a).log.term i = .ok t → (c.slot b).log.term i = .ok t →
      ∀ j ≤ i, ∀ e e', (c.slot a).log.mem.getEntry j = .ok e →
        (c.slot b).log.mem.getEntry j = .ok e' → e = e' := by
  obtain ⟨w, -, hw⟩ := (Refines.start (fixed boot hn hs)).run hrun
  exact ⟨hw.log_order a, fun i t ht ht' j hj e e' he he' => hw.log_match ht ht' hj he he'⟩

/-- After the handover the first two nodes hold the same four entries. -/
theorem fixed_log_matching_trio :
    ∃ c : Cluster, c = (({} : Cluster).plays dictation).plays handover ∧
      (c.slot 1).log.mem.ents.map (·.command) = [[], [7], [8], []] ∧
      (c.slot 1).log.mem.ents.Pairwise (fun x y => x.term ≤ y.term) ∧
      ∀ j ≤ 4, ∀ e e', (c.slot 1).log.mem.getEntry j = .ok e →
        (c.slot 2).log.mem.getEntry j = .ok e' → e = e' := by
  have hrun : Run trio fixedCalls {} ((({} : Cluster).plays dictation).plays handover) :=
    (run_plays (by decide +kernel)).trans (run_plays (by decide +kernel))
  have h := fixed_log_matching trio trio_normalized trio_sized hrun 1 2
  have ht : (((({} : Cluster).plays dictation).plays handover).slot 1).log.term 4 = .ok 2 :=
    Lib.eq_ok_of_toOption (by decide +kernel)
  have ht' : (((({} : Cluster).plays dictation).plays handover).slot 2).log.term 4 = .ok 2 :=
    Lib.eq_ok_of_toOption (by decide +kernel)
  exact ⟨_, rfl, by decide +kernel, h.1.2.1, h.2 4 2 ht ht'⟩

end RaftStore.Raft
