import RaftStore.Raft.ConfLog
import RaftStore.Raft.Frame
import RaftStore.Raft.Process

/-! The configuration that a node counts with, over a whole run with snapshots.  It is the one of
the last configuration entry in the log, or else the snapshot's, or else the one the node was started
with.  A snapshot is taken at the applied index but carries the configuration in force, which an
entry above that index may have established. -/

namespace RaftStore.Raft

open Lib RawNode

/-- The configuration that a storage without configuration entries establishes. -/
def MemoryStorage.settledConf (m : MemoryStorage) (boot : Configuration) : Configuration :=
  if m.snapshot.config.isEmpty then boot else m.snapshot.config

/-- The configuration at an index: the one of the last configuration entry up to there, or else the
snapshot's, or else `boot`. -/
def MemoryStorage.confAt (m : MemoryStorage) (boot : Configuration) (i : ℕ) :
    Except Error Configuration :=
  match (m.ents.filter fun e => e.type = .confChange ∧ e.index ≤ i).getLast? with
  | some e => (ConfChange.decode e.command).map ConfChange.config
  | none => .ok (m.settledConf boot)

/-- The configuration in force, and the index after which an append may change it. -/
inductive InForce (m : MemoryStorage) (boot : Configuration) : Configuration → ℕ → Prop
  | entry (a : List LogEntry) (conf : Configuration) (i : ℕ) : LastConf m.ents a conf →
      m.base.index + a.length + 1 ≤ i → InForce m boot conf i
  | settled (i : ℕ) : NoConf m.ents → InForce m boot (m.settledConf boot) i

/-- A configuration entry can be read, and names someone. -/
def Meaningful (e : LogEntry) : Prop :=
  e.type = .confChange → ∃ cc, ConfChange.decode e.command = .ok cc ∧ cc.config.isEmpty = false

section

variable {m m' : MemoryStorage} {boot conf : Configuration} {i : ℕ}

theorem ConfFrom.inForce (h : ConfFrom m boot conf i) : InForce m boot conf i := by
  cases h with
  | entry a conf hl => exact .entry a conf _ hl le_rfl
  | snapshot h1 h2 =>
    have hs : m.settledConf boot = m.snapshot.config := by rw [MemoryStorage.settledConf, h2]; rfl
    exact hs ▸ .settled _ h1
  | bootstrap h1 h2 =>
    have hs : m.settledConf boot = boot := by rw [MemoryStorage.settledConf, h2]; rfl
    nth_rewrite 2 [← hs]
    exact .settled _ h1

theorem InForce.mono (h : InForce m boot conf i) {j : ℕ} (hij : i ≤ j) : InForce m boot conf j := by
  cases h with
  | entry a conf i hl hi => exact .entry a conf j hl (hi.trans hij)
  | settled i h1 => exact .settled j h1

theorem InForce.congr (h : InForce m boot conf i) (hb : m'.base = m.base) (he : m'.ents = m.ents)
    (hs : m'.snapshot = m.snapshot) : InForce m' boot conf i := by
  cases h with
  | entry a conf i hl hi => exact .entry a conf i (he ▸ hl) (hb ▸ hi)
  | settled i h1 =>
    have hset : m.settledConf boot = m'.settledConf boot := by
      rw [MemoryStorage.settledConf, MemoryStorage.settledConf, hs]
    rw [hset]
    exact .settled i (he ▸ h1)

theorem InForce.concat (h : InForce m boot conf i) {e : LogEntry} (he : e.type ≠ .confChange) :
    InForce { m with ents := m.ents ++ [e] } boot conf i := by
  have hno : NoConf [e] := by simpa [NoConf] using he
  cases h with
  | entry a conf i hl hi => exact .entry a conf i (hl.append hno) hi
  | settled i h1 => exact .settled i (h1.append hno)

/-- An append after which the node sees no need to recompute has not changed the configuration. -/
theorem InForce.spliced {l l' : RaftLog} {prev : ℕ} {ents : List LogEntry}
    (h : InForce l.mem boot conf i) (hsp : l.Spliced prev ents l') (hno : NoConf ents)
    (hlt : 0 < i → ∀ e ∈ ents, i < e.index) : InForce l'.mem boot conf i := by
  cases h with
  | entry a conf i hl hi =>
    have hc : ConfFrom l'.mem boot conf (l.mem.base.index + a.length + 1) :=
      ConfFrom.spliced (.entry a conf hl) hsp hno fun _ e he => by
        have := hlt (by omega) e he
        omega
    exact hc.inForce.mono hi
  | settled i h1 =>
    cases hsp with
    | same _ => exact .settled i h1
    | wrote k e rest faults _ hdrop _ _ _ =>
      refine .settled i (NoConf.append (fun x hx => h1 x (List.mem_of_mem_take hx)) fun x hx => ?_)
      exact hno x (List.mem_of_mem_drop (hdrop ▸ hx))

/-- A storage with the same entries, whose snapshot carries the configuration in force. -/
theorem InForce.save (h : InForce m boot conf i) (hb : m'.base = m.base) (he : m'.ents = m.ents)
    (hs : m'.snapshot.config = conf) (hne : conf.isEmpty = true → conf = boot) :
    InForce m' boot conf i := by
  cases h with
  | entry a conf i hl hi => exact .entry a conf i (he ▸ hl) (hb ▸ hi)
  | settled i h1 =>
    have hset : m'.settledConf boot = m.settledConf boot := by
      rw [MemoryStorage.settledConf, hs]
      split
      · rename_i hemp
        exact (hne hemp).symm
      · rfl
    rw [← hset]
    exact .settled i (he ▸ h1)

/-- Compaction may drop the entry that established the configuration, but only when the snapshot
carries it. -/
theorem InForce.compact (h : InForce m boot conf i) (hm : m.InOrder) {upto : ℕ}
    (hc : m.compact upto = .ok m') (hs : m.snapshot.config = conf)
    (hne : conf.isEmpty = true → conf = boot) : InForce m' boot conf i := by
  rcases MemoryStorage.compact_ok hm hc with ⟨-, rfl⟩ | ⟨hlt, -, -, hsnap, hb, -, he⟩
  · exact h
  · have hset : NoConf m'.ents → InForce m' boot conf i := by
      intro hno
      have hconf : m'.settledConf boot = conf := by
        rw [MemoryStorage.settledConf, hsnap, hs]
        split
        · rename_i hemp
          exact (hne hemp).symm
        · rfl
      rw [← hconf]
      exact .settled i hno
    cases h with
    | settled i h1 => exact hset fun e hx => h1 e (List.mem_of_mem_drop (he ▸ hx))
    | entry a conf i hl hi =>
      obtain ⟨e, b, cc, hl, hty, hdec, hcc, hb'⟩ := hl.split
      rw [hl] at he
      by_cases hle : upto - m.offset ≤ a.length
      · rw [List.drop_append_of_le_length hle] at he
        have hidx : m.base.index + a.length + 1 =
            m'.base.index + (a.drop (upto - m.offset)).length + 1 := by
          have hoff : m.offset = m.base.index := rfl
          rw [hb, List.length_drop]
          omega
        exact .entry _ conf i ⟨e, b, cc, he, hty, hdec, hcc, hb'⟩ (hidx ▸ hi)
      · obtain ⟨n, hn⟩ : ∃ n, upto - m.offset = a.length + (n + 1) :=
          ⟨upto - m.offset - a.length - 1, by omega⟩
        rw [hn, List.drop_append, List.drop_of_length_le (by omega), Nat.add_sub_cancel_left,
          List.drop_succ_cons, List.nil_append] at he
        exact hset fun x hx => hb' x (List.mem_of_mem_drop (he ▸ hx))

/-- The configuration at an index above which no configuration entry lies is the one in force. -/
theorem InForce.confAt (h : InForce m boot conf i) {k : ℕ}
    (hk : ∀ e ∈ m.ents, e.type = .confChange → e.index ≤ k) : m.confAt boot k = .ok conf := by
  cases h with
  | entry a conf i hl hi =>
    obtain ⟨e, b, cc, hl, hty, hdec, hcc, hb⟩ := hl.split
    have hmem : e ∈ m.ents := by simp [hl]
    have hfilter : (m.ents.filter fun e => e.type = .confChange ∧ e.index ≤ k) =
        (a.filter fun e => e.type = .confChange ∧ e.index ≤ k) ++ [e] := by
      have hbf : (b.filter fun e => e.type = .confChange ∧ e.index ≤ k) = [] := by
        rw [List.filter_eq_nil_iff]
        intro x hx
        simp [hb x hx]
      rw [hl, List.filter_append, List.filter_cons_of_pos, hbf]
      simpa using ⟨hty, hk e hmem hty⟩
    rw [MemoryStorage.confAt, hfilter, List.getLast?_concat]
    simp only [hdec, Except.map, hcc]
  | settled i h1 =>
    have hfilter : (m.ents.filter fun e => e.type = .confChange ∧ e.index ≤ k) = [] := by
      rw [List.filter_eq_nil_iff]
      intro x hx
      simp [h1 x hx]
    rw [MemoryStorage.confAt, hfilter]
    rfl

end

/-! ### Along a run -/

structure GroundedDisk (m : MemoryStorage) : Prop where
  ents : ∀ e ∈ m.ents, Meaningful e
  snapshot : m.snapshot.config.Sized

/-- The configuration in force is the one that the storage establishes. -/
structure Grounded (r : RawNode) : Prop where
  disk : GroundedDisk r.log.mem
  bootstrap : r.bootstrap.Sized
  conf : InForce r.log.mem r.bootstrap r.conf r.confIndex

section

variable {c : Call} {r r' : RawNode} {m : MemoryStorage} {boot conf : Configuration} {i : ℕ}

theorem GroundedDisk.sized (h : GroundedDisk m) (hb : boot.Sized) (hc : InForce m boot conf i) :
    conf.Sized := by
  cases hc with
  | entry a conf i hl hi =>
    obtain ⟨e, b, cc, -, -, hdec, rfl, -⟩ := hl.split
    exact ConfChange.sized_of_decode hdec
  | settled i _ =>
    rw [MemoryStorage.settledConf]
    split
    · exact hb
    · exact h.snapshot

theorem GroundedDisk.nonempty (h : GroundedDisk m) (hc : InForce m boot conf i) :
    conf.isEmpty = true → conf = boot := by
  intro hemp
  cases hc with
  | entry a conf i hl hi =>
    obtain ⟨e, b, cc, hents, hty, hdec, rfl, -⟩ := hl.split
    have hmem : e ∈ m.ents := by
      rw [hents]
      simp
    obtain ⟨cc', hdec', hne⟩ := h.ents e hmem hty
    rw [hdec] at hdec'
    cases hdec'
    rw [hemp] at hne
    exact nomatch hne
  | settled i _ =>
    unfold MemoryStorage.settledConf at hemp ⊢
    split at hemp
    · rename_i hs
      rw [if_pos hs]
    · contradiction

theorem sortedUnique_ne_nil {l : List NodeID} (h : l ≠ []) : sortedUnique l ≠ [] := by
  obtain ⟨x, hx⟩ := List.exists_mem_of_ne_nil l h
  exact List.ne_nil_of_mem ((mem_sortedUnique _ _).mpr hx)

theorem Configuration.voters_of_validate {c : Configuration} (h : c.validate = .ok ()) :
    c.voters ≠ [] := by
  rw [validate] at h
  split at h
  · cases h
  · rename_i hne
    exact fun h0 => hne (by rw [h0]; rfl)

theorem Configuration.isEmpty_of_voters {c : Configuration} (h : c.voters ≠ []) :
    c.isEmpty = false := by
  have : c.voters.length ≠ 0 := by simpa using h
  simp [isEmpty, this]

/-- Whatever a leader proposes can be read back and names someone. -/
theorem RawNode.Proposes.meaningful {cc : ConfChange} (hp : r.Proposes c cc) (hs : r.conf.Sized)
    (ht : ∀ target, c = .proposeConfChange target → target.Sized) :
    ∃ cc', ConfChange.decode cc.encode = .ok cc' ∧ cc'.config.isEmpty = false := by
  have hvoters : cc.config.voters ≠ [] := by
    rcases hp.change with ⟨target, rfl, henter⟩ | hleave
    · have hvalid : target.voters ≠ [] := by
        unfold Configuration.enterJoint at henter
        split at henter
        · exact nomatch henter
        · rename_i hval
          exact Configuration.voters_of_validate hval
      rw [enterJoint_ok henter]
      exact sortedUnique_ne_nil hvalid
    · have hcfg := (leaveJoint_ok hleave).2.2
      unfold Configuration.leaveJoint at hleave
      split at hleave
      · exact nomatch hleave
      · dsimp only at hleave
        split at hleave
        · exact nomatch hleave
        · rename_i hval
          rw [hcfg]
          exact Configuration.voters_of_validate hval
  refine ⟨_, cc.decode_encode (hp.sized hs ht), Configuration.isEmpty_of_voters ?_⟩
  exact sortedUnique_ne_nil hvoters

/-- Recomputing the configuration grounds it. -/
theorem grounded_refreshed (hd : GroundedDisk r.log.mem) (hb : r.bootstrap.Sized) :
    Grounded r.refreshed := by
  obtain ⟨r', hr'⟩ := refreshConfiguration_isOk (r := r) fun e he hty =>
    (hd.ents e he hty).imp fun _ h => h.1
  have heq : r.refreshed = r' := by rw [refreshed, hr']
  have hrec := refreshConfiguration_reconf hr'
  have hc := (refreshConfiguration_ok hr').inForce
  rw [heq]
  have hlog : r'.log = r.log := by rw [hrec.eq]
  have hboot : r'.bootstrap = r.bootstrap := by rw [hrec.eq]
  exact ⟨hlog ▸ hd, hboot ▸ hb, by rw [hlog, hboot]; exact hc⟩

/-- What an installed snapshot does to the configuration is told by `hrestore`; everything else
keeps it grounded. -/
theorem Grounded.effect (h : Grounded r) (hr : r.Wf) (he : Effect c r r')
    (hents : ∀ m, c = .step m → ∀ e ∈ m.entries, Meaningful e)
    (htarget : ∀ target, c = .proposeConfChange target → target.Sized)
    (hrestore : ∀ m snap mem, c = .step m → m.type = .snapshotReq → m.snapshot = some snap →
      r.log.committed < snap.lastIncludedIndex → r.log.mem.saveSnapshot snap = .ok mem →
      r.Admits m → Grounded (r.restored snap mem)) : Grounded r' := by
  have hne := h.disk.nonempty h.conf
  cases he.logChange with
  | same _ hs =>
    have hboot := he.frame.1.bootstrap
    refine ⟨⟨hs.ents ▸ h.disk.ents, hs.snapshot ▸ h.disk.snapshot⟩, hboot ▸ h.bootstrap, ?_⟩
    rw [hboot, hs.conf, hs.confIndex]
    exact h.conf.congr hs.base hs.ents hs.snapshot
  | extended e _ _ hi hcc =>
    have hent : Meaningful e := by
      intro hty
      obtain ⟨cc, hprop, hcmd⟩ := hcc hty
      rw [hcmd]
      exact hprop.meaningful (h.disk.sized h.bootstrap h.conf) htarget
    have hdisk : GroundedDisk { r.log.mem with ents := r.log.mem.ents ++ [e] } := by
      refine ⟨fun x hx => ?_, h.disk.snapshot⟩
      rcases List.mem_append.mp hx with hx | hx
      · exact h.disk.ents x hx
      · rw [List.mem_singleton.mp hx]
        exact hent
    rw [extended]
    split
    · exact grounded_refreshed hdisk h.bootstrap
    · rename_i hty
      exact ⟨hdisk, h.bootstrap, h.conf.concat hty⟩
  | followed m l committed hc _ hsp =>
    have hdisk : GroundedDisk l.mem := by
      refine ⟨fun x hx => ?_, ?_⟩
      · rcases mem_spliced hsp x hx with hx | hx
        · exact h.disk.ents x hx
        · exact hents m hc x hx
      · cases hsp <;> exact h.disk.snapshot
    rw [refreshedIfNeeded]
    split
    · exact grounded_refreshed hdisk h.bootstrap
    · rename_i hno
      obtain ⟨h1, h2⟩ := confChanged_false (Bool.eq_false_iff.mpr hno)
      have hconf : InForce l.mem r.bootstrap r.conf r.confIndex := h.conf.spliced hsp h1 h2
      exact ⟨hdisk, h.bootstrap, hconf⟩
  | restored m snap mem hc hty hsn hlt hsave hm =>
    exact hrestore m snap mem hc hty hsn hlt hsave hm
  | saved data term mem hc ht h0 hsave =>
    have hsn := (RaftLog.saveSnapshot_ok hsave).2.2.1
    obtain ⟨hb, hents'⟩ := RaftLog.saveSnapshot_own h0 ht hsave
    refine ⟨⟨hents' ▸ h.disk.ents, ?_⟩, h.bootstrap,
      h.conf.save hb hents' (congrArg Snapshot.config hsn) hne⟩
    change mem.snapshot.config.Sized
    rw [hsn]
    exact h.disk.sized h.bootstrap h.conf
  | compacted upto mem data hc hu hcf hcm =>
    have hconf := h.conf.compact hr.log.inOrder hcm hcf hne
    refine ⟨?_, h.bootstrap, hconf⟩
    rcases MemoryStorage.compact_ok hr.log.inOrder hcm with ⟨-, rfl⟩ | ⟨-, -, -, hsn, -, -, hdrop⟩
    · exact h.disk
    · refine ⟨fun x hx => ?_, ?_⟩
      · change x ∈ mem.ents at hx
        rw [hdrop] at hx
        exact h.disk.ents x (List.mem_of_mem_drop hx)
      · change mem.snapshot.config.Sized
        rw [hsn]
        exact h.disk.snapshot

/-- The log holds the entry at the snapshot's boundary, so that installing the snapshot keeps it. -/
def MemoryStorage.Keeps (m : MemoryStorage) (snap : Snapshot) : Prop :=
  snap.lastIncludedIndex ≤ m.lastIndex ∧
    (m.at? (snap.lastIncludedIndex - m.offset)).map LogEntry.term = some snap.lastIncludedTerm

/-- The snapshot's configuration is that of the log, as far as the log is kept. -/
structure SnapshotFits (m : MemoryStorage) (snap : Snapshot) : Prop where
  sized : snap.config.Sized
  nonempty : snap.config.isEmpty = false
  below : m.Keeps snap → ∀ e ∈ m.ents, e.type = .confChange → e.index ≤ snap.lastIncludedIndex
  last : m.Keeps snap → ∀ a conf, LastConf m.ents a conf → conf = snap.config

theorem SnapshotFits.congr {m m' : MemoryStorage} {snap : Snapshot} (h : SnapshotFits m snap)
    (hb : m'.base = m.base) (he : m'.ents = m.ents) : SnapshotFits m' snap := by
  have hkeeps : m'.Keeps snap → m.Keeps snap := by
    simp only [MemoryStorage.Keeps, MemoryStorage.lastIndex, MemoryStorage.offset,
      MemoryStorage.at?, hb, he]
    exact id
  refine ⟨h.sized, h.nonempty, fun hk => ?_, fun hk => ?_⟩ <;> rw [he]
  · exact h.below (hkeeps hk)
  · exact h.last (hkeeps hk)

/-- A log that is kept has its last configuration entry below the snapshot, with its configuration. -/
theorem InForce.keep {m m' : MemoryStorage} (h : InForce m boot conf i) (hm : m.InOrder)
    {snap : Snapshot} (hf : SnapshotFits m snap) (hk : m.Keeps snap) (hb : m'.base = m.base)
    (he : m'.ents = m.ents) (hset : m'.settledConf boot = snap.config) :
    InForce m' boot snap.config snap.lastIncludedIndex := by
  cases h with
  | entry a conf i hl hi =>
    obtain ⟨e, b, cc, hents, hty, -⟩ := hl.split
    have hmem : e ∈ m.ents := by
      rw [hents]
      simp
    have hat : m.ents[a.length]? = some e := by
      rw [hents]
      simp
    have hbelow := hf.below hk e hmem hty
    rw [hm a.length e hat] at hbelow
    rw [← hf.last hk a conf hl]
    exact .entry a conf _ (he ▸ hl) (by rw [hb]; omega)
  | settled i h1 =>
    rw [← hset]
    exact .settled _ (he ▸ h1)

theorem restored_conf (r : RawNode) {snap : Snapshot} (mem : MemoryStorage)
    (hne : snap.config.isEmpty = false) :
    (r.restored snap mem).conf = snap.config ∧
      (r.restored snap mem).confIndex = snap.lastIncludedIndex := by
  rw [restored, hne]
  exact setConfiguration_conf _ _ _

theorem restored_log (r : RawNode) (snap : Snapshot) (mem : MemoryStorage) :
    (r.restored snap mem).log.mem = mem ∧ (r.restored snap mem).bootstrap = r.bootstrap := by
  rw [restored]
  split
  · rw [(setConfiguration_reconf _ _ _).eq]
    exact ⟨rfl, rfl⟩
  · exact ⟨rfl, rfl⟩

/-- Installing a snapshot that fits keeps the configuration grounded. -/
theorem Grounded.restore (h : Grounded r) (hr : r.Wf) {snap : Snapshot} {mem : MemoryStorage}
    (hf : SnapshotFits r.log.mem snap) (hsave : r.log.mem.saveSnapshot snap = .ok mem) :
    Grounded (r.restored snap mem) := by
  obtain ⟨-, -, hsn, hkept⟩ := RaftLog.saveSnapshot_ok hsave
  obtain ⟨hconf, hidx⟩ := restored_conf r mem hf.nonempty
  obtain ⟨hlog, hboot⟩ := restored_log r snap mem
  have hset : mem.settledConf r.bootstrap = snap.config := by
    rw [MemoryStorage.settledConf, hsn, hf.nonempty]
    rfl
  refine ⟨?_, hboot ▸ h.bootstrap, ?_⟩
  · rw [hlog]
    refine ⟨?_, hsn ▸ hf.sized⟩
    rcases hkept with ⟨-, -, -, he⟩ | ⟨-, -, he⟩ <;> rw [he]
    · exact h.disk.ents
    · exact nofun
  · rw [hlog, hboot, hconf, hidx]
    rcases hkept with ⟨hle, hat, hb, he⟩ | ⟨-, -, he⟩
    · exact h.conf.keep hr.log.inOrder hf ⟨hle, hat⟩ hb he hset
    · rw [← hset]
      refine .settled _ ?_
      rw [he]
      exact nofun

/-- A snapshot is taken at the applied index, with the configuration in force. -/
theorem createSnapshot_ok {data : List UInt8} {snap : Snapshot}
    (h : createSnapshot data r = .ok snap r') :
    snap.lastIncludedIndex = r.log.applied ∧ snap.config = r.conf := by
  have hm : Meets (createSnapshot data) r (fun snap _ => snap.lastIncludedIndex = r.log.applied ∧
      snap.config = r.conf) fun _ _ => True := by
    rw [createSnapshot, meets_bind, meets_get]
    dsimp only
    split
    · trivial
    · split
      · trivial
      · rw [meets_bind, meets_mapFail]
        refine meets_onLog (RaftLog.meets_onDisk (fun mem faults _ => ?_) fun _ _ => trivial)
        split
        · exact ⟨rfl, rfl⟩
        · generalize (if r.cfg.snapshotCatchUpEntries > 0 then
            r.log.applied - r.cfg.snapshotCatchUpEntries else r.log.applied) = compactTo
          rw [meets_bind, meets_get]
          split
          · exact ⟨rfl, rfl⟩
          · rw [meets_bind, wrapping, meets_mapFail]
            exact meets_onLog (RaftLog.meets_compact (fun _ _ _ _ => ⟨rfl, rfl⟩)
              fun _ _ => trivial)
  rw [Meets, h] at hm
  exact hm

end

/-- What happens to a node fits its log: entries and snapshots carry meaningful configurations, and
an installed snapshot carries the configuration of the log that it leaves in place. -/
def Fitting (s : Slot) : Act → Prop
  | .start cfg => cfg.bootstrap.Sized
  | .call (.step m) _ => (∀ e ∈ m.entries, Meaningful e) ∧
      (m.type = .snapshotReq → ∀ r snap, s = .up r → r.Admits m → m.snapshot = some snap →
        r.log.committed < snap.lastIncludedIndex → SnapshotFits r.log.mem snap)
  | .call (.proposeConfChange target) _ => target.Sized
  | _ => True

theorem Grounded.fitting {c : Call} {r₀ r r' : RawNode} {faults : List Bool}
    (hc : Fitting (.up r₀) (.call c faults)) (hreach : Reach c r₀ r) (hw : r.Wf) (h : Grounded r)
    (he : Effect c r r') : Grounded r' := by
  refine h.effect hw he ?_ ?_ ?_
  · rintro m rfl
    exact hc.1
  · rintro target rfl
    exact hc
  · rintro m snap mem rfl hty hsn hlt hsave hm
    rcases Reach.sameLog_or_restored hty hreach with hsame | ⟨snap', hsn', hle⟩
    · have hf := hc.2 hty r₀ snap rfl (hreach.admits hm) hsn (hsame.committed.trans_lt hlt)
      exact h.restore hw (hf.congr hsame.base hsame.ents) hsave
    · rw [hsn] at hsn'
      cases hsn'
      omega

theorem grounded_of_new {cfg : Config} {st : MemoryStorage} {r : RawNode} (hd : GroundedDisk st)
    (hc : cfg.bootstrap.Sized) (hnew : new cfg { mem := st } = .ok r) : Grounded r := by
  have hst := started_of_new hnew
  refine ⟨?_, ?_, ?_⟩
  · rw [hst.log]
    exact hd
  · rw [hst.bootstrap]
    exact hc
  · rw [hst.log, hst.bootstrap]
    exact (confFrom_of_new hnew).inForce

theorem groundedDisk_empty : GroundedDisk {} := ⟨by rintro _ ⟨⟩, by decide⟩

/-- In such a run the configuration in force is always the one that the storage establishes. -/
theorem Grounded.run {acts : List Act} {r : RawNode} (hp : (Slot.down {}).Allows Fitting acts)
    (hr : (Slot.down {}).run acts = .up r) : Grounded r := by
  have h : ((Slot.down {}).run acts).Sat Grounded GroundedDisk :=
    Slot.Sat.run (s := .down {}) groundedDisk_empty MemoryStorage.OK.empty hp
      (fun _ _ _ hc _ _ _ hreach hw h he => h.fitting hc hreach hw he) (fun _ _ h => h.disk)
      fun _ _ _ hc _ hd hnew => grounded_of_new hd hc hnew
  rw [hr] at h
  exact h

/-- A snapshot carries the membership at its boundary when no configuration entry lies above the
applied index, in every run that fits. -/
theorem createSnapshot_conf_at_boundary {acts : List Act} {r r' : RawNode}
    (hp : (Slot.down {}).Allows Fitting acts) (hr : (Slot.down {}).run acts = .up r)
    (hsettled : ∀ e ∈ r.log.mem.ents, e.type = .confChange → e.index ≤ r.log.applied)
    {data : List UInt8} {faults : List Bool} {snap : Snapshot}
    (hsnap : createSnapshot data (r.withFaults faults) = .ok snap r') :
    r.log.mem.confAt r.bootstrap snap.lastIncludedIndex = .ok snap.config := by
  obtain ⟨hidx, hconf⟩ := createSnapshot_ok hsnap
  rw [hidx, hconf]
  exact (Grounded.run hp hr).conf.confAt hsettled

/-- A single voter elects itself and applies its first entry. -/
def alone : List Act :=
  [.start { id := 1, electionTick := 2, heartbeatTick := 1, bootstrap := { voters := [1] } },
   .call .tick [], .call .tick [], .call (.applyTo 1) []]

def confirms (k : ℕ) : Message :=
  { type := .appendResp, sender := 2, dest := 1, term := 1, success := true, matchIndex := k }

/-- The leader of one takes in a second voter, who confirms the two entries of the change; both are
applied. -/
def grown : List Act :=
  alone ++ [.call (.proposeConfChange { voters := [1, 2] }) [],
    .call (.step (confirms 2)) [],
    .call (.step (confirms 3)) [],
    .call (.applyTo 3) []]

/-- The snapshot is taken at the entry that left the joint configuration, and carries what that entry
established. -/
theorem createSnapshot_conf_grown :
    ∃ r snap r', (Slot.down {}).run grown = .up r ∧
      (∃ e ∈ r.log.mem.ents, e.type = .confChange ∧ e.index = 3) ∧ r.log.committed = 3 ∧
      createSnapshot [] (r.withFaults []) = .ok snap r' ∧ snap.lastIncludedIndex = 3 ∧
      snap.config = { voters := [1, 2] } ∧
      r.log.mem.confAt r.bootstrap snap.lastIncludedIndex = .ok snap.config := by
  have hp : (Slot.down {}).Allows Fitting grown :=
    ⟨(by decide : Configuration.Sized { voters := [1] }), trivial, trivial, trivial,
      (by decide : Configuration.Sized { voters := [1, 2] }),
      ⟨by rintro _ ⟨⟩, by rintro ⟨⟩⟩, ⟨by rintro _ ⟨⟩, by rintro ⟨⟩⟩, trivial, trivial⟩
  obtain ⟨r, hr, ht⟩ := Slot.exists_up (s := (Slot.down {}).run grown)
    (fun r => (r.log.mem.ents.all fun e => e.type = .confChange → e.index ≤ r.log.applied) &&
      (r.log.mem.ents.any fun e => e.type = .confChange ∧ e.index = 3) &&
      decide (r.log.committed = 3) &&
      succeeds (fun snap _ => snap.lastIncludedIndex = 3 ∧ snap.config = { voters := [1, 2] })
        (createSnapshot [] (r.withFaults []))) (by decide +kernel)
  simp only [Bool.and_eq_true, List.all_eq_true, List.any_eq_true, decide_eq_true_eq] at ht
  obtain ⟨⟨⟨hsettled, hentry⟩, hcommitted⟩, hsucc⟩ := ht
  obtain ⟨snap, r', hsnap, hshape⟩ := exists_ok_of_succeeds hsucc
  obtain ⟨hidx, hconf⟩ := of_decide_eq_true hshape
  exact ⟨r, snap, r', hr, hentry, hcommitted, hsnap, hidx, hconf,
    createSnapshot_conf_at_boundary hp hr hsettled hsnap⟩

/-- The leader of one proposes a second voter, which is not committed when the snapshot is taken. -/
theorem createSnapshot_stores_uncommitted :
    ∃ r snap r', (Slot.down {}).run
        (alone ++ [.call (.proposeConfChange { voters := [1, 2] }) []]) = .up r ∧
      createSnapshot [] r = .ok snap r' ∧ snap.lastIncludedIndex = 1 ∧ r.log.committed = 1 ∧
      snap.config = { voters := [1, 2], oldVoters := [1] } ∧
      r.log.mem.confAt r.bootstrap snap.lastIncludedIndex = .ok { voters := [1] } := by
  obtain ⟨r, hr, ht⟩ := Slot.exists_up (s := (Slot.down {}).run
      (alone ++ [.call (.proposeConfChange { voters := [1, 2] }) []]))
    (fun r => r.log.committed = 1 && succeeds (fun snap _ => snap.lastIncludedIndex = 1 ∧
        snap.config = { voters := [1, 2], oldVoters := [1] } ∧
        (r.log.mem.confAt r.bootstrap snap.lastIncludedIndex).toOption = some { voters := [1] })
      (createSnapshot [] r)) (by decide)
  rw [Bool.and_eq_true] at ht
  obtain ⟨hcom, hrun⟩ := ht
  obtain ⟨snap, r', hsnap, hrest⟩ := exists_ok_of_succeeds hrun
  simp only [decide_eq_true_eq] at hcom hrest
  exact ⟨r, snap, r', hr, hsnap, hrest.1, hcom, hrest.2.1, eq_ok_of_toOption hrest.2.2⟩

end RaftStore.Raft
