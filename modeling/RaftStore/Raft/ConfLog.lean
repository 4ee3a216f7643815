import Mathlib.Data.List.Induction
import RaftStore.Raft.Effect
import RaftStore.Raft.Quorums

/-! The configuration that a log establishes: the one of its last configuration entry, or else the
snapshot's, or else the one the node was started with.  Recomputing the configuration yields this
one. -/

namespace RaftStore.Raft

open RawNode

def NoConf (l : List LogEntry) : Prop := ∀ e ∈ l, e.type ≠ .confChange

theorem NoConf.append {l l' : List LogEntry} (h : NoConf l) (h' : NoConf l') : NoConf (l ++ l') := by
  intro e he
  rcases List.mem_append.mp he with he | he
  · exact h e he
  · exact h' e he

/-- The last configuration entry of `l` is the one after `a`, and carries `conf`. -/
structure LastConf (l a : List LogEntry) (conf : Configuration) : Prop where
  split : ∃ e b cc, l = a ++ e :: b ∧ e.type = .confChange ∧
    ConfChange.decode e.command = .ok cc ∧ cc.config = conf ∧ NoConf b

theorem LastConf.append {l l' a : List LogEntry} {conf : Configuration} (h : LastConf l a conf)
    (h' : NoConf l') : LastConf (l ++ l') a conf := by
  obtain ⟨e, b, cc, hl, hty, hdec, hcc, hb⟩ := h.split
  exact ⟨e, b ++ l', cc, by rw [hl]; simp, hty, hdec, hcc, hb.append h'⟩

theorem lastConf_concat {l : List LogEntry} {e : LogEntry} {cc : ConfChange}
    (hty : e.type = .confChange) (hdec : ConfChange.decode e.command = .ok cc) :
    LastConf (l ++ [e]) l cc.config :=
  ⟨e, [], cc, rfl, hty, hdec, rfl, nofun⟩

/-- The configuration in force for a storage, with the index that established it. -/
inductive ConfFrom (m : MemoryStorage) (boot : Configuration) : Configuration → ℕ → Prop
  | entry (a : List LogEntry) (conf : Configuration) : LastConf m.ents a conf →
      ConfFrom m boot conf (m.base.index + a.length + 1)
  | snapshot : NoConf m.ents → m.snapshot.config.isEmpty = false →
      ConfFrom m boot m.snapshot.config m.snapshot.lastIncludedIndex
  | bootstrap : NoConf m.ents → m.snapshot.config.isEmpty = true → ConfFrom m boot boot 0

theorem lastConfEntry_base (l : RaftLog) : l.lastConfEntry l.mem.base.index = .ok none := by
  cases hb : l.mem.base.index with
  | zero => rfl
  | succ b =>
    rw [RaftLog.lastConfEntry, if_pos]
    change b + 1 < l.mem.base.index + 1
    omega

/-- Where the search finds the entry after the first `n`. -/
theorem RaftLog.entry_at (l : RaftLog) {n : ℕ} (hn : n < l.mem.ents.length) :
    ¬ l.mem.base.index + n + 1 < l.firstIndex ∧
      l.mem.getEntry (l.mem.base.index + n + 1) = .ok l.mem.ents[n] ∧
      l.mem.ents.take (n + 1) = l.mem.ents.take n ++ [l.mem.ents[n]] := by
  have he : l.mem.ents[n]? = some l.mem.ents[n] := List.getElem?_eq_getElem hn
  refine ⟨?_, getEntry_of_getElem he, by rw [List.take_add_one, he, Option.toList_some]⟩
  change ¬ _ < l.mem.base.index + 1
  omega

/-- What the search from index `base + n` down finds in the first `n` entries. -/
theorem lastConfEntry_spec (l : RaftLog) (n : ℕ) (hn : n ≤ l.mem.ents.length) :
    (∀ conf k, l.lastConfEntry (l.mem.base.index + n) = .ok (some (conf, k)) →
      ∃ a, k = l.mem.base.index + a.length + 1 ∧ LastConf (l.mem.ents.take n) a conf) ∧
    (l.lastConfEntry (l.mem.base.index + n) = .ok none → NoConf (l.mem.ents.take n)) := by
  induction n with
  | zero =>
    rw [Nat.add_zero, lastConfEntry_base]
    exact ⟨nofun, fun _ => by simp [NoConf]⟩
  | succ n ih =>
    obtain ⟨ih1, ih2⟩ := ih (by omega)
    obtain ⟨hfirst, hget, htake⟩ := l.entry_at (n := n) (by omega)
    rw [← Nat.add_assoc, RaftLog.lastConfEntry, if_neg hfirst, hget, htake]
    dsimp only
    split
    · rename_i hty
      have hno : NoConf [l.mem.ents[n]] := by simpa [NoConf] using hty
      refine ⟨fun conf k h => ?_, fun h => (ih2 h).append hno⟩
      obtain ⟨a, hk, ha⟩ := ih1 conf k h
      exact ⟨a, hk, ha.append hno⟩
    · rename_i hty
      split
      · exact ⟨nofun, nofun⟩
      · rename_i cc hdec
        refine ⟨fun conf k h => ?_, nofun⟩
        cases h
        exact ⟨l.mem.ents.take n, by rw [List.length_take]; omega,
          lastConf_concat (not_not.mp hty) hdec⟩

theorem setConfiguration_conf (r : RawNode) (conf : Configuration) (i : ℕ) :
    (r.setConfiguration conf i).conf = conf ∧ (r.setConfiguration conf i).confIndex = i := by
  simp only [setConfiguration]
  split
  · assumption
  · split
    · simp only [refreshProgress]
      split <;> exact ⟨rfl, rfl⟩
    · exact ⟨rfl, rfl⟩

/-- Recomputing yields the configuration that the log establishes. -/
theorem refreshConfiguration_ok {r r' : RawNode} (h : r.refreshConfiguration = .ok r') :
    ConfFrom r.log.mem r.bootstrap r'.conf r'.confIndex := by
  obtain ⟨hsome, hnone⟩ := lastConfEntry_spec r.log r.log.mem.ents.length le_rfl
  rw [List.take_length] at hsome hnone
  unfold refreshConfiguration at h
  split at h
  · exact nomatch h
  · rename_i conf i heq
    cases h
    obtain ⟨a, rfl, ha⟩ := hsome conf i heq
    rw [(setConfiguration_conf ..).1, (setConfiguration_conf ..).2]
    exact .entry a conf ha
  · rename_i heq
    dsimp only at h
    split at h
    · rename_i hne
      cases h
      rw [(setConfiguration_conf ..).1, (setConfiguration_conf ..).2]
      exact .snapshot (hnone heq) (by simpa using hne)
    · rename_i hemp
      cases h
      rw [(setConfiguration_conf ..).1, (setConfiguration_conf ..).2]
      exact .bootstrap (hnone heq) (by simpa using hemp)

/-- The configuration can be recomputed when every configuration entry can be read. -/
theorem refreshConfiguration_isOk {r : RawNode}
    (h : ∀ e ∈ r.log.mem.ents, e.type = .confChange → ∃ cc, ConfChange.decode e.command = .ok cc) :
    ∃ r', r.refreshConfiguration = .ok r' := by
  have key : ∀ n ≤ r.log.mem.ents.length,
      ∃ x, r.log.lastConfEntry (r.log.mem.base.index + n) = .ok x := by
    intro n hn
    induction n with
    | zero => exact ⟨_, lastConfEntry_base r.log⟩
    | succ n ih =>
      have he : r.log.mem.ents[n]? = some r.log.mem.ents[n] := List.getElem?_eq_getElem (by omega)
      rw [← Nat.add_assoc, RaftLog.lastConfEntry]
      split
      · exact ⟨_, rfl⟩
      · rw [getEntry_of_getElem he]
        dsimp only
        split
        · exact ih (by omega)
        · rename_i hty
          obtain ⟨cc, hcc⟩ := h _ (List.getElem_mem _) (not_not.mp hty)
          rw [hcc]
          exact ⟨_, rfl⟩
  obtain ⟨x, hx⟩ := key _ le_rfl
  unfold refreshConfiguration
  have hlast : r.log.lastIndex = r.log.mem.base.index + r.log.mem.ents.length := rfl
  rw [hlast, hx]
  cases x with
  | none =>
    dsimp only
    split <;> exact ⟨_, rfl⟩
  | some p => exact ⟨_, rfl⟩

/-! ### Changes of the configuration -/

theorem Configuration.Sized.leaveJoint {conf : Configuration} (hs : conf.Sized) {cc : ConfChange}
    (h : conf.leaveJoint = .ok cc) : cc.config.Sized := by
  rw [(leaveJoint_ok h).2.2]
  exact Configuration.Sized.normalize ⟨hs.voters, by simp, hs.learners⟩

/-- What a leader proposes is no longer than what it is in and what it was asked for. -/
theorem RawNode.Proposes.sized {c : Call} {r : RawNode} {cc : ConfChange} (hp : r.Proposes c cc)
    (hs : r.conf.Sized) (ht : ∀ target, c = .proposeConfChange target → target.Sized) :
    cc.config.Sized := by
  rcases hp.change with ⟨target, rfl, henter⟩ | hleave
  · have hsz := ht target rfl
    rw [enterJoint_ok henter]
    exact Configuration.Sized.normalize ⟨hsz.voters, hs.voters, hsz.learners⟩
  · exact hs.leaveJoint hleave

theorem mem_spliced {l l' : RaftLog} {prev : ℕ} {ents : List LogEntry}
    (h : l.Spliced prev ents l') : ∀ e ∈ l'.mem.ents, e ∈ l.mem.ents ∨ e ∈ ents := by
  cases h with
  | same _ => exact fun e he => Or.inl he
  | wrote k e rest faults _ hdrop _ _ _ =>
    intro x hx
    rcases List.mem_append.mp hx with hx | hx
    · exact Or.inl (List.mem_of_mem_take hx)
    · rw [← hdrop] at hx
      exact Or.inr (List.mem_of_mem_drop hx)

/-! ### What leaves the configuration as it is -/

section

variable {m : MemoryStorage} {boot conf : Configuration} {i : ℕ}

/-- Only the sentinel, the entries and the snapshot matter. -/
theorem ConfFrom.congr {m' : MemoryStorage} (h : ConfFrom m boot conf i) (hb : m'.base = m.base)
    (he : m'.ents = m.ents) (hs : m'.snapshot = m.snapshot) : ConfFrom m' boot conf i := by
  cases h with
  | entry a conf hl =>
    rw [← hb]
    exact .entry a conf (he ▸ hl)
  | snapshot h1 h2 =>
    rw [← hs] at h2 ⊢
    exact .snapshot (he ▸ h1) h2
  | bootstrap h1 h2 => exact .bootstrap (he ▸ h1) (hs ▸ h2)

theorem ConfFrom.concat (h : ConfFrom m boot conf i) {e : LogEntry} (he : e.type ≠ .confChange) :
    ConfFrom { m with ents := m.ents ++ [e] } boot conf i := by
  have hno : NoConf [e] := by simpa [NoConf] using he
  cases h with
  | entry a conf hl => exact .entry a conf (hl.append hno)
  | snapshot h1 h2 => exact .snapshot (h1.append hno) h2
  | bootstrap h1 h2 => exact .bootstrap (h1.append hno) h2

/-- Entries that replace only what comes after the last configuration entry, and have none. -/
theorem ConfFrom.splice (h : ConfFrom m boot conf i) {first : ℕ} {es : List LogEntry}
    (hes : NoConf es) (hlt : 0 < i → i < first) : ConfFrom (m.splice first es) boot conf i := by
  have htake : ∀ n, NoConf m.ents → NoConf (m.ents.take n ++ es) := fun n h1 =>
    NoConf.append (fun e he => h1 e (List.mem_of_mem_take he)) hes
  cases h with
  | entry a conf hl =>
    obtain ⟨e, b, cc, hl, hty, hdec, hcc, hb⟩ := hl.split
    refine .entry (m := m.splice first es) a conf ⟨e, b.take (first - m.offset - 1 - a.length - 1) ++ es,
      cc, ?_, hty, hdec, hcc, NoConf.append (fun x hx => hb x (List.mem_of_mem_take hx)) hes⟩
    have hlt := hlt (Nat.succ_pos _)
    obtain ⟨n, hn⟩ : ∃ n, first - m.offset - 1 = a.length + (n + 1) :=
      ⟨first - m.offset - 1 - a.length - 1, by simp only [MemoryStorage.offset]; omega⟩
    rw [hn, Nat.add_sub_cancel_left, Nat.add_sub_cancel]
    simp only [MemoryStorage.splice, hl, hn]
    rw [List.take_length_add_append]
    simp
  | snapshot h1 h2 => exact .snapshot (htake _ h1) h2
  | bootstrap h1 h2 => exact .bootstrap (htake _ h1) h2

/-- An append after which the node sees no need to recompute has not changed the configuration. -/
theorem ConfFrom.spliced {l l' : RaftLog} {prev : ℕ} {ents : List LogEntry}
    (h : ConfFrom l.mem boot conf i) (hsp : l.Spliced prev ents l') (hno : NoConf ents)
    (hlt : 0 < i → ∀ e ∈ ents, i < e.index) : ConfFrom l'.mem boot conf i := by
  cases hsp with
  | same _ => exact h
  | wrote k e rest faults _ hdrop _ _ _ =>
    have hmem : ∀ x ∈ e :: rest, x ∈ ents := fun x hx => List.mem_of_mem_drop (hdrop ▸ hx)
    exact h.splice (fun x hx => hno x (hmem x hx)) fun h0 => hlt h0 e (hmem e (by simp))

end

theorem confChanged_false {r : RawNode} {entries : List LogEntry}
    (h : r.confChanged entries = false) :
    NoConf entries ∧ (0 < r.confIndex → ∀ e ∈ entries, r.confIndex < e.index) := by
  simp only [confChanged, Bool.or_eq_false_iff, List.any_eq_false, Bool.or_eq_true,
    Bool.and_eq_true, decide_eq_true_eq, not_or, not_and, not_le] at h
  exact ⟨fun e he => (h.2 e he).1, fun h0 e he => (h.2 e he).2 h0⟩

/-- A node starts with the configuration that its storage establishes. -/
theorem confFrom_of_new {cfg : Config} {d : Disk} {r : RawNode} (h : new cfg d = .ok r) :
    ConfFrom d.mem cfg.bootstrap r.conf r.confIndex := by
  simp only [new] at h
  split at h
  · exact nomatch h
  · split at h
    · exact nomatch h
    · rename_i r1 h1
      cases h
      have hc := refreshConfiguration_ok h1
      rw [becomeFollower, reset_eq]
      split at hc <;> exact hc

/-! ### The configuration of a whole log -/

/-- The configuration that a log establishes over `boot`. -/
def confOf (boot : Configuration) (l : List LogEntry) : Configuration :=
  l.foldl (fun conf e =>
    if e.type = .confChange then
      match ConfChange.decode e.command with
      | .ok cc => cc.config
      | .error _ => conf
    else conf) boot

abbrev IsConf (e : LogEntry) : Prop := e.type = .confChange

section ConfOf

variable {boot : Configuration} {l l' : List LogEntry} {e : LogEntry}

theorem confOf_append_noConf (h : NoConf l') : confOf boot (l ++ l') = confOf boot l := by
  induction l' using List.reverseRecOn with
  | nil => rw [List.append_nil]
  | append_singleton l' e ih =>
    have he : e.type ≠ .confChange := h e (by simp)
    have ih := ih fun x hx => h x (List.mem_append_left _ hx)
    unfold confOf at ih ⊢
    rw [← List.append_assoc, List.foldl_append, ih]
    simp [he]

theorem confOf_noConf (h : NoConf l) : confOf boot l = boot := by
  have : confOf boot ([] ++ l) = confOf boot [] := confOf_append_noConf h
  simpa [confOf] using this

theorem confOf_concat {cc : ConfChange} (hty : IsConf e)
    (hdec : ConfChange.decode e.command = .ok cc) : confOf boot (l ++ [e]) = cc.config := by
  unfold confOf
  rw [List.foldl_append]
  simp [hty, hdec]

/-- The last configuration entry decides. -/
theorem LastConf.confOf_eq {a : List LogEntry} {conf : Configuration} (h : LastConf l' a conf) :
    confOf boot (l ++ l') = conf := by
  obtain ⟨e, b, cc, rfl, hty, hdec, rfl, hb⟩ := h.split
  have hsplit : l ++ (a ++ e :: b) = l ++ a ++ [e] ++ b := by simp
  rw [hsplit, confOf_append_noConf hb, confOf_concat hty hdec]

end ConfOf

end RaftStore.Raft
