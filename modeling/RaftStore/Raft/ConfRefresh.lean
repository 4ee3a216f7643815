import RaftStore.Raft.Appending
import RaftStore.Raft.ConfInForce

/-! A follower recomputes its configuration only after an append that may have changed it.  What it
counts with is all the same what recomputing would give. -/

namespace RaftStore.Raft

open Lib RawNode

variable {r : RawNode}

/-! ### The search for the last configuration entry -/

/-- The last configuration entry of a list that ends in `x`. -/
theorem LastConf.of_concat {l a : List LogEntry} {x : LogEntry} {conf : Configuration}
    (h : LastConf (l ++ [x]) a conf) :
    (a = l ∧ x.type = .confChange ∧ ∃ cc, ConfChange.decode x.command = .ok cc ∧ cc.config = conf) ∨
      (x.type ≠ .confChange ∧ LastConf l a conf) := by
  obtain ⟨e, b, cc, heq, hty, hdec, hcc, hb⟩ := h.split
  rcases List.eq_nil_or_concat b with rfl | ⟨b', y, rfl⟩
  · obtain ⟨rfl, hx⟩ := List.append_inj' heq rfl
    cases hx
    exact Or.inl ⟨rfl, hty, cc, hdec, hcc⟩
  · rw [List.concat_eq_append, ← List.cons_append, ← List.append_assoc] at heq
    obtain ⟨rfl, hx⟩ := List.append_inj' heq rfl
    cases hx
    exact Or.inr ⟨hb x (by simp), e, b', cc, rfl, hty, hdec, hcc, fun z hz => hb z (by simp [hz])⟩

/-- The search from index `base + n` down finds what the first `n` entries have. -/
theorem lastConfEntry_eq (l : RaftLog) (n : ℕ) (hn : n ≤ l.mem.ents.length) :
    (∀ a conf, LastConf (l.mem.ents.take n) a conf →
      l.lastConfEntry (l.mem.base.index + n) = .ok (some (conf, l.mem.base.index + a.length + 1))) ∧
    (NoConf (l.mem.ents.take n) → l.lastConfEntry (l.mem.base.index + n) = .ok none) := by
  induction n with
  | zero =>
    rw [Nat.add_zero, lastConfEntry_base]
    refine ⟨fun a conf h => ?_, fun _ => rfl⟩
    obtain ⟨e, b, cc, heq, -⟩ := h.split
    simp at heq
  | succ n ih =>
    obtain ⟨ih1, ih2⟩ := ih (by omega)
    obtain ⟨hfirst, hget, htake⟩ := l.entry_at (n := n) (by omega)
    rw [← Nat.add_assoc, RaftLog.lastConfEntry, if_neg hfirst, hget, htake]
    dsimp only
    refine ⟨fun a conf h => ?_, fun h => ?_⟩
    · rcases h.of_concat with ⟨rfl, hty, cc, hdec, rfl⟩ | ⟨hty, h⟩
      · rw [if_neg (not_not.mpr hty), hdec, List.length_take, min_eq_left (by omega)]
      · rw [if_pos hty]
        exact ih1 a conf h
    · rw [if_pos (h _ (List.mem_append_right _ (List.mem_singleton_self _)))]
      exact ih2 fun x hx => h x (List.mem_append_left _ hx)

/-- The configuration that a log establishes is what recomputing it gives. -/
theorem refreshConfiguration_of_confFrom {conf : Configuration} {i : ℕ}
    (h : ConfFrom r.log.mem r.bootstrap conf i) :
    r.refreshConfiguration = .ok (r.setConfiguration conf i) := by
  obtain ⟨hlast, hnone⟩ := lastConfEntry_eq r.log r.log.mem.ents.length le_rfl
  have hidx : r.log.lastIndex = r.log.mem.base.index + r.log.mem.ents.length := rfl
  rw [List.take_length] at hlast hnone
  rw [refreshConfiguration, hidx]
  cases h with
  | entry a conf h => rw [hlast a conf h]
  | snapshot h1 h2 =>
    rw [hnone h1]
    simp only [h2]
    rfl
  | bootstrap h1 h2 =>
    rw [hnone h1]
    simp only [h2]
    rfl

/-- Recomputing changes nothing exactly when the log establishes what is in force. -/
theorem refreshConfiguration_eq_self :
    r.refreshConfiguration = .ok r ↔ ConfFrom r.log.mem r.bootstrap r.conf r.confIndex := by
  refine ⟨refreshConfiguration_ok, fun h => ?_⟩
  rw [refreshConfiguration_of_confFrom h, setConfiguration, if_pos ⟨rfl, rfl⟩]

/-! ### The configuration in force -/

/-- The configuration in force is the one that recomputing it gives.  The index recorded for it is
that of the last configuration entry in the log, or above it where a snapshot brought it; when the
log has no such entry any more, it does not matter. -/
structure RawNode.Current (r : RawNode) : Prop where
  conf : ∃ r', r.refreshConfiguration = .ok r' ∧ r'.conf = r.conf
  index : ∀ conf i, r.log.lastConfEntry r.log.lastIndex = .ok (some (conf, i)) → i ≤ r.confIndex

theorem InForce.of_noConf {m : MemoryStorage} {boot conf : Configuration} {i : ℕ}
    (h : InForce m boot conf i) (hno : NoConf m.ents) (j : ℕ) : InForce m boot conf j := by
  cases h with
  | entry a conf i h _ =>
    obtain ⟨e, b, cc, hents, hty, -⟩ := h.split
    exact absurd hty (hno e (by simp [hents]))
  | settled i h => exact .settled j h

/-- What is in force is established by the log, with an index of its own. -/
theorem InForce.confFrom {m : MemoryStorage} {boot conf : Configuration} {i : ℕ}
    (h : InForce m boot conf i) : ∃ j, ConfFrom m boot conf j := by
  cases h with
  | entry a conf i h _ => exact ⟨_, .entry a conf h⟩
  | settled i h =>
    rw [MemoryStorage.settledConf]
    split
    · rename_i hemp
      exact ⟨_, .bootstrap h hemp⟩
    · rename_i hne
      exact ⟨_, .snapshot h (Bool.eq_false_iff.mpr hne)⟩

theorem current_iff : r.Current ↔ InForce r.log.mem r.bootstrap r.conf r.confIndex := by
  have hidx : r.log.lastIndex = r.log.mem.base.index + r.log.mem.ents.length := rfl
  obtain ⟨hlast, hnone⟩ := lastConfEntry_eq r.log r.log.mem.ents.length le_rfl
  rw [List.take_length, ← hidx] at hlast hnone
  constructor
  · rintro ⟨⟨r', hr', hconf⟩, hindex⟩
    have hfrom := refreshConfiguration_ok hr'
    rw [hconf] at hfrom
    generalize r.conf = conf at hfrom ⊢
    generalize r'.confIndex = i at hfrom
    cases hfrom with
    | entry a conf h => exact .entry a conf _ h (hindex conf _ (hlast a conf h))
    | snapshot h1 h2 => exact (ConfFrom.snapshot h1 h2).inForce.of_noConf h1 _
    | bootstrap h1 h2 => exact (ConfFrom.bootstrap h1 h2).inForce.of_noConf h1 _
  · intro h
    obtain ⟨j, hfrom⟩ := h.confFrom
    refine ⟨⟨_, refreshConfiguration_of_confFrom hfrom, (setConfiguration_conf ..).1⟩, ?_⟩
    intro conf i hi
    generalize r.conf = conf' at h
    generalize r.confIndex = k at h ⊢
    cases h with
    | entry a conf' k ha hk =>
      rw [hlast a _ ha] at hi
      cases hi
      exact hk
    | settled k hno =>
      rw [hnone hno] at hi
      cases hi

/-! ### An append -/

/-- What an append keeps of the configuration in force: something that the sentinel, the entries and
the snapshot decide, that recomputing establishes, and that entries without a configuration, above
the index recorded for the one in force, do not touch. -/
structure Maintained (I : MemoryStorage → Configuration → Configuration → ℕ → Prop) : Prop where
  confFrom : ∀ {m boot conf i}, ConfFrom m boot conf i → I m boot conf i
  congr : ∀ {m m' boot conf i}, I m boot conf i → m'.base = m.base → m'.ents = m.ents →
    m'.snapshot = m.snapshot → I m' boot conf i
  spliced : ∀ {l l' : RaftLog} {prev ents boot conf i}, I l.mem boot conf i →
    l.Spliced prev ents l' → NoConf ents → (0 < i → ∀ e ∈ ents, i < e.index) →
    I l'.mem boot conf i

theorem maintained_confFrom : Maintained ConfFrom where
  confFrom := id
  congr := ConfFrom.congr
  spliced := ConfFrom.spliced

theorem maintained_inForce : Maintained InForce where
  confFrom := ConfFrom.inForce
  congr := InForce.congr
  spliced := InForce.spliced

section

variable {I : MemoryStorage → Configuration → Configuration → ℕ → Prop}

/-- A log with a request after a place where it matched reaches as far as the request. -/
theorem RaftLog.Spliced.le_lastIndex {l l' : RaftLog} {prev prevTerm : ℕ} {ents : List LogEntry}
    (hs : l.Spliced prev ents l') (hl : l.OK) (hc : Contiguous (prev + 1) ents)
    (hp : l.committed ≤ prev) (hm : l.matchTerm prev prevTerm = true) :
    prev + ents.length ≤ l'.lastIndex := by
  obtain ⟨hm', hents⟩ := hs.holds hl hc hp hm
  exact RaftLog.held_le_lastIndex (RaftLog.matchTerm_eq.mp hm') hc fun e he =>
    RaftLog.matchTerm_eq.mp (hents e he)

theorem Maintained.meets_persistHardState (hI : Maintained I)
    (h : I r.log.mem r.bootstrap r.conf r.confIndex) :
    Meets persistHardState r (fun _ r' => I r'.log.mem r'.bootstrap r'.conf r'.confIndex)
      fun _ r' => I r'.log.mem r'.bootstrap r'.conf r'.confIndex := by
  rw [persistHardState, meets_bind, meets_get]
  split
  · exact h
  · rw [meets_bind, wrapping, meets_mapFail]
    refine meets_onLog (RaftLog.meets_onDisk (fun mem faults hset => ?_) fun e faults => h)
    rw [MemoryStorage.setHardState] at hset
    split at hset
    · cases hset
    · cases hset
      exact hI.congr h rfl rfl rfl

/-- After an append the node recomputes its configuration, or has no need to. -/
theorem Maintained.meets_refreshIfNeeded (hI : Maintained I) {l l' : RaftLog} {prev : ℕ}
    {ents : List LogEntry} (h : I l.mem r.bootstrap r.conf r.confIndex)
    (hs : l.Spliced prev ents l') (hmem : r.log.mem = l'.mem) :
    Meets (refreshConfigurationIfNeeded ents) r
      (fun _ r' => I r'.log.mem r'.bootstrap r'.conf r'.confIndex)
      fun _ r' => ∃ e, r'.refreshConfiguration = .error e := by
  rw [refreshConfigurationIfNeeded, meets_bind, meets_get]
  split
  · rename_i hno
    obtain ⟨h1, h2⟩ := confChanged_false (by simpa using hno)
    rw [meets_pure, hmem]
    exact hI.spliced h hs h1 h2
  · rw [tryUpdate, meets_bind, meets_get]
    split
    · rename_i e he
      exact ⟨e, he⟩
    · rename_i r' hr'
      have hrec := refreshConfiguration_reconf hr'
      have hlog : r'.log = r.log := by rw [hrec.eq]
      have hboot : r'.bootstrap = r.bootstrap := by rw [hrec.eq]
      rw [meets_set, hlog, hboot]
      exact hI.confFrom (refreshConfiguration_ok hr')

theorem hear_conf (r : RawNode) (m : Message) : (r.hear m).log = r.log ∧
    (r.hear m).bootstrap = r.bootstrap ∧ (r.hear m).conf = r.conf ∧
    (r.hear m).confIndex = r.confIndex := by
  simp only [hear]
  split
  · rw [becomeFollower, reset_eq]
    exact ⟨rfl, rfl, rfl, rfl⟩
  · exact ⟨rfl, rfl, rfl, rfl⟩

theorem Maintained.meets_handleAppendRequest (hI : Maintained I) {m : Message} (hl : r.log.OK)
    (hc : Contiguous (m.prevLogIndex + 1) m.entries)
    (h : I r.log.mem r.bootstrap r.conf r.confIndex) :
    Meets (handleAppendRequest m) r (fun _ r' => I r'.log.mem r'.bootstrap r'.conf r'.confIndex)
      fun _ r' => I r'.log.mem r'.bootstrap r'.conf r'.confIndex ∨
        ∃ e, r'.refreshConfiguration = .error e := by
  obtain ⟨h1, h2, h3, h4⟩ := hear_conf r m
  rw [handleAppendRequest, meets_bind, meets_modify, meets_bind, meets_get]
  generalize r.hear m = r1 at *
  rw [← h1] at hl
  rw [← h1, ← h2, ← h3, ← h4] at h
  split
  · exact h
  · rename_i hprev
    rw [meets_bind]
    refine meets_onLog (RaftLog.meets_maybeAppend hl (fun _ => h) (fun l hm hs _ => ?_)
      (fun _ _ => Or.inl h) fun _ l hm hs hlt => ?_)
    · rw [meets_bind]
      refine Meets.mono (hI.meets_refreshIfNeeded h hs rfl) (fun _ r2 h' => ?_) fun _ _ h' => Or.inr h'
      rw [meets_bind]
      exact Meets.mono (hI.meets_persistHardState h') (fun _ _ h => h) fun _ _ h => Or.inl h
    · have := hs.le_lastIndex hl hc (not_lt.mp hprev) hm
      omega

end

/-- After every append the configuration in force is again the one that recomputing it gives, and
where recomputing would have changed nothing at all before the append, it changes nothing after it.
A node that cannot read a configuration entry of the request says so. -/
theorem append_keeps_conf_current {m : Message} (hl : r.log.OK)
    (hc : Contiguous (m.prevLogIndex + 1) m.entries) (h : r.Current) :
    Meets (handleAppendRequest m) r
      (fun _ r' => r'.Current ∧
        (r.refreshConfiguration = .ok r → r'.refreshConfiguration = .ok r'))
      fun _ r' => (r'.Current ∧
        (r.refreshConfiguration = .ok r → r'.refreshConfiguration = .ok r')) ∨
        ∃ e, r'.refreshConfiguration = .error e := by
  have h1 := maintained_inForce.meets_handleAppendRequest hl hc (current_iff.mp h)
  simp only [← current_iff] at h1
  by_cases hself : r.refreshConfiguration = .ok r
  · have h2 := maintained_confFrom.meets_handleAppendRequest hl hc
      (refreshConfiguration_eq_self.mp hself)
    simp only [← refreshConfiguration_eq_self] at h2
    refine Meets.mono (h1.and h2) (fun _ _ h => ⟨h.1, fun _ => h.2⟩) fun _ _ h => ?_
    rcases h with ⟨h | h, h' | h'⟩
    · exact Or.inl ⟨h, fun _ => h'⟩
    all_goals exact Or.inr (by assumption)
  · exact Meets.mono h1 (fun _ _ h => ⟨h, fun h' => absurd h' hself⟩) fun _ _ h =>
      h.imp_left fun h => ⟨h, fun h' => absurd h' hself⟩

/-- A change of the voters from 1, 2, 3 to 1, 2, 3, 4, of which the first half is in the log. -/
def widening : ConfChange := { config := { voters := [1, 2, 3, 4], oldVoters := [1, 2, 3] } }

/-- A follower with the change at the end of its log, not committed. -/
def undecided : RawNode :=
  { id := 2, cfg := { id := 2, electionTick := 2, heartbeatTick := 1 }
    bootstrap := { voters := [1, 2, 3] }
    conf := widening.config, confIndex := 2
    log := { committed := 1, storage := { mem := { ents :=
      [⟨1, 1, .normal, []⟩, ⟨1, 2, .confChange, widening.encode⟩] } } } }

/-- The request of a later leader that has an ordinary entry in the place of the change. -/
def overwriting : Message :=
  { type := .appendReq, term := 2, sender := 3, dest := 2, prevLogIndex := 1, prevLogTerm := 1
    entries := [⟨2, 2, .normal, []⟩] }

theorem append_keeps_conf_current_overwriting :
    ∃ r', handleAppendRequest overwriting undecided = .ok () r' ∧ r'.Current := by
  have hcur : undecided.Current := by
    have hdec := widening.decode_encode (by decide)
    have hlast : LastConf undecided.log.mem.ents [⟨1, 1, .normal, []⟩] widening.config :=
      lastConf_concat (l := [⟨1, 1, .normal, []⟩]) rfl hdec
    exact current_iff.mpr (.entry _ _ _ hlast (by decide))
  have hok : undecided.log.OK :=
    ⟨show Contiguous 1 undecided.log.mem.ents by decide, by decide, by decide, by decide,
      by decide⟩
  have h := append_keeps_conf_current (m := overwriting) hok (by decide) hcur
  have hdone : succeeds (fun _ _ => true) (handleAppendRequest overwriting undecided) = true := by
    decide
  obtain ⟨_, r', hrun, -⟩ := exists_ok_of_succeeds hdone
  exact ⟨r', hrun, (h.ok hrun).1⟩

end RaftStore.Raft
