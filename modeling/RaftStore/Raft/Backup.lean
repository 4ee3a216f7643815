import RaftStore.Raft.Trace

/-! Where a leader resumes after a follower refused an append.  The follower reports the term it has
at the place of the probe and the first index of it, and the leader skips the whole term.  Compared
here with going back one index at a time. -/

namespace RaftStore.Raft

open Lib RawNode

namespace RaftLog

/-- The terms that a log reports start at 1 and do not go down. -/
structure Rising (l : RaftLog) : Prop where
  pos : ∀ {i t}, 0 < i → l.term i = .ok t → 0 < t
  mono : ∀ {i j a b}, i ≤ j → l.term i = .ok a → l.term j = .ok b → a ≤ b

/-- Both logs report a term at the index, and it is the same. -/
def AgreesAt (l l' : RaftLog) (i : ℕ) : Prop := ∃ t, l.term i = .ok t ∧ l'.term i = .ok t

variable {l : RaftLog} {t : ℕ}

theorem offset_le_of_term {i : ℕ} (hi : 0 < i) (h : l.term i = .ok t) : l.mem.offset ≤ i := by
  rw [term, if_neg (by omega)] at h
  exact (MemoryStorage.term_eq_ok h).1

/-- Between two indexes of one term the log has that term. -/
theorem Rising.between (h : l.Rising) {i j k : ℕ} (hi : l.term i = .ok t) (hk : l.term k = .ok t)
    (h0 : 0 < i) (hij : i ≤ j) (hjk : j ≤ k) : l.term j = .ok t := by
  have hoff := offset_le_of_term h0 hi
  have hlast := le_lastIndex_of_term hk
  obtain ⟨s, hs⟩ := term_ok (l := l) (i := j) (by omega) (by omega)
  have h1 := h.mono hij hi hs
  have h2 := h.mono hjk hs hk
  rw [hs, le_antisymm h2 h1]

/-! ### The run of a term at a follower -/

theorem conflictStart_le (n idx : ℕ) : l.conflictStart t n idx ≤ idx := by
  induction n generalizing idx with
  | zero => exact le_rfl
  | succ n ih =>
    rw [conflictStart]
    split
    · split
      · exact le_rfl
      · split
        · exact le_rfl
        · exact (ih _).trans (Nat.sub_le _ _)
    · exact le_rfl

theorem le_conflictStart (n idx : ℕ) : min l.firstIndex idx ≤ l.conflictStart t n idx := by
  induction n generalizing idx with
  | zero => exact min_le_right _ _
  | succ n ih =>
    rw [conflictStart]
    split
    · split
      · exact min_le_right _ _
      · split
        · exact min_le_right _ _
        · have := ih (idx - 1)
          omega
    · exact min_le_right _ _

/-- The walk stays in the term. -/
theorem conflictStart_term (n idx : ℕ) (h : l.term idx = .ok t) {j : ℕ}
    (hj : l.conflictStart t n idx ≤ j) (hji : j ≤ idx) : l.term j = .ok t := by
  induction n generalizing idx with
  | zero =>
    obtain rfl : j = idx := le_antisymm hji hj
    exact h
  | succ n ih =>
    rcases Nat.eq_or_lt_of_le hji with rfl | hlt
    · exact h
    · rw [conflictStart] at hj
      split at hj
      · split at hj
        · omega
        · rename_i s hs
          split at hj
          · omega
          · rename_i hst
            rw [not_not.mp hst] at hs
            exact ih (idx - 1) hs hj (by omega)
      · omega

/-- The walk ends at the first index of the log, or where another term begins. -/
theorem conflictStart_ends (n idx : ℕ) (hn : idx ≤ n) :
    l.conflictStart t n idx ≤ l.firstIndex ∨
      l.term (l.conflictStart t n idx - 1) ≠ .ok t := by
  induction n generalizing idx with
  | zero => exact Or.inl ((conflictStart_le 0 idx).trans (by omega))
  | succ n ih =>
    rw [conflictStart]
    split
    · split
      · rename_i e he
        right
        rw [he]
        nofun
      · rename_i s hs
        split
        · rename_i hst
          right
          rw [hs]
          simpa using hst
        · exact ih (idx - 1) (by omega)
    · left
      omega

/-- The run begins at or below every retained index of the term. -/
theorem Rising.conflictStart_le_of_term (h : l.Rising) {idx i : ℕ} (hidx : l.term idx = .ok t)
    (hi : l.term i = .ok t) (hfirst : l.firstIndex ≤ i) :
    l.conflictStart t idx idx ≤ i := by
  by_contra hlt
  have hlt := not_le.mp hlt
  have hstart : l.firstIndex = l.mem.offset + 1 := rfl
  have hbound := conflictStart_le (l := l) (t := t) idx idx
  rcases conflictStart_ends (l := l) (t := t) idx idx le_rfl with hend | hend
  · omega
  · exact hend (h.between hi hidx (by omega) (by omega) (by omega))

end RaftLog

/-! ### The last entry of a term at the leader -/

section

variable {r : RawNode} {t : ℕ}

theorem lastIndexOfTerm_some {n i : ℕ} (h : r.lastIndexOfTerm t n = some i) :
    r.log.firstIndex ≤ i ∧ i ≤ n ∧ r.log.term i = .ok t := by
  induction n with
  | zero => exact nomatch h
  | succ n ih =>
    rw [lastIndexOfTerm] at h
    split at h
    · exact nomatch h
    · split at h
      · exact nomatch h
      · rename_i s hs
        split at h
        · rename_i hst
          cases h
          exact ⟨by omega, le_rfl, hst ▸ hs⟩
        · split at h
          · exact nomatch h
          · obtain ⟨h1, h2, h3⟩ := ih h
            exact ⟨h1, by omega, h3⟩

/-- Every retained entry of the term is at or below the one that is found. -/
theorem le_of_lastIndexOfTerm (hr : r.log.Rising) {n j : ℕ} (hn : n ≤ r.log.lastIndex)
    (hj : r.log.firstIndex ≤ j) (hjn : j ≤ n) (ht : r.log.term j = .ok t) :
    ∃ i, r.lastIndexOfTerm t n = some i ∧ j ≤ i := by
  have hfirst : r.log.firstIndex = r.log.mem.offset + 1 := rfl
  induction n with
  | zero => omega
  | succ n ih =>
    obtain ⟨s, hs⟩ := RaftLog.term_ok (l := r.log) (i := n + 1) (by omega) hn
    rw [lastIndexOfTerm, if_neg (by omega), hs]
    dsimp only
    by_cases hst : s = t
    · exact ⟨n + 1, if_pos hst, hjn⟩
    · have hle := hr.mono hjn ht hs
      have hjn' : j ≠ n + 1 := by
        rintro rfl
        rw [hs] at ht
        exact hst (Except.ok.inj ht)
      rw [if_neg hst, if_neg (by omega)]
      exact ih (by omega) (by omega)

end

/-! ### A refused append -/

/-- The follower answers the request with a refusal. -/
def RawNode.Rejects (f : RawNode) (req resp : Message) : Prop :=
  ∃ f', handleAppendRequest req f = .ok () f' ∧ f'.msgs = f.msgs ++ [resp] ∧ resp.success = false

/-- A follower refuses where its log does not match, and tells why. -/
structure RawNode.Refused (f : RawNode) (req resp : Message) : Prop where
  committed : f.log.committed ≤ req.prevLogIndex
  unmatched : f.log.term req.prevLogIndex ≠ .ok req.prevLogTerm
  type : resp.type = .appendResp
  sender : resp.sender = f.id
  dest : resp.dest = req.sender
  term : f.term = req.term → resp.term = req.term
  success : resp.success = false
  hint : (resp.conflictIndex, resp.conflictTerm) = f.log.conflictHint req.prevLogIndex

theorem hear_msgs (r : RawNode) (m : Message) :
    (r.hear m).msgs = r.msgs ∧ (r.hear m).log = r.log ∧ (r.hear m).id = r.id ∧
      (r.term = m.term → (r.hear m).term = m.term) := by
  simp only [hear]
  split
  · rw [becomeFollower, reset_eq]
    exact ⟨rfl, rfl, rfl, fun _ => rfl⟩
  · exact ⟨rfl, rfl, rfl, id⟩

theorem meets_persistHardState_msgs {r : RawNode} :
    Meets persistHardState r (fun _ r' => r'.msgs = r.msgs) fun _ _ => True := by
  rw [persistHardState, meets_bind, meets_get]
  split
  · rfl
  · rw [meets_bind, wrapping, meets_mapFail]
    exact meets_onLog (RaftLog.meets_onDisk (fun _ _ _ => rfl) fun _ _ => trivial)

theorem meets_handleAppendRequest_msgs {f : RawNode} {req : Message} (hl : f.log.OK) :
    Meets (handleAppendRequest req) f
      (fun _ f' => ∃ resp, f'.msgs = f.msgs ++ [resp] ∧ (resp.success = false → f.Refused req resp))
      fun _ _ => True := by
  obtain ⟨h1, h2, h3, h4⟩ := hear_msgs f req
  rw [handleAppendRequest, meets_bind, meets_modify, meets_bind, meets_get]
  generalize f.hear req = f1 at *
  rw [← h2] at hl
  -- Every path but one sends a success.
  have hacked : ∀ (r : RawNode) (m : Message), r.msgs = f.msgs → m.success = true →
      ∃ resp, (r.send m).msgs = f.msgs ++ [resp] ∧ (resp.success = false → f.Refused req resp) := by
    intro r m hr hm
    refine ⟨r.stamp m, by rw [← hr]; rfl, fun h => ?_⟩
    change m.success = false at h
    rw [hm] at h
    cases h
  split
  · exact hacked _ _ h1 rfl
  · rename_i hprev
    rw [meets_bind]
    refine meets_onLog (RaftLog.meets_maybeAppend hl (fun hno => ?_) (fun l hm hs _ => ?_)
      (fun _ _ => trivial) fun _ _ _ _ _ => trivial)
    · refine ⟨_, congrArg (· ++ _) h1,
        fun _ => ⟨h2 ▸ not_lt.mp hprev, fun h => ?_, rfl, h3, rfl, h4, rfl, ?_⟩⟩
      · rw [h2, RaftLog.matchTerm_eq.mpr h] at hno
        cases hno
      · rw [← h2]
        rfl
    · rw [meets_bind]
      refine meets_refreshIfNeeded ?_ fun _ => trivial
      rw [meets_bind]
      refine Meets.mono meets_persistHardState_msgs (fun _ r hr => ?_) fun _ _ _ => trivial
      refine hacked r _ (hr.trans ?_) rfl
      rw [(refreshedIfNeeded_reconf _ _).eq]
      exact h1

theorem RawNode.Rejects.refused {f : RawNode} {req resp : Message} (hl : f.log.OK)
    (h : f.Rejects req resp) : f.Refused req resp := by
  obtain ⟨f', hrun, hmsgs, hno⟩ := h
  obtain ⟨resp', hmsgs', href⟩ := (meets_handleAppendRequest_msgs hl).ok hrun
  rw [hmsgs] at hmsgs'
  obtain rfl : resp = resp' := by simpa using hmsgs'
  exact href hno

/-! ### Compared with going back one index at a time -/

/-- The largest index up to the probe at which both logs report the same term. -/
structure RaftLog.MeetAt (l f : RaftLog) (prev m : ℕ) : Prop where
  le : m ≤ prev
  agrees : l.AgreesAt f m
  greatest : ∀ i ≤ prev, l.AgreesAt f i → i ≤ m

section

variable {r f : RawNode} {pr : Progress} {req resp : Message} {m t : ℕ}

theorem nextAfterRejection_found {i : ℕ} (ht : 0 < resp.conflictTerm)
    (h : r.lastIndexOfTerm resp.conflictTerm r.log.lastIndex = some i) :
    r.nextAfterRejection pr resp = i + 1 := by
  rw [nextAfterRejection, if_pos ht, h]

theorem nextAfterRejection_skip
    (h : 0 < resp.conflictTerm →
      r.lastIndexOfTerm resp.conflictTerm r.log.lastIndex = none)
    (hi : 0 < resp.conflictIndex) : r.nextAfterRejection pr resp = resp.conflictIndex := by
  by_cases ht : 0 < resp.conflictTerm
  · rw [nextAfterRejection, if_pos ht, h ht]
  · rw [nextAfterRejection, if_neg ht, if_pos hi]

/-- What a follower that has an entry at the place of the probe reports. -/
theorem RawNode.Refused.hint_of_term (h : f.Refused req resp)
    (hle : req.prevLogIndex ≤ f.log.lastIndex) (ht : f.log.term req.prevLogIndex = .ok t) :
    resp.conflictTerm = t ∧
      resp.conflictIndex = f.log.conflictStart t req.prevLogIndex req.prevLogIndex := by
  have hhint := h.hint
  rw [RaftLog.conflictHint, if_neg (not_lt.mpr hle), ht] at hhint
  exact ⟨congrArg Prod.snd hhint, congrArg Prod.fst hhint⟩

/-- What a follower whose log ends before the probe reports. -/
theorem RawNode.Refused.hint_of_short (h : f.Refused req resp)
    (hlt : f.log.lastIndex < req.prevLogIndex) :
    resp.conflictTerm = 0 ∧ resp.conflictIndex = f.log.lastIndex + 1 := by
  have hhint := h.hint
  rw [RaftLog.conflictHint, if_pos hlt] at hhint
  exact ⟨congrArg Prod.snd hhint, congrArg Prod.fst hhint⟩

/-- Index 0 always matches, so that it is never refused. -/
theorem RawNode.Refused.prev_pos (h : f.Refused req resp)
    (hterm : r.log.term req.prevLogIndex = .ok req.prevLogTerm) : 0 < req.prevLogIndex := by
  by_contra h0
  obtain h0 : req.prevLogIndex = 0 := by omega
  refine h.unmatched ?_
  rw [h0] at hterm ⊢
  exact hterm

/-- Where the logs meet in the term that the follower reports, the leader has no later entry of the
term. -/
theorem RaftLog.MeetAt.last_of_term {l f : RaftLog} {prev : ℕ} (h : l.MeetAt f prev m)
    (hl : l.Rising) (hf : f.Rising) (hm : l.term m = .ok t) (h0 : 0 < m) (hfm : f.term m = .ok t)
    (hfp : f.term prev = .ok t) (hlp : ∃ s, l.term prev = .ok s ∧ s ≠ t) {i : ℕ} (hi : m < i) :
    l.term i ≠ .ok t := by
  intro hit
  rcases le_or_gt i prev with hip | hip
  · have hfi := hf.between hfm hfp h0 hi.le hip
    exact absurd (h.greatest i hip ⟨t, hit, hfi⟩) (not_le.mpr hi)
  · obtain ⟨s, hs, hne⟩ := hlp
    rw [hl.between hm hit h0 h.le hip.le] at hs
    exact hne (Except.ok.inj hs).symm

/-- The hint takes the leader below the place where the logs meet exactly when the leader has
compacted its log up to there, while the follower still has the entry, of the very term that it
reports: the boundary answers for that term, but the leader looks for it only in the entries it
retains. -/
theorem hint_reaches_meeting_iff (hr : r.log.Rising) (hf : f.log.Rising) (hl : f.log.OK)
    (hterm : r.log.term req.prevLogIndex = .ok req.prevLogTerm) (hrej : f.Rejects req resp)
    (hm : r.log.MeetAt f.log req.prevLogIndex m) :
    m + 1 ≤ max 1 (r.nextAfterRejection pr resp) ↔
      ¬(0 < m ∧ m = r.log.mem.offset ∧ f.log.mem.offset < m ∧
        f.log.term m = f.log.term req.prevLogIndex) := by
  have href := hrej.refused hl
  have hpos := href.prev_pos hterm
  have hrfirst : r.log.firstIndex = r.log.mem.offset + 1 := rfl
  have hffirst : f.log.firstIndex = f.log.mem.offset + 1 := rfl
  obtain ⟨s, hrm, hfm⟩ := hm.agrees
  have hmle := RaftLog.le_lastIndex_of_term hfm
  rcases lt_or_ge f.log.lastIndex req.prevLogIndex with hshort | hlong
  · -- The follower's log ends before the probe.
    obtain ⟨h0, hci⟩ := href.hint_of_short hshort
    rw [nextAfterRejection_skip (fun h => by omega) (by omega), hci]
    refine iff_of_true (by omega) fun ⟨_, _, _, heq⟩ => ?_
    rw [hfm] at heq
    have := RaftLog.le_lastIndex_of_term heq.symm
    omega
  · have hoff := hl.base_le_committed
    have hcom := href.committed
    obtain ⟨t, ht⟩ := RaftLog.term_ok (l := f.log) (hoff.trans hcom) hlong
    obtain ⟨hct, hci⟩ := href.hint_of_term hlong ht
    have htpos := hf.pos hpos ht
    have hst := hf.mono hm.le hfm ht
    have hne : req.prevLogTerm ≠ t := fun h => href.unmatched (h ▸ ht)
    have hprev : m ≠ req.prevLogIndex := by
      rintro rfl
      rw [hfm] at ht
      rw [hrm] at hterm
      exact hne ((Except.ok.inj hterm).symm.trans (Except.ok.inj ht))
    have hmprev := hm.le
    have hci0 : 0 < resp.conflictIndex := by
      have := RaftLog.le_conflictStart (l := f.log) (t := t) req.prevLogIndex req.prevLogIndex
      omega
    rcases hst.eq_or_lt with rfl | hlt
    · -- The logs meet in the term that the follower reports.
      have h0 : 0 < m := by
        by_contra h0
        obtain rfl : m = 0 := by omega
        cases hfm
        omega
      have hlast : ∀ i, m < i → r.log.term i ≠ .ok s := fun i =>
        hm.last_of_term hr hf hrm h0 hfm ht ⟨_, hterm, hne⟩
      by_cases hb : m = r.log.mem.offset
      · have hnone : r.lastIndexOfTerm s r.log.lastIndex = none := by
          cases hsome : r.lastIndexOfTerm s r.log.lastIndex with
          | none => rfl
          | some i =>
            obtain ⟨h1, -, h3⟩ := lastIndexOfTerm_some hsome
            exact absurd h3 (hlast i (by omega))
        rw [nextAfterRejection_skip (fun _ => hct ▸ hnone) hci0, hci]
        by_cases hfo : f.log.mem.offset < m
        · have := hf.conflictStart_le_of_term ht hfm (by omega)
          exact iff_of_false (by omega) (not_not.mpr ⟨h0, hb, hfo, hfm.trans ht.symm⟩)
        · have hfo' := RaftLog.offset_le_of_term h0 hfm
          have := RaftLog.le_conflictStart (l := f.log) (t := s) req.prevLogIndex req.prevLogIndex
          exact iff_of_true (by omega) fun h => hfo h.2.2.1
      · have hro := RaftLog.offset_le_of_term h0 hrm
        obtain ⟨i, hfound, hle⟩ := le_of_lastIndexOfTerm hr le_rfl (by omega)
          (RaftLog.le_lastIndex_of_term hrm) hrm
        rw [nextAfterRejection_found (hct ▸ htpos) (hct ▸ hfound)]
        exact iff_of_true (by omega) fun h => hb h.2.1
    · -- They meet in an earlier term, below everything of the term reported.
      refine iff_of_true ?_ fun h => ?_
      · cases hfound : r.lastIndexOfTerm t r.log.lastIndex with
        | some i =>
          rw [nextAfterRejection_found (hct ▸ htpos) (hct ▸ hfound)]
          have hi := (lastIndexOfTerm_some hfound).2.2
          have : m < i := by
            by_contra hle
            have := hr.mono (not_lt.mp hle) hi hrm
            omega
          omega
        | none =>
          rw [nextAfterRejection_skip (fun _ => hct ▸ hfound) hci0, hci]
          by_contra hle
          have := RaftLog.conflictStart_term req.prevLogIndex req.prevLogIndex ht (by omega) hmprev
          rw [hfm] at this
          have := Except.ok.inj this
          omega
      · rw [hfm, ht] at h
        have := Except.ok.inj h.2.2.2
        omega

end

/-! ### A leader that compacted its log up to the meeting -/

namespace RaftLog

variable {l : RaftLog}

theorem getElem_of_term {i t : ℕ} (hi : 0 < i) (h : l.term i = .ok t) :
    l.mem.offset ≤ i ∧ ∃ e, (l.mem.base :: l.mem.ents)[i - l.mem.offset]? = some e ∧ e.term = t := by
  have h1 := offset_le_of_term hi h
  have h2 := le_lastIndex_of_term h
  have hlast : l.lastIndex = l.mem.offset + l.mem.ents.length := rfl
  have hlt : i - l.mem.offset < (l.mem.base :: l.mem.ents).length := by
    rw [List.length_cons]
    omega
  refine ⟨h1, _, List.getElem?_eq_getElem hlt, ?_⟩
  rw [term, if_neg (by omega), MemoryStorage.term_ok h1 h2, MemoryStorage.at?,
    List.getElem?_eq_getElem hlt] at h
  exact Except.ok.inj h

theorem rising_of_pairwise (h : (l.mem.base :: l.mem.ents).Pairwise fun a b => a.term ≤ b.term)
    (hpos : ∀ e ∈ l.mem.ents, 0 < e.term) (hbase : 0 < l.mem.offset → 0 < l.mem.base.term) :
    l.Rising := by
  constructor
  · intro i t hi ht
    obtain ⟨hoff, e, he, rfl⟩ := getElem_of_term hi ht
    cases hk : i - l.mem.offset with
    | zero =>
      rw [hk] at he
      cases he
      exact hbase (by omega)
    | succ k =>
      rw [hk, List.getElem?_cons_succ] at he
      exact hpos e (List.mem_of_getElem? he)
  · intro i j a b hij ha hb
    rcases Nat.eq_zero_or_pos i with rfl | hi
    · cases ha
      exact Nat.zero_le _
    · rcases hij.eq_or_lt with rfl | hlt
      · rw [ha] at hb
        exact (Except.ok.inj hb).le
      · obtain ⟨hoff, x, hx, rfl⟩ := getElem_of_term hi ha
        obtain ⟨-, y, hy, rfl⟩ := getElem_of_term (hi.trans hlt) hb
        obtain ⟨hix, rfl⟩ := List.getElem?_eq_some_iff.mp hx
        obtain ⟨hiy, rfl⟩ := List.getElem?_eq_some_iff.mp hy
        exact List.pairwise_iff_getElem.mp h _ _ hix hiy (by omega)

/-- Where two logs report the same term, they agree on every term up to there. -/
def Matching (l f : RaftLog) : Prop :=
  ∀ i, l.AgreesAt f i → ∀ j ≤ i, ∀ a b, l.term j = .ok a → f.term j = .ok b → a = b

end RaftLog

/-- A follower with entries of term 1 after its snapshot at index 1. -/
def trailing : RawNode :=
  { id := 2, cfg := { id := 2, electionTick := 2, heartbeatTick := 1 }, term := 2
    log := { committed := 1, applied := 1, storage := { mem := {
      snapshot := { lastIncludedIndex := 1, lastIncludedTerm := 1 }, base := ⟨1, 1, .normal, []⟩
      ents := [⟨1, 2, .normal, []⟩, ⟨1, 3, .normal, []⟩, ⟨1, 4, .normal, []⟩] } } } }

/-- A leader of term 2 with the first three of these entries and one of its own. -/
def ahead : RawNode :=
  { id := 1, cfg := { id := 1, electionTick := 2, heartbeatTick := 1 }, term := 2, state := .leader
    progress := some fun id => if id = 2 then some { next := 5 } else none
    log := { committed := 3, applied := 3, storage := { mem := {
      ents := [⟨1, 1, .normal, []⟩, ⟨1, 2, .normal, []⟩, ⟨1, 3, .normal, []⟩,
        ⟨2, 4, .normal, []⟩] } } } }

/-- The same leader after it took a snapshot at index 3. -/
def aheadCompacted : RawNode :=
  { ahead with log := { ahead.log with storage := { mem := {
      snapshot := { lastIncludedIndex := 3, lastIncludedTerm := 1 }, base := ⟨1, 3, .normal, []⟩
      ents := [⟨2, 4, .normal, []⟩] } } } }

/-- The leader's probe at its last entry. -/
def probe : Message :=
  { type := .appendReq, sender := 1, dest := 2, term := 2, prevLogIndex := 4, prevLogTerm := 2 }

def refusal : Message :=
  { type := .appendResp, sender := 2, dest := 1, term := 2, conflictIndex := 2, conflictTerm := 1 }

theorem trailing_rejects : trailing.Rejects probe refusal := ⟨_, rfl, rfl, rfl⟩

theorem trailing_rising : trailing.log.Rising :=
  RaftLog.rising_of_pairwise (by decide) (by decide) (by decide)

theorem trailing_ok : trailing.log.OK :=
  ⟨show Contiguous 2 trailing.log.mem.ents by decide, by decide, by decide, by decide, by decide⟩

/-- Whichever of its entries the leader retains, the logs meet at index 3. -/
theorem meetAt_of_terms {l : RaftLog} (h3 : l.term 3 = .ok 1) (h4 : l.term 4 = .ok 2) :
    l.MeetAt trailing.log 4 3 := by
  refine ⟨by decide, ⟨1, h3, rfl⟩, fun i hi ⟨t, h1, h2⟩ => ?_⟩
  by_contra hlt
  obtain rfl : i = 4 := by omega
  rw [h4] at h1
  cases h1
  exact nomatch h2

theorem hint_reaches_meeting_ahead :
    3 + 1 ≤ max 1 (ahead.nextAfterRejection { next := 5 } refusal) :=
  (hint_reaches_meeting_iff (RaftLog.rising_of_pairwise (by decide) (by decide) (by decide))
    trailing_rising trailing_ok rfl trailing_rejects (meetAt_of_terms rfl rfl)).mpr (by decide)

/-- The leader that retains only its own entry goes back to index 2, below its log, and sends a
snapshot, although entry 4 alone would have repaired the follower. -/
theorem hint_falls_below_meeting :
    aheadCompacted.log.Rising ∧ trailing.log.Rising ∧ aheadCompacted.log.OK ∧ trailing.log.OK ∧
      aheadCompacted.log.Matching trailing.log ∧ trailing.Rejects probe refusal ∧
      aheadCompacted.log.term probe.prevLogIndex = .ok probe.prevLogTerm ∧
      aheadCompacted.log.MeetAt trailing.log probe.prevLogIndex 3 ∧
      aheadCompacted.nextAfterRejection { next := 5 } refusal = 2 ∧
      ((aheadCompacted.backUp { next := 5 } refusal).msgs.map Message.type) = [.snapshotReq] := by
  refine ⟨RaftLog.rising_of_pairwise (by decide) (by decide) (by decide), trailing_rising,
    ⟨show Contiguous 4 aheadCompacted.log.mem.ents by decide, by decide, by decide, by decide,
      by decide⟩, trailing_ok, ?_, trailing_rejects, rfl, meetAt_of_terms rfl rfl, by decide,
    by decide⟩
  intro i ⟨t, h1, h2⟩ j hj a b ha hb
  have hle : i ≤ 4 := RaftLog.le_lastIndex_of_term h1
  have hi := (meetAt_of_terms (l := aheadCompacted.log) rfl rfl).greatest i hle ⟨t, h1, h2⟩
  rcases Nat.eq_zero_or_pos j with rfl | h0
  · cases ha
    cases hb
    rfl
  · have hoff : 3 ≤ j := RaftLog.offset_le_of_term h0 ha
    obtain rfl : j = 3 := by omega
    cases ha
    cases hb
    rfl

end RaftStore.Raft
