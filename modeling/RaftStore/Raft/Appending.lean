import RaftStore.Raft.Log

/-! What the receiving half of an append does to a log, in full: for a batch that is in order, on a
storage that does not fail. -/

namespace RaftStore.Raft

open Lib

/-- Where a list in order is split. -/
theorem Contiguous.of_append_cons {i : ℕ} {l l' : List LogEntry} {e : LogEntry}
    (h : Contiguous i (l ++ e :: l')) :
    e.index = i + l.length ∧ Contiguous i l ∧ Contiguous e.index (e :: l') := by
  have he : e.index = i + l.length := h l.length e (by simp)
  have hl := h.take l.length
  have hl' := h.drop l.length
  rw [List.take_left] at hl
  rw [List.drop_left, ← he] at hl'
  exact ⟨he, hl, hl'⟩

namespace MemoryStorage

variable {m : MemoryStorage}

theorem checkContiguous_of_contiguous {i : ℕ} {l : List LogEntry} (hc : Contiguous i l)
    (ht : l.Pairwise fun a b => a.term ≤ b.term) : checkContiguous l = .ok () := by
  induction l generalizing i with
  | nil => rfl
  | cons a l ih =>
    cases l with
    | nil => rfl
    | cons b l =>
      have ha : a.index = i := hc 0 a rfl
      have hb : b.index = i + 1 := hc 1 b rfl
      have hab : a.term ≤ b.term := List.rel_of_pairwise_cons ht List.mem_cons_self
      rw [checkContiguous, if_neg (by omega), if_neg (by omega)]
      exact ih hc.tail ht.of_cons

/-- Entries in order, that leave no gap, are taken. -/
theorem appendEntries_of_contiguous {e : LogEntry} {rest : List LogEntry} (h1 : m.offset < e.index)
    (h2 : e.index ≤ m.lastIndex + 1) (hc : Contiguous e.index (e :: rest))
    (ht : (e :: rest).Pairwise fun a b => a.term ≤ b.term) :
    m.appendEntries (e :: rest) = .ok (m.splice e.index (e :: rest)) := by
  have hlast : m.offset < ((e :: rest).getLast (by simp)).index := by
    have := hc rest.length _ (List.getElem?_eq_getElem (by simp))
    rw [List.getLast_eq_getElem]
    simp only [List.length_cons, Nat.add_sub_cancel]
    omega
  rw [appendEntries, checkContiguous_of_contiguous hc ht]
  dsimp only
  rw [if_neg (by omega)]
  simp only [show ¬e.index ≤ m.offset by omega, if_false]
  rw [if_neg (by omega)]
  rfl

end MemoryStorage

namespace RaftLog

variable {l : RaftLog}

theorem findConflict_eq_zero {ents : List LogEntry}
    (h : ∀ e ∈ ents, l.term e.index = .ok e.term) : l.findConflict ents = 0 := by
  induction ents with
  | nil => rfl
  | cons e ents ih =>
    rw [findConflict, matchTerm_eq.mpr (h e List.mem_cons_self)]
    exact ih fun a ha => h a (List.mem_cons_of_mem _ ha)

/-- The first conflict of a batch is the entry after those that the log holds. -/
theorem findConflict_append {same rest : List LogEntry} {e : LogEntry}
    (hs : ∀ a ∈ same, l.term a.index = .ok a.term) (he : l.term e.index ≠ .ok e.term) :
    l.findConflict (same ++ e :: rest) = e.index := by
  induction same with
  | nil =>
    have hno : l.matchTerm e.index e.term = false := by
      rw [Bool.eq_false_iff]
      exact fun h => he (matchTerm_eq.mp h)
    rw [List.nil_append, findConflict, hno]
    rfl
  | cons a same ih =>
    rw [List.cons_append, findConflict, matchTerm_eq.mpr (hs a List.mem_cons_self)]
    exact ih fun b hb => hs b (List.mem_cons_of_mem _ hb)

/-- A batch is held, or it has a first entry that is not. -/
theorem held_or_conflict (l : RaftLog) (ents : List LogEntry) :
    (∀ e ∈ ents, l.term e.index = .ok e.term) ∨ ∃ same e rest, ents = same ++ e :: rest ∧
      (∀ a ∈ same, l.term a.index = .ok a.term) ∧ l.term e.index ≠ .ok e.term := by
  induction ents with
  | nil => exact Or.inl (by simp)
  | cons a ents ih =>
    by_cases ha : l.term a.index = .ok a.term
    · rcases ih with hall | ⟨same, e, rest, rfl, hs, he⟩
      · exact Or.inl (List.forall_mem_cons.mpr ⟨ha, hall⟩)
      · exact Or.inr ⟨a :: same, e, rest, rfl, List.forall_mem_cons.mpr ⟨ha, hs⟩, he⟩
    · exact Or.inr ⟨[], a, ents, rfl, by simp, ha⟩

theorem commitTo_eq {i : ℕ} (h : i ≤ l.committed ∨ i ≤ l.lastIndex) :
    commitTo i l = .ok () { l with committed := max l.committed i } := by
  refine Meets.eq_ok (meets_commitTo (fun hle => ?_) (fun hlt _ => ?_) fun _ h1 h2 => ?_)
  · rw [max_eq_left hle]
    exact ⟨rfl, rfl⟩
  · rw [max_eq_right hlt.le]
    exact ⟨rfl, rfl⟩
  · omega

variable {prev prevTerm leaderCommit : ℕ} {ents : List LogEntry}

theorem maybeAppend_unmatched (h : l.matchTerm prev prevTerm = false) :
    maybeAppend prev prevTerm leaderCommit ents l = .ok none l := by
  refine Meets.eq_ok ?_
  rw [maybeAppend, meets_bind, meets_get, h]
  exact ⟨rfl, rfl⟩

/-- A batch that the log holds moves the commit index only. -/
theorem maybeAppend_held (hm : l.term prev = .ok prevTerm)
    (hall : ∀ e ∈ ents, l.term e.index = .ok e.term)
    (hle : min leaderCommit (prev + ents.length) ≤ l.committed ∨
      min leaderCommit (prev + ents.length) ≤ l.lastIndex) :
    maybeAppend prev prevTerm leaderCommit ents l = .ok (some (prev + ents.length))
      { l with committed := max l.committed (min leaderCommit (prev + ents.length)) } := by
  refine Meets.eq_ok ?_
  rw [maybeAppend, meets_bind, meets_get, matchTerm_eq.mpr hm, findConflict_eq_zero hall]
  simp only [Bool.not_true, Bool.false_eq_true, if_false, if_true]
  rw [meets_bind, meets_pure, meets_bind]
  exact meets_of_ok (commitTo_eq hle) ⟨rfl, rfl⟩

/-- The entries from the first conflict on go to the log in place of what it held there. -/
theorem maybeAppend_conflict {same rest : List LogEntry} {e : LogEntry} {faults : List Bool}
    (hl : l.OK) (hm : l.term prev = .ok prevTerm)
    (hs : ∀ a ∈ same, l.term a.index = .ok a.term) (he : l.term e.index ≠ .ok e.term)
    (hprev : l.committed ≤ prev) (hc : Contiguous (prev + 1) (same ++ e :: rest))
    (hlast : e.index ≤ l.lastIndex + 1)
    (ht : (same ++ e :: rest).Pairwise fun a b => a.term ≤ b.term)
    (hwrite : ∀ m, l.mem.appendEntries (e :: rest) = .ok m →
      Disk.write (·.appendEntries (e :: rest)) l.storage = .ok () ⟨m, faults⟩) :
    maybeAppend prev prevTerm leaderCommit (same ++ e :: rest) l =
      .ok (some (prev + (same ++ e :: rest).length))
        { l with
          storage := ⟨l.mem.splice e.index (e :: rest), faults⟩
          committed := max l.committed (min leaderCommit (prev + (same ++ e :: rest).length)) } := by
  obtain ⟨hi, -, hc'⟩ := hc.of_append_cons
  have hoff := hl.base_le_committed
  have hdrop : (same ++ e :: rest).drop (e.index - prev - 1) = e :: rest := by
    rw [show e.index - prev - 1 = same.length by omega, List.drop_left]
  refine Meets.eq_ok ?_
  rw [maybeAppend, meets_bind, meets_get, matchTerm_eq.mpr hm, findConflict_append hs he]
  simp only [Bool.not_true, Bool.false_eq_true, if_false]
  rw [if_neg (by omega), if_neg (by omega), if_neg (by simp; omega), hdrop, meets_bind, append,
    meets_bind, meets_get, if_neg (by omega), onDisk, meets_onPart]
  have happend := MemoryStorage.appendEntries_of_contiguous (m := l.mem) (by omega) hlast hc'
    (List.pairwise_append.mp ht).2.1
  have hlast' := MemoryStorage.splice_lastIndex (e :: rest) (show l.mem.offset < e.index by omega)
    hlast
  refine meets_of_ok (hwrite _ happend) ?_
  rw [meets_bind]
  refine meets_of_ok (commitTo_eq (Or.inr ?_)) ⟨rfl, rfl⟩
  change _ ≤ (l.mem.splice e.index (e :: rest)).lastIndex
  rw [hlast', List.length_append]
  omega

/-- The last entry that the log holds of a batch, or the place before the batch, is in the log. -/
theorem held_le_lastIndex {same : List LogEntry} (hm : l.term prev = .ok prevTerm)
    (hc : Contiguous (prev + 1) same) (hs : ∀ a ∈ same, l.term a.index = .ok a.term) :
    prev + same.length ≤ l.lastIndex := by
  rcases List.eq_nil_or_concat same with rfl | ⟨front, a, rfl⟩
  · exact le_lastIndex_of_term hm
  · have ha := le_lastIndex_of_term (hs a (by simp))
    have hi := hc front.length a (by simp)
    simp only [List.concat_eq_append, List.length_append, List.length_singleton]
    omega

/-- A log of three entries of the first term, of which one is committed. -/
def forked : RaftLog :=
  { storage := { mem := { ents := [⟨1, 1, .normal, []⟩, ⟨1, 2, .normal, []⟩, ⟨1, 3, .normal, []⟩] } }
    committed := 1 }

end RaftLog

end RaftStore.Raft
