import RaftStore.Raft.Log
import RaftStore.Consensus.Completeness

/-! The whole log behind a storage.  A storage that has been compacted keeps a suffix of a log; the
term at its boundary stands for the rest.  Every operation on the storage is an operation on the
whole log, and every answer the storage gives is about it. -/

namespace RaftStore.Raft

open Consensus

/-- The term of the last of the first `i` entries. -/
abbrev termAt (l : List LogEntry) (i : ℕ) : ℕ := lastTerm LogEntry.term (l.take i)

theorem termAt_succ {l : List LogEntry} {k : ℕ} {e : LogEntry} (h : l[k]? = some e) :
    termAt l (k + 1) = e.term := by
  rw [termAt, List.take_add_one, h]
  exact lastTerm_concat ..

theorem termAt_of_le {l l' : List LogEntry} {i n : ℕ} (hi : i ≤ n) (h : l.take n = l'.take n) :
    termAt l i = termAt l' i := by
  have := congrArg (List.take i) h
  rw [List.take_take, List.take_take, min_eq_left hi] at this
  rw [termAt, termAt, this]

/-- The storage keeps the end of the log `l`, and a snapshot of its beginning. -/
structure Backs (l : List LogEntry) (m : MemoryStorage) : Prop where
  contiguous : Contiguous 1 l
  base_le : m.base.index ≤ l.length
  base_term : m.base.term = termAt l m.base.index
  ents : m.ents = l.drop m.base.index
  snap_le : m.snapshot.lastIncludedIndex ≤ l.length
  snap_term : m.snapshot.lastIncludedTerm = termAt l m.snapshot.lastIncludedIndex

namespace Backs

variable {l l' : List LogEntry} {m m' : MemoryStorage}

theorem empty : Backs [] {} :=
  ⟨.nil 1, le_rfl, rfl, rfl, le_rfl, rfl⟩

/-- Only the sentinel, the entries and the snapshot matter. -/
theorem congr (h : Backs l m) (hb : m'.base = m.base) (he : m'.ents = m.ents)
    (hs : m'.snapshot = m.snapshot) : Backs l m' := by
  obtain ⟨h1, h2, h3, h4, h5, h6⟩ := h
  exact ⟨h1, hb ▸ h2, hb ▸ h3, by rw [he, hb, h4], hs ▸ h5, hs ▸ h6⟩

theorem lastIndex (h : Backs l m) : m.lastIndex = l.length := by
  have := h.base_le
  simp only [MemoryStorage.lastIndex, MemoryStorage.offset, h.ents, List.length_drop]
  omega

theorem at? (h : Backs l m) {k : ℕ} : (m.at? (k + 1)) = l[m.base.index + k]? := by
  rw [MemoryStorage.at?, List.getElem?_cons_succ, h.ents, List.getElem?_drop]

theorem term (h : Backs l m) {i : ℕ} (h1 : m.base.index ≤ i) (h2 : i ≤ l.length) :
    m.term i = .ok (termAt l i) := by
  rw [MemoryStorage.term_ok h1 (h.lastIndex ▸ h2)]
  cases hk : i - m.offset with
  | zero =>
    obtain rfl : m.base.index = i := by simp only [MemoryStorage.offset] at hk; omega
    simp [MemoryStorage.at?, h.base_term]
  | succ k =>
    simp only [MemoryStorage.offset] at hk
    obtain rfl : i = m.base.index + k + 1 := by omega
    rw [h.at?, List.getElem?_eq_getElem (show m.base.index + k < l.length by omega),
      termAt_succ (List.getElem?_eq_getElem (show m.base.index + k < l.length by omega))]
    rfl

theorem getElem?_of_mem (h : Backs l m) {e : LogEntry} (he : e ∈ m.ents) :
    ∃ i, e.index = i + 1 ∧ l[i]? = some e := by
  obtain ⟨k, hk⟩ := List.mem_iff_getElem?.mp he
  rw [h.ents, List.getElem?_drop] at hk
  have := h.contiguous _ _ hk
  exact ⟨_, by omega, hk⟩

theorem getEntry (h : Backs l m) {i : ℕ} {e : LogEntry} :
    m.getEntry (i + 1) = .ok e ↔ m.base.index ≤ i ∧ l[i]? = some e := by
  rw [MemoryStorage.getEntry, h.lastIndex, MemoryStorage.firstIndex, MemoryStorage.offset]
  split
  · constructor
    · rintro ⟨⟩
    · intro hi
      omega
  · rename_i h1
    split
    · rename_i h2
      rw [List.getElem?_eq_none (by omega)]
      simp
    · rename_i h2
      obtain ⟨k, rfl⟩ : ∃ k, i = m.base.index + k := ⟨i - m.base.index, by omega⟩
      rw [show m.base.index + k + 1 - m.base.index = k + 1 by omega, h.at?,
        List.getElem?_eq_getElem (show m.base.index + k < l.length by omega)]
      simp

theorem entries (h : Backs l m) {lo hi : ℕ} {es : List LogEntry} (hlt : lo < hi)
    (he : m.entries lo hi = .ok es) :
    m.base.index < lo ∧ hi ≤ l.length + 1 ∧ es = (l.take (hi - 1)).drop (lo - 1) := by
  rw [MemoryStorage.entries, if_neg (by omega), MemoryStorage.firstIndex, MemoryStorage.offset,
    h.lastIndex] at he
  split at he
  · cases he
  · split at he
    · cases he
    · cases he
      refine ⟨by omega, by omega, ?_⟩
      obtain ⟨a, rfl⟩ : ∃ a, lo = m.base.index + a + 1 := ⟨lo - m.base.index - 1, by omega⟩
      obtain ⟨b, rfl⟩ : ∃ b, hi = m.base.index + b + 1 := ⟨hi - m.base.index - 1, by omega⟩
      rw [show m.base.index + b + 1 - m.base.index = b + 1 by omega,
        show m.base.index + a + 1 - m.base.index = a + 1 by omega, List.take_succ_cons,
        List.drop_succ_cons, h.ents, Nat.add_sub_cancel, Nat.add_sub_cancel, List.take_drop,
        List.drop_drop, Nat.add_comm m.base.index a]

/-! ### Changes of the log -/

theorem concat (h : Backs l m) {e : LogEntry} (he : e.index = l.length + 1) :
    Backs (l ++ [e]) { m with ents := m.ents ++ [e] } where
  contiguous := h.contiguous.append (.cons (by rw [he, Nat.add_comm]) (.nil _))
  base_le := h.base_le.trans (by simp)
  base_term := by
    rw [termAt, List.take_append_of_le_length h.base_le]
    exact h.base_term
  ents := by
    rw [List.drop_append_of_le_length h.base_le, ← h.ents]
  snap_le := h.snap_le.trans (by simp)
  snap_term := by
    rw [termAt, List.take_append_of_le_length h.snap_le]
    exact h.snap_term

/-- A log that agrees with `l` up to the splice and then has the new entries. -/
theorem splice (h : Backs l m) {first : ℕ} {es : List LogEntry} (hb : m.base.index < first)
    (hs : m.snapshot.lastIncludedIndex < first) (hle : first ≤ l.length + 1)
    (hl' : l' = l.take (first - 1) ++ es) (hc : Contiguous 1 l') :
    Backs l' (m.splice first es) := by
  have htake : l'.take (first - 1) = l.take (first - 1) := by
    rw [hl', List.take_append_of_le_length (by simp; omega), List.take_take, min_self]
  have hlen : first - 1 ≤ l'.length := by
    rw [hl', List.length_append, List.length_take]
    omega
  refine ⟨hc, ?_, ?_, ?_, ?_, ?_⟩
  · change m.base.index ≤ l'.length
    omega
  · exact h.base_term.trans (termAt_of_le (by omega) htake.symm)
  · change m.ents.take (first - m.base.index - 1) ++ es = l'.drop m.base.index
    rw [hl', List.drop_append_of_le_length (by simp; omega), List.drop_take, h.ents]
    congr 2
    omega
  · change m.snapshot.lastIncludedIndex ≤ l'.length
    omega
  · exact h.snap_term.trans (termAt_of_le (by omega) htake.symm)

theorem compact (h : Backs l m) (hm : m.InOrder) {upto : ℕ} (hc : m.compact upto = .ok m') :
    Backs l m' := by
  rcases MemoryStorage.compact_ok hm hc with ⟨-, rfl⟩ | ⟨h1, h2, _, hs, hb, ht, he⟩
  · exact h
  · rw [h.lastIndex] at h2
    have hterm := h.term h1.le h2
    rw [MemoryStorage.term_ok h1.le (h.lastIndex ▸ h2)] at hterm
    simp only [MemoryStorage.offset] at *
    refine ⟨h.contiguous, by omega, ?_, ?_, hs ▸ h.snap_le, hs ▸ h.snap_term⟩
    · rw [ht, hb]
      exact Except.ok.inj hterm
    · rw [he, h.ents, List.drop_drop, hb]
      congr 1
      omega

/-- A node's own snapshot is of its log. -/
theorem save (h : Backs l m) (hm : m'.base = m.base ∧ m'.ents = m.ents)
    (hle : m'.snapshot.lastIncludedIndex ≤ l.length)
    (ht : m'.snapshot.lastIncludedTerm = termAt l m'.snapshot.lastIncludedIndex) : Backs l m' := by
  obtain ⟨hb, he⟩ := hm
  exact ⟨h.contiguous, hb ▸ h.base_le, hb ▸ h.base_term, by rw [he, hb, h.ents], hle, ht⟩

/-- A storage that holds nothing but a snapshot of the whole log. -/
theorem boundary {snap : Snapshot} (hc : Contiguous 1 l) (hlen : snap.lastIncludedIndex = l.length)
    (ht : snap.lastIncludedTerm = lastTerm LogEntry.term l) (hb : m.base.index = l.length)
    (hbt : m.base.term = snap.lastIncludedTerm) (he : m.ents = []) (hs : m.snapshot = snap) :
    Backs l m := by
  refine ⟨hc, hb.le, ?_, ?_, by rw [hs, hlen], ?_⟩
  · rw [hbt, ht, termAt, hb, List.take_length]
  · rw [he, hb, List.drop_length]
  · rw [hs, hlen, ht, termAt, List.take_length]

end Backs

namespace RaftLog

variable {l : List LogEntry} {rl : RaftLog}

theorem lastIndex_eq (h : Backs l rl.mem) : rl.lastIndex = l.length := h.lastIndex

/-- What a node can report of a term is the term in the whole log. -/
theorem term_eq (h : Backs l rl.mem) {i t : ℕ} (ht : rl.term i = .ok t) :
    i ≤ l.length ∧ t = termAt l i := by
  unfold term at ht
  split at ht
  · rename_i h0
    cases ht
    rw [h0]
    exact ⟨Nat.zero_le _, rfl⟩
  · obtain ⟨h1, h2⟩ := MemoryStorage.term_eq_ok ht
    rw [h.lastIndex] at h2
    rw [h.term h1 h2] at ht
    exact ⟨h2, (Except.ok.inj ht).symm⟩

theorem term_of_le (h : Backs l rl.mem) {i : ℕ} (h1 : rl.mem.base.index ≤ i) (h2 : i ≤ l.length) :
    rl.term i = .ok (termAt l i) := by
  unfold term
  split
  · rename_i h0
    rw [h0]
    rfl
  · exact h.term h1 h2

theorem lastTerm_eq (h : Backs l rl.mem) : rl.lastTerm = .ok (Consensus.lastTerm LogEntry.term l) := by
  obtain ⟨t, h1, h2⟩ := lastTerm_ok rl
  obtain ⟨-, ht⟩ := term_eq h h1
  rw [h2, ht, lastIndex_eq h, termAt, List.take_length]

theorem isUpToDate_true (h : Backs l rl.mem) {cl : List LogEntry}
    (hu : rl.isUpToDate cl.length (Consensus.lastTerm LogEntry.term cl) = .ok true) :
    UpToDate LogEntry.term cl l := by
  rw [isUpToDate, lastTerm_eq h] at hu
  have hu := Except.ok.inj hu
  split at hu
  · exact Or.inl (by simpa using hu)
  · rename_i heq
    rw [lastIndex_eq h] at hu
    exact Or.inr ⟨not_not.mp heq, by simpa using hu⟩

end RaftLog

end RaftStore.Raft
