import RaftStore.Raft.Types
import RaftStore.Lib.Prog
import Mathlib.Data.List.TakeDrop

/-! The in-memory storage, which outlives the node that uses it.  A write may be made to fail, and
then leaves the stored state unchanged. -/

namespace RaftStore.Raft

open Lib

/-- `base` is the sentinel, the source's `ents[0]`: the index and term of the last entry that has
been discarded.  `ents` are the entries after it. -/
structure MemoryStorage where
  hardState : HardState := {}
  snapshot : Snapshot := {}
  base : LogEntry := {}
  ents : List LogEntry := []
  deriving DecidableEq, Repr

namespace MemoryStorage

def offset (m : MemoryStorage) : ℕ := m.base.index

def firstIndex (m : MemoryStorage) : ℕ := m.offset + 1

def lastIndex (m : MemoryStorage) : ℕ := m.offset + m.ents.length

/-- The source's `ents[i]`, the sentinel included. -/
def at? (m : MemoryStorage) (i : ℕ) : Option LogEntry := (m.base :: m.ents)[i]?

def setHardState (m : MemoryStorage) (hs : HardState) : Except Error MemoryStorage :=
  if hs.term < m.hardState.term then
    .error ⟨s!"storage: hard state term {hs.term} is below persisted term {m.hardState.term}", []⟩
  else .ok { m with hardState := hs }

def term (m : MemoryStorage) (i : ℕ) : Except Error ℕ :=
  if i < m.offset then
    .error (Sentinel.compacted.error.wrap
      s!"storage: term at {i}, first available {m.firstIndex}")
  else if i > m.lastIndex then
    .error (Sentinel.unavailable.error.wrap s!"storage: term at {i}, last index {m.lastIndex}")
  else .ok (((m.at? (i - m.offset)).map LogEntry.term).getD 0)

def getEntry (m : MemoryStorage) (i : ℕ) : Except Error LogEntry :=
  if i < m.firstIndex then
    .error (Sentinel.compacted.error.wrap
      s!"storage: entry at {i}, first available {m.firstIndex}")
  else if i > m.lastIndex then
    .error (Sentinel.unavailable.error.wrap s!"storage: entry at {i}, last index {m.lastIndex}")
  else .ok ((m.at? (i - m.offset)).getD {})

/-- The entries from `lo` up to, and without, `hi`. -/
def entries (m : MemoryStorage) (lo hi : ℕ) : Except Error (List LogEntry) :=
  if lo ≥ hi then .ok []
  else if lo < m.firstIndex then
    .error (Sentinel.compacted.error.wrap
      s!"storage: entries from {lo}, first available {m.firstIndex}")
  else if hi > m.lastIndex + 1 then
    .error (Sentinel.unavailable.error.wrap
      s!"storage: entries to {hi - 1}, last index {m.lastIndex}")
  else .ok (((m.base :: m.ents).take (hi - m.offset)).drop (lo - m.offset))

/-- The indexes go up by one and the terms do not go down. -/
def checkContiguous : List LogEntry → Except Error Unit
  | a :: b :: rest =>
    if b.index ≠ a.index + 1 then
      .error ⟨s!"storage: entries are not contiguous at {a.index} -> {b.index}", []⟩
    else if b.term < a.term then
      .error ⟨s!"storage: entry terms decrease at index {b.index} ({a.term} -> {b.term})", []⟩
    else checkContiguous (b :: rest)
  | _ => .ok ()

/-- Appends the entries, in place of what the log holds from the first of them on.  Entries that
the snapshot already covers are skipped. -/
def appendEntries (m : MemoryStorage) (entries : List LogEntry) : Except Error MemoryStorage :=
  match entries with
  | [] => .ok m
  | e :: rest =>
    match checkContiguous (e :: rest) with
    | .error err => .error err
    | .ok () =>
      if ((e :: rest).getLast (by simp)).index ≤ m.offset then .ok m
      else
        let entries := if e.index ≤ m.offset then (e :: rest).drop (m.offset + 1 - e.index)
          else e :: rest
        let first := if e.index ≤ m.offset then m.offset + 1 else e.index
        if first > m.lastIndex + 1 then
          .error ⟨s!"storage: append at {first} leaves a gap after last index {m.lastIndex}", []⟩
        else .ok { m with ents := m.ents.take (first - m.offset - 1) ++ entries }

/-- Records the snapshot.  The log stays when it holds the snapshot's boundary, and is replaced by
the boundary otherwise. -/
def saveSnapshot (m : MemoryStorage) (snap : Snapshot) : Except Error MemoryStorage :=
  if snap.lastIncludedIndex ≤ m.snapshot.lastIncludedIndex then
    .error (Sentinel.snapshotOutOfDate.error.wrap
      s!"storage: snapshot at {snap.lastIncludedIndex}, already have {m.snapshot.lastIncludedIndex}")
  else if snap.lastIncludedIndex ≤ m.lastIndex &&
      (m.at? (snap.lastIncludedIndex - m.offset)).map LogEntry.term = some snap.lastIncludedTerm then
    .ok { m with snapshot := snap }
  else
    .ok { m with snapshot := snap
                 base := { index := snap.lastIncludedIndex, term := snap.lastIncludedTerm }
                 ents := [] }

/-- Discards the entries up to `upto`; the one there becomes the sentinel. -/
def compact (m : MemoryStorage) (upto : ℕ) : Except Error MemoryStorage :=
  if upto ≤ m.offset then .ok m
  else if upto > m.lastIndex then
    .error ⟨s!"storage: compact to {upto} past last index {m.lastIndex}", []⟩
  else
    let last := (m.at? (upto - m.offset)).getD {}
    .ok { m with base := { index := last.index, term := last.term }
                 ents := m.ents.drop (upto - m.offset) }

end MemoryStorage

/-- A storage of which writes may fail: each write takes the next of `faults`, and fails if it is
`true`. -/
structure Disk where
  mem : MemoryStorage := {}
  faults : List Bool := []
  deriving DecidableEq, Repr

namespace Disk

/-- The error of a write that was made to fail. -/
def fault : Fail := .error ⟨"storage: write failed", []⟩

def write (f : MemoryStorage → Except Error MemoryStorage) : EStateM Fail Disk Unit := fun d =>
  match d.faults with
  | true :: faults => .error fault { d with faults }
  | faults =>
    match f d.mem with
    | .ok mem => .ok () { mem, faults := faults.tail }
    | .error e => .error (.error e) { d with faults := faults.tail }

end Disk

/-! ### What the operations keep -/

/-- The entries carry the indexes from `i` on. -/
def Contiguous (i : ℕ) (l : List LogEntry) : Prop := ∀ k e, l[k]? = some e → e.index = i + k

namespace Contiguous

variable {i : ℕ} {l l' : List LogEntry}

instance (i : ℕ) (l : List LogEntry) : Decidable (Contiguous i l) :=
  decidable_of_iff (∀ k : Fin l.length, l[k].index = i + k)
    ⟨fun h k e hk => by
      obtain ⟨hlt, rfl⟩ := List.getElem?_eq_some_iff.mp hk
      exact h ⟨k, hlt⟩,
    fun h k => h k _ (List.getElem?_eq_getElem k.2)⟩

theorem nil (i : ℕ) : Contiguous i [] := fun k e h => by simp at h

theorem cons {e : LogEntry} (he : e.index = i) (h : Contiguous (i + 1) l) : Contiguous i (e :: l) := by
  intro k e' hk
  cases k with
  | zero =>
    simp only [List.getElem?_cons_zero, Option.some.injEq] at hk
    rw [← hk, he, Nat.add_zero]
  | succ k =>
    have := h k e' (by simpa using hk)
    omega

theorem tail {e : LogEntry} (h : Contiguous i (e :: l)) : Contiguous (i + 1) l := by
  intro k e' hk
  have := h (k + 1) e' (by simpa using hk)
  omega

theorem append (h : Contiguous i l) (h' : Contiguous (i + l.length) l') :
    Contiguous i (l ++ l') := by
  intro k e hk
  rcases lt_or_ge k l.length with hlt | hge
  · rw [List.getElem?_append_left hlt] at hk
    exact h k e hk
  · rw [List.getElem?_append_right hge] at hk
    have := h' _ e hk
    omega

theorem take (h : Contiguous i l) (n : ℕ) : Contiguous i (l.take n) := by
  intro k e hk
  rw [List.getElem?_take] at hk
  split at hk
  · exact h k e hk
  · simp at hk

theorem drop (h : Contiguous i l) (n : ℕ) : Contiguous (i + n) (l.drop n) := by
  intro k e hk
  rw [List.getElem?_drop] at hk
  have := h _ e hk
  omega

/-- No two entries carry one index. -/
theorem eq_of_index (h : Contiguous i l) {e e' : LogEntry} (he : e ∈ l) (he' : e' ∈ l)
    (hi : e.index = e'.index) : e = e' := by
  obtain ⟨k, hk⟩ := List.mem_iff_getElem?.mp he
  obtain ⟨k', hk'⟩ := List.mem_iff_getElem?.mp he'
  have h1 := h k e hk
  have h2 := h k' e' hk'
  obtain rfl : k = k' := by omega
  exact Option.some.inj (hk.symm.trans hk')

end Contiguous

namespace MemoryStorage

theorem contiguous_of_check {e : LogEntry} {rest : List LogEntry}
    (h : checkContiguous (e :: rest) = .ok ()) : Contiguous e.index (e :: rest) := by
  induction rest generalizing e with
  | nil => exact .cons rfl (.nil _)
  | cons b rest ih =>
    rw [checkContiguous] at h
    split at h
    · exact nomatch h
    · rename_i hb
      split at h
      · exact nomatch h
      · have hb' : b.index = e.index + 1 := not_not.mp hb
        exact .cons rfl (hb' ▸ ih h)

/-- The entries of the log carry the indexes after the sentinel's. -/
def InOrder (m : MemoryStorage) : Prop := Contiguous (m.base.index + 1) m.ents

variable {m m' : MemoryStorage}

/-- The log with everything from index `first` on replaced by the entries. -/
def splice (m : MemoryStorage) (first : ℕ) (entries : List LogEntry) : MemoryStorage :=
  { m with ents := m.ents.take (first - m.offset - 1) ++ entries }

/-- Entries that start past the sentinel are spliced in at the first one's index. -/
theorem appendEntries_ok {e : LogEntry} {rest : List LogEntry} (he : m.offset < e.index)
    (h : m.appendEntries (e :: rest) = .ok m') :
    Contiguous e.index (e :: rest) ∧ e.index ≤ m.lastIndex + 1 ∧
      m' = m.splice e.index (e :: rest) := by
  rw [appendEntries] at h
  split at h
  · exact nomatch h
  · rename_i hcheck
    have hcon := contiguous_of_check hcheck
    have hlast : m.offset < ((e :: rest).getLast (by simp)).index := by
      have := hcon rest.length _ (List.getElem?_eq_getElem (by simp))
      rw [List.getLast_eq_getElem]
      simp only [List.length_cons, Nat.add_sub_cancel]
      omega
    have hfirst : ¬ e.index ≤ m.offset := by omega
    rw [if_neg (by omega)] at h
    simp only [if_neg hfirst] at h
    split at h
    · exact nomatch h
    · cases h
      exact ⟨hcon, by omega, rfl⟩

/-- One entry after the last is always accepted. -/
theorem appendEntries_next (e : LogEntry) (he : e.index = m.lastIndex + 1) :
    m.appendEntries [e] = .ok { m with ents := m.ents ++ [e] } := by
  have hoff : m.lastIndex = m.offset + m.ents.length := rfl
  have hfirst : ¬ e.index ≤ m.offset := by omega
  have hgap : ¬ e.index > m.lastIndex + 1 := by omega
  have htake : m.ents.take (e.index - m.offset - 1) = m.ents := List.take_of_length_le (by omega)
  simp [appendEntries, checkContiguous, hfirst, hgap, htake]

theorem splice_lastIndex {first : ℕ} (entries : List LogEntry) (h1 : m.offset < first)
    (h2 : first ≤ m.lastIndex + 1) :
    (m.splice first entries).lastIndex = first - 1 + entries.length := by
  have hoff : m.lastIndex = m.offset + m.ents.length := rfl
  simp only [splice, lastIndex, offset, List.length_append, List.length_take] at *
  omega

theorem InOrder.splice (h : m.InOrder) {first : ℕ} {entries : List LogEntry}
    (h1 : m.offset < first) (h2 : first ≤ m.lastIndex + 1) (hc : Contiguous first entries) :
    (m.splice first entries).InOrder := by
  have hoff : m.lastIndex = m.offset + m.ents.length := rfl
  refine (h.take _).append ?_
  rw [List.length_take]
  convert hc using 1
  simp only [offset] at *
  omega

theorem saveSnapshot_isOk {snap : Snapshot}
    (h : m.snapshot.lastIncludedIndex < snap.lastIncludedIndex) :
    ∃ m', m.saveSnapshot snap = .ok m' := by
  rw [saveSnapshot, if_neg (not_le.mpr h)]
  split <;> exact ⟨_, rfl⟩

theorem compact_isOk {upto : ℕ} (h : upto ≤ m.lastIndex) :
    ∃ m', m.compact upto = .ok m' := by
  rw [compact]
  split
  · exact ⟨_, rfl⟩
  · rw [if_neg (not_lt.mpr h)]
    exact ⟨_, rfl⟩

theorem compact_ok {upto : ℕ} (hm : m.InOrder) (h : m.compact upto = .ok m') :
    upto ≤ m.offset ∧ m' = m ∨
      m.offset < upto ∧ upto ≤ m.lastIndex ∧ m'.hardState = m.hardState ∧
      m'.snapshot = m.snapshot ∧ m'.base.index = upto ∧
      m'.base.term = ((m.at? (upto - m.offset)).map LogEntry.term).getD 0 ∧
      m'.ents = m.ents.drop (upto - m.offset) := by
  rw [compact] at h
  split at h
  · rename_i h1
    cases h
    exact Or.inl ⟨h1, rfl⟩
  · split at h
    · exact nomatch h
    · rename_i h1 h2
      cases h
      have hoff : m.lastIndex = m.offset + m.ents.length := rfl
      obtain ⟨k, hk⟩ : ∃ k, upto - m.offset = k + 1 := ⟨upto - m.offset - 1, by omega⟩
      obtain ⟨e, he⟩ : ∃ e, m.ents[k]? = some e :=
        ⟨_, List.getElem?_eq_getElem (show k < m.ents.length by omega)⟩
      have hidx := hm k e he
      refine Or.inr ⟨by omega, by omega, rfl, rfl, ?_, ?_, rfl⟩
      · simp only [at?, hk, List.getElem?_cons_succ, he, Option.getD_some, offset] at *
        omega
      · simp [at?, hk, he]

theorem compact_inOrder {upto : ℕ} (hm : m.InOrder) (h : m.compact upto = .ok m') : m'.InOrder := by
  rcases compact_ok hm h with ⟨-, rfl⟩ | ⟨h1, _, _, _, hb, _, he⟩
  · exact hm
  · rw [InOrder, hb, he]
    convert hm.drop (upto - m.offset) using 1
    simp only [offset] at *
    omega

theorem compact_lastIndex {upto : ℕ} (hm : m.InOrder) (h : m.compact upto = .ok m') :
    m'.lastIndex = m.lastIndex := by
  rcases compact_ok hm h with ⟨-, rfl⟩ | ⟨h1, h2, _, _, hb, _, he⟩
  · rfl
  · simp only [lastIndex, offset, hb, he, List.length_drop] at *
    omega

theorem term_ok {i : ℕ} (h1 : m.offset ≤ i) (h2 : i ≤ m.lastIndex) :
    m.term i = .ok (((m.at? (i - m.offset)).map LogEntry.term).getD 0) := by
  rw [term, if_neg (by omega), if_neg (by omega)]

theorem term_eq_ok {i t : ℕ} (h : m.term i = .ok t) : m.offset ≤ i ∧ i ≤ m.lastIndex := by
  rw [term] at h
  split at h
  · exact nomatch h
  · split at h
    · exact nomatch h
    · omega

theorem getEntry_at {i : ℕ} (h1 : m.firstIndex ≤ i) (h2 : i ≤ m.lastIndex) :
    ∃ e, m.getEntry i = .ok e ∧ (m.base :: m.ents)[i - m.offset]? = some e := by
  have hlast : m.lastIndex = m.offset + m.ents.length := rfl
  have hfirst : m.firstIndex = m.offset + 1 := rfl
  have hlt : i - m.offset < (m.base :: m.ents).length := by
    rw [List.length_cons]
    omega
  refine ⟨(m.base :: m.ents)[i - m.offset], ?_, List.getElem?_eq_getElem hlt⟩
  rw [getEntry, if_neg (by omega), if_neg (by omega), at?, List.getElem?_eq_getElem hlt]
  rfl

/-- A range that the storage holds is read entry by entry. -/
theorem entries_eq_ok (lo hi : ℕ) (h1 : m.firstIndex ≤ lo) (h2 : hi ≤ m.lastIndex + 1)
    (hlt : lo < hi) :
    ∃ es, m.entries lo hi = .ok es ∧ es.length = hi - lo ∧
      ∀ k e, es[k]? = some e → m.getEntry (lo + k) = .ok e := by
  have hlast : m.lastIndex = m.offset + m.ents.length := rfl
  have hfirst : m.firstIndex = m.offset + 1 := rfl
  refine ⟨_, by rw [entries, if_neg (by omega), if_neg (by omega), if_neg (by omega)], ?_, ?_⟩
  · rw [List.length_drop, List.length_take, List.length_cons]
    omega
  · intro k e he
    have hk : k < hi - lo := by
      have := (List.getElem?_eq_some_iff.mp he).1
      rw [List.length_drop, List.length_take, List.length_cons] at this
      omega
    obtain ⟨e', hget, hat⟩ := getEntry_at (m := m) (i := lo + k) (by omega) (by omega)
    rw [List.getElem?_drop, List.getElem?_take, if_pos (by omega),
      show lo - m.offset + k = lo + k - m.offset by omega, hat] at he
    rw [hget, Option.some.inj he]

end MemoryStorage

/-! ### Reading entries -/

theorem getEntry_of_getElem {m : MemoryStorage} {k : ℕ} {e : LogEntry} (h : m.ents[k]? = some e) :
    m.getEntry (m.base.index + k + 1) = .ok e := by
  have hlt := (List.getElem?_eq_some_iff.mp h).1
  have hlast : m.lastIndex = m.base.index + m.ents.length := rfl
  rw [MemoryStorage.getEntry, MemoryStorage.firstIndex, MemoryStorage.offset, if_neg (by omega),
    if_neg (by omega), show m.base.index + k + 1 - m.base.index = k + 1 by omega,
    MemoryStorage.at?, List.getElem?_cons_succ, h]
  rfl

theorem getElem_of_getEntry {m : MemoryStorage} {i : ℕ} {e : LogEntry} (h : m.getEntry i = .ok e) :
    ∃ k, i = m.base.index + k + 1 ∧ m.ents[k]? = some e := by
  have hlast : m.lastIndex = m.base.index + m.ents.length := rfl
  have hfirst : m.firstIndex = m.base.index + 1 := rfl
  rw [MemoryStorage.getEntry] at h
  split at h
  · exact nomatch h
  · split at h
    · exact nomatch h
    · obtain ⟨k, hk⟩ : ∃ k, i = m.base.index + k + 1 := ⟨i - m.base.index - 1, by omega⟩
      have hlt : k < m.ents.length := by omega
      refine ⟨k, hk, ?_⟩
      rw [hk, MemoryStorage.offset, show m.base.index + k + 1 - m.base.index = k + 1 by omega,
        MemoryStorage.at?, List.getElem?_cons_succ, List.getElem?_eq_getElem hlt] at h
      rw [List.getElem?_eq_getElem hlt]
      exact congrArg some (Except.ok.inj h)

/-- The storage holds an entry at its own index. -/
theorem MemoryStorage.InOrder.getEntry_index {m : MemoryStorage} (hm : m.InOrder) {i : ℕ}
    {e : LogEntry} (h : m.getEntry i = .ok e) : e.index = i := by
  obtain ⟨k, rfl, hk⟩ := getElem_of_getEntry h
  rw [hm k e hk]
  omega

theorem MemoryStorage.InOrder.index_le {m : MemoryStorage} (hm : m.InOrder) {e : LogEntry}
    (he : e ∈ m.ents) : e.index ≤ m.lastIndex := by
  obtain ⟨k, hk⟩ := List.mem_iff_getElem?.mp he
  have hlt := (List.getElem?_eq_some_iff.mp hk).1
  have hlast : m.lastIndex = m.base.index + m.ents.length := rfl
  rw [hm k e hk]
  omega

/-! ### Writes -/

namespace Disk

theorem meets_write {f : MemoryStorage → Except Error MemoryStorage} {d : Disk}
    {Q : Unit → Disk → Prop} {F : Fail → Disk → Prop}
    (hok : ∀ mem faults, f d.mem = .ok mem → Q () ⟨mem, faults⟩)
    (hf : ∀ e faults, e.wraps = [] ∨ f d.mem = .error e → F (.error e) ⟨d.mem, faults⟩) :
    Meets (write f) d Q F := by
  unfold Meets write
  split
  · rename_i heq
    split at heq
    · exact nomatch heq
    · split at heq
      · rename_i h
        cases heq
        exact hok _ _ h
      · exact nomatch heq
  · rename_i heq
    split at heq
    · cases heq
      exact hf _ _ (Or.inl rfl)
    · split at heq
      · exact nomatch heq
      · rename_i h
        cases heq
        exact hf _ _ (Or.inr h)

end Disk

end RaftStore.Raft
