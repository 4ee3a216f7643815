import RaftStore.Storage.Bolt
import RaftStore.Lib.Cursor

/-! The storage on disk and the one in memory cannot be told apart: along every sequence of calls,
with the database closed and opened again in between, they give the same answers. -/

namespace RaftStore.Storage

open Lib Raft Codec

/-! ### Calls and answers -/

inductive ErrorClass
  | compacted
  | unavailable
  | snapshotOutOfDate
  | other
  deriving DecidableEq, Repr

def errorClass (e : Error) : ErrorClass :=
  if e.is .compacted then .compacted
  else if e.is .unavailable then .unavailable
  else if e.is .snapshotOutOfDate then .snapshotOutOfDate
  else .other

inductive Call
  | initialState
  | setHardState (hs : HardState)
  | firstIndex
  | lastIndex
  | term (i : ℕ)
  | getEntry (i : ℕ)
  | entries (lo hi : ℕ)
  | appendEntries (entries : List LogEntry)
  | saveSnapshot (snap : Snapshot)
  | loadSnapshot
  | compact (upto : ℕ)
  /-- Closes the database and opens it again; a storage in memory just stays. -/
  | reopen
  deriving DecidableEq, Repr

inductive Answer
  | done
  | number (n : ℕ)
  | entry (e : LogEntry)
  | entries (es : List LogEntry)
  | snapshot (s : Snapshot)
  | state (hs : HardState) (s : Snapshot)
  | failed (c : ErrorClass)
  deriving DecidableEq, Repr

/-- The answer of a read. -/
def answerRead {α : Type} (f : α → Answer) : Except Error α → Answer
  | .ok a => f a
  | .error e => .failed (errorClass e)

/-- The answer of a write, and the storage after it. -/
def answerWrite {σ : Type} (s : σ) : Except Error σ → Answer × σ
  | .ok s' => (.done, s')
  | .error e => (.failed (errorClass e), s)

def respondMemory (m : MemoryStorage) : Call → Answer × MemoryStorage
  | .initialState => (.state m.hardState m.snapshot, m)
  | .setHardState hs => answerWrite m (m.setHardState hs)
  | .firstIndex => (.number m.firstIndex, m)
  | .lastIndex => (.number m.lastIndex, m)
  | .term i => (answerRead .number (m.term i), m)
  | .getEntry i => (answerRead .entry (m.getEntry i), m)
  | .entries lo hi => (answerRead .entries (m.entries lo hi), m)
  | .appendEntries es => answerWrite m (m.appendEntries es)
  | .saveSnapshot snap => answerWrite m (m.saveSnapshot snap)
  | .loadSnapshot => (.snapshot m.snapshot, m)
  | .compact upto => answerWrite m (m.compact upto)
  | .reopen => (.done, m)

def respondBolt (s : Bolt) : Call → Answer × Bolt
  | .initialState => (.state s.initialState.1 s.initialState.2, s)
  | .setHardState hs => answerWrite s (s.setHardState hs)
  | .firstIndex => (.number s.firstIndex, s)
  | .lastIndex => (.number s.lastIndex, s)
  | .term i => (answerRead .number (s.term i), s)
  | .getEntry i => (answerRead .entry (s.getEntry i), s)
  | .entries lo hi => (answerRead .entries (s.entries lo hi), s)
  | .appendEntries es => answerWrite s (s.appendEntries es)
  | .saveSnapshot snap => answerWrite s (s.saveSnapshot snap)
  | .loadSnapshot => (.snapshot s.loadSnapshot, s)
  | .compact upto => answerWrite s (s.compact upto)
  | .reopen => answerWrite s (Bolt.openDB s.db)

/-- The answers to a sequence of calls, and the storage after them. -/
def respondAll {σ : Type} (respond : σ → Call → Answer × σ) (s : σ) : List Call → List Answer × σ
  | [] => ([], s)
  | c :: calls =>
    let (a, s) := respond s c
    let (as, s) := respondAll respond s calls
    (a :: as, s)

/-- The calls that the storages are made for: no compaction beyond the saved snapshot, no question
for the term of index 0, configurations in normal form, and numbers that fit into words.  The last
word is not an index: what follows it would be index 0 again, and the storages would differ. -/
def Allowed (m : MemoryStorage) : Call → Prop
  | .setHardState hs => HardStateWords hs
  | .term i => 1 ≤ i
  | .appendEntries es => ∀ e ∈ es, EntryWords e ∧ InRange e.index
  | .saveSnapshot snap => SnapshotWords snap ∧ InRange snap.lastIncludedIndex
  | .compact upto => upto ≤ m.snapshot.lastIncludedIndex
  | _ => True

def AllAllowed (m : MemoryStorage) : List Call → Prop
  | [] => True
  | c :: calls => Allowed m c ∧ AllAllowed (respondMemory m c).2 calls

/-! ### The log bucket -/

/-- The pair that the log bucket holds for an entry. -/
def pair (e : LogEntry) : List UInt8 × PbLogEntry := (encodeIndex e.index, entryToProto e)

theorem compare_encodeIndex {i j : ℕ} (hi : i < 2 ^ 64) (hj : j < 2 ^ 64) :
    compare (encodeIndex i) (encodeIndex j) = compare i j :=
  compare_putBigEndian (by simpa using hi) (by simpa using hj)

theorem decodeIndex_encode {i : ℕ} (hi : i < 2 ^ 64) : decodeIndex (encodeIndex i) = i :=
  bigEndian_put (by simpa using hi)

theorem contiguous_dropWhile {i n : ℕ} {l : List LogEntry} (h : Contiguous i l) :
    l.dropWhile (fun e => e.index < n) = l.drop (n - i) := by
  induction l generalizing i with
  | nil => simp
  | cons e l ih =>
    have he : e.index = i := by simpa using h 0 e rfl
    rw [List.dropWhile_cons]
    split
    · rename_i hlt
      rw [decide_eq_true_eq, he] at hlt
      obtain ⟨k, hk⟩ : ∃ k, n - i = k + 1 := ⟨n - i - 1, by omega⟩
      rw [ih h.tail, hk, List.drop_succ_cons]
      congr 1
      omega
    · rename_i hge
      rw [decide_eq_true_eq, he] at hge
      rw [Nat.sub_eq_zero_of_le (by omega), List.drop_zero]

theorem contiguous_takeWhile {i n : ℕ} {l : List LogEntry} (h : Contiguous i l) :
    l.takeWhile (fun e => e.index < n) = l.take (n - i) := by
  have hdrop := contiguous_dropWhile (n := n) h
  have hsplit :=
    List.takeWhile_append_dropWhile (p := fun e : LogEntry => decide (e.index < n)) (l := l)
  rw [hdrop] at hsplit
  exact List.append_cancel_right (hsplit.trans (List.take_append_drop (n - i) l).symm)

theorem pairs_sorted {i : ℕ} {l : List LogEntry} (h : Contiguous i l)
    (hw : ∀ e ∈ l, EntryWords e) : (l.map pair).Pairwise fun a b => compare a.1 b.1 = .lt := by
  rw [List.pairwise_map]
  induction l generalizing i with
  | nil => exact .nil
  | cons e l ih =>
    have he : e.index = i := by simpa using h 0 e rfl
    refine List.pairwise_cons.mpr ⟨fun e' he' => ?_, ih h.tail fun e' he' => hw e' (.tail _ he')⟩
    obtain ⟨k, hk⟩ := List.mem_iff_getElem?.mp he'
    have := h.tail k e' hk
    simp only [pair]
    rw [compare_encodeIndex (hw e (.head _)).index (hw e' (.tail _ he')).index, Nat.compare_eq_lt]
    omega

theorem dropWhile_pairs {l : List LogEntry} (hw : ∀ e ∈ l, EntryWords e) {n : ℕ} (hn : n < 2 ^ 64) :
    (l.map pair).dropWhile (fun p => compare p.1 (encodeIndex n) = .lt) =
      (l.dropWhile fun e => e.index < n).map pair := by
  induction l with
  | nil => rfl
  | cons e l ih =>
    have hcmp : compare (pair e).1 (encodeIndex n) = .lt ↔ e.index < n := by
      rw [pair, compare_encodeIndex (hw e (.head _)).index hn, Nat.compare_eq_lt]
    simp only [List.map_cons, List.dropWhile_cons, hcmp]
    split
    · exact ih fun e' he' => hw e' (.tail _ he')
    · rfl

theorem takeWhile_pairs {l : List LogEntry} (hw : ∀ e ∈ l, EntryWords e) (n : ℕ) :
    (l.map pair).takeWhile (fun p => decodeIndex p.1 < n) =
      (l.takeWhile fun e => e.index < n).map pair := by
  induction l with
  | nil => rfl
  | cons e l ih =>
    have hkey : decodeIndex (pair e).1 = e.index := decodeIndex_encode (hw e (.head _)).index
    simp only [List.map_cons, List.takeWhile_cons, hkey]
    split
    · rw [ih fun e' he' => hw e' (.tail _ he'), List.map_cons]
    · rfl

theorem map_entryFromProto_pair {l : List LogEntry} (hw : ∀ e ∈ l, EntryWords e) :
    (l.map pair).map (fun p => entryFromProto p.2) = l := by
  rw [List.map_map]
  refine (List.map_congr_left fun e he => ?_).trans (List.map_id l)
  exact entryFromProto_toProto (hw e he)

theorem map_decodeIndex_pair {l : List LogEntry} (hw : ∀ e ∈ l, EntryWords e) :
    (l.map pair).map (fun p => decodeIndex p.1) = l.map LogEntry.index := by
  rw [List.map_map]
  refine List.map_congr_left fun e he => ?_
  have h := decodeIndex_encode (hw e he).index
  rw [Function.comp_apply, pair]
  exact h

/-- The entries past the floor, as both stores cut them. -/
def trim (floor : ℕ) (e : LogEntry) (rest : List LogEntry) : List LogEntry :=
  if e.index ≤ floor then (e :: rest).drop (floor + 1 - e.index) else e :: rest

/-- The index of the first of them. -/
def trimFirst (floor : ℕ) (e : LogEntry) : ℕ := if e.index ≤ floor then floor + 1 else e.index

def gapError (first last : ℕ) : Error :=
  ⟨s!"storage: append at {first} leaves a gap after last index {last}", []⟩

theorem getLast_index {e : LogEntry} {rest : List LogEntry} (h : Contiguous e.index (e :: rest)) :
    ((e :: rest).getLast (by simp)).index = e.index + rest.length := by
  have := h rest.length _ (List.getElem?_eq_getElem (by simp))
  rw [List.getLast_eq_getElem]
  simpa using this

structure Trimmed (floor : ℕ) (e : LogEntry) (rest : List LogEntry) : Prop where
  contiguous : Contiguous (trimFirst floor e) (trim floor e rest)
  head : ((trim floor e rest).head?.map LogEntry.index).getD 0 = trimFirst floor e
  last : trimFirst floor e - 1 + (trim floor e rest).length = ((e :: rest).getLast (by simp)).index
  above : floor < trimFirst floor e
  nonempty : 0 < (trim floor e rest).length
  mem : ∀ x ∈ trim floor e rest, x ∈ e :: rest

theorem trimmed {floor : ℕ} {e : LogEntry} {rest : List LogEntry}
    (h : Contiguous e.index (e :: rest))
    (hlast : floor < ((e :: rest).getLast (by simp)).index) : Trimmed floor e rest := by
  have hindex := getLast_index h
  rw [hindex] at hlast
  by_cases hle : e.index ≤ floor
  · have htrim : trim floor e rest = (e :: rest).drop (floor + 1 - e.index) := if_pos hle
    have hfirst : trimFirst floor e = floor + 1 := if_pos hle
    have hcont : Contiguous (floor + 1) ((e :: rest).drop (floor + 1 - e.index)) := by
      have := h.drop (floor + 1 - e.index)
      rwa [show e.index + (floor + 1 - e.index) = floor + 1 by omega] at this
    have hlength : ((e :: rest).drop (floor + 1 - e.index)).length =
        rest.length + 1 - (floor + 1 - e.index) := by
      rw [List.length_drop, List.length_cons]
    refine ⟨by rwa [htrim, hfirst], ?_, ?_, by omega, by rw [htrim]; omega, fun x hx => ?_⟩
    · rw [htrim, hfirst, List.head?_eq_getElem?]
      cases hx : ((e :: rest).drop (floor + 1 - e.index))[0]? with
      | none =>
        have := List.getElem?_eq_none_iff.mp hx
        omega
      | some x => exact hcont 0 x hx
    · rw [htrim, hfirst, hlength, hindex]
      omega
    · rw [htrim] at hx
      exact List.mem_of_mem_drop hx
  · have htrim : trim floor e rest = e :: rest := if_neg hle
    have hfirst : trimFirst floor e = e.index := if_neg hle
    refine ⟨by rwa [htrim, hfirst], ?_, ?_, by omega, by rw [htrim]; simp, fun x hx => ?_⟩
    · rw [htrim, hfirst]
      rfl
    · rw [htrim, hfirst, hindex, List.length_cons]
      omega
    · rwa [htrim] at hx

/-! ### The relation -/

/-- The database holds what the storage in memory holds, and the cached bounds are right. -/
structure Refines (m : MemoryStorage) (s : Bolt) : Prop where
  inOrder : m.InOrder
  words : ∀ e ∈ m.ents, EntryWords e
  inRange : InRange m.lastIndex
  base_index : m.base.index < 2 ^ 64
  base_term : m.base.term < 2 ^ 64
  base_le : m.base.index ≤ m.snapshot.lastIncludedIndex
  log : s.db.log.toList = m.ents.map pair
  first : s.first = m.firstIndex
  last : s.last = m.lastIndex
  floorIndex : s.floorIndex = m.base.index
  floorTerm : s.floorTerm = m.base.term
  floor : s.db.floor = none ∧ m.base.index = 0 ∧ m.base.term = 0 ∨
    s.db.floor = some (encodeFloor m.base.index m.base.term)
  snapIndex : s.snapIndex = m.snapshot.lastIncludedIndex
  snapTerm : s.snapTerm = m.snapshot.lastIncludedTerm
  snap : s.db.snap = none ∧ m.snapshot = {} ∨
    s.db.snap = some (snapshotToProto m.snapshot) ∧ SnapshotWords m.snapshot
  hardState : s.hardState = m.hardState
  hard : s.db.hard = none ∧ m.hardState = {} ∨
    s.db.hard = some (marshalHardState m.hardState) ∧ HardStateWords m.hardState

namespace Refines

variable {m : MemoryStorage} {s : Bolt}

/-- An empty database stands for a node that has never run. -/
theorem openDB_empty : ∃ s, Bolt.openDB {} = .ok s ∧ Refines {} s := by
  refine ⟨_, rfl, ?_⟩
  exact {
    inOrder := .nil _
    words := fun e he => nomatch he
    inRange := by decide
    base_index := by decide
    base_term := by decide
    base_le := le_rfl
    log := rfl
    first := rfl
    last := rfl
    floorIndex := rfl
    floorTerm := rfl
    floor := .inl ⟨rfl, rfl, rfl⟩
    snapIndex := rfl
    snapTerm := rfl
    snap := .inl ⟨rfl, rfl⟩
    hardState := rfl
    hard := .inl ⟨rfl, rfl⟩ }

theorem loadSnapshot (h : Refines m s) : s.loadSnapshot = m.snapshot := by
  rw [Bolt.loadSnapshot, DB.readSnapshot]
  rcases h.snap with ⟨hs, hm⟩ | ⟨hs, hw⟩
  · rw [hs, hm]
  · simp only [hs, snapshotFromProto_toProto hw]

/-- The entry that is at an index of the log, in memory and in the bucket. -/
theorem entry_at (h : Refines m s) {i : ℕ} (h1 : m.firstIndex ≤ i) (h2 : i ≤ m.lastIndex) :
    ∃ e, m.at? (i - m.offset) = some e ∧ e.index = i ∧ EntryWords e ∧
      s.db.log[encodeIndex i]? = some (entryToProto e) := by
  have hlast : m.lastIndex = m.offset + m.ents.length := rfl
  have hfirst : m.firstIndex = m.offset + 1 := rfl
  obtain ⟨k, hk⟩ : ∃ k, i - m.offset = k + 1 := ⟨i - m.offset - 1, by omega⟩
  obtain ⟨e, he⟩ : ∃ e, m.ents[k]? = some e :=
    ⟨_, List.getElem?_eq_getElem (show k < m.ents.length by omega)⟩
  have hmem := List.mem_of_getElem? he
  have hindex : e.index = i := by
    have := h.inOrder k e he
    simp only [MemoryStorage.offset] at *
    omega
  refine ⟨e, by rw [hk]; exact he, hindex, h.words e hmem, ?_⟩
  rw [← Std.ExtTreeMap.mem_toList_iff_getElem?_eq_some, h.log]
  exact List.mem_map.mpr ⟨e, hmem, by rw [pair, hindex]⟩

theorem getEntry (h : Refines m s) (i : ℕ) :
    answerRead .entry (s.getEntry i) = answerRead .entry (m.getEntry i) := by
  rw [Bolt.getEntry, MemoryStorage.getEntry, h.first, h.last]
  split
  · rfl
  · split
    · rfl
    · obtain ⟨e, hat, -, hw, hlog⟩ := h.entry_at (i := i) (by omega) (by omega)
      simp only [hlog, hat, entryFromProto_toProto hw, Option.getD_some]

theorem errorClass_wrap (context : String) (e : Sentinel) :
    errorClass (e.error.wrap context) = errorClass e.error := rfl

/-- Past the floor, both know the term of every entry. -/
theorem term_ok (h : Refines m s) {i : ℕ} (h1 : m.firstIndex ≤ i) (h2 : i ≤ m.lastIndex) :
    ∃ t, s.term i = .ok t ∧ (m.at? (i - m.offset)).map LogEntry.term = some t := by
  obtain ⟨e, hat, -, hw, hlog⟩ := h.entry_at h1 h2
  have hfirst : m.firstIndex = m.base.index + 1 := rfl
  have hne : ¬ (i = s.floorIndex ∧ s.floorIndex > 0) := by
    rw [h.floorIndex]
    omega
  refine ⟨e.term, ?_, by rw [hat]; rfl⟩
  rw [Bolt.term, if_neg hne, Bolt.getEntry, h.first, h.last, if_neg (by omega), if_neg (by omega), hlog]
  simp only [entryFromProto_toProto hw]

theorem term (h : Refines m s) {i : ℕ} (hi : 1 ≤ i) :
    answerRead .number (s.term i) = answerRead .number (m.term i) := by
  have hoff : m.offset = m.base.index := rfl
  have hfirst : m.firstIndex = m.base.index + 1 := rfl
  have hlast : m.lastIndex = m.offset + m.ents.length := rfl
  rcases Nat.lt_trichotomy i m.base.index with hlt | heq | hgt
  · have hne : ¬ (i = s.floorIndex ∧ s.floorIndex > 0) := by
      rw [h.floorIndex]
      omega
    rw [Bolt.term, if_neg hne, Bolt.getEntry, h.first, if_pos (by omega), MemoryStorage.term,
      if_pos (by omega)]
    simp only [answerRead, errorClass_wrap]
  · have hfloor : i = s.floorIndex ∧ s.floorIndex > 0 := by
      rw [h.floorIndex]
      omega
    rw [Bolt.term, if_pos hfloor, MemoryStorage.term_ok (by omega) (by omega), heq, hoff, Nat.sub_self,
      h.floorTerm]
    rfl
  · rcases Nat.lt_or_ge m.lastIndex i with hend | hend
    · have hne : ¬ (i = s.floorIndex ∧ s.floorIndex > 0) := by
        rw [h.floorIndex]
        omega
      rw [Bolt.term, if_neg hne, Bolt.getEntry, h.first, h.last, if_neg (by omega),
        if_pos (by omega), MemoryStorage.term, if_neg (by omega), if_pos (by omega)]
      simp only [answerRead, errorClass_wrap]
    · obtain ⟨t, ht, hat⟩ := h.term_ok (i := i) (by omega) hend
      rw [ht, MemoryStorage.term_ok (by omega) hend, hat]
      rfl

theorem entries (h : Refines m s) (lo hi : ℕ) :
    answerRead .entries (s.entries lo hi) = answerRead .entries (m.entries lo hi) := by
  rw [Bolt.entries, MemoryStorage.entries, h.first, h.last]
  split
  · rfl
  · split
    · rfl
    · split
      · rfl
      · rename_i hlt hfirst hlast
        have hbounds : m.lastIndex = m.offset + m.ents.length := rfl
        have hoff : m.firstIndex = m.offset + 1 := rfl
        have hlo : lo < 2 ^ 64 := by
          obtain ⟨e, -, hindex, hw, -⟩ := h.entry_at (i := lo) (by omega) (by omega)
          exact hindex ▸ hw.index
        have hw : ∀ e ∈ m.ents.drop (lo - m.firstIndex), EntryWords e := fun e he =>
          h.words e (List.mem_of_mem_drop he)
        have hseek : s.db.log.seek (encodeIndex lo) = (m.ents.drop (lo - m.firstIndex)).map pair := by
          rw [Bucket.seek, h.log, dropWhile_pairs h.words hlo, contiguous_dropWhile h.inOrder]
          rfl
        rw [hseek, takeWhile_pairs hw, contiguous_takeWhile (h.inOrder.drop _),
          map_entryFromProto_pair fun e he => hw e (List.mem_of_mem_take he)]
        obtain ⟨k, hk⟩ : ∃ k, hi - m.offset = k + 1 := ⟨hi - m.offset - 1, by omega⟩
        obtain ⟨j, hj⟩ : ∃ j, lo - m.offset = j + 1 := ⟨lo - m.offset - 1, by omega⟩
        rw [hk, hj, List.take_succ_cons, List.drop_succ_cons, List.drop_take]
        have hbase : m.offset = m.base.index := rfl
        have hdrop : lo - m.firstIndex = j := by omega
        have htake : hi - (m.base.index + 1 + (lo - m.firstIndex)) = k - j := by omega
        rw [htake, hdrop]

/-- What was open is what is read when the database is opened again. -/
theorem openDB (h : Refines m s) : Bolt.openDB s.db = .ok s := by
  have hhard : s.db.readHardState = .ok s.hardState := by
    rw [DB.readHardState, h.hardState]
    rcases h.hard with ⟨hs, hm⟩ | ⟨hs, hw⟩
    · rw [hs, hm]
    · simp only [hs, unmarshalHardState_marshal hw]
  have hfloor : s.db.readFloor = .ok (s.floorIndex, s.floorTerm) := by
    rw [DB.readFloor, h.floorIndex, h.floorTerm]
    rcases h.floor with ⟨hs, hi, ht⟩ | hs
    · simp only [hs, hi, ht]
    · simp only [hs, decodeFloor_encode h.base_index h.base_term]
  have hlast : (s.db.log.toList.getLast?.map fun p => decodeIndex p.1).getD s.floorIndex = s.last := by
    rw [← List.getLast?_map, h.log, map_decodeIndex_pair h.words, h.last, h.floorIndex,
      List.getLast?_map, List.getLast?_eq_getElem?]
    have hlength : m.lastIndex = m.base.index + m.ents.length := rfl
    cases he : m.ents[m.ents.length - 1]? with
    | none =>
      have := List.getElem?_eq_none_iff.mp he
      rw [Option.map_none, Option.getD_none]
      omega
    | some e =>
      have hlt := (List.getElem?_eq_some_iff.mp he).1
      have := h.inOrder _ e he
      rw [Option.map_some, Option.getD_some]
      omega
  have hfirst : (s.db.log.toList.head?.map fun p => decodeIndex p.1).getD (s.floorIndex + 1) =
      s.first := by
    rw [← List.head?_map, h.log, map_decodeIndex_pair h.words, h.first, h.floorIndex,
      List.head?_map, List.head?_eq_getElem?]
    cases he : m.ents[0]? with
    | none => rfl
    | some e => exact h.inOrder 0 e he
  have hsnap : s.db.readSnapshot = m.snapshot := h.loadSnapshot
  simp only [Bolt.openDB, hhard, hfloor, hlast, hfirst, hsnap, ← h.snapIndex, ← h.snapTerm]

theorem setHardState (h : Refines m s) {hs : HardState} (hw : HardStateWords hs) :
    (answerWrite s (s.setHardState hs)).1 = (answerWrite m (m.setHardState hs)).1 ∧
      Refines (answerWrite m (m.setHardState hs)).2 (answerWrite s (s.setHardState hs)).2 := by
  rw [Bolt.setHardState, MemoryStorage.setHardState, h.hardState]
  split
  · exact ⟨rfl, h⟩
  · exact ⟨rfl, { h with hardState := rfl, hard := .inr ⟨rfl, hw⟩ }⟩

/-- The bucket after the part from `first` on is replaced by the entries. -/
theorem splice_log (h : Refines m s) {first : ℕ} {es : List LogEntry} (h1 : m.offset < first)
    (h2 : first ≤ m.lastIndex + 1) (hfirst : first < 2 ^ 64) (hes : Contiguous first es)
    (hw : ∀ e ∈ es, EntryWords e) :
    (es.foldl (fun b e => b.insert (encodeIndex e.index) (entryToProto e))
      (s.db.log.delete (s.db.log.seek (encodeIndex first)))).toList =
      (m.splice first es).ents.map pair := by
  have hbase : m.offset = m.base.index := rfl
  have hsplit : s.db.log.toList = (m.ents.take (first - m.offset - 1)).map pair ++
      s.db.log.seek (encodeIndex first) := by
    have hsub : first - (m.base.index + 1) = first - m.offset - 1 := by omega
    rw [Bucket.seek, h.log, dropWhile_pairs h.words hfirst, contiguous_dropWhile h.inOrder,
      ← List.map_append, hsub, List.take_append_drop]
  have hdelete : (s.db.log.delete (s.db.log.seek (encodeIndex first))).toList =
      (m.ents.take (first - m.offset - 1)).map pair := toList_erase_right hsplit
  have hcont := (h.inOrder.splice h1 h2 hes : Contiguous _ _)
  have hsorted := pairs_sorted hcont fun e he =>
    (List.mem_append.mp he).elim (fun he => h.words e (List.mem_of_mem_take he)) (hw e)
  have hfold : ∀ b : Bucket, es.foldl (fun b e => b.insert (encodeIndex e.index) (entryToProto e)) b =
      (es.map pair).foldl (fun b p => b.insert p.1 p.2) b := by
    intro b
    rw [List.foldl_map]
    rfl
  rw [MemoryStorage.splice, List.map_append] at hsorted ⊢
  rw [hfold, toList_insert_right (hdelete ▸ hsorted), hdelete]

theorem appendEntries (h : Refines m s) {es : List LogEntry}
    (hes : ∀ e ∈ es, EntryWords e ∧ InRange e.index) :
    (answerWrite s (s.appendEntries es)).1 = (answerWrite m (m.appendEntries es)).1 ∧
      Refines (answerWrite m (m.appendEntries es)).2 (answerWrite s (s.appendEntries es)).2 := by
  have hw : ∀ e ∈ es, EntryWords e := fun e he => (hes e he).1
  cases es with
  | nil => exact ⟨rfl, h⟩
  | cons e rest =>
    cases hcheck : MemoryStorage.checkContiguous (e :: rest) with
    | error err =>
      simp only [Bolt.appendEntries, MemoryStorage.appendEntries, Bolt.checkContiguous, hcheck]
      exact ⟨rfl, h⟩
    | ok =>
      by_cases hlast : ((e :: rest).getLast (by simp)).index ≤ m.base.index
      · have hm : m.appendEntries (e :: rest) = .ok m := by
          simp only [MemoryStorage.appendEntries, hcheck]
          exact if_pos hlast
        have hs : s.appendEntries (e :: rest) = .ok s := by
          simp only [Bolt.appendEntries, Bolt.checkContiguous, hcheck, h.floorIndex]
          exact if_pos hlast
        rw [hm, hs]
        exact ⟨rfl, h⟩
      · have ht := trimmed (MemoryStorage.contiguous_of_check hcheck) (Nat.not_le.mp hlast)
        have hm : m.appendEntries (e :: rest) =
            if trimFirst m.base.index e > m.lastIndex + 1 then
              .error (gapError (trimFirst m.base.index e) m.lastIndex)
            else .ok (m.splice (trimFirst m.base.index e) (trim m.base.index e rest)) := by
          simp only [MemoryStorage.appendEntries, hcheck]
          exact if_neg hlast
        have hhead : ((if e.index ≤ m.base.index then (e :: rest).drop (m.base.index + 1 - e.index)
            else e :: rest).head?.map LogEntry.index).getD 0 = trimFirst m.base.index e := ht.head
        have hs : s.appendEntries (e :: rest) =
            if trimFirst m.base.index e > m.lastIndex + 1 then
              .error (gapError (trimFirst m.base.index e) m.lastIndex)
            else .ok { s with
              db := { s.db with
                log := (trim m.base.index e rest).foldl
                  (fun b e => b.insert (encodeIndex e.index) (entryToProto e))
                  (s.db.log.delete (s.db.log.seek (encodeIndex (trimFirst m.base.index e)))) }
              last := ((e :: rest).getLast (by simp)).index
              first := if s.first > ((e :: rest).getLast (by simp)).index then s.floorIndex + 1
                else s.first } := by
          simp only [Bolt.appendEntries, Bolt.checkContiguous, hcheck, h.floorIndex, h.last, hhead]
          exact if_neg hlast
        rw [hm, hs]
        split
        · exact ⟨rfl, h⟩
        · rename_i hgap
          refine ⟨rfl, ?_⟩
          have h2 : trimFirst m.base.index e ≤ m.lastIndex + 1 := Nat.not_lt.mp hgap
          have hlt : trimFirst m.base.index e < 2 ^ 64 := by
            have := (hw _ (List.getLast_mem (by simp : e :: rest ≠ []))).index
            have := ht.last
            have := ht.nonempty
            omega
          refine { h with
            inOrder := h.inOrder.splice ht.above h2 ht.contiguous
            words := fun x hx => (List.mem_append.mp hx).elim
              (fun hx => h.words x (List.mem_of_mem_take hx)) fun hx => hw x (ht.mem x hx)
            inRange := ?_
            log := h.splice_log ht.above h2 hlt ht.contiguous fun x hx => hw x (ht.mem x hx)
            first := ?_
            last := ?_ }
          · have hend := (hes _ (List.getLast_mem (by simp : e :: rest ≠ []))).2
            have hsplice := MemoryStorage.splice_lastIndex (trim m.base.index e rest) ht.above h2
            rw [← ht.last, ← hsplice] at hend
            exact hend
          · have hfirst : s.first = s.floorIndex + 1 := h.first.trans (h.floorIndex ▸ rfl)
            show (if _ then _ else _) = _
            rw [← hfirst, ite_self]
            exact h.first
          · exact ht.last.symm.trans (MemoryStorage.splice_lastIndex _ ht.above h2).symm

/-- Both keep the log exactly when it holds the snapshot's boundary. -/
theorem replaceLog (h : Refines m s) {snap : Snapshot}
    (hnew : m.snapshot.lastIncludedIndex < snap.lastIncludedIndex) :
    (!s.replaceLog snap) = (snap.lastIncludedIndex ≤ m.lastIndex &&
      (m.at? (snap.lastIncludedIndex - m.offset)).map LogEntry.term = some snap.lastIncludedTerm) := by
  have hbase := h.base_le
  have hfirst : m.firstIndex = m.base.index + 1 := rfl
  rw [Bolt.replaceLog, h.last]
  by_cases hle : snap.lastIncludedIndex ≤ m.lastIndex
  · obtain ⟨t, ht, hat⟩ := h.term_ok (i := snap.lastIncludedIndex) (by omega) hle
    have hgt : ¬ snap.lastIncludedIndex > m.lastIndex := Nat.not_lt.mpr hle
    simp [ht, hat, hle, hgt, bne, beq_eq_decide]
  · simp [hle, Nat.not_le.mp hle]

theorem saveSnapshot (h : Refines m s) {snap : Snapshot} (hw : SnapshotWords snap)
    (hin : InRange snap.lastIncludedIndex) :
    (answerWrite s (s.saveSnapshot snap)).1 = (answerWrite m (m.saveSnapshot snap)).1 ∧
      Refines (answerWrite m (m.saveSnapshot snap)).2 (answerWrite s (s.saveSnapshot snap)).2 := by
  by_cases hold : snap.lastIncludedIndex ≤ m.snapshot.lastIncludedIndex
  · have hold' : snap.lastIncludedIndex ≤ s.snapIndex := h.snapIndex ▸ hold
    rw [Bolt.saveSnapshot, MemoryStorage.saveSnapshot, if_pos hold, if_pos hold']
    exact ⟨rfl, h⟩
  · have hold' : ¬ snap.lastIncludedIndex ≤ s.snapIndex := h.snapIndex ▸ hold
    have hnew := Nat.not_le.mp hold
    rw [Bolt.saveSnapshot, MemoryStorage.saveSnapshot, if_neg hold, if_neg hold', ← h.replaceLog hnew]
    cases s.replaceLog snap with
    | false => exact ⟨rfl, { h with
        base_le := h.base_le.trans hnew.le
        snapIndex := rfl
        snapTerm := rfl
        snap := .inr ⟨rfl, hw⟩ }⟩
    | true => exact ⟨rfl, {
        inOrder := .nil _
        words := fun e he => (by cases he)
        inRange := hin
        base_index := hw.index
        base_term := hw.term
        base_le := le_rfl
        log := rfl
        first := rfl
        last := rfl
        floorIndex := rfl
        floorTerm := rfl
        floor := .inr rfl
        snapIndex := rfl
        snapTerm := rfl
        snap := .inr ⟨rfl, hw⟩
        hardState := h.hardState
        hard := h.hard }⟩

theorem compact (h : Refines m s) {upto : ℕ} (hsnap : upto ≤ m.snapshot.lastIncludedIndex) :
    (answerWrite s (s.compact upto)).1 = (answerWrite m (m.compact upto)).1 ∧
      Refines (answerWrite m (m.compact upto)).2 (answerWrite s (s.compact upto)).2 := by
  have hoff : m.offset = m.base.index := rfl
  have hfirst : m.firstIndex = m.base.index + 1 := rfl
  rw [Bolt.compact, h.floorIndex, h.last]
  by_cases hlow : upto ≤ m.base.index
  · rw [MemoryStorage.compact, hoff, if_pos hlow, if_pos hlow]
    exact ⟨rfl, h⟩
  · by_cases hhigh : upto > m.lastIndex
    · rw [MemoryStorage.compact, hoff, if_neg hlow, if_pos hhigh, if_neg hlow, if_pos hhigh]
      exact ⟨rfl, h⟩
    · obtain ⟨t, ht, hat⟩ := h.term_ok (i := upto) (by omega) (by omega)
      obtain ⟨e, hat', hindex, hw, -⟩ := h.entry_at (i := upto) (by omega) (by omega)
      have hm : m.compact upto = .ok { m with
          base := { index := upto, term := t }
          ents := m.ents.drop (upto - m.base.index) } := by
        rw [hat'] at hat
        cases hat
        rw [MemoryStorage.compact, hoff, if_neg hlow, if_neg hhigh]
        simp only [← hoff, hat', Option.getD_some, hindex]
      have hsplit : s.db.log.toList =
          (s.db.log.toList.takeWhile fun p => decodeIndex p.1 ≤ upto) ++
            (m.ents.drop (upto - m.base.index)).map pair := by
        have hcut := takeWhile_pairs h.words (upto + 1)
        rw [contiguous_takeWhile h.inOrder] at hcut
        simp only [Nat.lt_succ_iff, Nat.add_sub_add_right] at hcut
        rw [h.log, hcut, ← List.map_append, List.take_append_drop]
      have hkept : m.lastIndex = upto + (m.ents.drop (upto - m.base.index)).length := by
        have hlast : m.lastIndex = m.base.index + m.ents.length := rfl
        rw [List.length_drop]
        omega
      rw [if_neg hlow, if_neg hhigh, ht, hm]
      refine ⟨rfl, { h with
        inOrder := ?_
        words := fun x hx => h.words x (List.mem_of_mem_drop hx)
        inRange := ?_
        base_index := hindex ▸ hw.index
        base_term := ?_
        base_le := hsnap
        log := toList_erase_left hsplit
        first := rfl
        last := ?_
        floorIndex := rfl
        floorTerm := rfl
        floor := .inr rfl }⟩
      · have hdrop := h.inOrder.drop (upto - m.base.index)
        rwa [show m.base.index + 1 + (upto - m.base.index) = upto + 1 by omega] at hdrop
      · have hend := h.inRange
        rw [hkept] at hend
        exact hend
      · rw [hat'] at hat
        cases hat
        exact hw.term
      · exact hkept

/-- Every call is answered alike and keeps the relation. -/
theorem respond (h : Refines m s) {c : Call} (hc : Allowed m c) :
    (respondBolt s c).1 = (respondMemory m c).1 ∧
      Refines (respondMemory m c).2 (respondBolt s c).2 := by
  cases c with
  | initialState =>
    refine ⟨?_, h⟩
    rw [respondBolt, respondMemory, Bolt.initialState, h.loadSnapshot, h.hardState]
  | setHardState hs => exact h.setHardState hc
  | firstIndex => exact ⟨congrArg Answer.number h.first, h⟩
  | lastIndex => exact ⟨congrArg Answer.number h.last, h⟩
  | term i => exact ⟨h.term hc, h⟩
  | getEntry i => exact ⟨h.getEntry i, h⟩
  | entries lo hi => exact ⟨h.entries lo hi, h⟩
  | appendEntries es => exact h.appendEntries hc
  | saveSnapshot snap => exact h.saveSnapshot hc.1 hc.2
  | loadSnapshot => exact ⟨congrArg Answer.snapshot h.loadSnapshot, h⟩
  | compact upto => exact h.compact hc
  | reopen =>
    rw [respondBolt, h.openDB]
    exact ⟨rfl, h⟩

theorem respondAll (h : Refines m s) {calls : List Call} (hc : AllAllowed m calls) :
    (Storage.respondAll respondBolt s calls).1 = (Storage.respondAll respondMemory m calls).1 ∧
      Refines (Storage.respondAll respondMemory m calls).2
        (Storage.respondAll respondBolt s calls).2 := by
  induction calls generalizing m s with
  | nil => exact ⟨rfl, h⟩
  | cons c calls ih =>
    obtain ⟨ha, h'⟩ := h.respond hc.1
    obtain ⟨has, h''⟩ := ih h' hc.2
    simp only [Storage.respondAll, ha, has]
    exact ⟨trivial, h''⟩

end Refines

theorem unchanged_of_failed {σ : Type} {s : σ} {r : Except Error σ} {k : ErrorClass}
    (h : (answerWrite s r).1 = .failed k) : (answerWrite s r).2 = s := by
  cases r with
  | ok => exact nomatch h
  | error => rfl

/-- A failed call leaves the storage in memory as it was. -/
theorem respondMemory_failed {m : MemoryStorage} {c : Call} {k : ErrorClass}
    (h : (respondMemory m c).1 = .failed k) : (respondMemory m c).2 = m := by
  cases c with
  | setHardState | appendEntries | saveSnapshot | compact => exact unchanged_of_failed h
  | _ => rfl

/-- A failed call leaves the database as it was. -/
theorem respondBolt_failed {s : Bolt} {c : Call} {k : ErrorClass}
    (h : (respondBolt s c).1 = .failed k) : (respondBolt s c).2 = s := by
  cases c with
  | setHardState | appendEntries | saveSnapshot | compact | reopen => exact unchanged_of_failed h
  | _ => rfl

/-- Starting from nothing, both storages give the same answers to every allowed sequence of calls,
with the database opened again any number of times in between, and no index in them is the last word;
a call that fails changes neither. -/
theorem bolt_refines_memory {calls : List Call} (h : AllAllowed {} calls) :
    (∃ s, Bolt.openDB {} = .ok s ∧
      (respondAll respondBolt s calls).1 = (respondAll respondMemory {} calls).1 ∧
      InRange (respondAll respondBolt s calls).2.lastIndex ∧
      InRange (respondAll respondMemory {} calls).2.lastIndex) ∧
    (∀ m c k, (respondMemory m c).1 = .failed k → (respondMemory m c).2 = m) ∧
    ∀ s c k, (respondBolt s c).1 = .failed k → (respondBolt s c).2 = s := by
  obtain ⟨s, hs, hr⟩ := Refines.openDB_empty
  obtain ⟨hanswers, hend⟩ := hr.respondAll h
  refine ⟨⟨s, hs, hanswers, ?_, hend.inRange⟩, fun _ _ _ => respondMemory_failed,
    fun _ _ _ => respondBolt_failed⟩
  rw [Bolt.lastIndex, hend.last]
  exact hend.inRange

/-- Two entries, a snapshot of the first, and questions about both after a restart; then an append
that leaves a gap, another end of the log, and a snapshot beyond it. -/
def compactAndReopen : List Call :=
  [.appendEntries [{ term := 1, index := 1 }, { term := 1, index := 2 }],
    .saveSnapshot { lastIncludedIndex := 1, lastIncludedTerm := 1, config := { voters := [1] } },
    .compact 1, .reopen, .term 1, .getEntry 1, .entries 2 3, .appendEntries [{ term := 1, index := 5 }],
    .appendEntries [{ term := 2, index := 2, command := [7] }], .reopen, .entries 2 3,
    .saveSnapshot { lastIncludedIndex := 9, lastIncludedTerm := 2, config := { voters := [1] } },
    .firstIndex, .term 2]

theorem allAllowed_compactAndReopen : AllAllowed {} compactAndReopen := by
  refine ⟨?_, ⟨⟨by decide, by decide, ⟨by simp, by simp, by simp, by simp⟩⟩, by decide⟩, le_refl 1,
    trivial, le_refl 1, trivial, trivial, ?_, ?_, trivial, trivial,
    ⟨⟨by decide, by decide, ⟨by simp, by simp, by simp, by simp⟩⟩, by decide⟩, trivial,
    (by decide : 1 ≤ 2), trivial⟩
  · intro e he
    simp only [List.mem_cons, List.not_mem_nil, or_false] at he
    rcases he with rfl | rfl <;> exact ⟨⟨by decide, by decide⟩, by decide⟩
  all_goals
    intro e he
    rw [List.mem_singleton.mp he]
    exact ⟨⟨by decide, by decide⟩, by decide⟩

theorem bolt_refines_memory_compactAndReopen :
    ∃ s, Bolt.openDB {} = .ok s ∧
      (respondAll respondBolt s compactAndReopen).1 =
        [.done, .done, .done, .done, .number 1, .failed .compacted,
          .entries [{ term := 1, index := 2 }], .failed .other, .done, .done,
          .entries [{ term := 2, index := 2, command := [7] }], .done, .number 10,
          .failed .compacted] := by
  obtain ⟨⟨s, hs, hanswers, -⟩, -⟩ := bolt_refines_memory allAllowed_compactAndReopen
  refine ⟨s, hs, hanswers.trans ?_⟩
  decide +kernel

end RaftStore.Storage
