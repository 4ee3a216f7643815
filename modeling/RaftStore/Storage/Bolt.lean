import RaftStore.Raft.Storage
import RaftStore.Storage.Codec
import RaftStore.Lib.BigEndian

/-! The storage on disk: a database file of two buckets, and in memory the bounds and the hard state
that are read on every operation.  A transaction either writes all of its changes or none. -/

namespace RaftStore.Storage

open Lib Raft Codec

/-- A key of the log bucket. -/
def encodeIndex (i : ℕ) : List UInt8 := putBigEndian 8 i

def decodeIndex (k : List UInt8) : ℕ := bigEndian k

def encodeFloor (index term : ℕ) : List UInt8 :=
  appendUvarint (appendUvarint [] (UInt64.ofNat index)) (UInt64.ofNat term)

def decodeFloor (b : List UInt8) : Except Error (ℕ × ℕ) :=
  match uvarint b with
  | none => .error ⟨"storage: truncated log floor index", []⟩
  | some (index, b) =>
    match uvarint b with
    | none => .error ⟨"storage: truncated log floor term", []⟩
    | some (term, _) => .ok (index.toNat, term.toNat)

/-- A bucket keeps its keys in the order of their bytes. -/
abbrev Bucket := Std.ExtTreeMap (List UInt8) PbLogEntry

/-- What a cursor visits from a key on. -/
def Bucket.seek (b : Bucket) (k : List UInt8) : List (List UInt8 × PbLogEntry) :=
  b.toList.dropWhile fun p => compare p.1 k = .lt

/-- Deletes the pairs that a cursor visits. -/
def Bucket.delete (b : Bucket) (visited : List (List UInt8 × PbLogEntry)) : Bucket :=
  visited.foldl (fun b p => b.erase p.1) b

/-- The database file: the log bucket, and the three keys of the meta bucket. -/
structure DB where
  log : Bucket := ∅
  hard : Option (List UInt8) := none
  snap : Option PbSnapshot := none
  floor : Option (List UInt8) := none

namespace DB

def readHardState (db : DB) : Except Error HardState :=
  match db.hard with
  | none => .ok {}
  | some raw => unmarshalHardState raw

def readSnapshot (db : DB) : Snapshot :=
  match db.snap with
  | none => {}
  | some raw => snapshotFromProto raw

def readFloor (db : DB) : Except Error (ℕ × ℕ) :=
  match db.floor with
  | none => .ok (0, 0)
  | some raw => decodeFloor raw

end DB

structure Bolt where
  db : DB
  first : ℕ
  last : ℕ
  snapIndex : ℕ
  snapTerm : ℕ
  floorIndex : ℕ
  floorTerm : ℕ
  hardState : HardState

namespace Bolt

/-- The source's `Open` and `init` on a file that is there or was just created. -/
def openDB (db : DB) : Except Error Bolt :=
  match db.readHardState with
  | .error e => .error e
  | .ok hardState =>
    let snap := db.readSnapshot
    match db.readFloor with
    | .error e => .error e
    | .ok (floorIndex, floorTerm) =>
      .ok { db, hardState, floorIndex, floorTerm
            snapIndex := snap.lastIncludedIndex
            snapTerm := snap.lastIncludedTerm
            last := (db.log.toList.getLast?.map fun p => decodeIndex p.1).getD floorIndex
            first := (db.log.toList.head?.map fun p => decodeIndex p.1).getD (floorIndex + 1) }

def setHardState (s : Bolt) (hs : HardState) : Except Error Bolt :=
  if hs.term < s.hardState.term then
    .error ⟨s!"storage: hard state term {hs.term} is below persisted term {s.hardState.term}", []⟩
  else .ok { s with db := { s.db with hard := some (marshalHardState hs) }, hardState := hs }

def firstIndex (s : Bolt) : ℕ := s.first

def lastIndex (s : Bolt) : ℕ := s.last

def getEntry (s : Bolt) (i : ℕ) : Except Error LogEntry :=
  if i < s.first then
    .error (Sentinel.compacted.error.wrap s!"storage: entry at {i}, first available {s.first}")
  else if i > s.last then
    .error (Sentinel.unavailable.error.wrap s!"storage: entry at {i}, last index {s.last}")
  else
    match s.db.log[encodeIndex i]? with
    | none =>
      .error (Sentinel.unavailable.error.wrap
        s!"storage: index {i} is within [{s.first},{s.last}] but absent")
    | some raw => .ok (entryFromProto raw)

def term (s : Bolt) (i : ℕ) : Except Error ℕ :=
  if i = s.floorIndex ∧ s.floorIndex > 0 then .ok s.floorTerm
  else
    match s.getEntry i with
    | .error e => .error e
    | .ok entry => .ok entry.term

def entries (s : Bolt) (lo hi : ℕ) : Except Error (List LogEntry) :=
  if lo ≥ hi then .ok []
  else if lo < s.first then
    .error (Sentinel.compacted.error.wrap
      s!"storage: entries from {lo}, first available {s.first}")
  else if hi > s.last + 1 then
    .error (Sentinel.unavailable.error.wrap
      s!"storage: entries to {hi - 1}, last index {s.last}")
  else
    .ok (((s.db.log.seek (encodeIndex lo)).takeWhile fun p => decodeIndex p.1 < hi).map
      fun p => entryFromProto p.2)

/-- The check that both stores make, each in its own copy. -/
def checkContiguous : List LogEntry → Except Error Unit := MemoryStorage.checkContiguous

def appendEntries (s : Bolt) (entries : List LogEntry) : Except Error Bolt :=
  match entries with
  | [] => .ok s
  | e :: rest =>
    match checkContiguous (e :: rest) with
    | .error err => .error err
    | .ok () =>
      let lastNew := ((e :: rest).getLast (List.cons_ne_nil e rest)).index
      if lastNew ≤ s.floorIndex then .ok s
      else
        let entries := if e.index ≤ s.floorIndex then (e :: rest).drop (s.floorIndex + 1 - e.index)
          else e :: rest
        let firstNew := (entries.head?.map LogEntry.index).getD 0
        if firstNew > s.last + 1 then
          .error ⟨s!"storage: append at {firstNew} leaves a gap after last index {s.last}", []⟩
        else
          let log := s.db.log.delete (s.db.log.seek (encodeIndex firstNew))
          let log := entries.foldl (fun b e => b.insert (encodeIndex e.index) (entryToProto e)) log
          .ok { s with db := { s.db with log }
                       last := lastNew
                       first := if s.first > lastNew then s.floorIndex + 1 else s.first }

/-- The snapshot runs past the log, or disagrees with it at the boundary. -/
def replaceLog (s : Bolt) (snap : Snapshot) : Bool :=
  snap.lastIncludedIndex > s.last ||
    match s.term snap.lastIncludedIndex with
    | .error _ => true
    | .ok term => term != snap.lastIncludedTerm

def saveSnapshot (s : Bolt) (snap : Snapshot) : Except Error Bolt :=
  if snap.lastIncludedIndex ≤ s.snapIndex then
    .error (Sentinel.snapshotOutOfDate.error.wrap
      s!"storage: snapshot at {snap.lastIncludedIndex}, already have {s.snapIndex}")
  else
    let replaceLog := s.replaceLog snap
    let s := { s with db := { s.db with snap := some (snapshotToProto snap) }
                      snapIndex := snap.lastIncludedIndex
                      snapTerm := snap.lastIncludedTerm }
    if !replaceLog then .ok s
    else
      .ok { s with
        db := { s.db with
          floor := some (encodeFloor snap.lastIncludedIndex snap.lastIncludedTerm), log := ∅ }
        floorIndex := snap.lastIncludedIndex
        floorTerm := snap.lastIncludedTerm
        last := snap.lastIncludedIndex
        first := snap.lastIncludedIndex + 1 }

def loadSnapshot (s : Bolt) : Snapshot := s.db.readSnapshot

def initialState (s : Bolt) : HardState × Snapshot := (s.hardState, s.loadSnapshot)

def compact (s : Bolt) (upto : ℕ) : Except Error Bolt :=
  if upto ≤ s.floorIndex then .ok s
  else if upto > s.last then
    .error ⟨s!"storage: compact to {upto} past last index {s.last}", []⟩
  else
    match s.term upto with
    | .error e => .error (e.wrap s!"storage: reading term at compaction boundary {upto}")
    | .ok term =>
      let log := s.db.log.delete (s.db.log.toList.takeWhile fun p => decodeIndex p.1 ≤ upto)
      .ok { s with db := { s.db with floor := some (encodeFloor upto term), log }
                   floorIndex := upto
                   floorTerm := term
                   first := upto + 1 }

end Bolt

/-! ### What is written in numbers -/

/-- The bytes of a floor say where it ends. -/
theorem floor_delimited {index term : ℕ} (hi : index < 2 ^ 64) (ht : term < 2 ^ 64) :
    Delimited (fun b => (decodeFloor b).toOption) (encodeFloor index term)
      fun _ => (index, term) := by
  have hindex := UInt64.toNat_ofNat_of_lt' hi
  have hterm := UInt64.toNat_ofNat_of_lt' ht
  rw [encodeFloor, appendUvarint_eq _ (UInt64.ofNat term)]
  refine ((uvarint_delimited (UInt64.ofNat index)).bind (fun i b =>
    (uvarint b).map fun y => (i.toNat, y.1.toNat)) ?_).congr fun b => ?_
  · have hlast := (uvarint_delimited (UInt64.ofNat term)).map fun y =>
      ((UInt64.ofNat index).toNat, y.1.toNat)
    simp only [hindex, hterm] at hlast ⊢
    exact hlast
  · rw [decodeFloor]
    cases uvarint b with
    | none => rfl
    | some x =>
      obtain ⟨i, b⟩ := x
      dsimp only [Option.bind_some]
      cases uvarint b <;> rfl

theorem decodeFloor_encode {index term : ℕ} (hi : index < 2 ^ 64) (ht : term < 2 ^ 64) :
    decodeFloor (encodeFloor index term) = .ok (index, term) :=
  eq_ok_of_toOption (floor_delimited hi ht).exact

/-- The hard state and the floor come back from the disk as they were written, whatever words they
hold, and not at all when their bytes are cut. -/
theorem durable_words_survive_disk (term vote commit index floorTerm : UInt64) :
    let hs : HardState := { term := term.toNat, vote, commit := commit.toNat }
    let floor := encodeFloor index.toNat floorTerm.toNat
    unmarshalHardState (marshalHardState hs) = .ok hs ∧
      (∀ start, start <+: marshalHardState hs → start ≠ marshalHardState hs →
        ∃ e, unmarshalHardState start = .error e) ∧
      decodeFloor floor = .ok (index.toNat, floorTerm.toNat) ∧
      ∀ start, start <+: floor → start ≠ floor → ∃ e, decodeFloor start = .error e := by
  intro hs floor
  have hhard := @hardState_delimited hs ⟨term.toNat_lt, commit.toNat_lt⟩
  have hfloor := floor_delimited index.toNat_lt floorTerm.toNat_lt
  refine ⟨eq_ok_of_toOption hhard.exact, fun start hstart hne => ?_,
    eq_ok_of_toOption hfloor.exact, fun start hstart hne => ?_⟩
  · exact exists_error_of_toOption (hhard.cut start hstart hne)
  · exact exists_error_of_toOption (hfloor.cut start hstart hne)

end RaftStore.Storage
