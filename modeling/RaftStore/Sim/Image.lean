import RaftStore.Lib.Uvarint
import RaftStore.Lib.Prog
import RaftStore.Raft.Types

/-! The simulated state machine is the list of the entries it was given.  Its image holds their
indexes, terms and commands; what kind of entry each was is not written. -/

namespace RaftStore.Sim

open Lib Raft

def appendEntry (buf : List UInt8) (e : LogEntry) : List UInt8 :=
  let buf := appendUvarint buf (UInt64.ofNat e.index)
  let buf := appendUvarint buf (UInt64.ofNat e.term)
  let buf := appendUvarint buf (UInt64.ofNat e.command.length)
  buf ++ e.command

def stateMachineImage (applied : List LogEntry) : List UInt8 :=
  applied.foldl appendEntry (appendUvarint [] (UInt64.ofNat applied.length))

/-- One entry and the bytes after it. -/
def decodeEntry (b : List UInt8) : Except String (LogEntry × List UInt8) :=
  match uvarint b with
  | none => .error "truncated entry index"
  | some (index, b) =>
    match uvarint b with
    | none => .error "truncated entry term"
    | some (term, b) =>
      match uvarint b with
      | none => .error "truncated entry command"
      | some (size, b) =>
        if b.length < size.toNat then .error "truncated entry command"
        else .ok ({ index := index.toNat, term := term.toNat, command := b.take size.toNat },
          b.drop size.toNat)

def decodeEntries : ℕ → List UInt8 → Except String (List LogEntry)
  | 0, _ => .ok []
  | count + 1, b =>
    match decodeEntry b with
    | .error e => .error e
    | .ok (e, b) =>
      match decodeEntries count b with
      | .error e => .error e
      | .ok es => .ok (e :: es)

/-- The source makes room for `count` entries before it reads the first one, and panics where the
runtime refuses it; that panic is not modelled. -/
def decodeStateMachine (b : List UInt8) : Except String (List LogEntry) :=
  match uvarint b with
  | none => .error "truncated snapshot header"
  | some (count, b) => decodeEntries count.toNat b

/-- What is left of an entry in an image. -/
def strip (e : LogEntry) : LogEntry := { e with type := .normal }

/-- The entry can be written in words of 64 bits. -/
def EntryFits (e : LogEntry) : Prop :=
  e.index < 2 ^ 64 ∧ e.term < 2 ^ 64 ∧ e.command.length < 2 ^ 64

/-- The history can be written in words of 64 bits. -/
structure Fits (applied : List LogEntry) : Prop where
  length : applied.length < 2 ^ 64
  entries : ∀ e ∈ applied, EntryFits e

instance (applied : List LogEntry) : Decidable (Fits applied) :=
  decidable_of_iff (applied.length < 2 ^ 64 ∧
      ∀ e ∈ applied, e.index < 2 ^ 64 ∧ e.term < 2 ^ 64 ∧ e.command.length < 2 ^ 64)
    ⟨fun h => ⟨h.1, h.2⟩, fun h => ⟨h.length, h.entries⟩⟩

theorem appendEntry_eq (buf : List UInt8) (e : LogEntry) :
    appendEntry buf e = buf ++ appendEntry [] e := by
  simp only [appendEntry]
  rw [appendUvarint_eq, appendUvarint_eq (appendUvarint buf _), appendUvarint_eq buf,
    appendUvarint_eq (appendUvarint (appendUvarint [] _) _), appendUvarint_eq (appendUvarint [] _)]
  simp only [List.append_assoc]

theorem foldl_appendEntry (buf : List UInt8) (es : List LogEntry) :
    es.foldl appendEntry buf = buf ++ es.flatMap (appendEntry []) := by
  induction es generalizing buf with
  | nil => simp
  | cons e es ih => rw [List.foldl_cons, ih, appendEntry_eq, List.flatMap_cons, List.append_assoc]

/-- What `decodeEntry` makes of the bytes after the term. -/
def commandAfter (index term : UInt64) (b : List UInt8) : Option (LogEntry × List UInt8) :=
  (uvarint b).bind fun n =>
    (if n.2.length < n.1.toNat then none else some (n.2.take n.1.toNat, n.2.drop n.1.toNat)).map
      fun c => ({ index := index.toNat, term := term.toNat, command := c.1 }, c.2)

theorem toOption_decodeEntry (b : List UInt8) :
    (decodeEntry b).toOption = (uvarint b).bind fun i => (uvarint i.2).bind fun t =>
      commandAfter i.1 t.1 t.2 := by
  rw [decodeEntry]
  cases uvarint b with
  | none => rfl
  | some i =>
    dsimp only [Option.bind_some]
    cases uvarint i.2 with
    | none => rfl
    | some t =>
      dsimp only [Option.bind_some, commandAfter]
      cases uvarint t.2 with
      | none => rfl
      | some n =>
        dsimp only [Option.bind_some]
        split <;> rfl

/-- An entry says where it ends. -/
theorem entry_delimited {e : LogEntry} (h : EntryFits e) :
    Delimited (fun b => (decodeEntry b).toOption) (appendEntry [] e) fun rest => (strip e, rest) := by
  obtain ⟨hi, ht, hc⟩ := h
  have hpiece : appendEntry [] e = appendUvarint [] (UInt64.ofNat e.index) ++
      (appendUvarint [] (UInt64.ofNat e.term) ++
        (appendUvarint [] (UInt64.ofNat e.command.length) ++ e.command)) := by
    simp only [appendEntry]
    rw [appendUvarint_eq (appendUvarint (appendUvarint [] _) _), appendUvarint_eq (appendUvarint [] _)]
    simp only [List.append_assoc]
  have hcommand : Delimited (commandAfter (UInt64.ofNat e.index) (UInt64.ofNat e.term))
      (appendUvarint [] (UInt64.ofNat e.command.length) ++ e.command)
      fun rest => (strip e, rest) := by
    refine (uvarint_delimited _).bind (fun n b =>
      (if b.length < n.toNat then none else some (b.take n.toNat, b.drop n.toNat)).map _) ?_
    rw [UInt64.toNat_ofNat_of_lt' hi, UInt64.toNat_ofNat_of_lt' ht, UInt64.toNat_ofNat_of_lt' hc]
    exact (Delimited.take rfl).map _
  rw [hpiece]
  refine Delimited.congr ?_ toOption_decodeEntry
  refine (uvarint_delimited _).bind
    (fun i b => (uvarint b).bind fun t => commandAfter i t.1 t.2) ?_
  exact (uvarint_delimited _).bind (commandAfter (UInt64.ofNat e.index)) hcommand

theorem toOption_decodeEntries_succ (count : ℕ) (b : List UInt8) :
    (decodeEntries (count + 1) b).toOption = (decodeEntry b).toOption.bind fun x =>
      (decodeEntries count x.2).toOption.map (x.1 :: ·) := by
  rw [decodeEntries]
  cases decodeEntry b with
  | error e => rfl
  | ok x =>
    dsimp only [Except.toOption, Option.bind_some]
    cases decodeEntries count x.2 <;> rfl

theorem entries_delimited {es : List LogEntry} (h : ∀ e ∈ es, EntryFits e) :
    Delimited (fun b => (decodeEntries es.length b).toOption) (es.flatMap (appendEntry []))
      fun _ => es.map strip := by
  induction es with
  | nil => exact .nil _
  | cons e es ih =>
    rw [List.flatMap_cons]
    refine ((entry_delimited (h e List.mem_cons_self)).bind
      (fun x b => (decodeEntries es.length b).toOption.map (x :: ·)) ?_).congr
        (toOption_decodeEntries_succ es.length)
    exact (ih fun x hx => h x (List.mem_cons_of_mem e hx)).map _

theorem image_delimited {es : List LogEntry} (h : Fits es) :
    Delimited (fun b => (decodeStateMachine b).toOption) (stateMachineImage es)
      fun _ => es.map strip := by
  rw [stateMachineImage, foldl_appendEntry]
  refine ((uvarint_delimited _).bind (fun count b => (decodeEntries count.toNat b).toOption)
    ?_).congr fun b => ?_
  · rw [UInt64.toNat_ofNat_of_lt' h.length]
    exact entries_delimited h.entries
  · rw [decodeStateMachine]
    cases uvarint b <;> rfl

/-- The kinds of the entries are not in the image. -/
theorem stateMachineImage_strip (es : List LogEntry) :
    stateMachineImage (es.map strip) = stateMachineImage es := by
  rw [stateMachineImage, stateMachineImage, List.foldl_map, List.length_map]
  rfl

/-- An image reads back as the history it was made of, but for the kinds of the entries. -/
theorem decode_stateMachineImage {es : List LogEntry} (h : Fits es) :
    decodeStateMachine (stateMachineImage es) = .ok (es.map strip) :=
  eq_ok_of_toOption (image_delimited h).exact

/-- The image of a history reads back as it, whatever follows in the bytes; a cut image is refused; and
histories with one image hold the same indexes, terms and commands. -/
theorem image_survives {es es' : List LogEntry} (h : Fits es) (h' : Fits es') :
    (∀ rest, decodeStateMachine (stateMachineImage es ++ rest) = .ok (es.map strip)) ∧
      (∀ cut, cut <+: stateMachineImage es → cut ≠ stateMachineImage es →
        ∃ err, decodeStateMachine cut = .error err) ∧
      (stateMachineImage es = stateMachineImage es' ↔ es.map strip = es'.map strip) := by
  refine ⟨fun rest => eq_ok_of_toOption ((image_delimited h).whole rest), fun cut hcut hne =>
    exists_error_of_toOption ((image_delimited h).cut cut hcut hne), fun heq => ?_, fun heq => ?_⟩
  · exact ((image_delimited h).eq_of_begins (image_delimited h') (heq ▸ List.prefix_refl _)).2
  · rw [← stateMachineImage_strip es, heq, stateMachineImage_strip]

/-- A history of three entries. -/
def threeApplied : List LogEntry :=
  [{ index := 1, term := 1, type := .noOp }, { index := 2, term := 1, command := [7, 8] },
   { index := 3, term := 300, command := [9] }]

/-- Its image reads back before other bytes, is refused without its last byte, and is the image of the
same history without the kinds. -/
theorem image_survives_three :
    decodeStateMachine (stateMachineImage threeApplied ++ [5, 5]) = .ok (threeApplied.map strip) ∧
      (∃ err, decodeStateMachine (stateMachineImage threeApplied).dropLast = .error err) ∧
      threeApplied ≠ threeApplied.map strip ∧
      stateMachineImage threeApplied = stateMachineImage (threeApplied.map strip) := by
  have hfits : Fits threeApplied := by decide +kernel
  have hfits' : Fits (threeApplied.map strip) := by decide +kernel
  obtain ⟨hwhole, hcut, hsame⟩ := image_survives hfits hfits'
  exact ⟨hwhole [5, 5], hcut _ (List.dropLast_prefix _) (by decide +kernel), by decide +kernel,
    hsame.mpr rfl⟩

end RaftStore.Sim
