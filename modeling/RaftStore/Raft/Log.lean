import RaftStore.Raft.Storage

/-! The core's view of the replicated log: the storage, and the two indexes kept beside it. -/

namespace RaftStore.Raft

open Lib

structure RaftLog where
  storage : Disk := {}
  committed : ℕ := 0
  applied : ℕ := 0
  deriving DecidableEq, Repr

namespace RaftLog

/-- What is on disk. -/
abbrev mem (l : RaftLog) : MemoryStorage := l.storage.mem

def new (storage : Disk) : RaftLog :=
  let hs := storage.mem.hardState
  let snap := storage.mem.snapshot
  { storage
    committed :=
      if hs.commit > snap.lastIncludedIndex then min hs.commit storage.mem.lastIndex
      else snap.lastIncludedIndex
    applied := snap.lastIncludedIndex }

def firstIndex (l : RaftLog) : ℕ := l.mem.firstIndex
def lastIndex (l : RaftLog) : ℕ := l.mem.lastIndex

def term (l : RaftLog) (i : ℕ) : Except Error ℕ := if i = 0 then .ok 0 else l.mem.term i

def lastTerm (l : RaftLog) : Except Fail ℕ :=
  match l.term l.lastIndex with
  | .ok t => .ok t
  | .error e => .error (.panic s!"raft: term of last index {l.lastIndex} unavailable: {e.text}")

def matchTerm (l : RaftLog) (i t : ℕ) : Bool :=
  match l.term i with
  | .ok lt => lt = t
  | .error _ => false

def entries (l : RaftLog) (lo hi : ℕ) : Except Error (List LogEntry) :=
  if lo ≥ hi then .ok []
  else if hi > l.lastIndex + 1 then
    .error (Sentinel.unavailable.error.wrap
      s!"raft: entries({lo},{hi}) past last index {l.lastIndex}")
  else l.mem.entries lo hi

/-- The election restriction: a log that ends in `lastIdx` at `lastTerm` is at least as up to date
as this one. -/
def isUpToDate (l : RaftLog) (lastIdx lastTerm : ℕ) : Except Fail Bool :=
  match l.lastTerm with
  | .error e => .error e
  | .ok myTerm => .ok (if lastTerm ≠ myTerm then lastTerm > myTerm else lastIdx ≥ l.lastIndex)

/-- The first of the entries that the log does not hold, or 0. -/
def findConflict (l : RaftLog) : List LogEntry → ℕ
  | [] => 0
  | e :: ents => if !l.matchTerm e.index e.term then e.index else l.findConflict ents

/-- The walk back along a run of one term; `n` bounds its length. -/
def conflictStart (l : RaftLog) (term : ℕ) : ℕ → ℕ → ℕ
  | 0, idx => idx
  | n + 1, idx =>
    if idx > l.firstIndex then
      match l.term (idx - 1) with
      | .error _ => idx
      | .ok t => if t ≠ term then idx else l.conflictStart term n (idx - 1)
    else idx

/-- Where the log stops agreeing with a leader that sent entries after `prevIdx`. -/
def conflictHint (l : RaftLog) (prevIdx : ℕ) : ℕ × ℕ :=
  if prevIdx > l.lastIndex then (l.lastIndex + 1, 0)
  else
    match l.term prevIdx with
    | .error _ => (l.firstIndex, 0)
    | .ok term => (l.conflictStart term prevIdx prevIdx, term)

def hasEntriesToApply (l : RaftLog) : Bool := l.committed > l.applied

def entriesToApply (l : RaftLog) (maxEntries : ℕ) : Except Error (List LogEntry) :=
  if !l.hasEntriesToApply then .ok []
  else
    let lo := max (l.applied + 1) l.firstIndex
    let hi := l.committed + 1
    l.entries lo (if maxEntries > 0 ∧ hi - lo > maxEntries then lo + maxEntries else hi)

end RaftLog

/-- Programs on the log. -/
abbrev LogM := EStateM Fail RaftLog

namespace RaftLog

def onDisk (x : EStateM Fail Disk Unit) : LogM Unit :=
  onPart RaftLog.storage (fun d l => { l with storage := d }) x

/-- Writes entries to storage, overwriting any conflicting suffix. -/
def append (ents : List LogEntry) : LogM Unit :=
  match ents with
  | [] => pure ()
  | e :: rest => do
    let l ← get
    if e.index ≤ l.committed then
      throw (.error
        ⟨s!"raft: append at index {e.index} would overwrite committed index {l.committed}", []⟩)
    else onDisk (Disk.write (·.appendEntries (e :: rest)))

def commitTo (i : ℕ) : LogM Unit := do
  let l ← get
  if i ≤ l.committed then pure ()
  else if i > l.lastIndex then
    throw (.panic s!"raft: commit to {i} beyond last index {l.lastIndex}")
  else set { l with committed := i }

/-- The receiving half of an append: the index of the last new entry, or `none` when the log does
not hold `prevIdx` with term `prevTerm`. -/
def maybeAppend (prevIdx prevTerm leaderCommit : ℕ) (ents : List LogEntry) :
    LogM (Option ℕ) := do
  let l ← get
  if !l.matchTerm prevIdx prevTerm then pure none
  else do
    let lastNewIndex := prevIdx + ents.length
    let conflict := l.findConflict ents
    (if conflict = 0 then pure ()
      else if conflict ≤ l.committed then
        throw (.error (Sentinel.safetyViolation.error.wrap
          s!"raft: leader entry at index {conflict} conflicts with committed index {l.committed}"))
      else if conflict < prevIdx + 1 ∨ ents.length < conflict - prevIdx - 1 then
        -- The subtraction is of unsigned words: it wraps, and the slice is out of bounds.
        throw (.panic "runtime error: slice bounds out of range")
      else append (ents.drop (conflict - prevIdx - 1)))
    commitTo (min leaderCommit lastNewIndex)
    pure (some lastNewIndex)

def appliedTo (i : ℕ) : LogM Unit := do
  let l ← get
  if i = 0 ∨ i ≤ l.applied then pure ()
  else if i > l.committed then throw (.panic s!"raft: applied {i} beyond committed {l.committed}")
  else set { l with applied := i }

/-- Replaces the log by a snapshot. -/
def restore (snap : Snapshot) : LogM Unit := do
  let l ← get
  if snap.lastIncludedIndex ≤ l.committed then throw (.error Sentinel.snapshotOutOfDate.error)
  else do
    onDisk (Disk.write (·.saveSnapshot snap))
    modify fun l =>
      { l with committed := snap.lastIncludedIndex, applied := snap.lastIncludedIndex }

def compact (upto : ℕ) : LogM Unit := do
  let l ← get
  if upto > l.applied then
    throw (.error ⟨s!"raft: cannot compact to {upto} past applied index {l.applied}", []⟩)
  else onDisk (Disk.write (·.compact upto))

end RaftLog

/-! ### What holds of a log, and what the operations do to it -/

namespace RaftLog

structure OK (l : RaftLog) : Prop where
  inOrder : l.mem.InOrder
  base_le : l.mem.base.index ≤ l.mem.snapshot.lastIncludedIndex
  snap_le : l.mem.snapshot.lastIncludedIndex ≤ l.applied
  applied_le : l.applied ≤ l.committed
  committed_le : l.committed ≤ l.lastIndex

variable {l : RaftLog}

theorem OK.base_le_committed (h : l.OK) : l.mem.offset ≤ l.committed :=
  h.base_le.trans (h.snap_le.trans h.applied_le)

theorem term_ok {i : ℕ} (h1 : l.mem.offset ≤ i) (h2 : i ≤ l.lastIndex) : ∃ t, l.term i = .ok t := by
  unfold term
  split
  · exact ⟨0, rfl⟩
  · exact ⟨_, MemoryStorage.term_ok h1 h2⟩

theorem lastTerm_ok (l : RaftLog) : ∃ t, l.term l.lastIndex = .ok t ∧ l.lastTerm = .ok t := by
  obtain ⟨t, ht⟩ := term_ok (l := l) (i := l.lastIndex) (Nat.le_add_right _ _) le_rfl
  refine ⟨t, ht, ?_⟩
  rw [lastTerm, ht]

/-- What is to be applied next: the entries after the applied index, without a gap, and some of
them whenever there are any. -/
theorem entriesToApply_ok (hl : l.OK) (maxEntries : ℕ) :
    ∃ es, l.entriesToApply maxEntries = .ok es ∧ l.applied + es.length ≤ l.committed ∧
      (l.applied < l.committed → es ≠ []) ∧
      ∀ k e, es[k]? = some e →
        e.index = l.applied + 1 + k ∧ l.mem.getEntry (l.applied + 1 + k) = .ok e := by
  rw [entriesToApply, hasEntriesToApply]
  split
  · rename_i h
    have hle : ¬ l.applied < l.committed := by simpa using h
    have hap := hl.applied_le
    exact ⟨[], rfl, by simpa using hap, fun h => absurd h hle, fun k e hk => by simp at hk⟩
  · rename_i h
    have hlt : l.applied < l.committed := by simpa using h
    have hlo : max (l.applied + 1) l.firstIndex = l.applied + 1 := by
      have h1 := hl.base_le.trans hl.snap_le
      exact max_eq_left (Nat.succ_le_succ h1)
    have hcl := hl.committed_le
    simp only [hlo]
    generalize hhi : (if maxEntries > 0 ∧ l.committed + 1 - (l.applied + 1) > maxEntries then
      l.applied + 1 + maxEntries else l.committed + 1) = hi
    have hhi' : l.applied + 1 < hi ∧ hi ≤ l.committed + 1 := by
      rw [← hhi]
      split <;> omega
    have hfirst : l.mem.firstIndex ≤ l.applied + 1 := Nat.succ_le_succ (hl.base_le.trans hl.snap_le)
    have hlast : hi ≤ l.lastIndex + 1 := hhi'.2.trans (Nat.succ_le_succ hcl)
    obtain ⟨es, hes, hlen, hget⟩ := MemoryStorage.entries_eq_ok _ hi hfirst hlast hhi'.1
    refine ⟨es, ?_, by omega, fun _ hnil => ?_, fun k e hk => ?_⟩
    · rw [entries, if_neg (by omega), if_neg (not_lt.mpr hlast)]
      exact hes
    · rw [hnil, List.length_nil] at hlen
      omega
    · exact ⟨hl.inOrder.getEntry_index (hget k e hk), hget k e hk⟩

theorem matchTerm_eq {i t : ℕ} : l.matchTerm i t = true ↔ l.term i = .ok t := by
  unfold matchTerm
  split
  · rename_i lt h
    rw [h]
    simp
  · rename_i h
    rw [h]
    simp

theorem le_lastIndex_of_term {i t : ℕ} (h : l.term i = .ok t) : i ≤ l.lastIndex := by
  unfold term at h
  split at h
  · omega
  · exact (MemoryStorage.term_eq_ok h).2

/-- What the search for a conflict finds in entries that follow `prev`. -/
theorem findConflict_spec {prev : ℕ} {ents : List LogEntry} (hc : Contiguous (prev + 1) ents) :
    (l.findConflict ents = 0 ∧ ∀ e ∈ ents, l.matchTerm e.index e.term = true) ∨
      ∃ k, k < ents.length ∧ l.findConflict ents = prev + 1 + k ∧
        (∀ e ∈ ents.take k, l.matchTerm e.index e.term = true) ∧
        ∀ e, ents[k]? = some e → l.matchTerm e.index e.term = false := by
  induction ents generalizing prev with
  | nil => exact Or.inl ⟨rfl, by simp⟩
  | cons e ents ih =>
    have he : e.index = prev + 1 := hc 0 e rfl
    by_cases hm : l.matchTerm e.index e.term = true
    · rcases ih hc.tail with ⟨h0, hall⟩ | ⟨k, hk, hf, hall, hno⟩
      · refine Or.inl ⟨?_, ?_⟩
        · rw [findConflict, hm]
          simpa using h0
        · intro e' he'
          rcases List.mem_cons.mp he' with rfl | he'
          · exact hm
          · exact hall e' he'
      · refine Or.inr ⟨k + 1, by simpa using hk, ?_, ?_, ?_⟩
        · rw [findConflict, hm]
          simp only [Bool.not_true, Bool.false_eq_true, if_false]
          omega
        · intro e' he'
          rw [List.take_succ_cons] at he'
          rcases List.mem_cons.mp he' with rfl | he'
          · exact hm
          · exact hall e' he'
        · intro e' he'
          exact hno e' (by simpa using he')
    · refine Or.inr ⟨0, by simp, ?_, by simp, ?_⟩
      · rw [findConflict, Bool.eq_false_iff.mpr hm]
        simp [he]
      · intro e' he'
        simp only [List.getElem?_cons_zero, Option.some.injEq] at he'
        simpa [← he'] using hm

/-- The log after the entries of an append that follows `prev` were written: unchanged when it held
them all, or with the entries from the first conflict on in place of what it held there. -/
inductive Spliced (l : RaftLog) (prev : ℕ) (ents : List LogEntry) : RaftLog → Prop
  | same : (Contiguous (prev + 1) ents → l.findConflict ents = 0) → Spliced l prev ents l
  | wrote (k : ℕ) (e : LogEntry) (rest : List LogEntry) (faults : List Bool) :
      l.findConflict ents = prev + 1 + k → ents.drop k = e :: rest → l.committed < e.index →
      e.index ≤ l.lastIndex + 1 → Contiguous e.index (e :: rest) →
      Spliced l prev ents { l with storage := ⟨l.mem.splice e.index (e :: rest), faults⟩ }

section Meets

variable {α : Type} {Q : α → RaftLog → Prop} {F : Fail → RaftLog → Prop}

theorem meets_onDisk {f : MemoryStorage → Except Error MemoryStorage} {Q : Unit → RaftLog → Prop}
    (hok : ∀ mem faults, f l.mem = .ok mem → Q () { l with storage := ⟨mem, faults⟩ })
    (hf : ∀ e faults, F (.error e) { l with storage := ⟨l.mem, faults⟩ }) :
    Meets (onDisk (Disk.write f)) l Q F := by
  rw [onDisk, meets_onPart]
  exact Disk.meets_write hok fun e faults _ => hf e faults

theorem meets_append {ents : List LogEntry} {Q : Unit → RaftLog → Prop} (hl : l.OK)
    (hnil : ents = [] → Q () l)
    (hok : ∀ e rest faults, ents = e :: rest → l.committed < e.index → e.index ≤ l.lastIndex + 1 →
      Contiguous e.index (e :: rest) →
      Q () { l with storage := ⟨l.mem.splice e.index (e :: rest), faults⟩ })
    (hf : ∀ e faults, F (.error e) { l with storage := ⟨l.mem, faults⟩ }) :
    Meets (append ents) l Q F := by
  cases ents with
  | nil => exact hnil rfl
  | cons e rest =>
    rw [append, meets_bind, meets_get]
    split
    · exact hf _ l.storage.faults
    · rename_i hc
      refine meets_onDisk (fun mem faults h => ?_) hf
      have hoff := hl.base_le_committed
      obtain ⟨hcon, hle, rfl⟩ := MemoryStorage.appendEntries_ok (by omega) h
      exact hok e rest faults rfl (by omega) hle hcon

theorem meets_commitTo {i : ℕ} {Q : Unit → RaftLog → Prop}
    (hsame : i ≤ l.committed → Q () l)
    (hok : l.committed < i → i ≤ l.lastIndex → Q () { l with committed := i })
    (hf : ∀ text, l.committed < i → l.lastIndex < i → F (.panic text) l) :
    Meets (commitTo i) l Q F := by
  rw [commitTo, meets_bind, meets_get]
  split
  · rename_i h
    exact hsame h
  · split
    · exact hf _ (by omega) (by omega)
    · exact hok (by omega) (by omega)

theorem meets_maybeAppend {prev prevTerm leaderCommit : ℕ} {ents : List LogEntry}
    {Q : Option ℕ → RaftLog → Prop} (hl : l.OK)
    (hno : l.matchTerm prev prevTerm = false → Q none l)
    (hyes : ∀ l', l.matchTerm prev prevTerm = true → Spliced l prev ents l' →
      min leaderCommit (prev + ents.length) ≤ max l.committed l'.lastIndex →
      Q (some (prev + ents.length))
        { l' with committed := max l.committed (min leaderCommit (prev + ents.length)) })
    (hf : ∀ e faults, F e { l with storage := ⟨l.mem, faults⟩ })
    (hpanic : ∀ text l', l.matchTerm prev prevTerm = true → Spliced l prev ents l' →
      l'.lastIndex < min leaderCommit (prev + ents.length) → F (.panic text) l') :
    Meets (maybeAppend prev prevTerm leaderCommit ents) l Q F := by
  have hcommit : ∀ l', l.matchTerm prev prevTerm = true → Spliced l prev ents l' →
      l'.committed = l.committed →
      Meets (commitTo (min leaderCommit (prev + ents.length)) >>= fun _ =>
        pure (some (prev + ents.length))) l' Q F := by
    intro l' hm hs hc
    rw [meets_bind]
    refine meets_commitTo (fun h => ?_) (fun h1 h2 => ?_) fun _ _ hlt => hpanic _ _ hm hs hlt
    · have := hyes l' hm hs (by omega)
      rw [max_eq_left (by omega), ← hc] at this
      exact this
    · have := hyes l' hm hs (by omega)
      rw [max_eq_right (by omega)] at this
      exact this
  rw [maybeAppend, meets_bind, meets_get]
  split
  · rename_i h
    exact hno (by simpa using h)
  · rename_i h
    have hm : l.matchTerm prev prevTerm = true := by simpa using h
    rw [meets_bind]
    split
    · rename_i h0
      exact hcommit l hm (.same fun _ => h0) rfl
    · rename_i h0
      split
      · exact hf _ l.storage.faults
      · split
        · exact hf _ l.storage.faults
        · rename_i hlow hbound
          refine meets_append hl (fun hnil => ?_) (fun e rest faults hdrop h1 h2 hcon => ?_)
            fun _ _ => hf _ _
          · refine hcommit l hm (.same fun hc => ?_) rfl
            rcases findConflict_spec (l := l) hc with ⟨h0', _⟩ | ⟨k, hk, hfc, _⟩
            · exact absurd h0' h0
            · have := congrArg List.length hnil
              rw [List.length_drop, List.length_nil] at this
              omega
          · exact hcommit _ hm (.wrote _ e rest faults (by omega) hdrop h1 h2 hcon) rfl

theorem meets_restore {snap : Snapshot} {Q : Unit → RaftLog → Prop}
    (hok : ∀ mem faults, l.committed < snap.lastIncludedIndex → l.mem.saveSnapshot snap = .ok mem →
      Q () ⟨⟨mem, faults⟩, snap.lastIncludedIndex, snap.lastIncludedIndex⟩)
    (hf : ∀ e faults, F (.error e) { l with storage := ⟨l.mem, faults⟩ }) :
    Meets (restore snap) l Q F := by
  rw [restore, meets_bind, meets_get]
  split
  · exact hf _ l.storage.faults
  · rename_i h
    rw [meets_bind]
    exact meets_onDisk (fun mem faults hs => hok mem faults (by omega) hs) hf

theorem meets_compact {upto : ℕ} {Q : Unit → RaftLog → Prop}
    (hok : ∀ mem faults, upto ≤ l.applied → l.mem.compact upto = .ok mem →
      Q () { l with storage := ⟨mem, faults⟩ })
    (hf : ∀ e faults, F (.error e) { l with storage := ⟨l.mem, faults⟩ }) :
    Meets (compact upto) l Q F := by
  rw [compact, meets_bind, meets_get]
  split
  · exact hf _ l.storage.faults
  · rename_i h
    exact meets_onDisk (fun mem faults hs => hok mem faults (by omega) hs) hf

end Meets

/-! ### The operations keep the log in order -/

theorem OK.faulted (h : l.OK) (faults : List Bool) :
    OK { l with storage := ⟨l.mem, faults⟩ } :=
  ⟨h.inOrder, h.base_le, h.snap_le, h.applied_le, h.committed_le⟩

theorem OK.commit (h : l.OK) {i : ℕ} (h1 : l.committed ≤ i) (h2 : i ≤ l.lastIndex) :
    OK { l with committed := i } :=
  ⟨h.inOrder, h.base_le, h.snap_le, h.applied_le.trans h1, h2⟩

theorem OK.splice (h : l.OK) {e : LogEntry} {rest : List LogEntry} {faults : List Bool}
    (h1 : l.committed < e.index) (h2 : e.index ≤ l.lastIndex + 1)
    (hc : Contiguous e.index (e :: rest)) :
    OK { l with storage := ⟨l.mem.splice e.index (e :: rest), faults⟩ } where
  inOrder := h.inOrder.splice (h.base_le_committed.trans_lt h1) h2 hc
  base_le := h.base_le
  snap_le := h.snap_le
  applied_le := h.applied_le
  committed_le := by
    have hlast := MemoryStorage.splice_lastIndex (e :: rest) (h.base_le_committed.trans_lt h1) h2
    change l.committed ≤ (l.mem.splice e.index (e :: rest)).lastIndex
    rw [hlast, List.length_cons]
    omega

theorem splice_term_lt {m : MemoryStorage} {first i : ℕ} {entries : List LogEntry}
    (h1 : m.offset ≤ i) (h2 : i < first) (h3 : first ≤ m.lastIndex + 1) :
    (m.splice first entries).term i = m.term i := by
  have hlast := MemoryStorage.splice_lastIndex entries (h1.trans_lt h2) h3
  have hoff : m.lastIndex = m.offset + m.ents.length := rfl
  have hat : (m.splice first entries).at? (i - m.offset) = m.at? (i - m.offset) := by
    simp only [MemoryStorage.at?, MemoryStorage.splice]
    cases hk : i - m.offset with
    | zero => rfl
    | succ k =>
      rw [List.getElem?_cons_succ, List.getElem?_cons_succ, List.getElem?_append_left,
        List.getElem?_take, if_pos (by omega)]
      rw [List.length_take]
      omega
  rw [MemoryStorage.term_ok (m := m) h1 (by omega),
    MemoryStorage.term_ok (m := m.splice first entries) h1 (by omega)]
  exact congrArg (fun o => Except.ok ((Option.map LogEntry.term o).getD 0)) hat

theorem splice_term_entry {m : MemoryStorage} {first k : ℕ} {entries : List LogEntry} {e : LogEntry}
    (h1 : m.offset < first) (h3 : first ≤ m.lastIndex + 1) (he : entries[k]? = some e) :
    (m.splice first entries).term (first + k) = .ok e.term := by
  have hk : k < entries.length := (List.getElem?_eq_some_iff.mp he).1
  have hlast := MemoryStorage.splice_lastIndex entries h1 h3
  have hoff : m.lastIndex = m.offset + m.ents.length := rfl
  have hoff' : (m.splice first entries).offset = m.offset := rfl
  have hlen : (m.ents.take (first - m.offset - 1)).length = first - m.offset - 1 := by
    rw [List.length_take]; omega
  have hat : (m.splice first entries).at? (first + k - m.offset) = some e := by
    simp only [MemoryStorage.at?, MemoryStorage.splice]
    rw [show first + k - m.offset = (first - m.offset - 1 + k) + 1 by omega,
      List.getElem?_cons_succ, List.getElem?_append_right (by omega), hlen]
    simpa using he
  rw [MemoryStorage.term_ok (by omega) (by omega), hoff', hat]
  rfl

/-- After an append that matched, the log holds all of its entries. -/
theorem Spliced.holds {prev prevTerm : ℕ} {ents : List LogEntry} {l' : RaftLog}
    (hs : Spliced l prev ents l') (h : l.OK) (hc : Contiguous (prev + 1) ents)
    (hp : l.committed ≤ prev) (hm : l.matchTerm prev prevTerm = true) :
    l'.matchTerm prev prevTerm = true ∧ ∀ e ∈ ents, l'.matchTerm e.index e.term = true := by
  cases hs with
  | same hsame =>
    rcases findConflict_spec (l := l) hc with ⟨_, hall⟩ | ⟨k, _, hf, _⟩
    · exact ⟨hm, hall⟩
    · rw [hsame hc] at hf
      omega
  | wrote k e rest faults hf hd h1 h2 hcon =>
    have hoff := h.base_le_committed
    obtain ⟨k', hk', hf', hall, _⟩ | hno := (findConflict_spec (l := l) hc).symm
    · obtain rfl : k' = k := by omega
      have he : ents[k']? = some e := by
        have := congrArg (·[0]?) hd
        simpa using this
      have hidx : e.index = prev + 1 + k' := hc k' e he
      have hlt : ∀ i t, l.mem.offset ≤ i → i < e.index → l.matchTerm i t = true →
          matchTerm { l with storage := ⟨l.mem.splice e.index (e :: rest), faults⟩ } i t = true := by
        intro i t hi hi' ht
        rw [matchTerm_eq, term] at ht ⊢
        split at ht
        · rename_i h0
          rw [if_pos h0]
          exact ht
        · rename_i h0
          rw [if_neg h0]
          exact (splice_term_lt hi hi' h2).trans ht
      refine ⟨hlt prev prevTerm (by omega) (by omega) hm, fun a ha => ?_⟩
      obtain ⟨j, hj⟩ := List.mem_iff_getElem?.mp ha
      have haidx := hc j a hj
      rcases lt_or_ge j k' with hjk | hjk
      · refine hlt a.index a.term (by omega) (by omega) (hall a ?_)
        refine List.mem_iff_getElem?.mpr ⟨j, ?_⟩
        rw [List.getElem?_take, if_pos hjk]
        exact hj
      · have hja : (e :: rest)[j - k']? = some a := by
          rw [← hd, List.getElem?_drop, Nat.add_sub_cancel' hjk]
          exact hj
        rw [matchTerm_eq, term, if_neg (by omega)]
        have := splice_term_entry (m := l.mem) (hoff.trans_lt h1) h2 hja
        rwa [show e.index + (j - k') = a.index by omega] at this
    · rw [hno.1] at hf
      omega

theorem Spliced.ok {prev : ℕ} {ents : List LogEntry} {l' : RaftLog} (hs : Spliced l prev ents l')
    (h : l.OK) : l'.OK := by
  cases hs with
  | same _ => exact h
  | wrote k e rest faults _ _ h1 h2 hc => exact h.splice h1 h2 hc

theorem saveSnapshot_ok {m m' : MemoryStorage} {snap : Snapshot}
    (h : m.saveSnapshot snap = .ok m') :
    m.snapshot.lastIncludedIndex < snap.lastIncludedIndex ∧ m'.hardState = m.hardState ∧
      m'.snapshot = snap ∧
      (snap.lastIncludedIndex ≤ m.lastIndex ∧
          (m.at? (snap.lastIncludedIndex - m.offset)).map LogEntry.term =
            some snap.lastIncludedTerm ∧ m'.base = m.base ∧ m'.ents = m.ents ∨
        ¬(snap.lastIncludedIndex ≤ m.lastIndex ∧
            (m.at? (snap.lastIncludedIndex - m.offset)).map LogEntry.term =
              some snap.lastIncludedTerm) ∧
          m'.base = { index := snap.lastIncludedIndex, term := snap.lastIncludedTerm } ∧
          m'.ents = []) := by
  rw [MemoryStorage.saveSnapshot] at h
  split at h
  · cases h
  · rename_i hlt
    split at h
    · rename_i hkeep
      simp only [Bool.and_eq_true, decide_eq_true_eq] at hkeep
      cases h
      exact ⟨by omega, rfl, rfl, Or.inl ⟨hkeep.1, hkeep.2, rfl, rfl⟩⟩
    · rename_i hkeep
      simp only [Bool.and_eq_true, decide_eq_true_eq] at hkeep
      cases h
      exact ⟨by omega, rfl, rfl, Or.inr ⟨hkeep, rfl, rfl⟩⟩

theorem OK.restore (h : l.OK) {snap : Snapshot} {mem : MemoryStorage} (faults : List Bool)
    (hs : l.mem.saveSnapshot snap = .ok mem) :
    OK ⟨⟨mem, faults⟩, snap.lastIncludedIndex, snap.lastIncludedIndex⟩ := by
  obtain ⟨hlt, _, hsnap, ⟨hle, _, hb, he⟩ | ⟨_, hb, he⟩⟩ := saveSnapshot_ok hs
  · refine ⟨?_, ?_, ?_, le_rfl, ?_⟩
    · change Contiguous (mem.base.index + 1) mem.ents
      rw [hb, he]
      exact h.inOrder
    · change mem.base.index ≤ mem.snapshot.lastIncludedIndex
      rw [hb, hsnap]
      exact h.base_le.trans hlt.le
    · change mem.snapshot.lastIncludedIndex ≤ _
      rw [hsnap]
    · change _ ≤ mem.base.index + mem.ents.length
      rw [hb, he]
      exact hle
  · refine ⟨?_, ?_, ?_, le_rfl, ?_⟩
    · change Contiguous (mem.base.index + 1) mem.ents
      rw [he]
      exact .nil _
    · change mem.base.index ≤ mem.snapshot.lastIncludedIndex
      rw [hb, hsnap]
    · change mem.snapshot.lastIncludedIndex ≤ _
      rw [hsnap]
    · change _ ≤ mem.base.index + mem.ents.length
      rw [hb]
      exact Nat.le_add_right _ _

theorem at?_of_term {i t : ℕ} (h0 : i ≠ 0) (h : l.term i = .ok t) :
    l.mem.offset ≤ i ∧ i ≤ l.lastIndex ∧
      (l.mem.at? (i - l.mem.offset)).map LogEntry.term = some t := by
  rw [term, if_neg h0] at h
  obtain ⟨h1, h2⟩ := MemoryStorage.term_eq_ok h
  refine ⟨h1, h2, ?_⟩
  rw [MemoryStorage.term_ok h1 h2] at h
  have hlt : i - l.mem.offset < (l.mem.base :: l.mem.ents).length := by
    simp only [MemoryStorage.lastIndex, List.length_cons] at *
    omega
  rw [MemoryStorage.at?, List.getElem?_eq_getElem hlt] at h ⊢
  cases h
  rfl

/-- A snapshot of the node's own log leaves the log as it is. -/
theorem saveSnapshot_own {snap : Snapshot} {m : MemoryStorage} (h0 : snap.lastIncludedIndex ≠ 0)
    (ht : l.term snap.lastIncludedIndex = .ok snap.lastIncludedTerm)
    (hs : l.mem.saveSnapshot snap = .ok m) :
    m.base = l.mem.base ∧ m.ents = l.mem.ents := by
  obtain ⟨_, hle, hat⟩ := at?_of_term h0 ht
  rw [MemoryStorage.saveSnapshot] at hs
  split at hs
  · cases hs
  · have hle' : snap.lastIncludedIndex ≤ l.mem.lastIndex := hle
    rw [if_pos (by simpa [hat] using hle')] at hs
    cases hs
    exact ⟨rfl, rfl⟩

theorem OK.compact (h : l.OK) {upto : ℕ} {mem : MemoryStorage} {faults : List Bool}
    (hu : upto ≤ l.mem.snapshot.lastIncludedIndex) (hc : l.mem.compact upto = .ok mem) :
    OK { l with storage := ⟨mem, faults⟩ } := by
  have hlast := MemoryStorage.compact_lastIndex h.inOrder hc
  refine ⟨MemoryStorage.compact_inOrder h.inOrder hc, ?_, ?_, h.applied_le, ?_⟩
  · change mem.base.index ≤ mem.snapshot.lastIncludedIndex
    rcases MemoryStorage.compact_ok h.inOrder hc with ⟨-, rfl⟩ | ⟨_, _, _, hs, hb, _⟩
    · exact h.base_le
    · rw [hs, hb]
      exact hu
  · change mem.snapshot.lastIncludedIndex ≤ l.applied
    rcases MemoryStorage.compact_ok h.inOrder hc with ⟨-, rfl⟩ | ⟨_, _, _, hs, _⟩
    · exact h.snap_le
    · rw [hs]
      exact h.snap_le
  · change l.committed ≤ mem.lastIndex
    rw [hlast]
    exact h.committed_le

/-- A log that a node is started with is in order when the storage is. -/
theorem OK.new {d : Disk} (h1 : d.mem.InOrder)
    (h2 : d.mem.base.index ≤ d.mem.snapshot.lastIncludedIndex)
    (h3 : d.mem.snapshot.lastIncludedIndex ≤ d.mem.lastIndex) : (RaftLog.new d).OK := by
  refine ⟨h1, h2, le_rfl, ?_, ?_⟩
  · change d.mem.snapshot.lastIncludedIndex ≤ if _ then _ else _
    split
    · rename_i h
      exact le_min h.le h3
    · exact le_rfl
  · change (if _ then _ else _) ≤ d.mem.lastIndex
    split
    · exact min_le_right _ _
    · exact h3

end RaftLog

end RaftStore.Raft
