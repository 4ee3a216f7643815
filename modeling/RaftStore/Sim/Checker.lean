import RaftStore.Raft.Node

/-! The simulator's safety checker.  It looks at the live nodes of a cluster after every event, keeps
what it has seen committed, and at the end of a run compares the logs pairwise.  The hash of a command
is a parameter: SHA-256 is only compared. -/

namespace RaftStore.Sim

open Lib Raft

/-- The properties checked. -/
inductive Property
  | electionSafety
  | committedStable
  | logMatching
  | commitMonotonic
  | appliedFollowing
  deriving DecidableEq, Repr

/-- A breach of a property, at a time of the run. -/
structure Violation where
  property : Property
  detail : String
  seed : ℤ
  time : ℤ
  deriving DecidableEq, Repr

/-- What some node reported committed at an index. -/
structure CommittedEntry where
  term : ℕ
  digest : List UInt8
  node : NodeID
  time : ℤ
  command : List UInt8
  deriving DecidableEq, Repr

/-- `checkedTo` is how far each node's committed entries have been looked at. -/
structure Checker where
  seed : ℤ := 0
  leaderPerTerm : ℕ → Option NodeID := fun _ => none
  committed : ℕ → Option CommittedEntry := fun _ => none
  checkedTo : NodeID → ℕ := fun _ => 0
  lastCommit : NodeID → Option ℕ := fun _ => none
  violations : List Violation := []

/-- A member of the simulated cluster: its disk, and its process unless it is down. -/
structure Node where
  storage : MemoryStorage := {}
  rn : Option RawNode := none
  restartedSinceCheck : Bool := false

def Node.crashed (n : Node) : Bool := n.rn.isNone

structure Simulator where
  ids : List NodeID
  nodes : NodeID → Node
  now : ℤ := 0

/-- The checker and the cluster that it looks at. -/
structure Watched where
  checker : Checker
  sim : Simulator

abbrev Watch := EStateM Violation Watched

def fail (property : Property) (detail : String) : Watch Unit := do
  let w ← get
  let v : Violation := { property, detail, seed := w.checker.seed, time := w.sim.now }
  set { w with checker := { w.checker with violations := w.checker.violations ++ [v] } }
  throw v

def hexDigit (n : ℕ) : Char := if n < 10 then .ofNat (48 + n) else .ofNat (87 + n)

/-- The first four bytes, in hexadecimal. -/
def shortDigest (d : List UInt8) : String :=
  .ofList ((d.take 4).flatMap fun b => [hexDigit (b.toNat / 16), hexDigit (b.toNat % 16)])

/-! ### After every event -/

/-- At most one leader per term. -/
def checkElectionSafety (id : NodeID) (rn : RawNode) : Watch Unit := do
  if rn.state ≠ .leader then pure ()
  else do
    let w ← get
    let record : Watch Unit := set { w with checker := { w.checker with
      leaderPerTerm := Function.update w.checker.leaderPerTerm rn.term (some id) } }
    match w.checker.leaderPerTerm rn.term with
    | some prev =>
      if prev ≠ id then
        fail .electionSafety s!"nodes {prev} and {id} were both leader in term {rn.term}"
      else record
    | none => record

/-- A commit index does not go down while the node is up, and nothing beyond it is applied. -/
def checkCommitMonotonic (id : NodeID) (rn : RawNode) : Watch Unit := do
  let w ← get
  let commit := rn.log.committed
  (match w.checker.lastCommit id with
    | some prev =>
      if commit < prev && !(w.sim.nodes id).restartedSinceCheck then
        fail .commitMonotonic s!"node {id} commit index fell from {prev} to {commit}"
      else pure ()
    | none => pure ())
  let checked : Node := { w.sim.nodes id with restartedSinceCheck := false }
  set { w with
    checker := { w.checker with
      lastCommit := Function.update w.checker.lastCommit id (some commit) }
    sim := { w.sim with nodes := Function.update w.sim.nodes id checked } }
  if rn.log.applied > commit then
    fail .appliedFollowing s!"node {id} applied {rn.log.applied} beyond committed {commit}"
  else pure ()

section Digest

variable (sum256 : List UInt8 → List UInt8)

/-- Compares the entry at an index with what was seen committed there. -/
def checkCommittedEntry (id : NodeID) (i : ℕ) : Watch Unit := do
  let w ← get
  match (w.sim.nodes id).storage.getEntry i with
  | .error e =>
    if e.is .compacted then pure ()
    else fail .committedStable s!"node {id} cannot read its own committed index {i}: {e.text}"
  | .ok entry =>
    let digest := sum256 entry.command
    match w.checker.committed i with
    | some prev =>
      if prev.term ≠ entry.term ∨ prev.digest ≠ digest then
        fail .committedStable
          s!"committed index {i} changed: node {prev.node} committed term {prev.term} ({shortDigest prev.digest}) at t={prev.time}ms, node {id} now has term {entry.term} ({shortDigest digest})"
      else pure ()
    | none =>
      set { w with checker := { w.checker with
        committed := Function.update w.checker.committed i (some
          { term := entry.term, digest, node := id, time := w.sim.now, command := entry.command }) } }

/-- The `count` indexes from `i` on. -/
def checkCommittedFrom (id : NodeID) : ℕ → ℕ → Watch Unit
  | _, 0 => pure ()
  | i, count + 1 => do
    checkCommittedEntry sum256 id i
    checkCommittedFrom id (i + 1) count

/-- No committed entry is ever overwritten.  Each node is looked at from its mark on. -/
def checkCommittedEntries (id : NodeID) (rn : RawNode) : Watch Unit := do
  let w ← get
  let commit := rn.log.committed
  let start := w.checker.checkedTo id + 1
  checkCommittedFrom sum256 id start (commit + 1 - start)
  let w ← get
  if commit > w.checker.checkedTo id then
    set { w with checker := { w.checker with
      checkedTo := Function.update w.checker.checkedTo id commit } }
  else pure ()

def observeNode (id : NodeID) : Watch Unit := do
  let w ← get
  match (w.sim.nodes id).rn with
  | none => pure ()
  | some rn => do
    checkElectionSafety id rn
    checkCommitMonotonic id rn
    checkCommittedEntries sum256 id rn

def observeNodes : List NodeID → Watch Unit
  | [] => pure ()
  | id :: ids => do
    observeNode sum256 id
    observeNodes ids

def observe : Watch Unit := do
  let w ← get
  observeNodes sum256 w.sim.ids

/-! ### At the end of a run -/

/-- Compares the `count` entries from `i` on that both nodes retain. -/
def compareFrom (a b : NodeID) (upto : ℕ) : ℕ → ℕ → Watch Unit
  | _, 0 => pure ()
  | i, count + 1 => do
    let w ← get
    match (w.sim.nodes a).storage.getEntry i, (w.sim.nodes b).storage.getEntry i with
    | .ok ea, .ok eb =>
      if ea.term ≠ eb.term ∨ sum256 ea.command ≠ sum256 eb.command then
        fail .logMatching s!"nodes {a} and {b} agree at index {upto} but differ at index {i} (terms {ea.term} and {eb.term})"
      else compareFrom a b upto (i + 1) count
    | _, _ => compareFrom a b upto (i + 1) count

def compareBelow (a b : NodeID) (upto : ℕ) : Watch Unit := do
  let w ← get
  let lo := max (w.sim.nodes a).storage.firstIndex (w.sim.nodes b).storage.firstIndex
  compareFrom sum256 a b upto lo (upto + 1 - lo)

/-- Walks down from an index to the highest one where the two nodes have the same term. -/
def walkDown (a b : NodeID) : ℕ → Watch Unit
  | 0 => pure ()
  | i + 1 => do
    let w ← get
    match (w.sim.nodes a).storage.term (i + 1), (w.sim.nodes b).storage.term (i + 1) with
    | .ok ta, .ok tb => if ta ≠ tb then walkDown a b i else compareBelow sum256 a b (i + 1)
    | _, _ => pure ()

def checkPair (a b : NodeID) : Watch Unit := do
  let w ← get
  if (w.sim.nodes a).crashed || (w.sim.nodes b).crashed then pure ()
  else
    let limit := min (w.sim.nodes a).storage.lastIndex (w.sim.nodes b).storage.lastIndex
    walkDown sum256 a b limit

def checkAgainst (a : NodeID) : List NodeID → Watch Unit
  | [] => pure ()
  | b :: rest => do
    checkPair sum256 a b
    checkAgainst a rest

def checkPairs : List NodeID → Watch Unit
  | [] => pure ()
  | a :: rest => do
    checkAgainst sum256 a rest
    checkPairs rest

/-- If two logs hold the same term at an index, they agree on every entry before it. -/
def checkLogMatching : Watch Unit := do
  let w ← get
  checkPairs sum256 w.sim.ids

end Digest

/-! ### The comparison of logs is exact -/

/-- Two entries that differ in what the checker compares. -/
def Differ (e e' : LogEntry) : Prop := e.term ≠ e'.term ∨ e.command ≠ e'.command

/-- The commands that the nodes retain. -/
def Simulator.commands (s : Simulator) : Set (List UInt8) :=
  {command | ∃ id i e, (s.nodes id).storage.getEntry i = .ok e ∧ e.command = command}

/-- Two live nodes have the same term at an index, and different entries at or below it. -/
def Mismatch (s : Simulator) (a b : NodeID) : Prop :=
  (s.nodes a).crashed = false ∧ (s.nodes b).crashed = false ∧ ∃ i j t ea eb, j ≤ i ∧
    (s.nodes a).storage.term i = .ok t ∧ (s.nodes b).storage.term i = .ok t ∧
    (s.nodes a).storage.getEntry j = .ok ea ∧ (s.nodes b).storage.getEntry j = .ok eb ∧ Differ ea eb

/-- The check fails exactly when `P` holds, and changes nothing when it does not. -/
def Decides (x : Watch Unit) (w : Watched) (P : Prop) : Prop :=
  Meets x w (fun _ w' => w' = w ∧ ¬ P) fun _ _ => P

section

variable {sum256 : List UInt8 → List UInt8} {w : Watched} {a b : NodeID} {P Q : Prop}

theorem Decides.fails_iff {x : Watch Unit} (h : Decides x w P) : (∃ v w', x w = .error v w') ↔ P := by
  refine ⟨fun ⟨v, w', hx⟩ => h.error hx, fun hP => ?_⟩
  cases hx : x w with
  | ok _ w' => exact absurd hP (h.ok hx).2
  | error v w' => exact ⟨v, w', rfl⟩

theorem Decides.congr {x : Watch Unit} (h : Decides x w P) (hPQ : P ↔ Q) : Decides x w Q := by
  rwa [← propext hPQ]

theorem decides_pure (h : ¬ P) : Decides (pure ()) w P := ⟨rfl, h⟩

theorem decides_fail {property : Property} {detail : String} (h : P) :
    Decides (fail property detail) w P := h

/-- Two checks, one after the other. -/
theorem Decides.andThen {x y : Watch Unit} (hx : Decides x w P) (hy : Decides y w Q) :
    Decides (x >>= fun _ => y) w (P ∨ Q) := by
  refine Meets.bind (Meets.mono hx ?_ fun _ _ h => Or.inl h)
  rintro _ w' ⟨rfl, hP⟩
  refine Meets.mono hy ?_ fun _ _ h => Or.inr h
  rintro _ w'' ⟨rfl, hQ⟩
  exact ⟨rfl, fun h => h.elim hP hQ⟩

theorem differ_iff {s : Simulator} (hsum : Set.InjOn sum256 s.commands) {i : ℕ} {ea eb : LogEntry}
    (ha : (s.nodes a).storage.getEntry i = .ok ea) (hb : (s.nodes b).storage.getEntry i = .ok eb) :
    (ea.term ≠ eb.term ∨ sum256 ea.command ≠ sum256 eb.command) ↔ Differ ea eb := by
  rw [Differ, hsum.ne_iff ⟨a, i, ea, ha, rfl⟩ ⟨b, i, eb, hb, rfl⟩]

theorem decides_compareFrom (hsum : Set.InjOn sum256 w.sim.commands) (upto i count : ℕ) :
    Decides (compareFrom sum256 a b upto i count) w (∃ j ea eb, i ≤ j ∧ j < i + count ∧
      (w.sim.nodes a).storage.getEntry j = .ok ea ∧ (w.sim.nodes b).storage.getEntry j = .ok eb ∧
      Differ ea eb) := by
  induction count generalizing i with
  | zero => exact decides_pure fun ⟨j, _, _, h1, h2, _⟩ => by omega
  | succ count ih =>
    rw [compareFrom, Decides, meets_bind, meets_get]
    -- What the rest finds is what there is to find, unless the entries at `i` differ.
    have hrest : (∀ ea eb, (w.sim.nodes a).storage.getEntry i = .ok ea →
        (w.sim.nodes b).storage.getEntry i = .ok eb → ¬ Differ ea eb) →
        Decides (compareFrom sum256 a b upto (i + 1) count) w (∃ j ea eb, i ≤ j ∧
          j < i + (count + 1) ∧ (w.sim.nodes a).storage.getEntry j = .ok ea ∧
          (w.sim.nodes b).storage.getEntry j = .ok eb ∧ Differ ea eb) := by
      intro hi
      refine (ih (i + 1)).congr ⟨?_, ?_⟩
      · rintro ⟨j, ea, eb, h1, h2, h⟩
        exact ⟨j, ea, eb, by omega, by omega, h⟩
      · rintro ⟨j, ea, eb, h1, h2, ha, hb, hd⟩
        have hne : j ≠ i := fun h => hi ea eb (h ▸ ha) (h ▸ hb) hd
        exact ⟨j, ea, eb, by omega, by omega, ha, hb, hd⟩
    split
    · rename_i ea eb ha hb
      split
      · rename_i hd
        exact decides_fail ⟨i, ea, eb, le_rfl, by omega, ha, hb, (differ_iff hsum ha hb).mp hd⟩
      · rename_i hd
        refine hrest fun ea' eb' ha' hb' => ?_
        rw [ha] at ha'
        rw [hb] at hb'
        cases ha'
        cases hb'
        exact fun h => hd ((differ_iff hsum ha hb).mpr h)
    · rename_i hno
      exact hrest fun ea eb ha hb _ => hno ea eb ha hb

/-- What is retained starts after the compaction boundary. -/
theorem firstIndex_le_of_getEntry {m : MemoryStorage} {i : ℕ} {e : LogEntry}
    (h : m.getEntry i = .ok e) : m.firstIndex ≤ i := by
  obtain ⟨k, rfl, -⟩ := getElem_of_getEntry h
  rw [MemoryStorage.firstIndex, MemoryStorage.offset]
  omega

theorem decides_compareBelow (hsum : Set.InjOn sum256 w.sim.commands) (upto : ℕ) :
    Decides (compareBelow sum256 a b upto) w (∃ j ea eb, j ≤ upto ∧
      (w.sim.nodes a).storage.getEntry j = .ok ea ∧ (w.sim.nodes b).storage.getEntry j = .ok eb ∧
      Differ ea eb) := by
  rw [compareBelow, Decides, meets_bind, meets_get]
  refine (decides_compareFrom hsum upto _ _).congr ⟨?_, ?_⟩
  · rintro ⟨j, ea, eb, h1, h2, h⟩
    exact ⟨j, ea, eb, by omega, h⟩
  · rintro ⟨j, ea, eb, hj, ha, hb, hd⟩
    have h1 := firstIndex_le_of_getEntry ha
    have h2 := firstIndex_le_of_getEntry hb
    exact ⟨j, ea, eb, by omega, by omega, ha, hb, hd⟩

/-- Below the highest index of the same term everything is compared; above it there is nothing to
find, and below an index whose term is gone there is none. -/
theorem decides_walkDown (hsum : Set.InjOn sum256 w.sim.commands) {n : ℕ}
    (ha : n ≤ (w.sim.nodes a).storage.lastIndex) (hb : n ≤ (w.sim.nodes b).storage.lastIndex) :
    Decides (walkDown sum256 a b n) w (∃ i j t ea eb, i ≤ n ∧ j ≤ i ∧
      (w.sim.nodes a).storage.term i = .ok t ∧ (w.sim.nodes b).storage.term i = .ok t ∧
      (w.sim.nodes a).storage.getEntry j = .ok ea ∧ (w.sim.nodes b).storage.getEntry j = .ok eb ∧
      Differ ea eb) := by
  induction n with
  | zero =>
    refine decides_pure ?_
    rintro ⟨i, j, t, ea, eb, hi, hj, -, -, hea, -⟩
    have h1 : (w.sim.nodes a).storage.offset + 1 ≤ j := firstIndex_le_of_getEntry hea
    omega
  | succ n ih =>
    rw [walkDown, Decides, meets_bind, meets_get]
    split
    · rename_i ta tb hta htb
      split
      · rename_i hne
        refine (ih (by omega) (by omega)).congr ⟨?_, ?_⟩
        · rintro ⟨i, j, t, ea, eb, hi, h⟩
          exact ⟨i, j, t, ea, eb, by omega, h⟩
        · rintro ⟨i, j, t, ea, eb, hi, hj, hti, hti', h⟩
          refine ⟨i, j, t, ea, eb, ?_, hj, hti, hti', h⟩
          by_contra hgt
          obtain rfl : i = n + 1 := by omega
          rw [hta] at hti
          rw [htb] at hti'
          cases hti
          cases hti'
          exact hne rfl
      · rename_i heq
        obtain rfl : ta = tb := not_not.mp heq
        refine (decides_compareBelow hsum (n + 1)).congr ⟨?_, ?_⟩
        · rintro ⟨j, ea, eb, hj, h⟩
          exact ⟨n + 1, j, ta, ea, eb, le_rfl, hj, hta, htb, h⟩
        · rintro ⟨i, j, t, ea, eb, hi, hj, -, -, h⟩
          exact ⟨j, ea, eb, by omega, h⟩
    · rename_i hno
      refine decides_pure ?_
      rintro ⟨i, j, t, ea, eb, hi, hj, hti, hti', -⟩
      have h1 := (MemoryStorage.term_eq_ok hti).1
      have h2 := (MemoryStorage.term_eq_ok hti').1
      exact hno _ _ (MemoryStorage.term_ok (by omega) ha) (MemoryStorage.term_ok (by omega) hb)

theorem decides_checkPair (hsum : Set.InjOn sum256 w.sim.commands) (a b : NodeID) :
    Decides (checkPair sum256 a b) w (Mismatch w.sim a b) := by
  rw [checkPair, Decides, meets_bind, meets_get]
  split
  · rename_i hdown
    refine decides_pure fun ⟨ha, hb, _⟩ => ?_
    simp [ha, hb] at hdown
  · rename_i hup
    simp only [Bool.or_eq_true, not_or, Bool.not_eq_true] at hup
    refine (decides_walkDown hsum (min_le_left _ _) (min_le_right _ _)).congr ⟨?_, ?_⟩
    · rintro ⟨i, j, t, ea, eb, -, h⟩
      exact ⟨hup.1, hup.2, i, j, t, ea, eb, h⟩
    · rintro ⟨-, -, i, j, t, ea, eb, hj, hta, htb, h⟩
      have h1 := (MemoryStorage.term_eq_ok hta).2
      have h2 := (MemoryStorage.term_eq_ok htb).2
      exact ⟨i, j, t, ea, eb, le_min h1 h2, hj, hta, htb, h⟩

theorem Mismatch.symm {s : Simulator} (h : Mismatch s a b) : Mismatch s b a := by
  obtain ⟨ha, hb, i, j, t, ea, eb, hj, hta, htb, hea, heb, hd⟩ := h
  exact ⟨hb, ha, i, j, t, eb, ea, hj, htb, hta, heb, hea, hd.imp Ne.symm Ne.symm⟩

theorem not_mismatch_self (s : Simulator) (a : NodeID) : ¬ Mismatch s a a := by
  rintro ⟨-, -, i, j, t, ea, eb, -, -, -, hea, heb, hd⟩
  rw [hea] at heb
  cases heb
  exact hd.elim (fun h => h rfl) fun h => h rfl

theorem decides_checkAgainst (hsum : Set.InjOn sum256 w.sim.commands) (a : NodeID) (rest : List NodeID) :
    Decides (checkAgainst sum256 a rest) w (∃ b ∈ rest, Mismatch w.sim a b) := by
  induction rest with
  | nil => exact decides_pure (by simp)
  | cons b rest ih => exact ((decides_checkPair hsum a b).andThen ih).congr (by simp)

theorem decides_checkPairs (hsum : Set.InjOn sum256 w.sim.commands) (ids : List NodeID) :
    Decides (checkPairs sum256 ids) w (∃ a ∈ ids, ∃ b ∈ ids, Mismatch w.sim a b) := by
  induction ids with
  | nil => exact decides_pure (by simp)
  | cons a rest ih =>
    refine ((decides_checkAgainst hsum a rest).andThen ih).congr ⟨?_, ?_⟩
    · rintro (⟨b, hb, h⟩ | ⟨a', ha', b, hb, h⟩)
      · exact ⟨a, List.mem_cons_self, b, List.mem_cons_of_mem a hb, h⟩
      · exact ⟨a', List.mem_cons_of_mem a ha', b, List.mem_cons_of_mem a hb, h⟩
    · rintro ⟨a', ha', b, hb, h⟩
      rcases List.mem_cons.mp ha' with rfl | hmem
      · rcases List.mem_cons.mp hb with rfl | hb
        · exact absurd h (not_mismatch_self _ _)
        · exact Or.inl ⟨b, hb, h⟩
      · rcases List.mem_cons.mp hb with rfl | hb
        · exact Or.inl ⟨a', hmem, h.symm⟩
        · exact Or.inr ⟨a', hmem, b, hb, h⟩

end

/-- The comparison of logs reports a violation exactly when two live nodes have the same term at an
index and different entries at or below it, as far as both retain them.  The commands that the nodes
hold must have different digests. -/
theorem checkLogMatching_fails_iff {sum256 : List UInt8 → List UInt8} (w : Watched)
    (hsum : Set.InjOn sum256 w.sim.commands) :
    (∃ v w', checkLogMatching sum256 w = .error v w') ↔
      ∃ a ∈ w.sim.ids, ∃ b ∈ w.sim.ids, Mismatch w.sim a b :=
  (decides_checkPairs hsum w.sim.ids).fails_iff

/-- A live node with a disk and a commit index. -/
def liveNode (storage : MemoryStorage) (committed : ℕ) : Node where
  storage
  rn := some { id := 1, cfg := { id := 1, electionTick := 2, heartbeatTick := 1 }
               log := { storage := { mem := storage }, committed } }

/-- A disk with the given term and command in each entry, from index 1 on. -/
def diskOf (entries : List (ℕ × List UInt8)) : MemoryStorage where
  ents := entries.mapIdx fun k e => { term := e.1, index := k + 1, command := e.2 }

theorem mem_of_getEntry_diskOf {entries : List (ℕ × List UInt8)} {i : ℕ} {e : LogEntry}
    (h : (diskOf entries).getEntry i = .ok e) : ∃ p ∈ entries, p.2 = e.command := by
  obtain ⟨k, -, hk⟩ := getElem_of_getEntry h
  rw [diskOf, List.getElem?_mapIdx, Option.map_eq_some_iff] at hk
  obtain ⟨p, hp, rfl⟩ := hk
  exact ⟨p, List.mem_of_getElem? hp, rfl⟩

/-- A digest of 32 bytes. -/
def padded (command : List UInt8) : List UInt8 := (command ++ List.replicate 32 0).take 32

theorem injOn_padded : Set.InjOn padded {command | command.length = 1} := by
  intro c hc c' hc' heq
  obtain ⟨b, rfl⟩ := List.length_eq_one_iff.mp hc
  obtain ⟨b', rfl⟩ := List.length_eq_one_iff.mp hc'
  exact congrArg (·.take 1) heq

/-- Two nodes whose logs end alike and begin differently. -/
def forked : Simulator where
  ids := [1, 2]
  nodes v := liveNode (diskOf [(1, [if v = 1 then 7 else 8]), (2, [9])]) 0

theorem injOn_forked : Set.InjOn padded forked.commands := by
  refine injOn_padded.mono ?_
  rintro _ ⟨v, i, e, he, rfl⟩
  obtain ⟨p, hp, hcommand⟩ := mem_of_getEntry_diskOf he
  have hone : ∀ p ∈ [(1, [if v = 1 then (7 : UInt8) else 8]), (2, [9])], p.2.length = 1 := by simp
  exact hcommand ▸ hone p hp

theorem checkLogMatching_fails_forked :
    ∃ v w', checkLogMatching padded { checker := {}, sim := forked } = .error v w' := by
  refine (checkLogMatching_fails_iff _ injOn_forked).mpr
    ⟨1, by decide, 2, by decide, rfl, rfl, 2, 1, 2, _, _, by decide, rfl, rfl, rfl, rfl, ?_⟩
  exact Or.inr (by decide)

end RaftStore.Sim
