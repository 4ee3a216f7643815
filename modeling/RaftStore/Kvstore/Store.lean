import RaftStore.Kvstore.Encoding

/-! The replicated state machine: a key/value map fed by committed log entries, with a bounded table
of the last request of each client. -/

namespace RaftStore.Kvstore

open Raft

/-- What a write returns. -/
structure Result where
  existed : Bool := false
  duplicate : Bool := false
  deriving DecidableEq, Repr

/-- What the state machine remembers about one client. -/
structure Session where
  lastSeq : UInt64
  lastIndex : ℕ
  result : Result
  deriving DecidableEq, Repr

abbrev Sessions := Std.ExtTreeMap UInt64 Session

/-! ### Eviction -/

structure Candidate where
  id : UInt64
  index : ℕ
  deriving DecidableEq, Repr

/-- The order of eviction: by log index, the client id breaking ties. -/
def Candidate.LE (a b : Candidate) : Prop := a.index < b.index ∨ a.index = b.index ∧ a.id ≤ b.id

instance : DecidableRel Candidate.LE := fun a b =>
  inferInstanceAs (Decidable (a.index < b.index ∨ a.index = b.index ∧ a.id ≤ b.id))

instance : Std.Total Candidate.LE where
  total a b := by
    rcases Nat.lt_trichotomy a.index b.index with h | h | h
    · exact .inl (.inl h)
    · rcases UInt64.le_total a.id b.id with hid | hid
      · exact .inl (.inr ⟨h, hid⟩)
      · exact .inr (.inr ⟨h.symm, hid⟩)
    · exact .inr (.inl h)

instance : IsTrans Candidate Candidate.LE where
  trans a b c := by
    rintro (hab | ⟨hab, hab'⟩) (hbc | ⟨hbc, hbc'⟩)
    · exact .inl (hab.trans hbc)
    · exact .inl (hbc ▸ hab)
    · exact .inl (hab ▸ hbc)
    · exact .inr ⟨hab.trans hbc, UInt64.le_trans hab' hbc'⟩

instance : Std.Antisymm Candidate.LE where
  antisymm a b := by
    rintro (hab | ⟨hab, hab'⟩) (hba | ⟨hba, hba'⟩)
    · omega
    · omega
    · omega
    · cases a
      cases b
      cases hab
      cases UInt64.le_antisymm hab' hba'
      rfl

theorem Candidate.LE.mono {a : Candidate} {id : UInt64} {i j : ℕ} (h : a.LE ⟨id, i⟩) (hij : i ≤ j) :
    a.LE ⟨id, j⟩ := by
  rcases h with h | ⟨h, hid⟩
  · exact .inl (h.trans_le hij)
  · rcases Nat.eq_or_lt_of_le hij with hij | hij
    · exact .inr ⟨h.trans hij, hid⟩
    · exact .inl (h ▸ hij)

def candidates (sessions : Sessions) : List Candidate :=
  (sessions.toList.map fun p => (⟨p.1, p.2.lastIndex⟩ : Candidate)).insertionSort Candidate.LE

def evictSessions (maxSessions : ℕ) (sessions : Sessions) : Sessions :=
  if sessions.size ≤ maxSessions then sessions
  else
    ((candidates sessions).take (sessions.size - maxSessions)).foldl (fun m c => m.erase c.id)
      sessions

theorem mem_candidates {sessions : Sessions} {c : Candidate} :
    c ∈ candidates sessions ↔ ∃ s, sessions[c.id]? = some s ∧ s.lastIndex = c.index := by
  rw [candidates, List.mem_insertionSort, List.mem_map]
  constructor
  · rintro ⟨p, hp, rfl⟩
    exact ⟨p.2, Std.ExtTreeMap.mem_toList_iff_getElem?_eq_some.mp hp, rfl⟩
  · rintro ⟨s, hs, hindex⟩
    refine ⟨(c.id, s), Std.ExtTreeMap.mem_toList_iff_getElem?_eq_some.mpr hs, ?_⟩
    rw [hindex]

theorem candidates_pairwise (sessions : Sessions) :
    (candidates sessions).Pairwise Candidate.LE :=
  List.pairwise_insertionSort _ _

theorem candidates_length (sessions : Sessions) : (candidates sessions).length = sessions.size := by
  rw [candidates, List.length_insertionSort, List.length_map, Std.ExtTreeMap.length_toList]

theorem candidates_nodup (sessions : Sessions) : ((candidates sessions).map (·.id)).Nodup := by
  have hperm : ((candidates sessions).map (·.id)).Perm (sessions.toList.map (·.1)) := by
    have h := (List.perm_insertionSort Candidate.LE
      (sessions.toList.map fun p => (⟨p.1, p.2.lastIndex⟩ : Candidate))).map (·.id)
    rwa [List.map_map] at h
  rw [hperm.nodup_iff, List.Nodup, List.pairwise_map]
  exact Std.ExtTreeMap.distinct_keys_toList.imp fun {a b} h heq =>
    h (Std.LawfulEqCmp.compare_eq_iff_eq.mpr heq)

/-- The order of eviction is the only sorted list of the clients in the table. -/
theorem candidates_eq {sessions : Sessions} {l : List Candidate} (hsorted : l.Pairwise Candidate.LE)
    (hnodup : (l.map (·.id)).Nodup)
    (hmem : ∀ c, c ∈ l ↔ ∃ s, sessions[c.id]? = some s ∧ s.lastIndex = c.index) :
    candidates sessions = l := by
  refine List.Perm.eq_of_pairwise' (candidates_pairwise sessions) hsorted ?_
  rw [List.perm_ext_iff_of_nodup (candidates_nodup sessions).of_map hnodup.of_map]
  exact fun c => mem_candidates.trans (hmem c).symm

theorem mem_map_candidates {sessions : Sessions} {id : UInt64} :
    id ∈ (candidates sessions).map (·.id) ↔ ∃ s, sessions[id]? = some s := by
  rw [List.mem_map]
  constructor
  · rintro ⟨c, hc, rfl⟩
    obtain ⟨s, hs, -⟩ := mem_candidates.mp hc
    exact ⟨s, hs⟩
  · rintro ⟨s, hs⟩
    exact ⟨⟨id, s.lastIndex⟩, mem_candidates.mpr ⟨s, hs, rfl⟩, rfl⟩

/-- A client stays when it does not stand among the oldest that are too many. -/
theorem getElem?_evictSessions (n : ℕ) (sessions : Sessions) (id : UInt64) :
    (evictSessions n sessions)[id]? =
      if id ∈ ((candidates sessions).drop (sessions.size - n)).map (·.id) then sessions[id]?
      else none := by
  set k := sessions.size - n with hk
  have herase : (evictSessions n sessions)[id]? =
      if id ∈ ((candidates sessions).take k).map (·.id) then none else sessions[id]? := by
    rw [evictSessions]
    split
    · rename_i h
      simp [hk, Nat.sub_eq_zero_of_le h]
    · refine Option.ext fun session => ?_
      rw [Lib.getElem?_foldl_erase]
      split
      · rename_i hmem
        exact iff_of_false (fun h => h.1 hmem) (Option.not_mem_none session)
      · rename_i hmem
        exact and_iff_right hmem
  have hsplit : ((candidates sessions).take k).map (·.id) ++ ((candidates sessions).drop k).map (·.id) =
      (candidates sessions).map (·.id) := by
    rw [← List.map_append, List.take_append_drop]
  have hdisjoint := (List.nodup_append.mp (hsplit ▸ candidates_nodup sessions)).2.2
  rw [herase]
  by_cases hdrop : id ∈ ((candidates sessions).drop k).map (·.id)
  · rw [if_pos hdrop, if_neg fun htake => hdisjoint _ htake _ hdrop rfl]
  · rw [if_neg hdrop]
    split
    · rfl
    · rename_i htake
      rw [← Option.not_isSome_iff_eq_none, Option.isSome_iff_exists, ← mem_map_candidates, ← hsplit,
        List.mem_append]
      exact fun h => h.elim htake hdrop

/-- Eviction drops the oldest and leaves the order of the others. -/
theorem candidates_evictSessions (n : ℕ) (sessions : Sessions) :
    candidates (evictSessions n sessions) = (candidates sessions).drop (sessions.size - n) := by
  refine candidates_eq ((candidates_pairwise sessions).drop) ?_ fun c => ?_
  · rw [List.map_drop]
    exact (candidates_nodup sessions).drop
  · rw [getElem?_evictSessions]
    constructor
    · intro hc
      rw [if_pos (List.mem_map_of_mem hc)]
      exact mem_candidates.mp (List.mem_of_mem_drop hc)
    · rintro ⟨s, hs, hindex⟩
      split at hs
      · rename_i hkept
        obtain ⟨d, hd, hid⟩ := List.mem_map.mp hkept
        obtain ⟨s', hs', hindex'⟩ := mem_candidates.mp (List.mem_of_mem_drop hd)
        rw [hid, hs] at hs'
        cases hs'
        have : c = d := by
          cases c
          cases d
          simp_all
        rwa [this]
      · exact nomatch hs

theorem size_evictSessions_le (n : ℕ) (sessions : Sessions) : (evictSessions n sessions).size ≤ n := by
  rw [← candidates_length, candidates_evictSessions, List.length_drop, candidates_length]
  omega

/-- A client that is newer than all the others goes last in the order of eviction. -/
theorem candidates_insert {sessions : Sessions} {id : UInt64} {new : Session}
    (hnew : ∀ c s, sessions[c]? = some s → c ≠ id →
      Candidate.LE ⟨c, s.lastIndex⟩ ⟨id, new.lastIndex⟩) :
    candidates (sessions.insert id new) =
      (candidates sessions).filter (·.id ≠ id) ++ [⟨id, new.lastIndex⟩] := by
  refine candidates_eq ?_ ?_ fun c => ?_
  · rw [List.pairwise_append]
    refine ⟨(candidates_pairwise sessions).filter _, List.pairwise_singleton _ _, ?_⟩
    intro a ha b hb
    obtain rfl := List.mem_singleton.mp hb
    obtain ⟨ha, hne⟩ := List.mem_filter.mp ha
    obtain ⟨s, hs, hindex⟩ := mem_candidates.mp ha
    have := hnew a.id s hs (by simpa using hne)
    rwa [hindex] at this
  · rw [List.map_append, List.nodup_append]
    refine ⟨((candidates_nodup sessions).sublist (List.filter_sublist.map _)), by simp, ?_⟩
    intro a ha b hb
    obtain ⟨c, hc, rfl⟩ := List.mem_map.mp ha
    have hne := (List.mem_filter.mp hc).2
    rw [List.map_singleton, List.mem_singleton] at hb
    rw [hb]
    simpa using hne
  · rw [List.mem_append, List.mem_filter, List.mem_singleton, mem_candidates,
      Std.ExtTreeMap.getElem?_insert]
    simp only [Std.LawfulEqCmp.compare_eq_iff_eq]
    by_cases hid : id = c.id
    · subst hid
      simp only [ne_eq, not_true_eq_false, decide_false, Bool.false_eq_true, and_false, false_or,
        if_true, Option.some.injEq, exists_eq_left']
      constructor
      · rintro h
        rw [h]
      · intro h
        rw [h]
    · rw [if_neg hid]
      constructor
      · rintro (h | h)
        · exact h.1
        · exact absurd (congrArg Candidate.id h).symm hid
      · intro h
        exact .inl ⟨h, by simpa using Ne.symm hid⟩

/-! ### The store -/

/-- An in-memory map driven by the log.  The table never holds more than `maxSessions` clients, and
none of them is the client 0 that stands for no session. -/
@[ext]
structure Store where
  data : Map := ∅
  sessions : Sessions := ∅
  maxSessions : ℕ
  applied : ℕ := 0
  limit_pos : 0 < maxSessions
  limit_lt : maxSessions < 2 ^ 63
  size_le : sessions.size ≤ maxSessions
  nonzero : sessions[(0 : UInt64)]? = none

def newWithSessionLimit (n : Int64) : Store where
  maxSessions := if n < 1 then 1 else n.toInt.toNat
  limit_pos := by
    split
    · exact Nat.one_pos
    · rename_i h
      have := Int64.not_lt.mp h
      have := Int64.le_iff_toInt_le.mp this
      have h1 : (1 : Int64).toInt = 1 := by decide
      omega
  limit_lt := by
    have := n.toInt_lt
    split <;> omega
  size_le := by
    rw [Std.ExtTreeMap.size_empty]
    exact Nat.zero_le _
  nonzero := Std.ExtTreeMap.getElem?_empty

def defaultMaxSessions : Int64 := 4096

def new : Store := newWithSessionLimit defaultMaxSessions

namespace Store

/-- The stored answer of a request that is not new. -/
def checkSession (s : Store) (clientID seq : UInt64) : Option Result :=
  if clientID = 0 then none
  else
    match s.sessions[clientID]? with
    | none => none
    | some prev => if prev.lastSeq < seq then none else some { prev.result with duplicate := true }

def recordSession (s : Store) (clientID seq : UInt64) (index : ℕ) (result : Result) : Store :=
  if h : clientID = 0 then s
  else
    { s with
      sessions := evictSessions s.maxSessions (s.sessions.insert clientID ⟨seq, index, result⟩)
      size_le := size_evictSessions_le _ _
      nonzero := by
        rw [getElem?_evictSessions, Std.ExtTreeMap.getElem?_insert]
        simp only [Std.LawfulEqCmp.compare_eq_iff_eq, h, if_false, s.nonzero, ite_self] }

/-- What a known command does to the map, and its answer. -/
def execute (data : Map) (cmd : Command) : Option (Result × Map) :=
  match cmd.op with
  | .set => some ({}, data.insert cmd.key cmd.value)
  | .delete => some ({ existed := cmd.key ∈ data }, data.erase cmd.key)
  | .unknown _ => none

def apply (s : Store) (entry : LogEntry) : Except Error (Result × Store) :=
  let index := entry.index
  match decodeCommand entry.command with
  | .error e => .error (e.wrap s!"kvstore: entry {index}")
  | .ok cmd =>
    match s.checkSession cmd.clientID cmd.sequence with
    | some result => .ok (result, { s with applied := index })
    | none =>
      match execute s.data cmd with
      | some (result, data) =>
        .ok (result,
          { { s with data }.recordSession cmd.clientID cmd.sequence index result with
            applied := index })
      | none =>
        let op := cmd.op.toByte
        .error ⟨s!"kvstore: entry {index} has unknown operation {op}", []⟩

def get (s : Store) (key : Bytes) : Option Bytes := s.data[key]?

def snapshot (s : Store) : Bytes := encodeMap s.data

def restore (s : Store) (data : Bytes) (appliedIndex : ℕ) : Except Error Store :=
  match decodeMap data with
  | .error e => .error e
  | .ok m => .ok { s with data := m, applied := appliedIndex }

/-- Applies entries in log order, up to the first that fails. -/
def applyAll (s : Store) : List LogEntry → Except Error (List Result × Store)
  | [] => .ok ([], s)
  | entry :: entries =>
    match s.apply entry with
    | .error e => .error e
    | .ok (result, s) =>
      match applyAll s entries with
      | .error e => .error e
      | .ok (results, s) => .ok (result :: results, s)

end Store

end RaftStore.Kvstore
