import RaftStore.Kvstore.Sessions
import Mathlib.Data.Set.Card

/-! Which clients the store remembers.  The source collects the candidates for eviction by a range
over a map, whose order Go leaves open and which may differ from call to call.  The store is given
here once more with that order as a parameter.  The order does not matter, and the clients in the
table are always those whose last new request is the most recent. -/

namespace RaftStore.Kvstore

open Raft

/-! ### The range over the table -/

/-- The order in which a range statement goes over a table. -/
structure Iteration where
  range : Sessions → List (UInt64 × Session)
  perm : ∀ sessions, (range sessions).Perm sessions.toList

/-- The range that goes over the clients by their ids. -/
def Iteration.ascending : Iteration where
  range := fun sessions => sessions.toList
  perm := fun _ => .rfl

variable (it : Iteration)

def candidatesIn (sessions : Sessions) : List Candidate :=
  ((it.range sessions).map fun p => (⟨p.1, p.2.lastIndex⟩ : Candidate)).insertionSort Candidate.LE

def evictSessionsIn (maxSessions : ℕ) (sessions : Sessions) : Sessions :=
  if sessions.size ≤ maxSessions then sessions
  else
    ((candidatesIn it sessions).take (sessions.size - maxSessions)).foldl (fun m c => m.erase c.id)
      sessions

theorem candidatesIn_eq (sessions : Sessions) : candidatesIn it sessions = candidates sessions := by
  have hperm := (it.perm sessions).map fun p => (⟨p.1, p.2.lastIndex⟩ : Candidate)
  apply List.Perm.eq_of_pairwise' (List.pairwise_insertionSort _ _) (candidates_pairwise sessions)
  exact ((List.perm_insertionSort _ _).trans hperm).trans (List.perm_insertionSort _ _).symm

theorem evictSessionsIn_eq (maxSessions : ℕ) (sessions : Sessions) :
    evictSessionsIn it maxSessions sessions = evictSessions maxSessions sessions := by
  rw [evictSessionsIn, evictSessions, candidatesIn_eq]

namespace Store

def recordSessionIn (s : Store) (clientID seq : UInt64) (index : ℕ) (result : Result) : Store :=
  if h : clientID = 0 then s
  else
    { s with
      sessions := evictSessionsIn it s.maxSessions (s.sessions.insert clientID ⟨seq, index, result⟩)
      size_le := evictSessionsIn_eq it _ _ ▸ size_evictSessions_le _ _
      nonzero := by
        rw [evictSessionsIn_eq, getElem?_evictSessions, Std.ExtTreeMap.getElem?_insert]
        simp only [Std.LawfulEqCmp.compare_eq_iff_eq, h, if_false, s.nonzero, ite_self] }

def applyIn (s : Store) (entry : LogEntry) : Except Error (Result × Store) :=
  let index := entry.index
  match decodeCommand entry.command with
  | .error e => .error (e.wrap s!"kvstore: entry {index}")
  | .ok cmd =>
    match s.checkSession cmd.clientID cmd.sequence with
    | some result => .ok (result, { s with applied := index })
    | none =>
      match execute s.data cmd with
      | some (result, data) =>
        .ok (result,
          { { s with data }.recordSessionIn it cmd.clientID cmd.sequence index result with
            applied := index })
      | none =>
        let op := cmd.op.toByte
        .error ⟨s!"kvstore: entry {index} has unknown operation {op}", []⟩

theorem recordSessionIn_eq (s : Store) (clientID seq : UInt64) (index : ℕ) (result : Result) :
    s.recordSessionIn it clientID seq index result = s.recordSession clientID seq index result := by
  rw [recordSessionIn, recordSession]
  split
  · rfl
  · simp only [evictSessionsIn_eq]

theorem applyIn_eq (s : Store) (entry : LogEntry) : s.applyIn it entry = s.apply entry := by
  rw [applyIn, apply]
  cases decodeCommand entry.command with
  | error e => rfl
  | ok cmd =>
    dsimp only
    cases s.checkSession cmd.clientID cmd.sequence with
    | some result => rfl
    | none =>
      dsimp only
      cases execute s.data cmd with
      | none => rfl
      | some x =>
        dsimp only
        rw [recordSessionIn_eq]

end Store

/-- An entry that was handed to the store, and what it answered. -/
abbrev Call := LogEntry × Except Error Result

/-- Hands over one entry.  A call that fails leaves the store as it is. -/
def Store.call (s : Store) (entry : LogEntry) : Except Error Result × Store :=
  match s.applyIn it entry with
  | .error e => (.error e, s)
  | .ok (result, s') => (.ok result, s')

/-- Hands over the entries of a log, with an order of its own for the range in each call. -/
def Store.applyEach (its : ℕ → Iteration) (s : Store) : List LogEntry → List Call × Store
  | [] => ([], s)
  | entry :: entries =>
    let first := s.call (its 0) entry
    let rest := applyEach (fun k => its (k + 1)) first.2 entries
    ((entry, first.1) :: rest.1, rest.2)

/-! ### Eviction takes the oldest -/

theorem size_evictSessions (n : ℕ) (sessions : Sessions) :
    (evictSessions n sessions).size = min sessions.size n := by
  rw [← candidates_length, candidates_evictSessions, List.length_drop, candidates_length]
  omega

/-- A client that is evicted is older than each one that stays. -/
theorem evicted_le {n : ℕ} {sessions : Sessions} {id : UInt64} {session : Session}
    (h : sessions[id]? = some session) (hgone : (evictSessions n sessions)[id]? = none) :
    n < sessions.size ∧ ∀ d kept, (evictSessions n sessions)[d]? = some kept →
      Candidate.LE ⟨id, session.lastIndex⟩ ⟨d, kept.lastIndex⟩ := by
  set k := sessions.size - n with hk
  have hmem : (⟨id, session.lastIndex⟩ : Candidate) ∈ candidates sessions :=
    mem_candidates.mpr ⟨session, h, rfl⟩
  have hnot : (⟨id, session.lastIndex⟩ : Candidate) ∉ (candidates sessions).drop k := by
    rw [hk, ← candidates_evictSessions, mem_candidates]
    rintro ⟨kept, hkept, -⟩
    cases hgone.symm.trans hkept
  constructor
  · by_contra hle
    rw [hk, Nat.sub_eq_zero_of_le (not_lt.mp hle)] at hnot
    exact hnot hmem
  · intro d kept hkept
    have hd : (⟨d, kept.lastIndex⟩ : Candidate) ∈ (candidates sessions).drop k := by
      rw [hk, ← candidates_evictSessions, mem_candidates]
      exact ⟨kept, hkept, rfl⟩
    have hsplit := candidates_pairwise sessions
    rw [← List.take_append_drop k (candidates sessions)] at hsplit hmem
    have htake := (List.mem_append.mp hmem).resolve_right hnot
    exact (List.pairwise_append.mp hsplit).2.2 _ htake _ hd

/-- The client that is recorded stays. -/
theorem Store.recordSession_self {s : Store} {c seq : UInt64} {index : ℕ} {result : Result}
    (hc : c ≠ 0)
    (hnew : ∀ (d : UInt64) session, s.sessions[d]? = some session → session.lastIndex < index) :
    (s.recordSession c seq index result).sessions[c]? = some ⟨seq, index, result⟩ := by
  set added := s.sessions.insert c ⟨seq, index, result⟩ with hadded
  have hlast : candidates added = (candidates s.sessions).filter (·.id ≠ c) ++ [⟨c, index⟩] :=
    candidates_insert fun d session hd _ => .inl (hnew d session hd)
  have hlen := candidates_length added
  rw [hlast, List.length_append, List.length_singleton] at hlen
  have hkept : c ∈ ((candidates added).drop (added.size - s.maxSessions)).map (·.id) := by
    have := s.limit_pos
    rw [hlast, List.drop_append_of_le_length (by omega)]
    exact List.mem_map_of_mem (f := Candidate.id) (List.mem_append_right _ List.mem_cons_self)
  rw [recordSession, dif_neg hc]
  show (evictSessions s.maxSessions added)[c]? = _
  rw [getElem?_evictSessions, if_pos hkept, hadded, Std.ExtTreeMap.getElem?_insert_self]

/-! ### The most recent clients -/

/-- The client that a call was new for.  A retry is not new, and the client 0 is none. -/
def freshClient (call : Call) : Option UInt64 :=
  match decodeCommand call.1.command, call.2 with
  | .ok cmd, .ok result => if result.duplicate ∨ cmd.clientID = 0 then none else some cmd.clientID
  | _, _ => none

/-- The log indexes of the new requests of a client. -/
def freshIndexes (calls : List Call) (c : UInt64) : Set ℕ :=
  {i | ∃ call ∈ calls, freshClient call = some c ∧ call.1.index = i}

theorem freshIndexes_append {calls : List Call} {call : Call} {c : UInt64}
    (h : freshClient call ≠ some c) : freshIndexes (calls ++ [call]) c = freshIndexes calls c := by
  ext i
  constructor
  · rintro ⟨other, hother, hfresh, hindex⟩
    rcases List.mem_append.mp hother with hmem | hmem
    · exact ⟨other, hmem, hfresh, hindex⟩
    · rw [List.mem_singleton.mp hmem] at hfresh
      exact absurd hfresh h
  · rintro ⟨other, hother, hfresh, hindex⟩
    exact ⟨other, List.mem_append_left _ hother, hfresh, hindex⟩

/-- Each index of the log belongs to one client. -/
theorem eq_of_mem_freshIndexes {calls : List Call} (h : calls.Pairwise (·.1.index < ·.1.index))
    {c d : UInt64} {i : ℕ} (hc : i ∈ freshIndexes calls c) (hd : i ∈ freshIndexes calls d) :
    c = d := by
  obtain ⟨a, ha, hca, hia⟩ := hc
  obtain ⟨b, hb, hdb, hib⟩ := hd
  have hnodup : (calls.map (·.1.index)).Nodup := List.pairwise_map.mpr (h.imp Nat.ne_of_lt)
  have hab := List.inj_on_of_nodup_map hnodup ha hb (hia.trans hib.symm)
  rw [← hab, hca] at hdb
  exact Option.some.inj hdb

theorem pairwise_concat {calls : List Call} {call : Call}
    (h : calls.Pairwise (·.1.index < ·.1.index))
    (hlater : ∀ other ∈ calls, other.1.index < call.1.index) :
    (calls ++ [call]).Pairwise (·.1.index < ·.1.index) := by
  refine List.pairwise_append.mpr ⟨h, List.pairwise_singleton _ _, ?_⟩
  intro other hother last hlast
  rw [List.mem_singleton.mp hlast]
  exact hlater other hother

/-- A call after some others that is new for client `c`. -/
structure FreshCall (calls : List Call) (call : Call) (c : UInt64) : Prop where
  ordered : (calls ++ [call]).Pairwise (·.1.index < ·.1.index)
  fresh : freshClient call = some c

namespace FreshCall

variable {calls : List Call} {call : Call} {c : UInt64}

theorem later (h : FreshCall calls call c) : ∀ other ∈ calls, other.1.index < call.1.index :=
  fun other hother => (List.pairwise_append.mp h.ordered).2.2 other hother _ List.mem_cons_self

theorem nonzero (h : FreshCall calls call c) : c ≠ 0 := by
  have hfresh := h.fresh
  rw [freshClient] at hfresh
  split at hfresh
  · split at hfresh
    · cases hfresh
    · rename_i hnot
      cases hfresh
      exact fun hzero => hnot (.inr hzero)
  · cases hfresh

theorem client (h : FreshCall calls call c) {cmd : Command}
    (hcmd : decodeCommand call.1.command = .ok cmd) : cmd.clientID = c := by
  have hfresh := h.fresh
  rw [freshClient, hcmd] at hfresh
  split at hfresh
  · rename_i heq _
    cases heq
    split at hfresh
    · cases hfresh
    · exact Option.some.inj hfresh
  · cases hfresh

/-- The earlier requests are below it. -/
theorem below (h : FreshCall calls call c) {d : UInt64} {i : ℕ} (hi : i ∈ freshIndexes calls d) :
    i < call.1.index := by
  obtain ⟨other, hother, -, rfl⟩ := hi
  exact h.later other hother

/-- It is the most recent request of its client. -/
theorem newest (h : FreshCall calls call c) :
    IsGreatest (freshIndexes (calls ++ [call]) c) call.1.index := by
  refine ⟨⟨call, List.mem_append_right _ List.mem_cons_self, h.fresh, rfl⟩, ?_⟩
  rintro i ⟨other, hother, -, rfl⟩
  rcases List.mem_append.mp hother with hmem | hmem
  · exact (h.later other hmem).le
  · rw [List.mem_singleton.mp hmem]

/-- It changes nothing for the other clients. -/
theorem others (h : FreshCall calls call c) {d : UInt64} (hd : d ≠ c) :
    freshIndexes (calls ++ [call]) d = freshIndexes calls d := by
  apply freshIndexes_append
  rw [h.fresh]
  exact fun heq => hd (Option.some.inj heq).symm

end FreshCall

/-- The table after some calls: it knows the last new request of each client in it, and a client
that it has lost is older than all of them, who are as many as there is room for. -/
structure Recent (calls : List Call) (s : Store) : Prop where
  last : ∀ (c : UInt64) session, s.sessions[c]? = some session →
    IsGreatest (freshIndexes calls c) session.lastIndex
  lost : ∀ (c : UInt64) i, IsGreatest (freshIndexes calls c) i → s.sessions[c]? = none →
    s.sessions.size = s.maxSessions ∧
      ∀ (d : UInt64) session, s.sessions[d]? = some session → i < session.lastIndex
  current : ∀ entry result cmd, calls.getLast? = some (entry, .ok result) →
    decodeCommand entry.command = .ok cmd → cmd.clientID ≠ 0 →
      ∃ session, s.sessions[cmd.clientID]? = some session

namespace Recent

variable {calls : List Call} {s : Store} {entry : LogEntry}

theorem nil (n : Int64) : Recent [] (newWithSessionLimit n) where
  last c session hs := by
    rw [newWithSessionLimit, Std.ExtTreeMap.getElem?_empty] at hs
    cases hs
  lost c i hi := by
    obtain ⟨call, hcall, -⟩ := hi.1
    cases hcall
  current entry result cmd hlast := by cases hlast

/-- A call that is new for nobody leaves the table alone. -/
theorem unchanged (h : Recent calls s) {answer : Except Error Result} {s' : Store}
    (hstale : freshClient (entry, answer) = none) (hsessions : s'.sessions = s.sessions)
    (hmax : s'.maxSessions = s.maxSessions)
    (hcurrent : ∀ result cmd, answer = .ok result → decodeCommand entry.command = .ok cmd →
      cmd.clientID ≠ 0 → ∃ session, s.sessions[cmd.clientID]? = some session) :
    Recent (calls ++ [(entry, answer)]) s' := by
  have hindexes : ∀ c, freshIndexes (calls ++ [(entry, answer)]) c = freshIndexes calls c := by
    intro c
    refine freshIndexes_append ?_
    rw [hstale]
    rintro ⟨⟩
  refine ⟨?_, ?_, ?_⟩
  · simp only [hindexes, hsessions]
    exact h.last
  · simp only [hindexes, hsessions, hmax]
    exact h.lost
  · intro e result cmd hlast hdecode hid
    rw [List.getLast?_concat] at hlast
    cases hlast
    rw [hsessions]
    exact hcurrent result cmd rfl hdecode hid

section Record

variable {call : Call} {c seq : UInt64} {result : Result}

theorem record_self (h : Recent calls s) (hcall : FreshCall calls call c) :
    (s.recordSession c seq call.1.index result).sessions[c]? =
      some ⟨seq, call.1.index, result⟩ :=
  Store.recordSession_self hcall.nonzero fun d session hd => hcall.below (h.last d session hd).1

theorem record_last (h : Recent calls s) (hcall : FreshCall calls call c) (d : UInt64)
    (session : Session)
    (hd : (s.recordSession c seq call.1.index result).sessions[d]? = some session) :
    IsGreatest (freshIndexes (calls ++ [call]) d) session.lastIndex := by
  rcases Store.getElem?_recordSession hcall.nonzero hd with ⟨hne, hold⟩ | ⟨rfl, rfl⟩
  · rw [hcall.others hne]
    exact h.last d session hold
  · exact hcall.newest

/-- A client that is not in the table when a request is recorded was lost before, or it is the one
that had to go. -/
theorem record_lost (h : Recent calls s) (hcall : FreshCall calls call c) (d : UInt64) (i : ℕ)
    (hi : IsGreatest (freshIndexes (calls ++ [call]) d) i)
    (hnone : (s.recordSession c seq call.1.index result).sessions[d]? = none) :
    (s.recordSession c seq call.1.index result).sessions.size = s.maxSessions ∧
      ∀ (e : UInt64) session,
        (s.recordSession c seq call.1.index result).sessions[e]? = some session →
          i < session.lastIndex := by
  have hne : d ≠ c := by
    rintro rfl
    cases hnone.symm.trans (h.record_self hcall)
  have hold : IsGreatest (freshIndexes calls d) i := hcall.others hne ▸ hi
  set added := s.sessions.insert c ⟨seq, call.1.index, result⟩ with hadded
  have htable : (s.recordSession c seq call.1.index result).sessions =
      evictSessions s.maxSessions added := by
    rw [Store.recordSession, dif_neg hcall.nonzero]
  cases hd : s.sessions[d]? with
  | none =>
    -- The table was full, and it stays so.
    obtain ⟨hfull, holder⟩ := h.lost d i hold hd
    constructor
    · have hgrow : s.sessions.size ≤ added.size := Std.ExtTreeMap.size_le_size_insert
      rw [htable, size_evictSessions]
      omega
    · intro e session he
      rcases Store.getElem?_recordSession hcall.nonzero he with ⟨-, he⟩ | ⟨-, rfl⟩
      · exact holder e session he
      · exact hcall.below hold.1
  | some session =>
    -- Those that stay come after it in the order of eviction.
    have hget : added[d]? = some session := by
      rw [hadded, Std.ExtTreeMap.getElem?_insert,
        if_neg fun heq => hne (Std.LawfulEqCmp.compare_eq_iff_eq.mp heq).symm, hd]
    have hgone : (evictSessions s.maxSessions added)[d]? = none := htable ▸ hnone
    obtain ⟨hover, holder⟩ := evicted_le hget hgone
    obtain rfl := hold.unique (h.last d session hd)
    constructor
    · rw [htable, size_evictSessions]
      omega
    · intro e kept he
      rcases holder e kept (htable ▸ he) with hlt | ⟨heq, -⟩
      · exact hlt
      · have hmem : session.lastIndex ∈ freshIndexes (calls ++ [call]) e := by
          rw [show session.lastIndex = kept.lastIndex from heq]
          exact (h.record_last hcall e kept he).1
        obtain rfl := eq_of_mem_freshIndexes hcall.ordered hi.1 hmem
        cases hnone.symm.trans he

/-- A new request is recorded, and the table lets go of the oldest client if there is no room. -/
theorem record (h : Recent calls s) (hcall : FreshCall calls call c) :
    Recent (calls ++ [call]) (s.recordSession c seq call.1.index result) where
  last := h.record_last hcall
  lost := by
    rw [Store.maxSessions_recordSession]
    exact h.record_lost hcall
  current entry answer cmd hlast hcmd _ := by
    rw [List.getLast?_concat] at hlast
    cases hlast
    rw [hcall.client hcmd]
    exact ⟨_, h.record_self hcall⟩

end Record

/-- The clients in the table are the most recent ones, as many as there is room for. -/
theorem mem_iff (h : Recent calls s) (c : UInt64) :
    c ∈ s.sessions ↔ ∃ i, IsGreatest (freshIndexes calls c) i ∧
      {d | ∃ j, IsGreatest (freshIndexes calls d) j ∧ i < j}.encard < s.maxSessions := by
  have hmem : ∀ d, d ∈ s.sessions ↔ ∃ session, s.sessions[d]? = some session := fun d => by
    rw [Std.ExtTreeMap.mem_iff_isSome_getElem?, Option.isSome_iff_exists]
  set table := ((candidates s.sessions).map (·.id)).toFinset with htable
  have hin : ∀ d, d ∈ table ↔ ∃ session, s.sessions[d]? = some session := fun d => by
    rw [htable, List.mem_toFinset, mem_map_candidates]
  have hcard : table.card = s.sessions.size := by
    rw [htable, List.toFinset_card_of_nodup (candidates_nodup _), List.length_map,
      candidates_length]
  rw [hmem]
  constructor
  · rintro ⟨session, hsession⟩
    have hlast := h.last c session hsession
    refine ⟨session.lastIndex, hlast, ?_⟩
    have hsub : {d | ∃ j, IsGreatest (freshIndexes calls d) j ∧ session.lastIndex < j} ⊆
        (table.erase c : Finset UInt64) := by
      rintro d ⟨j, hj, hlt⟩
      rw [Finset.coe_erase]
      constructor
      · by_contra hnot
        rw [Finset.mem_coe, hin, ← Option.isSome_iff_exists, Option.not_isSome_iff_eq_none] at hnot
        exact hlt.not_gt ((h.lost d j hj hnot).2 c session hsession)
      · rintro rfl
        exact hlt.ne (hlast.unique hj)
    have herase := Finset.card_erase_lt_of_mem ((hin c).mpr ⟨session, hsession⟩)
    have hsize := s.size_le
    calc _ ≤ _ := Set.encard_le_encard hsub
      _ = ((table.erase c).card : ℕ∞) := Set.encard_coe_eq_coe_finsetCard _
      _ < s.maxSessions := by
        rw [Nat.cast_lt]
        omega
  · rintro ⟨i, hi, hfew⟩
    by_contra hnot
    rw [← Option.isSome_iff_exists, Option.not_isSome_iff_eq_none] at hnot
    obtain ⟨hfull, holder⟩ := h.lost c i hi hnot
    have hsub : (table : Set UInt64) ⊆ {d | ∃ j, IsGreatest (freshIndexes calls d) j ∧ i < j} := by
      intro d hd
      obtain ⟨session, hsession⟩ := (hin d).mp hd
      exact ⟨_, h.last d session hsession, holder d session hsession⟩
    have hmany := Set.encard_le_encard hsub
    rw [Set.encard_coe_eq_coe_finsetCard, hcard, hfull] at hmany
    exact hmany.not_gt hfew

end Recent

/-! ### Runs -/

theorem Store.execute_fresh {data data' : Map} {cmd : Command} {result : Result}
    (h : execute data cmd = some (result, data')) : result.duplicate = false := by
  rw [execute] at h
  split at h <;> cases h <;> rfl

variable {it}

/-- A call fails, or it answers a retry, or it executes a new request and records it. -/
theorem Store.call_cases (s : Store) (entry : LogEntry) :
    (∃ e, s.call it entry = (.error e, s)) ∨
    (∃ cmd result, decodeCommand entry.command = .ok cmd ∧
      s.checkSession cmd.clientID cmd.sequence = some result ∧
      s.call it entry = (.ok result, { s with applied := entry.index })) ∨
    ∃ cmd result data, decodeCommand entry.command = .ok cmd ∧ result.duplicate = false ∧
      s.call it entry = (.ok result,
        { { s with data }.recordSession cmd.clientID cmd.sequence entry.index result with
          applied := entry.index }) := by
  simp only [call, applyIn_eq, apply]
  cases hdecode : decodeCommand entry.command with
  | error e => exact .inl ⟨_, rfl⟩
  | ok cmd =>
    dsimp only
    cases hcheck : s.checkSession cmd.clientID cmd.sequence with
    | some result => exact .inr (.inl ⟨cmd, result, rfl, hcheck, rfl⟩)
    | none =>
      dsimp only
      cases hexec : execute s.data cmd with
      | none => exact .inl ⟨_, rfl⟩
      | some x => exact .inr (.inr ⟨cmd, x.1, x.2, rfl, execute_fresh hexec, rfl⟩)

theorem Recent.call {calls : List Call} {s : Store} (h : Recent calls s) {entry : LogEntry}
    (hcalls : calls.Pairwise (·.1.index < ·.1.index))
    (hlater : ∀ other ∈ calls, other.1.index < entry.index) :
    Recent (calls ++ [(entry, (s.call it entry).1)]) (s.call it entry).2 := by
  rcases s.call_cases entry with ⟨e, hcall⟩ | ⟨cmd, result, hdecode, hcheck, hcall⟩ |
    ⟨cmd, result, data, hdecode, hnew, hcall⟩
  · rw [hcall]
    refine h.unchanged ?_ rfl rfl ?_
    · rw [freshClient]
      split
      · rename_i heq
        cases heq
      · rfl
    · rintro _ _ ⟨⟩
  · rw [hcall]
    refine h.unchanged ?_ rfl rfl ?_
    · simp only [freshClient, hdecode, Store.duplicate_of_checkSession hcheck, true_or, if_true]
    · intro _ cmd' _ hcmd hid
      cases hdecode.symm.trans hcmd
      rw [← Option.isSome_iff_exists, ← Option.ne_none_iff_isSome]
      intro hnone
      cases hcheck.symm.trans (Store.checkSession_of_none hnone)
  · rw [hcall]
    by_cases hzero : cmd.clientID = 0
    · rw [Store.recordSession, dif_pos hzero]
      refine h.unchanged ?_ rfl rfl ?_
      · simp only [freshClient, hdecode, hzero, or_true, if_true]
      · intro _ cmd' _ hcmd hid
        cases hdecode.symm.trans hcmd
        exact absurd hzero hid
    · have hcall : FreshCall calls (entry, .ok result) cmd.clientID := by
        refine ⟨pairwise_concat hcalls hlater, ?_⟩
        simp [freshClient, hdecode, hnew, hzero]
      have hdata : Recent calls { s with data } := ⟨h.last, h.lost, h.current⟩
      have hrecord : Recent (calls ++ [(entry, .ok result)])
          ({ s with data }.recordSession cmd.clientID cmd.sequence entry.index result) :=
        hdata.record hcall
      exact ⟨hrecord.last, hrecord.lost, hrecord.current⟩

theorem Store.maxSessions_call (s : Store) (entry : LogEntry) :
    (s.call it entry).2.maxSessions = s.maxSessions := by
  rcases s.call_cases entry with ⟨e, hcall⟩ | ⟨cmd, result, -, -, hcall⟩ |
    ⟨cmd, result, data, -, -, hcall⟩
  · rw [hcall]
  · rw [hcall]
  · rw [hcall]
    exact maxSessions_recordSession _ _ _ _ _

theorem Store.call_ignores_order (it it' : Iteration) (s : Store) (entry : LogEntry) :
    s.call it entry = s.call it' entry := by
  simp only [call, applyIn_eq]

theorem Store.applyEach_ignores_order (its its' : ℕ → Iteration) (s : Store)
    (entries : List LogEntry) :
    s.applyEach its entries = s.applyEach its' entries := by
  induction entries generalizing s its its' with
  | nil => rfl
  | cons entry entries ih =>
    rw [applyEach, applyEach, call_ignores_order (its 0) (its' 0),
      ih (fun k => its (k + 1)) (fun k => its' (k + 1))]

theorem Store.maxSessions_applyEach (its : ℕ → Iteration) (s : Store) (entries : List LogEntry) :
    (s.applyEach its entries).2.maxSessions = s.maxSessions := by
  induction entries generalizing s its with
  | nil => rfl
  | cons entry entries ih =>
    rw [applyEach]
    exact (ih _ _).trans (s.maxSessions_call entry)

theorem Recent.applyEach {calls : List Call} {s : Store} (h : Recent calls s)
    {entries : List LogEntry}
    (hcalls : calls.Pairwise (·.1.index < ·.1.index))
    (hentries : entries.Pairwise (·.index < ·.index))
    (hlater : ∀ other ∈ calls, ∀ entry ∈ entries, other.1.index < entry.index)
    (its : ℕ → Iteration) :
    Recent (calls ++ (s.applyEach its entries).1) (s.applyEach its entries).2 := by
  induction entries generalizing calls s its with
  | nil =>
    rw [Store.applyEach, List.append_nil]
    exact h
  | cons entry entries ih =>
    obtain ⟨hfirst, hrest⟩ := List.pairwise_cons.mp hentries
    have hnow : ∀ other ∈ calls, other.1.index < entry.index := fun other hother =>
      hlater other hother entry List.mem_cons_self
    rw [Store.applyEach, List.append_cons]
    refine ih (h.call hcalls hnow) (pairwise_concat hcalls hnow) hrest ?_ _
    intro other hother next hnext
    rcases List.mem_append.mp hother with hmem | hmem
    · exact hlater other hmem next (List.mem_cons_of_mem _ hnext)
    · rw [List.mem_singleton.mp hmem]
      exact hfirst next hnext

theorem newWithSessionLimit_maxSessions {n : Int64} (hn : 1 ≤ n) :
    (newWithSessionLimit n).maxSessions = n.toInt.toNat :=
  if_neg (Int64.not_lt.mpr hn)

/-- After every entry of a log, the table holds the clients whose last new request is the most
recent, as many as the limit allows.  The client of the entry is one of them, and the order of the
ranges makes no difference. -/
theorem eviction_least_recent {n : Int64} (hn : 1 ≤ n) {entries : List LogEntry}
    (hentries : entries.Pairwise (·.index < ·.index)) (its : ℕ → Iteration) :
    let calls := ((newWithSessionLimit n).applyEach its entries).1
    let s := ((newWithSessionLimit n).applyEach its entries).2
    s.sessions.size ≤ n.toInt.toNat ∧
    (∀ c, c ∈ s.sessions ↔ ∃ i, IsGreatest (freshIndexes calls c) i ∧
      {d | ∃ j, IsGreatest (freshIndexes calls d) j ∧ i < j}.encard < n.toInt.toNat) ∧
    (∀ entry result cmd, calls.getLast? = some (entry, .ok result) →
      decodeCommand entry.command = .ok cmd → cmd.clientID ≠ 0 → cmd.clientID ∈ s.sessions) ∧
    ∀ its', (newWithSessionLimit n).applyEach its' entries = (calls, s) := by
  have hrecent := (Recent.nil n).applyEach .nil hentries (List.forall_mem_nil _) its
  rw [List.nil_append] at hrecent
  have hmax := ((newWithSessionLimit n).maxSessions_applyEach its entries).trans
    (newWithSessionLimit_maxSessions hn)
  refine ⟨hmax ▸ Store.size_le _, fun c => ?_, fun entry result cmd hlast hcmd hid => ?_,
    fun its' => ?_⟩
  · rw [hrecent.mem_iff, hmax]
  · rw [Std.ExtTreeMap.mem_iff_isSome_getElem?, Option.isSome_iff_exists]
    exact hrecent.current entry result cmd hlast hcmd hid
  · exact Store.applyEach_ignores_order its' its _ entries

/-- Clients 7 and 8 write, and there is room for one of them. -/
theorem eviction_least_recent_two :
    let entries : List LogEntry := [{ index := 1, command := [0, 7, 1, 1, 1, 1, 10] },
      { index := 2, command := [0, 8, 1, 1, 1, 1, 20] }]
    let s := ((newWithSessionLimit 1).applyEach (fun _ => .ascending) entries).2
    s.sessions.size ≤ 1 ∧ (8 : UInt64) ∈ s.sessions := by
  intro entries s
  have h : entries.Pairwise (·.index < ·.index) := by decide
  have hn : (1 : Int64) ≤ 1 := by decide
  obtain ⟨hsize, -, hcurrent, -⟩ := eviction_least_recent hn h fun _ => .ascending
  exact ⟨hsize, hcurrent _ {} _ (by rfl) (by rfl) (by decide)⟩

end RaftStore.Kvstore
