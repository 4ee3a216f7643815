import RaftStore.Kvstore.Store

/-! What the answers of a store depend on: the map, and its clients in the order of eviction with
the last answer of each.  The log indexes that the order comes from do not matter as long as they
grow, so a store refines a machine that has none. -/

namespace RaftStore.Kvstore

open Raft

/-- A bounded memory of clients, oldest first: the last sequence number of each, and whether its
command found its key. -/
@[ext]
structure Memory where
  limit : ℕ
  order : List UInt64
  answer : UInt64 → Option (UInt64 × Bool)

namespace Memory

def check (m : Memory) (clientID seq : UInt64) : Option Result :=
  if clientID = 0 then none
  else
    match m.answer clientID with
    | none => none
    | some (last, existed) => if last < seq then none else some { existed, duplicate := true }

/-- Puts the client last and forgets the oldest ones that are too many. -/
def touch (m : Memory) (clientID seq : UInt64) (existed : Bool) : Memory :=
  if clientID = 0 then m
  else
    let order := m.order.filter (· ≠ clientID) ++ [clientID]
    let kept := order.drop (order.length - m.limit)
    { m with
      order := kept
      answer := fun id =>
        if id ∈ kept then if id = clientID then some (seq, existed) else m.answer id else none }

end Memory

/-- The state machine without log indexes. -/
@[ext]
structure Machine where
  data : Map
  memory : Memory

def Machine.step (m : Machine) (cmd : Command) : Option (Result × Machine) :=
  match m.memory.check cmd.clientID cmd.sequence with
  | some result => some (result, m)
  | none =>
    match Store.execute m.data cmd with
    | none => none
    | some (result, data) =>
      some (result, ⟨data, m.memory.touch cmd.clientID cmd.sequence result.existed⟩)

/-- The command of an entry, when it is one of the two known operations. -/
def knownCommand (entry : LogEntry) : Option Command :=
  match decodeCommand entry.command with
  | .error _ => none
  | .ok cmd =>
    match cmd.op with
    | .unknown _ => none
    | .set | .delete => some cmd

/-- A stretch of log above index `k`: known commands with strictly increasing indexes. -/
def Commands (k : ℕ) : List LogEntry → Prop
  | [] => True
  | e :: es => k < e.index ∧ (knownCommand e).isSome = true ∧ Commands e.index es

instance decidableCommands : ∀ (k : ℕ) (es : List LogEntry), Decidable (Commands k es)
  | _, [] => .isTrue trivial
  | k, e :: es =>
    have := decidableCommands e.index es
    inferInstanceAs (Decidable (k < e.index ∧ (knownCommand e).isSome = true ∧ Commands e.index es))

theorem knownCommand_eq_some {entry : LogEntry} {cmd : Command} (h : knownCommand entry = some cmd) :
    decodeCommand entry.command = .ok cmd ∧ ∀ b, cmd.op ≠ .unknown b := by
  rw [knownCommand] at h
  split at h
  · exact nomatch h
  · rename_i hdecode
    split at h
    · exact nomatch h
    all_goals
      rename_i hop
      cases h
      exact ⟨hdecode, fun b hb => nomatch hop.symm.trans hb⟩

namespace Store

theorem execute_isSome (data : Map) {cmd : Command} (h : ∀ b, cmd.op ≠ .unknown b) :
    ∃ result data', execute data cmd = some (result, data') ∧ result.duplicate = false := by
  rw [execute]
  split
  · exact ⟨_, _, rfl, rfl⟩
  · exact ⟨_, _, rfl, rfl⟩
  · rename_i hop
    exact absurd hop (h _)

theorem apply_ok (s : Store) {entry : LogEntry} {cmd : Command} (hcmd : knownCommand entry = some cmd) :
    (∃ result, s.checkSession cmd.clientID cmd.sequence = some result ∧
      s.apply entry = .ok (result, { s with applied := entry.index })) ∨
    ∃ result data, s.checkSession cmd.clientID cmd.sequence = none ∧
      execute s.data cmd = some (result, data) ∧ result.duplicate = false ∧
      s.apply entry = .ok (result,
        { { s with data }.recordSession cmd.clientID cmd.sequence entry.index result with
          applied := entry.index }) := by
  obtain ⟨hdecode, hop⟩ := knownCommand_eq_some hcmd
  unfold apply
  simp only [hdecode]
  cases hnew : s.checkSession cmd.clientID cmd.sequence with
  | some result => exact .inl ⟨result, rfl, rfl⟩
  | none =>
    obtain ⟨result, data, hexec, hdup⟩ := execute_isSome s.data hop
    refine .inr ⟨result, data, rfl, hexec, hdup, ?_⟩
    simp only [hexec]

theorem checkSession_of_some {s : Store} {c q : UInt64} {prev : Session} (hc : c ≠ 0)
    (h : s.sessions[c]? = some prev) :
    s.checkSession c q =
      if prev.lastSeq < q then none else some { prev.result with duplicate := true } := by
  simp only [checkSession, hc, if_false, h]

theorem checkSession_of_none {s : Store} {c q : UInt64} (h : s.sessions[c]? = none) :
    s.checkSession c q = none := by
  simp only [checkSession, h, ite_self]

theorem checkSession_eq_none_iff {s : Store} {c q : UInt64} :
    s.checkSession c q = none ↔ ∀ prev, s.sessions[c]? = some prev → prev.lastSeq < q := by
  by_cases hc : c = 0
  · subst hc
    rw [checkSession_of_none s.nonzero, s.nonzero]
    exact ⟨fun _ _ h => (nomatch h), fun _ => rfl⟩
  · cases hs : s.sessions[c]? with
    | none => exact ⟨fun _ _ h => (nomatch h), fun _ => checkSession_of_none hs⟩
    | some prev =>
      rw [checkSession_of_some hc hs]
      simp

theorem duplicate_of_checkSession {s : Store} {c q : UInt64} {result : Result}
    (h : s.checkSession c q = some result) : result.duplicate = true := by
  rw [checkSession] at h
  split at h
  · exact nomatch h
  · split at h
    · exact nomatch h
    · split at h
      · exact nomatch h
      · cases h
        rfl

def memory (s : Store) : Memory where
  limit := s.maxSessions
  order := (candidates s.sessions).map (·.id)
  answer id := s.sessions[id]?.map fun session => (session.lastSeq, session.result.existed)

def machine (s : Store) : Machine := ⟨s.data, s.memory⟩

theorem check_memory (s : Store) (clientID seq : UInt64) :
    s.memory.check clientID seq = s.checkSession clientID seq := by
  rw [Memory.check, checkSession]
  split
  · rfl
  · simp only [memory]
    cases s.sessions[clientID]? with
    | none => rfl
    | some session => rfl

theorem mem_order {s : Store} {id : UInt64} :
    id ∈ s.memory.order ↔ ∃ session, s.sessions[id]? = some session :=
  mem_map_candidates

theorem order_nodup (s : Store) : s.memory.order.Nodup := candidates_nodup s.sessions

theorem order_length (s : Store) : s.memory.order.length = s.sessions.size := by
  simp only [memory, List.length_map, candidates_length]

/-- The clients after a request of `clientID` at `index` is recorded, before any is evicted. -/
theorem memory_recordSession {s : Store} {clientID seq : UInt64} {index : ℕ} {result : Result}
    (hnew : ∀ c session, s.sessions[c]? = some session → c ≠ clientID → clientID ≠ 0 →
      Candidate.LE ⟨c, session.lastIndex⟩ ⟨clientID, index⟩) :
    (s.recordSession clientID seq index result).memory =
      s.memory.touch clientID seq result.existed := by
  rw [recordSession, Memory.touch]
  split
  · rfl
  · rename_i hid
    have horder : (candidates (s.sessions.insert clientID ⟨seq, index, result⟩)).map (·.id) =
        s.memory.order.filter (· ≠ clientID) ++ [clientID] := by
      rw [candidates_insert fun c session hs hne => hnew c session hs hne hid, List.map_append,
        memory, List.filter_map]
      rfl
    have hsize : (s.sessions.insert clientID ⟨seq, index, result⟩).size =
        (s.memory.order.filter (· ≠ clientID) ++ [clientID]).length := by
      rw [← horder, List.length_map, candidates_length]
    refine Memory.ext rfl ?_ (funext fun id => ?_)
    · show (candidates (evictSessions _ _)).map (·.id) = _
      rw [candidates_evictSessions, hsize, List.map_drop, horder]
      rfl
    · show Option.map _ (evictSessions _ _)[id]? = _
      rw [getElem?_evictSessions, hsize, List.map_drop, horder, Std.ExtTreeMap.getElem?_insert]
      simp only [Std.LawfulEqCmp.compare_eq_iff_eq, eq_comm (a := clientID) (b := id)]
      split
      · rename_i hkept
        refine Eq.trans ?_ (if_pos hkept).symm
        split
        · rfl
        · rfl
      · rename_i hkept
        exact (if_neg hkept).symm

@[simp]
theorem data_recordSession (s : Store) (clientID seq : UInt64) (index : ℕ) (result : Result) :
    (s.recordSession clientID seq index result).data = s.data := by
  rw [recordSession]
  split <;> rfl

@[simp]
theorem maxSessions_recordSession (s : Store) (clientID seq : UInt64) (index : ℕ)
    (result : Result) :
    (s.recordSession clientID seq index result).maxSessions = s.maxSessions := by
  rw [recordSession]
  split <;> rfl

/-- Every client in the table comes before any client that a request above index `k` puts last. -/
def Ages (s : Store) (k : ℕ) : Prop :=
  ∀ c session, s.sessions[c]? = some session →
    ∀ id seq, id ≠ c → id ≠ 0 → s.checkSession id seq = none →
      Candidate.LE ⟨c, session.lastIndex⟩ ⟨id, k + 1⟩

theorem Ages.of_lastIndex_le {s : Store} {k : ℕ}
    (h : ∀ (c : UInt64) session, s.sessions[c]? = some session → session.lastIndex ≤ k) : s.Ages k :=
  fun c session hs _ _ _ _ _ => .inl (Nat.lt_succ_of_le (h c session hs))

theorem Ages.mono {s : Store} {j k : ℕ} (h : s.Ages j) (hjk : j ≤ k) : s.Ages k :=
  fun c session hs id seq hne hid hnew => (h c session hs id seq hne hid hnew).mono (by omega)

theorem getElem?_recordSession {s : Store} {clientID seq : UInt64} {index : ℕ} {result : Result}
    (hid : clientID ≠ 0) {c : UInt64} {session : Session}
    (h : (s.recordSession clientID seq index result).sessions[c]? = some session) :
    c ≠ clientID ∧ s.sessions[c]? = some session ∨
      c = clientID ∧ session = ⟨seq, index, result⟩ := by
  rw [recordSession, dif_neg hid] at h
  simp only [getElem?_evictSessions, Std.ExtTreeMap.getElem?_insert,
    Std.LawfulEqCmp.compare_eq_iff_eq] at h
  split at h
  · split at h
    · rename_i hc
      cases h
      exact .inr ⟨hc.symm, rfl⟩
    · rename_i hc
      exact .inl ⟨Ne.symm hc, h⟩
  · cases h

/-- A request that was new and is recorded stands last. -/
theorem Ages.recordSession {s : Store} {k index : ℕ} {clientID seq : UInt64} {result : Result}
    (h : s.Ages k) (hk : k < index) (hnew : s.checkSession clientID seq = none) :
    (s.recordSession clientID seq index result).Ages index := by
  by_cases hzero : clientID = 0
  · rw [Store.recordSession, dif_pos hzero]
    exact h.mono hk.le
  · intro c session hs id _ _ _ _
    rcases getElem?_recordSession hzero hs with ⟨hne, hs⟩ | ⟨rfl, rfl⟩
    · -- The request itself was new, so the old client stands before it at any index above `k`.
      rcases h c session hs clientID seq hne.symm hzero hnew with hlt | ⟨heq, -⟩
      · exact .inl (by simp only at hlt ⊢; omega)
      · exact .inl (by simp only at heq ⊢; omega)
    · exact .inl (Nat.lt_succ_self _)

/-- The machine keeps step with the store, as long as log indexes grow. -/
theorem apply_machine {s : Store} {k : ℕ} {entry : LogEntry} {cmd : Command} (h : s.Ages k)
    (hk : k < entry.index) (hcmd : knownCommand entry = some cmd) :
    ∃ result s', s.apply entry = .ok (result, s') ∧
      s.machine.step cmd = some (result, s'.machine) ∧ s'.Ages entry.index := by
  obtain ⟨hdecode, hop⟩ := knownCommand_eq_some hcmd
  have hcheck := s.check_memory cmd.clientID cmd.sequence
  unfold apply Machine.step
  simp only [hdecode, machine, hcheck]
  cases hnew : s.checkSession cmd.clientID cmd.sequence with
  | some result => exact ⟨_, _, rfl, rfl, h.mono hk.le⟩
  | none =>
    obtain ⟨result, data, hexec, -⟩ := execute_isSome s.data hop
    simp only [hexec]
    have hages : { s with data }.Ages k := h
    refine ⟨_, _, rfl, ?_, hages.recordSession hk hnew⟩
    have hmem : ({ s with data }.recordSession cmd.clientID cmd.sequence entry.index result).memory =
        s.memory.touch cmd.clientID cmd.sequence result.existed :=
      memory_recordSession fun c session hs hne hid => (h c session hs _ _ hne.symm hid hnew).mono hk
    rw [← hmem]
    have hdata := data_recordSession { s with data } cmd.clientID cmd.sequence entry.index result
    show some (result, Machine.mk data _) = some (result, Machine.mk _ _)
    rw [hdata]
    rfl

end Store

end RaftStore.Kvstore
