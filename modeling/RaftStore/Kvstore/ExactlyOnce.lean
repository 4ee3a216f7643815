import Mathlib.Data.List.Dedup
import RaftStore.Kvstore.Sessions

/-! What a session promises: a retry is recognised and takes effect once.  The table keeps the
highest sequence number of each client, so the promise rests on the order in which the requests of
one client reach the log. -/

namespace RaftStore.Kvstore

open Raft Store

/-- The client and the sequence number of an entry. -/
def request (e : LogEntry) : Option (UInt64 × UInt64) :=
  (knownCommand e).map fun cmd => (cmd.clientID, cmd.sequence)

theorem request_eq {e : LogEntry} {cmd : Command} (h : knownCommand e = some cmd) :
    request e = some (cmd.clientID, cmd.sequence) := by
  rw [request, h]
  rfl

theorem Commands.append_left {k : ℕ} {pre post : List LogEntry} (h : Commands k (pre ++ post)) :
    Commands k pre := by
  induction pre generalizing k with
  | nil => trivial
  | cons e pre ih => exact ⟨h.1, h.2.1, ih h.2.2⟩

theorem Commands.known {k : ℕ} {log : List LogEntry} (h : Commands k log) {e : LogEntry}
    (he : e ∈ log) : ∃ cmd, knownCommand e = some cmd := by
  induction log generalizing k with
  | nil => exact nomatch he
  | cons e' log ih =>
    rcases List.mem_cons.mp he with rfl | he
    · exact Option.isSome_iff_exists.mp h.2.1
    · exact ih h.2.2 he

theorem Store.exists_applyAll {k : ℕ} {log : List LogEntry} (h : Commands k log) (s : Store) :
    ∃ results s', s.applyAll log = .ok (results, s') := by
  induction log generalizing k s with
  | nil => exact ⟨[], s, rfl⟩
  | cons e log ih =>
    obtain ⟨cmd, hcmd⟩ := h.known List.mem_cons_self
    obtain ⟨result, s', happly⟩ : ∃ result s', s.apply e = .ok (result, s') := by
      rcases s.apply_ok hcmd with ⟨_, -, happly⟩ | ⟨_, _, -, -, -, happly⟩
      · exact ⟨_, _, happly⟩
      · exact ⟨_, _, happly⟩
    obtain ⟨results, s'', hall⟩ := ih h.2.2 s'
    refine ⟨result :: results, s'', ?_⟩
    simp only [applyAll, happly, hall]

/-! ### Requests that are answered without being applied -/

/-- The store after a log, from an empty one that remembers at most `n` clients. -/
def Reaches (n : Int64) (log : List LogEntry) (s : Store) : Prop :=
  ∃ results, (newWithSessionLimit n).applyAll log = .ok (results, s)

/-- After `pre`, the entry is answered as a retry. -/
def Repeated (n : Int64) (pre : List LogEntry) (e : LogEntry) : Prop :=
  ∃ s result s', Reaches n pre s ∧ s.apply e = .ok (result, s') ∧ result.duplicate = true

/-- After `pre`, the entry's command is executed on the map. -/
def Executed (n : Int64) (pre : List LogEntry) (e : LogEntry) : Prop :=
  ∃ s cmd result s', Reaches n pre s ∧ knownCommand e = some cmd ∧
    s.apply e = .ok (result, s') ∧ result.duplicate = false ∧
    execute s.data cmd = some (result, s'.data)

theorem Reaches.unique {n : Int64} {log : List LogEntry} {s s' : Store} (h : Reaches n log s)
    (h' : Reaches n log s') : s = s' := by
  obtain ⟨results, h⟩ := h
  obtain ⟨results', h'⟩ := h'
  cases h.symm.trans h'
  rfl

theorem executed_of_new {n : Int64} {pre : List LogEntry} {e : LogEntry} {cmd : Command} {s : Store}
    (hs : Reaches n pre s) (hcmd : knownCommand e = some cmd)
    (hnew : s.checkSession cmd.clientID cmd.sequence = none) : Executed n pre e := by
  rcases s.apply_ok hcmd with ⟨result, hold, -⟩ | ⟨result, data, -, hexec, hdup, happly⟩
  · exact nomatch hnew.symm.trans hold
  · refine ⟨s, cmd, result, _, hs, hcmd, happly, hdup, ?_⟩
    rw [hexec, data_recordSession]

theorem repeated_iff {n : Int64} {pre : List LogEntry} {e : LogEntry} {cmd : Command} {s : Store}
    (hs : Reaches n pre s) (hcmd : knownCommand e = some cmd) :
    Repeated n pre e ↔ s.checkSession cmd.clientID cmd.sequence ≠ none := by
  constructor
  · rintro ⟨s', result, s'', hs', happly, hdup⟩ hnew
    obtain rfl := hs.unique hs'
    rcases s.apply_ok hcmd with ⟨_, hold, -⟩ | ⟨_, _, -, -, hfresh, happly'⟩
    · exact nomatch hnew.symm.trans hold
    · cases happly.symm.trans happly'
      exact nomatch hdup.symm.trans hfresh
  · intro hold
    rcases s.apply_ok hcmd with ⟨result, hold, happly⟩ | ⟨_, _, hnew, -⟩
    · exact ⟨s, result, _, hs, happly, duplicate_of_checkSession hold⟩
    · exact absurd hnew hold

/-- No write is lost exactly when a request that reaches the log for the first time finds no session
of its client with a sequence number at or above its own. -/
theorem no_write_lost_iff (n : Int64) {log : List LogEntry} (hlog : Commands 0 log) :
    (∀ pre e post, log = pre ++ e :: post → Repeated n pre e →
      ∃ pre' e' post', pre = pre' ++ e' :: post' ∧ request e' = request e ∧ Executed n pre' e') ↔
    ∀ pre e post c q, log = pre ++ e :: post → request e = some (c, q) →
      (∀ e' ∈ pre, request e' ≠ some (c, q)) →
        ∀ s prev, Reaches n pre s → s.sessions[c]? = some prev → prev.lastSeq < q := by
  constructor
  · intro h pre e post c q hsplit hreq hfirst s prev hs hprev
    obtain ⟨cmd, hcmd⟩ := hlog.known (e := e) (hsplit ▸ by simp)
    rw [request_eq hcmd] at hreq
    cases hreq
    by_contra hge
    have hrepeat : Repeated n pre e :=
      (repeated_iff hs hcmd).mpr fun hnew => hge (checkSession_eq_none_iff.mp hnew prev hprev)
    obtain ⟨pre', e', post', rfl, hsame, -⟩ := h pre e post hsplit hrepeat
    exact hfirst e' (by simp) (hsame.trans (request_eq hcmd))
  · intro h pre e post hsplit hrepeat
    obtain ⟨cmd, hcmd⟩ := hlog.known (e := e) (hsplit ▸ by simp)
    have hreach : ∀ pre' rest, log = pre' ++ rest → ∃ s, Reaches n pre' s := by
      intro pre' rest hpre'
      obtain ⟨results, s, hs⟩ :=
        Store.exists_applyAll (hpre' ▸ hlog).append_left (newWithSessionLimit n)
      exact ⟨s, results, hs⟩
    -- The first entry of the same request; the retry shows that there is one before it.
    have hearlier : ∃ e' ∈ pre, request e' = request e := by
      by_contra hnone
      push Not at hnone
      obtain ⟨s, hs⟩ := hreach pre _ hsplit
      refine (repeated_iff hs hcmd).mp hrepeat (checkSession_eq_none_iff.mpr fun prev hprev => ?_)
      exact h pre e post _ _ hsplit (request_eq hcmd)
        (fun e' he' => request_eq hcmd ▸ hnone e' he') s prev hs hprev
    obtain ⟨e₀, he₀, hreq₀⟩ := hearlier
    have hfind : (pre.find? fun e' => decide (request e' = request e)).isSome = true :=
      List.find?_isSome.mpr ⟨e₀, he₀, decide_eq_true hreq₀⟩
    obtain ⟨e', he'⟩ := Option.isSome_iff_exists.mp hfind
    obtain ⟨hsame, pre', post', hpre, hfirst⟩ := List.find?_eq_some_iff_append.mp he'
    have hsame := of_decide_eq_true hsame
    have hsplit' : log = pre' ++ e' :: (post' ++ e :: post) := by
      rw [hsplit, hpre, List.append_assoc, List.cons_append]
    obtain ⟨cmd', hcmd'⟩ := hlog.known (e := e') (hsplit' ▸ by simp)
    obtain ⟨s, hs⟩ := hreach pre' _ hsplit'
    refine ⟨pre', e', post', hpre, hsame, executed_of_new hs hcmd' ?_⟩
    refine checkSession_eq_none_iff.mpr fun prev hprev => ?_
    refine h pre' e' _ _ _ hsplit' (request_eq hcmd') (fun x hx => ?_) s prev hs hprev
    rw [← request_eq hcmd', hsame]
    simpa using hfirst x hx

/-- The sequence numbers of each client reach the log for the first time in increasing order. -/
def InOrder (log : List LogEntry) : Prop :=
  ∀ pre e post c q, log = pre ++ e :: post → request e = some (c, q) → c ≠ 0 →
    (∀ e' ∈ pre, request e' ≠ some (c, q)) → ∀ e' ∈ pre, ∀ q', request e' = some (c, q') → q' < q

/-- What is remembered of a client was in the log. -/
theorem sessions_from_log {k : ℕ} {log : List LogEntry} (hlog : Commands k log) {s s' : Store}
    {results : List Result} (hall : s.applyAll log = .ok (results, s')) {c : UInt64} {prev : Session}
    (h : s'.sessions[c]? = some prev) :
    (∃ p, s.sessions[c]? = some p ∧ p.lastSeq = prev.lastSeq) ∨
      ∃ e ∈ log, request e = some (c, prev.lastSeq) := by
  induction log generalizing s k results with
  | nil =>
    cases hall
    exact .inl ⟨prev, h, rfl⟩
  | cons e log ih =>
    rw [applyAll] at hall
    split at hall
    · exact nomatch hall
    · rename_i result s₁ happly
      split at hall
      · exact nomatch hall
      · rename_i hall'
        cases hall
        rcases ih hlog.2.2 hall' with ⟨p, hp, hseq⟩ | ⟨e', he', hreq⟩
        · obtain ⟨cmd, hcmd⟩ := hlog.known List.mem_cons_self
          rcases s.apply_ok hcmd with ⟨_, -, happly'⟩ | ⟨r, data, -, -, -, happly'⟩
          · cases happly.symm.trans happly'
            exact .inl ⟨p, hp, hseq⟩
          · cases happly.symm.trans happly'
            by_cases hzero : cmd.clientID = 0
            · simp only [recordSession, hzero, dite_true] at hp
              exact .inl ⟨p, hp, hseq⟩
            · rcases getElem?_recordSession hzero hp with ⟨-, hp⟩ | ⟨rfl, rfl⟩
              · exact .inl ⟨p, hp, hseq⟩
              · exact .inr ⟨e, List.mem_cons_self, hseq ▸ request_eq hcmd⟩
        · exact .inr ⟨e', List.mem_cons_of_mem _ he', hreq⟩

/-- A client that waits for one answer before it sends the next request loses no write. -/
theorem InOrder.above {n : Int64} {log : List LogEntry} (h : InOrder log) (hlog : Commands 0 log)
    {pre post : List LogEntry} {e : LogEntry} {c q : UInt64} (hsplit : log = pre ++ e :: post)
    (hreq : request e = some (c, q)) (hfirst : ∀ e' ∈ pre, request e' ≠ some (c, q)) {s : Store}
    {prev : Session} (hs : Reaches n pre s) (hprev : s.sessions[c]? = some prev) :
    prev.lastSeq < q := by
  have hc : c ≠ 0 := by
    rintro rfl
    exact nomatch s.nonzero.symm.trans hprev
  obtain ⟨results, hs⟩ := hs
  rcases sessions_from_log (hsplit ▸ hlog).append_left hs hprev with ⟨p, hp, -⟩ | ⟨e', he', hreq'⟩
  · rw [newWithSessionLimit, Std.ExtTreeMap.getElem?_empty] at hp
    exact nomatch hp
  · exact h pre e post c q hsplit hreq hc hfirst e' he' _ hreq'

/-- After `pre` the command is new: it has no session, or its sequence number is above those of all
earlier entries of its client. -/
def IsNew (pre : List LogEntry) (cmd : Command) : Prop :=
  cmd.clientID = 0 ∨ ∀ e ∈ pre, ∀ other ∈ knownCommand e,
    other.clientID = cmd.clientID → other.sequence < cmd.sequence

instance (pre : List LogEntry) (cmd : Command) : Decidable (IsNew pre cmd) :=
  inferInstanceAs (Decidable (_ ∨ _))

theorem isNew_iff {pre : List LogEntry} {cmd : Command} :
    IsNew pre cmd ↔ (cmd.clientID ≠ 0 →
      ∀ e ∈ pre, ∀ q, request e = some (cmd.clientID, q) → q < cmd.sequence) := by
  rw [IsNew, or_iff_not_imp_left]
  refine imp_congr_right fun _ => forall₂_congr fun e _ =>
    ⟨fun h q hreq => ?_, fun h other hother heq => ?_⟩
  · obtain ⟨other, hother, heq⟩ := Option.map_eq_some_iff.mp hreq
    obtain ⟨hclient, rfl⟩ := Prod.mk.inj heq
    exact h other hother hclient
  · exact h _ (by rw [request_eq hother, heq])

/-- Every entry repeats an earlier request or carries a new command. -/
theorem inOrder_of_take {log : List LogEntry}
    (h : ∀ i < log.length, ∀ cmd ∈ log[i]?.bind knownCommand,
      (∃ e ∈ log.take i, request e = some (cmd.clientID, cmd.sequence)) ∨ IsNew (log.take i) cmd) :
    InOrder log := by
  rintro pre e post c q rfl hreq hc hfirst e' he' q' hreq'
  obtain ⟨cmd, hcmd, heq⟩ := Option.map_eq_some_iff.mp hreq
  cases heq
  have hcase := h pre.length (by simp) cmd (by simpa using hcmd)
  rw [List.take_left] at hcase
  rcases hcase with ⟨e₀, he₀, hreq₀⟩ | hnew
  · exact absurd hreq₀ (hfirst e₀ he₀)
  · exact isNew_iff.mp hnew hc e' he' q' hreq'

/-- Client 7 writes a key, client 8 writes another, and client 7 repeats its write and deletes the
key. -/
def interleaved : List LogEntry :=
  [{ index := 1, command := [0, 7, 1, 1, 1, 1, 10] }, { index := 2, command := [0, 8, 1, 1, 2, 1, 20] },
   { index := 3, command := [0, 7, 1, 1, 1, 1, 10] }, { index := 4, command := [1, 7, 2, 1, 1, 0] }]

theorem no_write_lost_interleaved :
    Repeated 8 (interleaved.take 2) { index := 3, command := [0, 7, 1, 1, 1, 1, 10] } ∧
    ∀ pre e post, interleaved = pre ++ e :: post → Repeated 8 pre e →
      ∃ pre' e' post', pre = pre' ++ e' :: post' ∧ request e' = request e ∧ Executed 8 pre' e' := by
  have horder : InOrder interleaved := inOrder_of_take (by decide)
  refine ⟨⟨_, _, _, ⟨_, rfl⟩, rfl, rfl⟩, (no_write_lost_iff 8 (by decide)).mpr ?_⟩
  intro pre e post c q hsplit hreq hfirst s prev hs hprev
  exact horder.above (by decide) hsplit hreq hfirst hs hprev

/-- Two writes of client 7, the later request first. -/
def swapped : List LogEntry :=
  [{ index := 1, command := [0, 7, 2, 1, 1, 1, 10] }, { index := 2, command := [0, 7, 1, 1, 2, 1, 20] }]

/-- The earlier request is answered as a retry and its key is never written. -/
theorem earlier_request_lost :
    ∃ s, new.applyAll swapped = .ok ([{ duplicate := false }, { duplicate := true }], s) ∧
      s.get [2] = none :=
  ⟨_, rfl, by decide⟩

/-! ### Exactly once -/

/-- The entry repeats a request with a session that is in `pre`. -/
def isRetry (pre : List LogEntry) (e : LogEntry) : Bool :=
  match request e with
  | none => false
  | some (c, q) => decide (c ≠ 0) && pre.any fun e' => decide (request e' = some (c, q))

/-- The log after `pre`, without the entries that repeat a request. -/
def withoutRetries (pre : List LogEntry) : List LogEntry → List LogEntry
  | [] => []
  | e :: es =>
    if isRetry pre e then withoutRetries (pre ++ [e]) es else e :: withoutRetries (pre ++ [e]) es

/-- The clients with a session that the log mentions. -/
def clients (log : List LogEntry) : List UInt64 :=
  (((log.filterMap request).map (·.1)).filter (· ≠ 0)).dedup

theorem mem_clients {log : List LogEntry} {e : LogEntry} {c q : UInt64} (he : e ∈ log)
    (hreq : request e = some (c, q)) (hc : c ≠ 0) : c ∈ clients log := by
  rw [clients, List.mem_dedup, List.mem_filter, List.mem_map]
  exact ⟨⟨(c, q), List.mem_filterMap.mpr ⟨e, he, hreq⟩, rfl⟩, by simpa using hc⟩

/-- The table holds the highest sequence number of every client in `pre`. -/
structure Tracks (s : Store) (pre : List LogEntry) : Prop where
  known : ∀ (c : UInt64) p, s.sessions[c]? = some p →
    (∃ e ∈ pre, request e = some (c, p.lastSeq)) ∧
      ∀ e ∈ pre, ∀ q, request e = some (c, q) → q ≤ p.lastSeq
  seen : ∀ e ∈ pre, ∀ c q, request e = some (c, q) → c ≠ 0 → ∃ p, s.sessions[c]? = some p

namespace Tracks

variable {s : Store} {pre : List LogEntry} {e : LogEntry} {c q : UInt64}

theorem empty (n : Int64) : Tracks (newWithSessionLimit n) [] where
  known c p hp := by
    rw [newWithSessionLimit, Std.ExtTreeMap.getElem?_empty] at hp
    cases hp
  seen e he := by cases he

theorem retry (h : Tracks s pre) (hc : c ≠ 0)
    (he : ∃ e' ∈ pre, ∃ q', request e' = some (c, q') ∧ q ≤ q') : s.checkSession c q ≠ none := by
  obtain ⟨e', he', q', hreq, hle⟩ := he
  obtain ⟨p, hp⟩ := h.seen e' he' c q' hreq hc
  intro hnew
  have hlt := checkSession_eq_none_iff.mp hnew p hp
  exact UInt64.not_lt.mpr (UInt64.le_trans hle ((h.known c p hp).2 e' he' q' hreq)) hlt

/-- What is known of a client is known after an entry that is not above its last request. -/
theorem known_concat (h : Tracks s pre) {d : UInt64} {p : Session} (hp : s.sessions[d]? = some p)
    (hle : ∀ q', request e = some (d, q') → q' ≤ p.lastSeq) :
    (∃ e' ∈ pre ++ [e], request e' = some (d, p.lastSeq)) ∧
      ∀ e' ∈ pre ++ [e], ∀ q', request e' = some (d, q') → q' ≤ p.lastSeq := by
  obtain ⟨⟨e₁, he₁, hreq₁⟩, hpre⟩ := h.known d p hp
  refine ⟨⟨e₁, List.mem_append_left _ he₁, hreq₁⟩, fun e₂ he₂ q₂ hreq₂ => ?_⟩
  rcases List.mem_append.mp he₂ with he₂ | he₂
  · exact hpre e₂ he₂ q₂ hreq₂
  · rw [List.mem_singleton.mp he₂] at hreq₂
    exact hle q₂ hreq₂

/-- An entry that the table already covers changes nothing. -/
theorem covered (h : Tracks s pre) (hreq : request e = some (c, q))
    (he : c = 0 ∨ ∃ e' ∈ pre, ∃ q', request e' = some (c, q') ∧ q ≤ q') :
    Tracks s (pre ++ [e]) where
  known d p hp := by
    refine h.known_concat hp fun q' hreq' => ?_
    rw [hreq] at hreq'
    cases hreq'
    rcases he with rfl | ⟨e', he', q', hreq', hle⟩
    · cases s.nonzero.symm.trans hp
    · exact UInt64.le_trans hle ((h.known _ p hp).2 e' he' _ hreq')
  seen e₂ he₂ d q₂ hreq₂ hd := by
    rcases List.mem_append.mp he₂ with he₂ | he₂
    · exact h.seen e₂ he₂ d q₂ hreq₂ hd
    · obtain rfl := List.mem_singleton.mp he₂
      rw [hreq] at hreq₂
      cases hreq₂
      rcases he with rfl | ⟨e', he', q', hreq', -⟩
      · exact absurd rfl hd
      · exact h.seen e' he' _ _ hreq' hd

/-- With room for every client of the log, none is evicted. -/
theorem insert_size_le (h : Tracks s pre) {log : List LogEntry} (new : Session)
    (hroom : (clients log).length ≤ s.maxSessions) (hpre : ∀ e' ∈ pre, e' ∈ log) (he : e ∈ log)
    (hreq : request e = some (c, q)) (hc : c ≠ 0) : (s.sessions.insert c new).size ≤ s.maxSessions := by
  rw [← candidates_length, ← List.length_map Candidate.id]
  refine (List.subperm_of_subset (candidates_nodup _) fun d hd => ?_).length_le.trans hroom
  obtain ⟨p, hp⟩ := mem_map_candidates.mp hd
  rw [Std.ExtTreeMap.getElem?_insert] at hp
  split at hp
  · rename_i heq
    rw [Std.LawfulEqCmp.compare_eq_iff_eq] at heq
    exact heq ▸ mem_clients he hreq hc
  · obtain ⟨⟨e', he', hreq'⟩, -⟩ := h.known d p hp
    refine mem_clients (hpre e' he') hreq' ?_
    rintro rfl
    exact nomatch s.nonzero.symm.trans hp

/-- A request above all earlier ones of its client is recorded. -/
theorem record (h : Tracks s pre) {s' : Store} (new : Session) (hreq : request e = some (c, q))
    (hseq : new.lastSeq = q) (hs' : s'.sessions = s.sessions.insert c new)
    (habove : ∀ e' ∈ pre, ∀ q', request e' = some (c, q') → q' < q) : Tracks s' (pre ++ [e]) where
  known d p hp := by
    rw [hs', Std.ExtTreeMap.getElem?_insert] at hp
    simp only [Std.LawfulEqCmp.compare_eq_iff_eq] at hp
    split at hp
    · rename_i heq
      cases hp
      subst heq
      refine ⟨⟨e, by simp, hseq ▸ hreq⟩, fun e₂ he₂ q₂ hreq₂ => ?_⟩
      rcases List.mem_append.mp he₂ with he₂ | he₂
      · rw [hseq]
        exact UInt64.le_of_lt (habove e₂ he₂ q₂ hreq₂)
      · obtain rfl := List.mem_singleton.mp he₂
        rw [hreq] at hreq₂
        cases hreq₂
        exact hseq ▸ UInt64.le_refl _
    · rename_i hne
      refine h.known_concat hp fun q' hreq' => ?_
      rw [hreq] at hreq'
      cases hreq'
      exact absurd rfl hne
  seen e₂ he₂ d q₂ hreq₂ hd := by
    rw [hs', Std.ExtTreeMap.getElem?_insert]
    split
    · exact ⟨_, rfl⟩
    · rename_i hne
      rw [Std.LawfulEqCmp.compare_eq_iff_eq] at hne
      rcases List.mem_append.mp he₂ with he₂ | he₂
      · exact h.seen e₂ he₂ d q₂ hreq₂ hd
      · obtain rfl := List.mem_singleton.mp he₂
        rw [hreq] at hreq₂
        cases hreq₂
        exact absurd rfl hne

/-- A request above all earlier ones of its client is new to the table. -/
theorem check_new (h : Tracks s pre)
    (habove : c ≠ 0 → ∀ e' ∈ pre, ∀ q', request e' = some (c, q') → q' < q) :
    s.checkSession c q = none := by
  refine checkSession_eq_none_iff.mpr fun p hp => ?_
  obtain ⟨⟨e', he', hreq'⟩, -⟩ := h.known _ p hp
  refine habove ?_ e' he' _ hreq'
  rintro rfl
  cases s.nonzero.symm.trans hp

/-- A request that is not a retry is executed. -/
theorem apply_new (h : Tracks s pre) {log : List LogEntry} {cmd : Command}
    (hroom : (clients log).length ≤ s.maxSessions) (hpre : ∀ e' ∈ pre, e' ∈ log) (he : e ∈ log)
    (hcmd : knownCommand e = some cmd)
    (habove : cmd.clientID ≠ 0 →
      ∀ e' ∈ pre, ∀ q', request e' = some (cmd.clientID, q') → q' < cmd.sequence) :
    ∃ result s', s.apply e = .ok (result, s') ∧ execute s.data cmd = some (result, s'.data) ∧
      s'.maxSessions = s.maxSessions ∧ Tracks s' (pre ++ [e]) := by
  have hreq := request_eq hcmd
  rcases s.apply_ok hcmd with ⟨_, hold, -⟩ | ⟨result, data, -, hexec, -, happly⟩
  · cases (h.check_new habove).symm.trans hold
  · refine ⟨result, _, happly, ?_, maxSessions_recordSession _ _ _ _ _, ?_⟩
    · rw [hexec, data_recordSession]
    · by_cases hzero : cmd.clientID = 0
      · have hcovered := h.covered hreq (.inl hzero)
        refine ⟨fun d p hp => hcovered.known d p ?_, fun e₂ he₂ d q₂ hreq₂ hd => ?_⟩
        · simpa only [recordSession, hzero, dite_true] using hp
        · simpa only [recordSession, hzero, dite_true] using hcovered.seen e₂ he₂ d q₂ hreq₂ hd
      · refine h.record ⟨cmd.sequence, e.index, result⟩ hreq rfl ?_ (habove hzero)
        have hsize := h.insert_size_le ⟨cmd.sequence, e.index, result⟩ hroom hpre he hreq hzero
        simp only [recordSession, hzero, dite_false, evictSessions]
        rw [if_pos hsize]

theorem apply_retry (h : Tracks s pre) {cmd : Command} (hcmd : knownCommand e = some cmd)
    (hc : cmd.clientID ≠ 0)
    (he : ∃ e' ∈ pre, ∃ q', request e' = some (cmd.clientID, q') ∧ cmd.sequence ≤ q') :
    ∃ result s', s.apply e = .ok (result, s') ∧ s'.data = s.data ∧
      s'.maxSessions = s.maxSessions ∧ Tracks s' (pre ++ [e]) := by
  rcases s.apply_ok hcmd with ⟨result, -, happly⟩ | ⟨_, _, hnew, -⟩
  · have hcovered := h.covered (request_eq hcmd) (.inr he)
    exact ⟨result, _, happly, rfl, rfl, hcovered.known, hcovered.seen⟩
  · exact absurd hnew (h.retry hc he)

end Tracks

theorem isRetry_iff {pre : List LogEntry} {e : LogEntry} {cmd : Command}
    (hcmd : knownCommand e = some cmd) :
    isRetry pre e = true ↔
      cmd.clientID ≠ 0 ∧ ∃ e' ∈ pre, request e' = some (cmd.clientID, cmd.sequence) := by
  simp [isRetry, request_eq hcmd]

/-- A store that sees the retries keeps the same map as one that does not. -/
theorem applyAll_withoutRetries {log pre rest : List LogEntry} {k : ℕ} {s s' : Store}
    (hsplit : log = pre ++ rest) (hrest : Commands k rest) (horder : InOrder log)
    (hs : Tracks s pre) (hs' : Tracks s' pre) (hroom : (clients log).length ≤ s.maxSessions)
    (hroom' : (clients log).length ≤ s'.maxSessions) (hdata : s.data = s'.data) :
    ∃ results t results' t', s.applyAll rest = .ok (results, t) ∧
      s'.applyAll (withoutRetries pre rest) = .ok (results', t') ∧ t.data = t'.data := by
  induction rest generalizing pre k s s' with
  | nil => exact ⟨[], s, [], s', rfl, rfl, hdata⟩
  | cons e rest ih =>
    obtain ⟨cmd, hcmd⟩ := hrest.known List.mem_cons_self
    have hsplit' : log = pre ++ [e] ++ rest := by rw [hsplit, List.append_assoc, List.singleton_append]
    have hpre : ∀ e' ∈ pre, e' ∈ log := fun e' he' => hsplit ▸ List.mem_append_left _ he'
    have he : e ∈ log := hsplit ▸ by simp
    rw [withoutRetries]
    split
    · rename_i hretry
      obtain ⟨hc, e₀, he₀, hreq₀⟩ := (isRetry_iff hcmd).mp hretry
      have hseen : ∃ e' ∈ pre, ∃ q', request e' = some (cmd.clientID, q') ∧ cmd.sequence ≤ q' :=
        ⟨e₀, he₀, _, hreq₀, UInt64.le_refl _⟩
      obtain ⟨r, s₁, happly, hdata₁, hmax₁, hs₁⟩ := hs.apply_retry hcmd hc hseen
      have hs₁' : Tracks s' (pre ++ [e]) := hs'.covered (request_eq hcmd) (.inr hseen)
      obtain ⟨results, t, results', t', hall, hall', heq⟩ :=
        ih hsplit' hrest.2.2 hs₁ hs₁' (hmax₁ ▸ hroom) hroom' (hdata₁.trans hdata)
      refine ⟨r :: results, t, results', t', ?_, hall', heq⟩
      simp only [applyAll, happly, hall]
    · rename_i hfirst
      have habove : cmd.clientID ≠ 0 →
          ∀ e' ∈ pre, ∀ q', request e' = some (cmd.clientID, q') → q' < cmd.sequence := by
        intro hc
        refine horder pre e rest _ _ hsplit (request_eq hcmd) hc fun e' he' hreq' => hfirst ?_
        exact (isRetry_iff hcmd).mpr ⟨hc, e', he', hreq'⟩
      obtain ⟨r, s₁, happly, hexec, hmax₁, hs₁⟩ := hs.apply_new hroom hpre he hcmd habove
      obtain ⟨r', s₁', happly', hexec', hmax₁', hs₁'⟩ := hs'.apply_new hroom' hpre he hcmd habove
      have hsame : s₁.data = s₁'.data := by
        rw [hdata, hexec'] at hexec
        simp only [Option.some.injEq, Prod.mk.injEq] at hexec
        exact hexec.2.symm
      obtain ⟨results, t, results', t', hall, hall', heq⟩ :=
        ih hsplit' hrest.2.2 hs₁ hs₁' (hmax₁ ▸ hroom) (hmax₁' ▸ hroom') hsame
      refine ⟨r :: results, t, r' :: results', t', ?_, ?_, heq⟩
      · simp only [applyAll, happly, hall]
      · simp only [applyAll, happly', hall']

/-- With room for every client, and the requests of each client first reaching the log in order, the
retries change nothing, and requests without a session are always executed. -/
theorem sessions_exactly_once (n : Int64) {log : List LogEntry} (hlog : Commands 0 log)
    (hclients : (clients log).length ≤ (newWithSessionLimit n).maxSessions) (horder : InOrder log) :
    (∃ results s results' s', (newWithSessionLimit n).applyAll log = .ok (results, s) ∧
      (newWithSessionLimit n).applyAll (withoutRetries [] log) = .ok (results', s') ∧
      s.data = s'.data) ∧
    ∀ pre e post cmd, log = pre ++ e :: post → knownCommand e = some cmd → cmd.clientID = 0 →
      Executed n pre e := by
  constructor
  · exact applyAll_withoutRetries rfl hlog horder (.empty n) (.empty n) hclients hclients rfl
  · intro pre e post cmd hsplit hcmd hzero
    obtain ⟨results, s, hs⟩ :=
      Store.exists_applyAll (hsplit ▸ hlog).append_left (newWithSessionLimit n)
    refine executed_of_new ⟨results, hs⟩ hcmd ?_
    rw [hzero]
    exact checkSession_of_none s.nonzero

/-- A write of client 7 that is sent twice. -/
def sentTwice : List LogEntry :=
  [{ index := 1, command := [0, 7, 1, 1, 1, 1, 10] }, { index := 2, command := [0, 7, 1, 1, 1, 1, 10] }]

theorem inOrder_sentTwice : InOrder sentTwice := inOrder_of_take (by decide)

theorem sessions_exactly_once_sentTwice :
    (clients sentTwice).length ≤ (newWithSessionLimit 1).maxSessions ∧
    (∃ results s results' s', (newWithSessionLimit 1).applyAll sentTwice = .ok (results, s) ∧
      (newWithSessionLimit 1).applyAll (withoutRetries [] sentTwice) = .ok (results', s') ∧
      s.data = s'.data) ∧
    ∀ pre e post cmd, sentTwice = pre ++ e :: post → knownCommand e = some cmd →
      cmd.clientID = 0 → Executed 1 pre e :=
  ⟨by decide, sessions_exactly_once 1 (by decide) (by decide) inOrder_sentTwice⟩

end RaftStore.Kvstore
