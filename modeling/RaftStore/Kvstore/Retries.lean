import Mathlib.Data.List.Induction
import RaftStore.Kvstore.ExactlyOnce

/-! What a retry is answered with.  The table keeps one answer for each client, the one of the
request that was executed last, and every retry of the client gets it.  What the requests of a log
were answered with is told from the log itself: which commands are new, and which keys they leave. -/

namespace RaftStore.Kvstore

open Raft Store

/-- The entries of a log with their answers, from an empty store that remembers at most `n`
clients. -/
def outcomes (n : Int64) (log : List LogEntry) : List (LogEntry × Result) :=
  match (newWithSessionLimit n).applyAll log with
  | .error _ => []
  | .ok (results, _) => log.zip results

theorem Store.applyAll_append (s : Store) (log log' : List LogEntry) :
    s.applyAll (log ++ log') =
      match s.applyAll log with
      | .error e => .error e
      | .ok (results, s) =>
        match s.applyAll log' with
        | .error e => .error e
        | .ok (results', s) => .ok (results ++ results', s) := by
  induction log generalizing s with
  | nil =>
    simp only [List.nil_append, applyAll]
    cases s.applyAll log' <;> rfl
  | cons e log ih =>
    simp only [List.cons_append, applyAll]
    cases s.apply e with
    | error err => rfl
    | ok p =>
      obtain ⟨result, s⟩ := p
      simp only [ih]
      cases s.applyAll log with
      | error err => rfl
      | ok p =>
        obtain ⟨results, s⟩ := p
        dsimp only
        cases s.applyAll log' <;> rfl

theorem Store.length_applyAll {s s' : Store} {log : List LogEntry} {results : List Result}
    (h : s.applyAll log = .ok (results, s')) : results.length = log.length := by
  induction log generalizing s results with
  | nil =>
    cases h
    rfl
  | cons e log ih =>
    rw [applyAll] at h
    split at h
    · cases h
    · split at h
      · cases h
      · rename_i hall
        cases h
        rw [List.length_cons, List.length_cons, ih hall]

/-- One more entry is answered by the store that the others have led to. -/
theorem outcomes_concat {n : Int64} {log : List LogEntry} {e : LogEntry} {s s' : Store}
    {result : Result} (hs : Reaches n log s) (h : s.apply e = .ok (result, s')) :
    outcomes n (log ++ [e]) = outcomes n log ++ [(e, result)] ∧ Reaches n (log ++ [e]) s' := by
  obtain ⟨results, hall⟩ := hs
  have happend : (newWithSessionLimit n).applyAll (log ++ [e]) = .ok (results ++ [result], s') := by
    rw [applyAll_append, hall]
    simp only [applyAll, h]
  refine ⟨?_, results ++ [result], happend⟩
  simp only [outcomes, happend, hall]
  rw [List.zip_append (length_applyAll hall).symm]
  rfl

/-- An entry is answered by the store that the entries before it have led to. -/
theorem apply_of_outcomes {n : Int64} {log : List LogEntry} {j : ℕ} {e : LogEntry} {r : Result}
    (h : (outcomes n log)[j]? = some (e, r)) :
    log[j]? = some e ∧ ∃ s s', Reaches n (log.take j) s ∧ s.apply e = .ok (r, s') := by
  simp only [outcomes] at h
  split at h
  · simp at h
  · rename_i results t hall
    obtain ⟨he, hr⟩ := List.getElem?_zip_eq_some.mp h
    obtain ⟨hj, rfl⟩ := List.getElem?_eq_some_iff.mp he
    have hsplit : log = log.take j ++ log[j] :: log.drop (j + 1) := by
      rw [← List.drop_eq_getElem_cons hj, List.take_append_drop]
    rw [hsplit, applyAll_append] at hall
    split at hall
    · exact nomatch hall
    · rename_i results₁ s hpre
      rw [applyAll] at hall
      have hlen := length_applyAll hpre
      rw [List.length_take, min_eq_left hj.le] at hlen
      cases happly : s.apply log[j] with
      | error err => simp [happly] at hall
      | ok p =>
        obtain ⟨r₁, s₁⟩ := p
        rw [happly] at hall
        dsimp only at hall
        cases hpost : s₁.applyAll (log.drop (j + 1)) with
        | error err => simp [hpost] at hall
        | ok p =>
          rw [hpost] at hall
          cases hall
          rw [List.getElem?_append_right hlen.le, hlen, Nat.sub_self] at hr
          cases hr
          exact ⟨he, s, s₁, ⟨results₁, hpre⟩, happly⟩

/-! ### What a log makes of the keys -/

/-- The command of entry `i`, when it is new. -/
def newAt (log : List LogEntry) (i : ℕ) : Option Command :=
  (log[i]?.bind knownCommand).filter fun cmd => IsNew (log.take i) cmd

/-- Entry `k` is the last new one whose command satisfies `p`. -/
def Last (log : List LogEntry) (p : Command → Prop) (k : ℕ) : Prop :=
  (∃ cmd ∈ newAt log k, p cmd) ∧ ∀ l < log.length, k < l → ∀ cmd ∈ newAt log l, ¬p cmd

instance (log : List LogEntry) (p : Command → Prop) [DecidablePred p] (k : ℕ) :
    Decidable (Last log p k) :=
  inferInstanceAs (Decidable (_ ∧ _))

/-- The last new command on the key is a write. -/
def Held (log : List LogEntry) (key : Bytes) : Prop :=
  ∃ k < log.length, Last log (·.key = key) k ∧ ∃ cmd ∈ newAt log k, cmd.op = .set

instance (log : List LogEntry) (key : Bytes) : Decidable (Held log key) :=
  inferInstanceAs (Decidable (∃ k < log.length, _ ∧ _))

/-- Entry `i` is new and deletes a key that is held. -/
def Removes (log : List LogEntry) (i : ℕ) : Prop :=
  ∃ cmd ∈ newAt log i, cmd.op = .delete ∧ Held (log.take i) cmd.key

instance (log : List LogEntry) (i : ℕ) : Decidable (Removes log i) :=
  inferInstanceAs (Decidable (∃ cmd ∈ newAt log i, _ ∧ _))

section Concat

variable {log : List LogEntry} {e : LogEntry} {cmd : Command} {i : ℕ}

theorem lt_length_of_newAt (h : cmd ∈ newAt log i) : i < log.length := by
  by_contra hi
  rw [newAt, List.getElem?_eq_none (by omega)] at h
  cases h

theorem newAt_take {j : ℕ} (hi : i < j) : newAt (log.take j) i = newAt log i := by
  rw [newAt, newAt, List.getElem?_take_of_lt hi, List.take_take, min_eq_left hi.le]

theorem removes_take {j : ℕ} (hi : i < j) : Removes (log.take j) i ↔ Removes log i := by
  rw [Removes, Removes, newAt_take hi, List.take_take, min_eq_left hi.le]

theorem newAt_concat_of_lt (hi : i < log.length) : newAt (log ++ [e]) i = newAt log i := by
  have h : newAt ((log ++ [e]).take log.length) i = newAt (log ++ [e]) i := newAt_take hi
  rw [← h, List.take_left]

theorem removes_concat_of_lt (hi : i < log.length) :
    Removes (log ++ [e]) i ↔ Removes log i := by
  have h : Removes ((log ++ [e]).take log.length) i ↔ Removes (log ++ [e]) i := removes_take hi
  rw [← h, List.take_left]

theorem newAt_concat_length (hcmd : knownCommand e = some cmd) :
    newAt (log ++ [e]) log.length = if IsNew log cmd then some cmd else none := by
  simp [newAt, hcmd, Option.filter]

/-- An entry of `log ++ [e]` is one of `log`, or `e` itself. -/
theorem newAt_concat (hcmd : knownCommand e = some cmd) {cmd' : Command} :
    cmd' ∈ newAt (log ++ [e]) i ↔
      cmd' ∈ newAt log i ∨ i = log.length ∧ IsNew log cmd ∧ cmd' = cmd := by
  rcases lt_trichotomy i log.length with hi | rfl | hi
  · rw [newAt_concat_of_lt hi]
    simp [hi.ne]
  · rw [newAt_concat_length hcmd]
    have hnone : cmd' ∉ newAt log log.length := fun h => lt_irrefl _ (lt_length_of_newAt h)
    by_cases hnew : IsNew log cmd
    · simp [hnew, hnone, eq_comm]
    · simp [hnew, hnone]
  · refine iff_of_false (fun h => ?_) (fun h => ?_)
    · have := lt_length_of_newAt h
      rw [List.length_append, List.length_singleton] at this
      omega
    · rcases h with h | ⟨h, -⟩
      · exact absurd (lt_length_of_newAt h) (by omega)
      · omega

theorem Last.lt_length {p : Command → Prop} (h : Last log p i) : i < log.length :=
  lt_length_of_newAt h.1.choose_spec.1

theorem Last.unique {p : Command → Prop} {k : ℕ} (h : Last log p i) (h' : Last log p k) : i = k := by
  obtain ⟨cmd, hcmd, hp⟩ := h.1
  obtain ⟨cmd', hcmd', hp'⟩ := h'.1
  rcases lt_trichotomy i k with hlt | heq | hlt
  · exact absurd hp' (h.2 k h'.lt_length hlt cmd' hcmd')
  · exact heq
  · exact absurd hp (h'.2 i h.lt_length hlt cmd hcmd)

/-- An entry that is repeated, or does not satisfy `p`, leaves the last one that does. -/
theorem last_concat_other {p : Command → Prop} (hcmd : knownCommand e = some cmd)
    (h : IsNew log cmd → ¬p cmd) : Last (log ++ [e]) p i ↔ Last log p i := by
  have hlen : (log ++ [e]).length = log.length + 1 := List.length_append
  constructor
  · rintro ⟨⟨cmd', hcmd', hp⟩, hlast⟩
    rcases (newAt_concat hcmd).mp hcmd' with hcmd' | ⟨-, hnew, rfl⟩
    · refine ⟨⟨cmd', hcmd', hp⟩, fun l hl hlt cmd₁ hcmd₁ => ?_⟩
      exact hlast l (by omega) hlt cmd₁ ((newAt_concat hcmd).mpr (.inl hcmd₁))
    · exact absurd hp (h hnew)
  · rintro ⟨⟨cmd', hcmd', hp⟩, hlast⟩
    refine ⟨⟨cmd', (newAt_concat hcmd).mpr (.inl hcmd'), hp⟩, fun l _ hlt cmd₁ hcmd₁ => ?_⟩
    rcases (newAt_concat hcmd).mp hcmd₁ with hcmd₁ | ⟨-, hnew, rfl⟩
    · exact hlast l (lt_length_of_newAt hcmd₁) hlt cmd₁ hcmd₁
    · exact h hnew

theorem last_concat_self {p : Command → Prop} (hcmd : knownCommand e = some cmd)
    (hnew : IsNew log cmd) (hp : p cmd) : Last (log ++ [e]) p log.length := by
  refine ⟨⟨cmd, (newAt_concat hcmd).mpr (.inr ⟨rfl, hnew, rfl⟩), hp⟩, fun l hl hlt => ?_⟩
  rw [List.length_append, List.length_singleton] at hl
  omega

/-- An entry that is repeated, or is on another key, leaves the key. -/
theorem held_concat_other {key : Bytes} (hcmd : knownCommand e = some cmd)
    (h : IsNew log cmd → cmd.key ≠ key) : Held (log ++ [e]) key ↔ Held log key := by
  constructor
  · rintro ⟨k, -, hlast, hset⟩
    have hlast := (last_concat_other hcmd h).mp hlast
    rw [newAt_concat_of_lt hlast.lt_length] at hset
    exact ⟨k, hlast.lt_length, hlast, hset⟩
  · rintro ⟨k, hk, hlast, hset⟩
    rw [← newAt_concat_of_lt (e := e) hk] at hset
    have hlast := (last_concat_other hcmd h).mpr hlast
    exact ⟨k, hlast.lt_length, hlast, hset⟩

theorem held_concat_self (hcmd : knownCommand e = some cmd) (hnew : IsNew log cmd) :
    Held (log ++ [e]) cmd.key ↔ cmd.op = .set := by
  have hlast : Last (log ++ [e]) (·.key = cmd.key) log.length := last_concat_self hcmd hnew rfl
  have hself : newAt (log ++ [e]) log.length = some cmd := by
    rw [newAt_concat_length hcmd, if_pos hnew]
  constructor
  · rintro ⟨k, -, hlast', cmd', hcmd', hset⟩
    rw [hlast'.unique hlast, hself] at hcmd'
    cases hcmd'
    exact hset
  · intro hset
    exact ⟨log.length, hlast.lt_length, hlast, cmd, hself, hset⟩

/-- What a new entry removes depends on the entries before it. -/
theorem removes_concat_self (hcmd : knownCommand e = some cmd) (hnew : IsNew log cmd) :
    Removes (log ++ [e]) log.length ↔ cmd.op = .delete ∧ Held log cmd.key := by
  rw [Removes, newAt_concat_length hcmd, if_pos hnew, List.take_left]
  simp

end Concat

/-- A command is not new when its client has sent one with its sequence number or a later one. -/
theorem not_isNew_iff {pre : List LogEntry} {cmd : Command} :
    ¬IsNew pre cmd ↔ cmd.clientID ≠ 0 ∧
      ∃ e ∈ pre, ∃ q, request e = some (cmd.clientID, q) ∧ cmd.sequence ≤ q := by
  rw [isNew_iff]
  push Not
  simp only [UInt64.not_lt]

/-! ### What the store makes of the log -/

/-- With room for every client, the map has the keys that the log holds, and the table has for each
client what its last new command found. -/
structure Follows (n : Int64) (log : List LogEntry) (s : Store) : Prop where
  reaches : Reaches n log s
  tracks : Tracks s log
  limit : s.maxSessions = (newWithSessionLimit n).maxSessions
  data : ∀ key, key ∈ s.data ↔ Held log key
  answers : ∀ (c : UInt64) p, s.sessions[c]? = some p →
    ∃ k, Last log (·.clientID = c) k ∧ (p.result.existed = true ↔ Removes log k)

namespace Follows

variable {n : Int64} {log : List LogEntry} {s : Store} {e : LogEntry} {cmd : Command}

theorem empty (n : Int64) : Follows n [] (newWithSessionLimit n) where
  reaches := ⟨[], rfl⟩
  tracks := .empty n
  limit := rfl
  data key := by simp [newWithSessionLimit, Held]
  answers c p hp := by
    rw [newWithSessionLimit, Std.ExtTreeMap.getElem?_empty] at hp
    cases hp

/-- A repeated request is answered from the table. -/
theorem step_old (h : Follows n log s) (hcmd : knownCommand e = some cmd) (hold : ¬IsNew log cmd) :
    ∃ result s' k, s.apply e = .ok (result, s') ∧ Follows n (log ++ [e]) s' ∧
      result.duplicate = true ∧ Last log (·.clientID = cmd.clientID) k ∧
      (result.existed = true ↔ Removes log k) := by
  obtain ⟨hc, hseen⟩ := not_isNew_iff.mp hold
  obtain ⟨result, s', happly, hdata, hlimit, htracks⟩ := h.tracks.apply_retry hcmd hc hseen
  rcases s.apply_ok hcmd with ⟨result', hcheck, happly'⟩ | ⟨_, _, hnew, -⟩
  · cases happly.symm.trans happly'
    obtain ⟨p, hp⟩ : ∃ p, s.sessions[cmd.clientID]? = some p := by
      obtain ⟨e', he', q, hreq, -⟩ := hseen
      exact h.tracks.seen e' he' _ q hreq hc
    obtain ⟨k, hlast, hremoves⟩ := h.answers _ p hp
    refine ⟨result, _, k, happly, ⟨(outcomes_concat h.reaches happly).2, htracks, h.limit,
      fun key => ?_, fun c p hp => ?_⟩, duplicate_of_checkSession hcheck, hlast, ?_⟩
    · rw [held_concat_other hcmd fun hnew => absurd hnew hold]
      exact h.data key
    · obtain ⟨k, hlast, hremoves⟩ := h.answers c p hp
      refine ⟨k, (last_concat_other hcmd fun hnew => absurd hnew hold).mpr hlast, ?_⟩
      rw [removes_concat_of_lt hlast.lt_length]
      exact hremoves
    · rw [checkSession_of_some hc hp] at hcheck
      split at hcheck
      · cases hcheck
      · cases hcheck
        exact hremoves
  · exact absurd hnew (h.tracks.retry hc hseen)

/-- What a new command finds, and the keys after it. -/
theorem execute_held (h : Follows n log s) (hcmd : knownCommand e = some cmd)
    (hnew : IsNew log cmd) {result : Result} {data : Map}
    (hexec : execute s.data cmd = some (result, data)) :
    (result.existed = true ↔ cmd.op = .delete ∧ Held log cmd.key) ∧
      ∀ key, key ∈ data ↔ Held (log ++ [e]) key := by
  have hkey : ∀ key, Held (log ++ [e]) key ↔
      if cmd.key = key then cmd.op = .set else key ∈ s.data := by
    intro key
    split
    · rename_i heq
      subst heq
      exact held_concat_self hcmd hnew
    · rename_i hne
      rw [held_concat_other hcmd fun _ => hne, h.data]
  simp only [hkey]
  rw [execute] at hexec
  split at hexec
  · rename_i hop
    cases hexec
    refine ⟨by simp [hop], fun key => ?_⟩
    rw [Std.ExtTreeMap.mem_insert, Std.LawfulEqCmp.compare_eq_iff_eq]
    by_cases heq : cmd.key = key
    · simp [heq, hop]
    · simp [heq]
  · rename_i hop
    cases hexec
    refine ⟨by simp [hop, h.data], fun key => ?_⟩
    rw [Std.ExtTreeMap.mem_erase]
    by_cases heq : cmd.key = key
    · simp [heq, hop]
    · simp [heq]
  · cases hexec

/-- A new command is executed and recorded. -/
theorem step_new (h : Follows n log s) {all : List LogEntry}
    (hroom : (clients all).length ≤ (newWithSessionLimit n).maxSessions)
    (hall : ∀ e' ∈ log ++ [e], e' ∈ all) (hcmd : knownCommand e = some cmd)
    (hnew : IsNew log cmd) :
    ∃ result s', s.apply e = .ok (result, s') ∧ Follows n (log ++ [e]) s' ∧
      result.duplicate = false ∧
      (result.existed = true ↔ Removes (log ++ [e]) log.length) := by
  have habove := isNew_iff.mp hnew
  obtain ⟨result, s', happly, hexec, hlimit, htracks⟩ := h.tracks.apply_new (h.limit ▸ hroom)
    (fun e' he' => hall e' (List.mem_append_left _ he')) (hall e (by simp)) hcmd habove
  obtain ⟨hexisted, hdata⟩ := h.execute_held hcmd hnew hexec
  rw [← removes_concat_self hcmd hnew] at hexisted
  rcases s.apply_ok hcmd with ⟨_, hold, -⟩ | ⟨result', data, -, -, hdup, happly'⟩
  · cases (h.tracks.check_new habove).symm.trans hold
  · cases happly.symm.trans happly'
    refine ⟨result, _, happly, ⟨(outcomes_concat h.reaches happly).2, htracks,
      hlimit.trans h.limit, hdata, fun c p hp => ?_⟩, hdup, hexisted⟩
    -- only the client of the entry has another answer than before
    have hother : cmd.clientID ≠ c → s.sessions[c]? = some p →
        ∃ k, Last (log ++ [e]) (·.clientID = c) k ∧
          (p.result.existed = true ↔ Removes (log ++ [e]) k) := by
      intro hne hp
      obtain ⟨k, hlast, hremoves⟩ := h.answers c p hp
      refine ⟨k, (last_concat_other hcmd fun _ => hne).mpr hlast, ?_⟩
      rw [removes_concat_of_lt hlast.lt_length]
      exact hremoves
    by_cases hzero : cmd.clientID = 0
    · simp only [recordSession, hzero, dite_true] at hp
      refine hother ?_ hp
      rintro rfl
      rw [hzero] at hp
      cases s.nonzero.symm.trans hp
    · rcases getElem?_recordSession hzero hp with ⟨hne, hp⟩ | ⟨rfl, rfl⟩
      · exact hother hne.symm hp
      · exact ⟨log.length, last_concat_self hcmd hnew rfl, hexisted⟩

/-- Every store that a log leads to follows it. -/
theorem of_reaches {all : List LogEntry}
    (hroom : (clients all).length ≤ (newWithSessionLimit n).maxSessions)
    (hall : ∀ e' ∈ log, e' ∈ all) (hlog : Commands 0 log) (hs : Reaches n log s) :
    Follows n log s := by
  induction log using List.reverseRecOn generalizing s with
  | nil => exact hs.unique ⟨[], rfl⟩ ▸ empty n
  | append_singleton log e ih =>
    obtain ⟨cmd, hcmd⟩ := hlog.known (e := e) (by simp)
    obtain ⟨results, s₀, hreach⟩ := Store.exists_applyAll hlog.append_left (newWithSessionLimit n)
    have h₀ : Follows n log s₀ :=
      ih (fun e' he' => hall e' (List.mem_append_left _ he')) hlog.append_left ⟨results, hreach⟩
    by_cases hnew : IsNew log cmd
    · obtain ⟨_, s', _, h', -⟩ := h₀.step_new hroom hall hcmd hnew
      exact hs.unique h'.reaches ▸ h'
    · obtain ⟨_, s', _, _, h', -⟩ := h₀.step_old hcmd hnew
      exact hs.unique h'.reaches ▸ h'

end Follows

section Answers

variable {n : Int64} {log : List LogEntry} {j : ℕ} {e : LogEntry} {r : Result} {cmd : Command}

theorem exists_outcome (hlog : Commands 0 log) (hj : log[j]? = some e) :
    ∃ r, (outcomes n log)[j]? = some (e, r) := by
  obtain ⟨results, s, hall⟩ := Store.exists_applyAll hlog (newWithSessionLimit n)
  have hlt : j < results.length :=
    (length_applyAll hall).symm ▸ (List.getElem?_eq_some_iff.mp hj).1
  simp only [outcomes, hall]
  exact ⟨results[j], List.getElem?_zip_eq_some.mpr ⟨hj, List.getElem?_eq_getElem hlt⟩⟩

theorem mem_newAt {i : ℕ} (h : cmd ∈ newAt log i) :
    ∃ e, log[i]? = some e ∧ knownCommand e = some cmd := by
  rw [newAt, Option.mem_def, Option.filter_eq_some_iff, Option.bind_eq_some_iff] at h
  exact h.1

theorem newAt_eq (hj : log[j]? = some e) (hcmd : knownCommand e = some cmd) :
    newAt log j = if IsNew (log.take j) cmd then some cmd else none := by
  simp [newAt, hj, hcmd, Option.filter]

/-- A command that was sent before is not new. -/
theorem not_isNew_of_sent {i : ℕ} (hi : i < j) (he : log[i]? = some e)
    (hreq : request e = some (cmd.clientID, cmd.sequence)) (hc : cmd.clientID ≠ 0) :
    ¬IsNew (log.take j) cmd := by
  refine not_isNew_iff.mpr ⟨hc, e, ?_, _, hreq, UInt64.le_refl _⟩
  exact List.mem_of_getElem? (by rw [List.getElem?_take_of_lt hi, he])

/-- How entry `j` is answered: a new command with what it finds, a repeated one with what the last
new command of its client found. -/
theorem answer_at (hlog : Commands 0 log)
    (hclients : (clients log).length ≤ (newWithSessionLimit n).maxSessions)
    (hj : (outcomes n log)[j]? = some (e, r)) (hcmd : knownCommand e = some cmd) :
    (newAt log j = some cmd ∧ r.duplicate = false ∧ (r.existed = true ↔ Removes log j)) ∨
      ¬IsNew (log.take j) cmd ∧ r.duplicate = true ∧
        ∃ k, Last (log.take j) (·.clientID = cmd.clientID) k ∧
          (r.existed = true ↔ Removes log k) := by
  obtain ⟨hmem, s, s', hs, happly⟩ := apply_of_outcomes hj
  have hlt : j < log.length := (List.getElem?_eq_some_iff.mp hmem).1
  have htake : log.take (j + 1) = log.take j ++ [e] := by
    rw [List.take_succ_eq_append_getElem hlt, (List.getElem?_eq_some_iff.mp hmem).2]
  have hpre : Commands 0 (log.take j) := ((log.take_append_drop j).symm ▸ hlog).append_left
  have h : Follows n (log.take j) s :=
    .of_reaches hclients (fun e' he' => List.mem_of_mem_take he') hpre hs
  by_cases hnew : IsNew (log.take j) cmd
  · have hall : ∀ e' ∈ log.take j ++ [e], e' ∈ log := fun e' he' =>
      List.mem_of_mem_take (htake ▸ he')
    obtain ⟨_, _, happly', -, hdup, hexisted⟩ := h.step_new hclients hall hcmd hnew
    cases happly.symm.trans happly'
    rw [← htake, List.length_take, min_eq_left hlt.le, removes_take (Nat.lt_succ_self j)] at hexisted
    exact .inl ⟨by rw [newAt_eq hmem hcmd, if_pos hnew], hdup, hexisted⟩
  · obtain ⟨_, _, k, happly', -, hdup, hlast, hexisted⟩ := h.step_old hcmd hnew
    cases happly.symm.trans happly'
    refine .inr ⟨hnew, hdup, k, hlast, hexisted.trans (removes_take ?_)⟩
    exact hlast.lt_length.trans_le (List.length_take_le _ _)

end Answers

/-- Entry `j` repeats the request `q` of client `c`, which was executed before with the answer `r'`,
and is answered as a retry, with `r`. -/
structure Retry (n : Int64) (log : List LogEntry) (c q : UInt64) (r' r : Result) (j : ℕ) : Prop where
  original : ∃ i < j, ∃ e', (outcomes n log)[i]? = some (e', r') ∧ request e' = some (c, q)
  again : ∃ e, (outcomes n log)[j]? = some (e, r) ∧ request e = some (c, q)
  executed : r'.duplicate = false
  repeated : r.duplicate = true

/-- Entry `j` sends the new command of entry `i` again, and entry `k` is the last new one of the
client until then. -/
def SentAgain (log : List LogEntry) (i k j : ℕ) : Prop :=
  ∃ cmd ∈ newAt log i, cmd.clientID ≠ 0 ∧
    log[j]?.bind request = some (cmd.clientID, cmd.sequence) ∧
    Last (log.take j) (·.clientID = cmd.clientID) k

instance (log : List LogEntry) (i k j : ℕ) : Decidable (SentAgain log i k j) :=
  inferInstanceAs (Decidable (∃ cmd ∈ newAt log i, _ ∧ _ ∧ _))

section Repeats

variable {n : Int64} {log : List LogEntry} {i k j : ℕ}

/-- A command that is sent again is answered as a retry. -/
theorem SentAgain.retry (hlog : Commands 0 log)
    (hclients : (clients log).length ≤ (newWithSessionLimit n).maxSessions) (hi : i < j)
    (h : SentAgain log i k j) :
    ∃ c q r' r, Retry n log c q r' r j ∧ (r'.existed = true ↔ Removes log i) ∧
      (r.existed = true ↔ Removes log k) := by
  obtain ⟨cmd', hnew, hc, hreq, hlast⟩ := h
  obtain ⟨e', he', hcmd'⟩ := mem_newAt hnew
  obtain ⟨e, he, hreq⟩ := Option.bind_eq_some_iff.mp hreq
  obtain ⟨cmd, hcmd⟩ := hlog.known (List.mem_of_getElem? he)
  obtain ⟨r', hr'⟩ := exists_outcome (n := n) hlog he'
  obtain ⟨r, hr⟩ := exists_outcome (n := n) hlog he
  obtain ⟨hclient, hseq⟩ : cmd.clientID = cmd'.clientID ∧ cmd.sequence = cmd'.sequence := by
    rw [request_eq hcmd] at hreq
    simpa using hreq
  have hold : ¬IsNew (log.take j) cmd := not_isNew_of_sent hi he'
    (by rw [request_eq hcmd', hclient, hseq]) (hclient ▸ hc)
  rcases answer_at hlog hclients hr' hcmd' with ⟨-, hdup', hexisted'⟩ | ⟨hold', -⟩
  · rcases answer_at hlog hclients hr hcmd with ⟨hnew', -⟩ | ⟨-, hdup, k', hlast', hexisted⟩
    · rw [newAt_eq he hcmd, if_neg hold] at hnew'
      cases hnew'
    · rw [hclient] at hlast'
      rw [← hlast.unique hlast'] at hexisted
      exact ⟨_, _, r', r, ⟨⟨i, hi, e', hr', request_eq hcmd'⟩, ⟨e, hr, hreq⟩, hdup', hdup⟩,
        hexisted', hexisted⟩
  · rw [newAt_eq he' hcmd', if_neg hold'] at hnew
    cases hnew

/-- A retry sends a new command again. -/
theorem Retry.sentAgain (hlog : Commands 0 log)
    (hclients : (clients log).length ≤ (newWithSessionLimit n).maxSessions) {c q : UInt64}
    {r' r : Result} (h : Retry n log c q r' r j) :
    j < log.length ∧ ∃ i < j, ∃ k < j, SentAgain log i k j ∧
      (r'.existed = true ↔ Removes log i) ∧ (r.existed = true ↔ Removes log k) := by
  obtain ⟨i, hi, e', hr', hreq'⟩ := h.original
  obtain ⟨e, hr, hreq⟩ := h.again
  obtain ⟨he, -⟩ := apply_of_outcomes hr
  obtain ⟨he', -⟩ := apply_of_outcomes hr'
  obtain ⟨cmd, hcmd⟩ := hlog.known (List.mem_of_getElem? he)
  obtain ⟨cmd', hcmd'⟩ := hlog.known (List.mem_of_getElem? he')
  have hsame : request e = some (cmd'.clientID, cmd'.sequence) := by
    rw [hreq, ← hreq', request_eq hcmd']
  obtain ⟨hclient, -⟩ : cmd.clientID = cmd'.clientID ∧ cmd.sequence = cmd'.sequence := by
    rw [request_eq hcmd] at hsame
    simpa using hsame
  rcases answer_at hlog hclients hr' hcmd' with ⟨hnew, -, hexisted'⟩ | ⟨-, hdup, -⟩
  · rcases answer_at hlog hclients hr hcmd with ⟨-, hdup, -⟩ | ⟨hold, -, k, hlast, hexisted⟩
    · cases hdup.symm.trans h.repeated
    · have hk : k < j := hlast.lt_length.trans_le (List.length_take_le _ _)
      have hc : cmd'.clientID ≠ 0 := hclient ▸ (not_isNew_iff.mp hold).1
      have hbind : log[j]?.bind request = some (cmd'.clientID, cmd'.sequence) := by
        rw [he, Option.bind_some, hsame]
      exact ⟨(List.getElem?_eq_some_iff.mp he).1, i, hi, k, hk,
        ⟨cmd', hnew, hc, hbind, hclient ▸ hlast⟩, hexisted', hexisted⟩
  · cases hdup.symm.trans h.executed

end Repeats

/-- Retries get their original answers exactly when, whenever a command is sent again, it and the
last new command of its client until then either both deleted a key that was there, or neither
did. -/
theorem retries_answered_alike_iff (n : Int64) {log : List LogEntry} (hlog : Commands 0 log)
    (hclients : (clients log).length ≤ (newWithSessionLimit n).maxSessions) :
    (∀ c q r' r j, Retry n log c q r' r j → r.existed = r'.existed) ↔
      ∀ j < log.length, ∀ i < j, ∀ k < j, SentAgain log i k j →
        (Removes log i ↔ Removes log k) := by
  constructor
  · intro h j _ i hi k _ hsent
    obtain ⟨c, q, r', r, hretry, hexisted', hexisted⟩ := hsent.retry (n := n) hlog hclients hi
    rw [← hexisted', ← hexisted, h c q r' r j hretry]
  · intro h c q r' r j hretry
    obtain ⟨hj, i, hi, k, hk, hsent, hexisted', hexisted⟩ := hretry.sentAgain hlog hclients
    rw [Bool.eq_iff_iff, hexisted, hexisted']
    exact (h j hj i hi k hk hsent).symm

/-- Client 7 writes a key and deletes it, client 8 writes the key again, client 7 does the same with
another key and then repeats both deletions. -/
def deletedTwice : List LogEntry :=
  [{ index := 1, command := [0, 7, 1, 1, 1, 1, 10] }, { index := 2, command := [1, 7, 2, 1, 1, 0] },
   { index := 3, command := [0, 8, 1, 1, 1, 1, 30] }, { index := 4, command := [0, 7, 3, 1, 2, 1, 20] },
   { index := 5, command := [1, 7, 4, 1, 2, 0] }, { index := 6, command := [1, 7, 2, 1, 1, 0] },
   { index := 7, command := [1, 7, 4, 1, 2, 0] }]

/-- The first deletion is repeated after the second, which also found its key. -/
theorem retries_answered_alike_deletedTwice :
    Retry 4096 deletedTwice 7 2 { existed := true } { existed := true, duplicate := true } 5 ∧
      SentAgain deletedTwice 1 4 5 ∧
      ∀ c q r' r j, Retry 4096 deletedTwice c q r' r j → r.existed = r'.existed :=
  ⟨⟨⟨1, by decide, _, rfl, by decide⟩, ⟨_, rfl, by decide⟩, rfl, rfl⟩, by decide +kernel,
    (retries_answered_alike_iff 4096 (by decide) (by decide)).mpr (by decide +kernel)⟩

/-- Client 7 writes a key, deletes it, writes another one, and repeats the deletion. -/
def deletedLate : List LogEntry :=
  [{ index := 1, command := [0, 7, 1, 1, 1, 1, 10] }, { index := 2, command := [1, 7, 2, 1, 1, 0] },
   { index := 3, command := [0, 7, 3, 1, 2, 1, 20] }, { index := 4, command := [1, 7, 2, 1, 1, 0] }]

/-- The deletion is answered with `existed` and its retry is not. -/
theorem retry_answered_otherwise :
    Commands 0 deletedLate ∧
      (clients deletedLate).length ≤ (newWithSessionLimit 4096).maxSessions ∧
      Retry 4096 deletedLate 7 2 { existed := true } { existed := false, duplicate := true } 3 := by
  refine ⟨by decide, by decide, ⟨1, by decide, _, rfl, by decide⟩, ⟨_, rfl, by decide⟩, rfl, rfl⟩

end RaftStore.Kvstore
