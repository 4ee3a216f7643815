import RaftStore.Node.History

/-! Linearizability of a service: what its clients were told is what one object would have told them,
taking the answered requests, and those of the others that became entries, one after another in an
order in which none comes before one that had already been answered when it came. -/

namespace RaftStore.Loop

open Lib Raft RawNode Consensus

variable {σ ρ ν : Type}

namespace Operation

/-- Where the operation stands in the log: at the index of its answer, or of the entry that it became. -/
def index (place : Caller → Option (ℕ × ℕ)) (o : Operation ρ ν) : ℕ :=
  match o.returned with
  | some ret => ret.index
  | none => ((place o.caller).map Prod.fst).getD 0

def time (o : Operation ρ ν) : ℕ := (o.returned.map Return.time).getD 0

/-- The operation has been answered, or is a write that became an entry of the log. -/
def Counts (place : Caller → Option (ℕ × ℕ)) (log : List LogEntry) (o : Operation ρ ν) : Prop :=
  o.returned.isSome ∨ o.request ≠ .read ∧
    ∃ e ∈ log, e.type = .normal ∧ place o.caller = some (e.index, e.term)

end Operation

/-- The object after the first `j` entries of the log. -/
def Machine.stateAt (M : Machine ν ρ) (log : List LogEntry) (j : ℕ) : ν :=
  (M.replay (log.take j)).getD M.init

theorem Machine.stateAt_of_prefix {M : Machine ν ρ} {log p : List LogEntry} {v : ν} (hp : p <+: log)
    (hv : M.replay p = some v) : M.stateAt log p.length = v := by
  rw [stateAt, ← List.prefix_iff_eq_take.mp hp, hv]
  rfl

theorem take_concat_prefix {log : List LogEntry} {e : LogEntry} {j : ℕ} (h : log[j]? = some e) :
    log.take j ++ [e] <+: log ∧ (log.take j).length = j := by
  obtain ⟨hlt, rfl⟩ := List.getElem?_eq_some_iff.mp h
  rw [List.take_append_getElem]
  exact ⟨List.take_prefix .., by rw [List.length_take]; omega⟩

namespace Design

variable {D : Design σ ρ ν} {place : Caller → Option (ℕ × ℕ)} {floor : Caller → ℕ} {cl : Cluster}
  {w : World NodeID LogEntry} {s : Service σ ρ ν} {log : List LogEntry} {o : Operation ρ ν}

/-- The log is decided, the object can take it, and every answer is about a part of it. -/
structure Covers (D : Design σ ρ ν) (place : Caller → Option (ℕ × ℕ)) (floor : Caller → ℕ)
    (w : World NodeID LogEntry) (s : Service σ ρ ν) (log : List LogEntry) : Prop where
  agreed : Agreed (register D.P s.ops place floor).entry w log
  replays : (D.M.replay log).isSome
  answers : ∀ o ∈ s.ops, ∀ ret, o.returned = some ret → ret.index ≤ log.length

/-- The write became the entry that follows `q` in the log, and was answered with what the object says
to it, if it was answered. -/
structure Became (D : Design σ ρ ν) (place : Caller → Option (ℕ × ℕ)) (log : List LogEntry)
    (o : Operation ρ ν) (q : List LogEntry) (e : LogEntry) : Prop where
  inLog : q ++ [e] <+: log
  index : o.index place = q.length + 1
  normal : e.type = .normal
  placed : place o.caller = some (q.length + 1, e.term)
  answered : ∀ ret, o.returned = some ret → ∃ v x, D.M.replay q = some v ∧
    D.M.step v e.command = some x ∧ ret.answer = .wrote x.1

theorem Upholds.became_of_returned (h : Upholds D place floor cl w s)
    (hlog : Covers D place floor w s log) (ho : o ∈ s.ops) (hw : o.request ≠ .read) {ret : Return ρ ν}
    (hr : o.returned = some ret) : ∃ q e, Became D place log o q e := by
  rcases (h.chronicle.returned o ho ret hr).2.2 with
    ⟨-, response, hans, q, e, v, x, hi, hq, hty, hpl, hv, hx, hresp⟩ | ⟨hread, -⟩
  · refine ⟨q, e, ?_, ?_, hty, ?_, ?_⟩
    · refine hq.decided.prefix_of_length_le h.stage.refines.inv hlog.agreed.decided ?_
      rw [List.length_append, List.length_singleton, hi]
      exact hlog.answers o ho ret hr
    · rw [Operation.index, hr, hi]
    · rw [hi]
      exact hpl
    · intro ret' hr'
      cases hr.symm.trans hr'
      cases hresp
      exact ⟨v, x, hv, hx, hans⟩
  · exact absurd ((h.chronicle.kind o ho).mpr hread) hw

theorem Covers.became_of_mem (hlog : Covers D place floor w s log) (hr : o.returned = none)
    {e : LogEntry} (he : e ∈ log) (hty : e.type = .normal)
    (hpl : place o.caller = some (e.index, e.term)) : ∃ q, Became D place log o q e := by
  obtain ⟨j, hj⟩ := List.mem_iff_getElem?.mp he
  obtain ⟨hpre, hlen⟩ := take_concat_prefix hj
  have hidx := hlog.agreed.contiguous j e hj
  have hpl : place o.caller = some ((log.take j).length + 1, e.term) := by
    rw [hpl, hidx, hlen, Nat.add_comm]
  refine ⟨log.take j, hpre, ?_, hty, hpl, fun ret hr' => ?_⟩
  · rw [Operation.index, hr, hpl]
    rfl
  · cases hr.symm.trans hr'

/-- A write stands at the entry that it became, and that entry holds its command. -/
theorem Upholds.write_entry (h : Upholds D place floor cl w s) (hlog : Covers D place floor w s log)
    (ho : o ∈ s.ops) (hc : o.Counts place log) (hw : o.request ≠ .read) :
    ∃ q e, Became D place log o q e ∧ o.request = .write e.command := by
  have hfind : ∃ q e, Became D place log o q e := by
    cases hr : o.returned with
    | some ret => exact h.became_of_returned hlog ho hw hr
    | none =>
      rcases hc with hc | ⟨-, e, he, hty, hpl⟩
      · rw [hr] at hc
        cases hc
      · obtain ⟨q, hq⟩ := hlog.became_of_mem hr he hty hpl
        exact ⟨q, e, hq⟩
  obtain ⟨q, e, hb⟩ := hfind
  obtain ⟨cmd, hreq, hent, -⟩ := h.chronicle.placed o ho _ _ hb.placed
  -- Two entries that were entered at one index in one term are the same, so the command is the client's.
  have heq := (hlog.agreed.decided.shorter hb.inLog).eq_of_entered h.stage.refines.inv hent rfl rfl
  refine ⟨q, e, hb, ?_⟩
  rw [hreq, ← heq]

/-- A read has been answered with the state at its index. -/
theorem Upholds.read_state (h : Upholds D place floor cl w s) (hlog : Covers D place floor w s log)
    (ho : o ∈ s.ops) (hc : o.Counts place log) (hr : o.request = .read) :
    ∃ ret, o.returned = some ret ∧ o.invoked ≤ ret.time ∧ floor o.caller ≤ ret.index ∧
      ret.answer = .saw (D.M.stateAt log ret.index) := by
  rcases hc with hc | ⟨hne, -⟩
  · obtain ⟨ret, hret⟩ := Option.isSome_iff_exists.mp hc
    obtain ⟨hinv, -, hans⟩ := h.chronicle.returned o ho ret hret
    refine ⟨ret, hret, hinv, ?_⟩
    rcases hans with ⟨hread, -⟩ | ⟨-, hfloor, v, hans, p, hp, hagreed, hv⟩
    · rw [(h.chronicle.kind o ho).mp hr] at hread
      cases hread
    · have hpre : p <+: log := hagreed.decided.prefix_of_length_le h.stage.refines.inv
        hlog.agreed.decided (hp ▸ hlog.answers o ho ret hret)
      refine ⟨hfloor, ?_⟩
      rw [hans, ← hp, Machine.stateAt_of_prefix hpre hv]
  · exact absurd hr hne

/-- What the object makes of a write at its entry. -/
theorem Covers.performed [DecidableEq ρ] [DecidableEq ν] (hlog : Covers D place floor w s log)
    {q : List LogEntry} {e : LogEntry} (hb : Became D place log o q e)
    (hreq : o.request = .write e.command) :
    o.performed D.M (D.M.stateAt log q.length) = some (D.M.stateAt log (q.length + 1)) := by
  obtain ⟨v', hv'⟩ := Option.isSome_iff_exists.mp (Machine.isSome_replay_of_prefix hb.inLog hlog.replays)
  have hstate := Machine.stateAt_of_prefix hb.inLog hv'
  rw [Machine.replay_normal hb.normal] at hv'
  obtain ⟨v, hv, hx⟩ := Option.bind_eq_some_iff.mp hv'
  obtain ⟨x, hstep, rfl⟩ := Option.map_eq_some_iff.mp hx
  rw [List.length_append, List.length_singleton] at hstate
  rw [Machine.stateAt_of_prefix ((List.prefix_append q [e]).trans hb.inLog) hv, hstate,
    Operation.performed, hreq]
  cases hr : o.returned with
  | none =>
    exact hx
  | some ret =>
    obtain ⟨v₁, x₁, hv₁, hx₁, hresp⟩ := hb.answered ret hr
    cases hv.symm.trans hv₁
    cases hstep.symm.trans hx₁
    dsimp only
    rw [hstep, Option.bind_some, if_pos hresp]

/-- A write stands above what was answered before it came. -/
theorem Upholds.floor_lt (h : Upholds D place floor cl w s) (hlog : Covers D place floor w s log)
    (ho : o ∈ s.ops) {q : List LogEntry} {e : LogEntry} (hb : Became D place log o q e) :
    floor o.caller < o.index place := by
  obtain ⟨cmd, -, -, w₀, p, hw₀, hl₀, hp, hlen, hlt⟩ := h.chronicle.placed o ho _ _ hb.placed
  have hle := hp.length_le_of_new hw₀ h.stage.refines.inv hl₀ (hlog.agreed.decided.shorter hb.inLog)
    (Nat.lt_succ_iff.mp hlt)
  change p.length = floor o.caller at hlen
  rw [hb.index]
  omega

/-- Every normal entry of the log is a write of the history. -/
theorem Upholds.exists_write (h : Upholds D place floor cl w s) (hlog : Covers D place floor w s log)
    {j : ℕ} {e : LogEntry} (hj : log[j]? = some e) (hty : e.type = .normal) :
    ∃ o ∈ s.ops, o.Counts place log ∧ o.request ≠ .read ∧ o.index place = j + 1 := by
  have he := List.mem_of_getElem? hj
  obtain ⟨-, o, ho, hreq, hpl⟩ := hlog.agreed.all e he hty
  have hw : o.request ≠ .read := by
    rw [hreq]
    rintro ⟨⟩
  have hc : o.Counts place log := .inr ⟨hw, e, he, hty, hpl⟩
  obtain ⟨q, e', hb, -⟩ := h.write_entry hlog ho hc hw
  have hat := hlog.agreed.contiguous j e hj
  have hpl' := hb.placed
  rw [hpl] at hpl'
  injection hpl' with hpl'
  injection hpl' with hi ht
  refine ⟨o, ho, hc, hw, ?_⟩
  rw [hb.index]
  omega

open Classical in
/-- The operations of a service follow its log. -/
theorem Upholds.traced [DecidableEq ρ] [DecidableEq ν] (h : Upholds D place floor cl w s)
    (hlog : Covers D place floor w s log) :
    Traced Operation.precedes (Operation.performed D.M) (D.M.stateAt log) (fun o => o.request = .read)
      (Operation.index place) Operation.time (s.ops.filter fun o => o.Counts place log) where
  read := by
    intro o ho hr
    obtain ⟨ho, hc⟩ := List.mem_filter.mp ho
    obtain ⟨ret, hret, -, -, hans⟩ := h.read_state hlog ho (of_decide_eq_true hc) hr
    rw [Operation.index, hret, Operation.performed, hr, hret]
    exact if_pos hans
  write := by
    intro o ho hw
    obtain ⟨ho, hc⟩ := List.mem_filter.mp ho
    obtain ⟨q, e, hb, hreq⟩ := h.write_entry hlog ho (of_decide_eq_true hc) hw
    exact ⟨q.length, hb.index, hlog.performed hb hreq⟩
  idle := by
    intro j hnone
    cases hj : log[j]? with
    | none =>
      have hle := List.getElem?_eq_none_iff.mp hj
      rw [Machine.stateAt, Machine.stateAt, List.take_of_length_le hle,
        List.take_of_length_le (Nat.le_succ_of_le hle)]
    | some e =>
      by_cases hty : e.type = .normal
      · obtain ⟨o, ho, hc, hw, hidx⟩ := h.exists_write hlog hj hty
        exact absurd hidx (hnone o (List.mem_filter.mpr ⟨ho, decide_eq_true hc⟩) hw)
      · obtain ⟨hlt, rfl⟩ := List.getElem?_eq_some_iff.mp hj
        rw [Machine.stateAt, Machine.stateAt, ← List.take_append_getElem hlt, Machine.replay_other hty]
  apart := by
    have hnodup : s.ops.Pairwise fun a b => a.caller ≠ b.caller := List.pairwise_map.mp h.nodup
    refine (hnodup.filter _).imp_of_mem ?_
    intro a b ha hb hne hwa hwb heq
    obtain ⟨ha, hca⟩ := List.mem_filter.mp ha
    obtain ⟨hb, hcb⟩ := List.mem_filter.mp hb
    obtain ⟨q, e, hqa, -⟩ := h.write_entry hlog ha (of_decide_eq_true hca) hwa
    obtain ⟨q', e', hqb, -⟩ := h.write_entry hlog hb (of_decide_eq_true hcb) hwb
    rw [hqa.index, hqb.index] at heq
    have hlen : (q ++ [e]).length = (q' ++ [e']).length := by simpa using heq
    -- One index of one log has one entry, and an entry is what one request became.
    have hsame := (List.prefix_of_prefix_length_le hqa.inLog hqb.inLog hlen.le).eq_of_length hlen
    obtain ⟨rfl, hee⟩ := List.append_inj' hsame rfl
    cases hee
    exact hne (h.apart _ _ _ hqa.placed hqb.placed)
  order := by
    intro a ha b hb hab
    obtain ⟨ha, hca⟩ := List.mem_filter.mp ha
    obtain ⟨hb, hcb⟩ := List.mem_filter.mp hb
    obtain ⟨ret, hret, htime⟩ := hab
    have hfloor : a.index place ≤ floor b.caller := by
      rw [Operation.index, hret]
      exact h.chronicle.order a ha b hb ret hret htime
    by_cases hwb : b.request = .read
    · obtain ⟨ret', hret', hinv, hle, -⟩ := h.read_state hlog hb (of_decide_eq_true hcb) hwb
      have hidx : b.index place = ret'.index := by rw [Operation.index, hret']
      rcases (hfloor.trans hle).lt_or_eq with hlt | heq
      · exact .inl (hidx ▸ hlt)
      · refine .inr ⟨heq.trans hidx.symm, hwb, fun _ => ?_⟩
        rw [Operation.time, hret, Operation.time, hret']
        exact htime.trans_le hinv
    · obtain ⟨q, e, hqb, -⟩ := h.write_entry hlog hb (of_decide_eq_true hcb) hwb
      exact .inl (hfloor.trans_lt (h.floor_lt hlog hb hqb))

open Classical in
/-- In every run of a service the operations that count have an order in which the object performs
them: all that were answered, and of the others some writes. -/
theorem linearizable_run [DecidableEq ρ] [DecidableEq ν]
    (hrun : Service.Run D.sm D.app D.view D.boot D.P {} s) :
    ∃ history, history.Sublist s.ops ∧ (∀ o ∈ s.ops, o.returned.isSome → o ∈ history) ∧
      Linearizable Operation.precedes (Operation.performed D.M) D.M.init history := by
  obtain ⟨place, floor, cl, w, h, -⟩ := upholds_run hrun
  obtain ⟨log, hagreed, hreplays, hanswers⟩ := h.chronicle.exists_log
  have hlog : Covers D place floor w s log := ⟨hagreed, hreplays, hanswers⟩
  refine ⟨_, List.filter_sublist, fun o ho hret => ?_, (h.traced hlog).linearizable⟩
  exact List.mem_filter.mpr ⟨ho, decide_eq_true (.inl hret)⟩

end Design

/-- A service over processes that keep copies of an object is linearizable, with whatever storage
failures, crashes, restarts, lost, repeated and reordered messages: in every run the operations, all
that were answered and those of the unanswered writes that took effect, have an order in which the object
performs them with the answers that the clients got, and none comes before one that was answered before
it was asked for. -/
theorem service_linearizable [DecidableEq ρ] [DecidableEq ν] (sm : StateMachine σ ρ) (app : σ)
    (M : Machine ν ρ) (view : σ → ν) (P : List UInt8 → Prop) (voters : List NodeID)
    (himpl : Implements sm app M view P) (hs : (Configuration.new voters).Sized) {s : Service σ ρ ν}
    (hrun : Service.Run sm app view (.new voters) P {} s) :
    ∃ history, history.Sublist s.ops ∧ (∀ o ∈ s.ops, o.returned.isSome → o ∈ history) ∧
      Linearizable Operation.precedes (Operation.performed M) M.init history :=
  Design.linearizable_run (D := ⟨sm, app, M, view, P, .new voters, himpl,
    Configuration.normalize_normalized _, hs⟩) hrun

/-- Counts the commands, and takes no snapshots. -/
def tally : StateMachine ℕ ℕ where
  apply s _ := .ok (s + 1, s + 1)
  snapshotter := none

def counter : Machine ℕ ℕ where
  init := 0
  step v _ := some (v + 1, v + 1)

theorem tally_implements : Implements tally 0 counter (fun v => v) (fun _ => True) where
  init := rfl
  apply := by
    rintro s e response s' - ⟨⟩
    rfl
  restore := by rintro _ _ _ _ _ _ _ ⟨⟩

/-- A node that is its own cluster is elected, and is asked for a write and then for a read. -/
def soloService : List Service.Deed :=
  [.act 1 (.start soloConfig), .act 1 (.event .tick []), .act 1 (.event .tick []),
    .act 1 (.event (.propose [7]) []), .act 1 (.event .read []), .look 1 0]

theorem service_linearizable_solo :
    ∃ s : Service ℕ ℕ ℕ, s.ops.map (·.returned.map (·.answer)) = [some (.wrote 1), some (.saw 1)] ∧
      ∃ history, history.Sublist s.ops ∧ (∀ o ∈ s.ops, o.returned.isSome → o ∈ history) ∧
        Linearizable Operation.precedes (Operation.performed counter) 0 history :=
  ⟨soloService.foldl (Service.does tally 0 fun v => v) {}, by decide +kernel,
    service_linearizable tally 0 counter (fun v => v) (fun _ => True) [1] tally_implements
      ⟨by decide, by decide, by decide⟩ (Service.run_deeds (by decide +kernel))⟩

end RaftStore.Loop
