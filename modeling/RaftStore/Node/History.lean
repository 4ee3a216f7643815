import RaftStore.Node.Serving

/-! The history of a service.  Every request is noted with what was decided when it came, and every
write with the entry that it became; what clients are told then fits one sequence of entries, in an
order that does not contradict the times at which they asked and were told. -/

namespace RaftStore.Loop

open Lib Raft RawNode Consensus

variable {σ ρ ν : Type}

/-! ### Counting requests -/

def Event.writes : Event → ℕ
  | .propose _ => 1
  | _ => 0

def Event.asks : Event → ℕ
  | .read => 1
  | _ => 0

section

variable {sm : StateMachine σ ρ} {e : Event} {n n' : Node σ ρ}

theorem Taken.counts (h : Taken n e n') :
    n'.proposed.length = n.proposed.length + e.writes ∧ n'.asked = n.asked + e.asks := by
  cases h with
  | propose cmd i r _ => exact ⟨List.length_append, rfl⟩
  | refuse cmd err r _ => exact ⟨List.length_append, rfl⟩
  | _ => exact ⟨rfl, rfl⟩

theorem Move.counts (h : Move sm n n') : n'.proposed = n.proposed ∧ n'.asked = n.asked := by
  cases h with
  | answer =>
    rw [Node.answered, Node.foldl_resolveRead_eq]
    exact ⟨rfl, rfl⟩
  | batch _ _ _ _ _ _ _ ha =>
    rw [ha.eq]
    exact ⟨rfl, rfl⟩
  | note =>
    rw [Node.noteRole_eq]
    exact ⟨rfl, rfl⟩
  | _ => exact ⟨rfl, rfl⟩

theorem Moves.counts (h : Moves sm n n') : n'.proposed = n.proposed ∧ n'.asked = n.asked := by
  induction h with
  | refl => exact ⟨rfl, rfl⟩
  | tail _ hm ih => exact ⟨hm.counts.1.trans ih.1, hm.counts.2.trans ih.2⟩

theorem run_counts {faults : List Bool} (hr : n.rn.Wf) (h : n.run sm e faults = .running n') :
    n'.proposed.length = n.proposed.length + e.writes ∧ n'.asked = n.asked + e.asks := by
  rcases run_cases sm e hr faults with ⟨n₁, n₂, hrun, ht, hm, -⟩ | ⟨n₁, n₂, err, hrun, -⟩ |
    ⟨n₁, n₂, f, hrun, -⟩ <;> rw [hrun] at h <;> cases h
  obtain ⟨hp, ha⟩ := hm.counts
  rw [hp, ha]
  exact ht.counts

end

/-! ### Registers -/

/-- A normal entry is what a write became. -/
def Origin (P : List UInt8 → Prop) (ops : List (Operation ρ ν)) (place : Caller → Option (ℕ × ℕ))
    (e : LogEntry) : Prop :=
  e.type = .normal → P e.command ∧
    ∃ o ∈ ops, o.request = .write e.command ∧ place o.caller = some (e.index, e.term)

def register (P : List UInt8 → Prop) (ops : List (Operation ρ ν)) (place : Caller → Option (ℕ × ℕ))
    (floor : Caller → ℕ) : Register where
  entry := Origin P ops place
  place := place
  floor := floor

section

variable {P : List UInt8 → Prop} {ops ops' : List (Operation ρ ν)} {place place' : Caller → Option (ℕ × ℕ)}
  {floor floor' : Caller → ℕ}

/-- Every request is still there, with its caller, and no place is taken back. -/
theorem register_grows
    (hops : ∀ o ∈ ops, ∃ o' ∈ ops', o'.request = o.request ∧ o'.caller = o.caller)
    (hplace : ∀ c x, place c = some x → place' c = some x) :
    (register P ops place floor).Grows (register P ops' place' floor') := by
  refine ⟨fun e he hty => ?_, hplace⟩
  obtain ⟨hP, o, ho, hreq, hpl⟩ := he hty
  obtain ⟨o', ho', hreq', hcaller⟩ := hops o ho
  exact ⟨hP, o', ho', hreq'.trans hreq, hplace _ _ (hcaller ▸ hpl)⟩

theorem map_index_of_contiguous {i : ℕ} {p : List LogEntry} (h : Contiguous i p) :
    p.map (·.index) = List.range' i p.length := by
  refine List.ext_getElem? fun k => ?_
  rw [List.getElem?_map]
  by_cases hk : k < p.length
  · rw [List.getElem?_range' hk, List.getElem?_eq_getElem hk]
    simp [h k _ (List.getElem?_eq_getElem hk)]
  · rw [List.getElem?_eq_none (by omega), List.getElem?_eq_none (by simp; omega)]
    rfl

/-- The commands of a log are no more than the requests. -/
theorem length_commands_le {p : List LogEntry} (hp : Contiguous 1 p)
    (hall : ∀ e ∈ p, Origin P ops place e) : (commands p).length ≤ ops.length := by
  have hindex : ((p.filter (·.type = .normal)).map (·.index)).Nodup := by
    have hnodup : (p.map (·.index)).Nodup := by
      rw [map_index_of_contiguous hp]
      exact List.nodup_range'
    exact hnodup.sublist (List.filter_sublist.map _)
  have hnodup : ((p.filter (·.type = .normal)).map fun e => some (e.index, e.term)).Nodup := by
    refine List.Nodup.of_map (fun x : Option (ℕ × ℕ) => (x.map Prod.fst).getD 0) ?_
    rw [List.map_map]
    exact hindex
  have hsub : ((p.filter (·.type = .normal)).map fun e => some (e.index, e.term)) ⊆
      ops.map fun o => place o.caller := by
    intro x hx
    obtain ⟨e, he, rfl⟩ := List.mem_map.mp hx
    obtain ⟨he, hty⟩ := List.mem_filter.mp he
    obtain ⟨-, o, ho, -, hpl⟩ := hall e he (of_decide_eq_true hty)
    exact List.mem_map.mpr ⟨o, ho, hpl⟩
  have hlen := (List.subperm_of_subset hnodup hsub).length_le
  rw [List.length_map, List.length_map] at hlen
  rwa [commands, List.length_map]

theorem register_regular (hlen : ops.length < 2 ^ 64) : (register P ops place floor).Regular P where
  cmd _ he hty := (he hty).1
  few _ hp hall := (length_commands_le hp hall).trans_lt hlen
  other _ hty h := absurd h hty

end

/-! ### What clients were told -/

namespace Design

variable (D : Design σ ρ ν) (B : Register) (w : World NodeID LogEntry)

abbrev OK : Prop := Inv (reading D.boot D.normalized D.sized).M.rules w

/-- The answer is that of the decided entries at its index. -/
def Answers (o : Operation ρ ν) (ret : Return ρ ν) : Prop :=
  (o.caller.read = false ∧ ∃ response, ret.answer = .wrote response ∧
    D.Fulfilled B w o.caller ret.index (some response)) ∨
  o.caller.read = true ∧ B.floor o.caller ≤ ret.index ∧
    ∃ v, ret.answer = .saw v ∧ D.Shows B w ret.index v

/-- The write has become the entry at the index and term, which its leader had not yet appended when
no more was decided than what the write was noted with. -/
def Placed (o : Operation ρ ν) (i t : ℕ) : Prop :=
  ∃ cmd, o.request = .write cmd ∧ Entered w ⟨t, i, .normal, cmd⟩ ∧
    ∃ w₀ p, D.OK w₀ ∧ Later w₀ w ∧ Decided w₀ p ∧ p.length = B.floor o.caller ∧
      (w₀.hist.log t).length < i

/-- What holds of a history up to the time `now`. -/
structure Chronicle (now : ℕ) (ops : List (Operation ρ ν)) : Prop where
  kind : ∀ o ∈ ops, o.request = .read ↔ o.caller.read = true
  invoked : ∀ o ∈ ops, o.invoked ≤ now
  placed : ∀ o ∈ ops, ∀ i t, B.place o.caller = some (i, t) → D.Placed B w o i t
  returned : ∀ o ∈ ops, ∀ ret, o.returned = some ret →
    o.invoked ≤ ret.time ∧ ret.time < now ∧ D.Answers B w o ret
  order : ∀ a ∈ ops, ∀ b ∈ ops, ∀ ret, a.returned = some ret → ret.time < b.invoked →
    ret.index ≤ B.floor b.caller

variable {D B w} {B' : Register} {w' : World NodeID LogEntry} {now : ℕ} {ops new : List (Operation ρ ν)}

theorem Answers.mono {o : Operation ρ ν} {ret : Return ρ ν} (h : D.Answers B w o ret)
    (hB : B.Grows B') (hl : Later w w') (hfloor : B'.floor o.caller = B.floor o.caller) :
    D.Answers B' w' o ret := by
  rcases h with ⟨hread, response, hans, hful⟩ | ⟨hread, hle, v, hans, hshow⟩
  · exact Or.inl ⟨hread, response, hans, hful.mono hB hl⟩
  · exact Or.inr ⟨hread, hfloor ▸ hle, v, hans, hshow.mono hB hl⟩

theorem Placed.mono {o : Operation ρ ν} {i t : ℕ} (h : D.Placed B w o i t) (hl : Later w w')
    (hfloor : B'.floor o.caller = B.floor o.caller) : D.Placed B' w' o i t := by
  obtain ⟨cmd, hreq, hent, w₀, p, hw₀, hl₀, hp, hlen, hlt⟩ := h
  exact ⟨cmd, hreq, hent.later hl, w₀, p, hw₀, hl₀.trans hl, hp, hlen.trans hfloor.symm, hlt⟩

/-- New requests come in, and the cluster goes on. -/
theorem Chronicle.extend (h : D.Chronicle B w now ops) (hB : B.Grows B') (hl : Later w w')
    (hsame : ∀ o ∈ ops, B'.place o.caller = B.place o.caller ∧ B'.floor o.caller = B.floor o.caller)
    (hnew : ∀ o ∈ new, o.returned = none ∧ o.invoked = now ∧
      (o.request = .read ↔ o.caller.read = true))
    (hplaced : ∀ o ∈ new, ∀ i t, B'.place o.caller = some (i, t) → D.Placed B' w' o i t)
    (hfloor : ∀ o ∈ new, ∀ a ∈ ops, ∀ ret, a.returned = some ret → ret.index ≤ B'.floor o.caller) :
    D.Chronicle B' w' now (ops ++ new) where
  kind o ho := (List.mem_append.mp ho).elim (h.kind o) fun ho => (hnew o ho).2.2
  invoked o ho := (List.mem_append.mp ho).elim (h.invoked o) fun ho => (hnew o ho).2.1.le
  placed o ho i t hpl := by
    rcases List.mem_append.mp ho with ho | ho
    · rw [(hsame o ho).1] at hpl
      exact (h.placed o ho i t hpl).mono hl (hsame o ho).2
    · exact hplaced o ho i t hpl
  returned o ho ret hret := by
    rcases List.mem_append.mp ho with ho | ho
    · obtain ⟨hinv, ht, hans⟩ := h.returned o ho ret hret
      exact ⟨hinv, ht, hans.mono hB hl (hsame o ho).2⟩
    · rw [(hnew o ho).1] at hret
      cases hret
  order a ha b hb ret hret ht := by
    rcases List.mem_append.mp ha with ha | ha
    · rcases List.mem_append.mp hb with hb | hb
      · rw [(hsame b hb).2]
        exact h.order a ha b hb ret hret ht
      · exact hfloor b hb a ha ret hret
    · rw [(hnew a ha).1] at hret
      cases hret

theorem Chronicle.later (h : D.Chronicle B w now ops) (hB : B.Grows B') (hl : Later w w')
    (hsame : ∀ o ∈ ops, B'.place o.caller = B.place o.caller ∧ B'.floor o.caller = B.floor o.caller) :
    D.Chronicle B' w' now ops := by
  have hext : D.Chronicle B' w' now (ops ++ []) :=
    h.extend hB hl hsame (by rintro _ ⟨⟩) (by rintro _ ⟨⟩) (by rintro _ ⟨⟩)
  rwa [List.append_nil] at hext

/-- Some of the requests are answered now. -/
theorem Chronicle.tell (h : D.Chronicle B w now ops) {f : Operation ρ ν → Operation ρ ν}
    (hf : ∀ o ∈ ops, f o = o ∨ ∃ ret, f o = { o with returned := some ret } ∧ ret.time = now ∧
      D.Answers B w o ret) : D.Chronicle B w (now + 1) (ops.map f) := by
  have hkeeps : ∀ o ∈ ops, (f o).request = o.request ∧ (f o).caller = o.caller ∧
      (f o).invoked = o.invoked := by
    intro o ho
    rcases hf o ho with heq | ⟨ret, heq, -⟩ <;> rw [heq] <;> exact ⟨rfl, rfl, rfl⟩
  have hret : ∀ o ∈ ops, ∀ ret, (f o).returned = some ret →
      o.returned = some ret ∨ ret.time = now ∧ D.Answers B w o ret := by
    intro o ho ret hr
    rcases hf o ho with heq | ⟨ret', heq, hans⟩ <;> rw [heq] at hr
    · exact Or.inl hr
    · cases hr
      exact Or.inr hans
  refine ⟨fun x hx => ?_, fun x hx => ?_, fun x hx => ?_, fun x hx ret hr => ?_,
    fun x hx y hy ret hr ht => ?_⟩ <;> obtain ⟨o, ho, rfl⟩ := List.mem_map.mp hx
  · rw [(hkeeps o ho).1, (hkeeps o ho).2.1]
    exact h.kind o ho
  · rw [(hkeeps o ho).2.2]
    exact (h.invoked o ho).trans (Nat.le_succ now)
  · intro i t hpl
    rw [(hkeeps o ho).2.1] at hpl
    have := h.placed o ho i t hpl
    rwa [Placed, ← (hkeeps o ho).1, ← (hkeeps o ho).2.1] at this
  · have hans : o.invoked ≤ ret.time ∧ ret.time < now + 1 ∧ D.Answers B w o ret := by
      rcases hret o ho ret hr with hr | ⟨ht, hans⟩
      · obtain ⟨hinv, ht, hans⟩ := h.returned o ho ret hr
        exact ⟨hinv, ht.trans (Nat.lt_succ_self now), hans⟩
      · exact ⟨ht.symm ▸ h.invoked o ho, by omega, hans⟩
    rwa [Answers, ← (hkeeps o ho).2.1, ← (hkeeps o ho).2.2] at hans
  · obtain ⟨b, hb, rfl⟩ := List.mem_map.mp hy
    rw [(hkeeps b hb).2.2] at ht
    rw [(hkeeps b hb).2.1]
    have hinv := h.invoked b hb
    rcases hret o ho ret hr with hr | ⟨htime, -⟩
    · exact h.order o ho b hb ret hr ht
    · omega

/-- Something is decided that covers every answer. -/
theorem Chronicle.exists_log (h : D.Chronicle B w now ops) :
    ∃ p, Agreed B.entry w p ∧ (D.M.replay p).isSome ∧
      ∀ o ∈ ops, ∀ ret, o.returned = some ret → ret.index ≤ p.length := by
  have key : ∀ l ⊆ ops, ∃ p, Agreed B.entry w p ∧ (D.M.replay p).isSome ∧
      ∀ o ∈ l, ∀ ret, o.returned = some ret → ret.index ≤ p.length := by
    intro l
    induction l with
    | nil => exact fun _ => ⟨[], .nil _ _, rfl, by rintro _ ⟨⟩⟩
    | cons o l ih =>
      intro hl
      obtain ⟨p, hp, hsome, hle⟩ := ih fun x hx => hl (List.mem_cons_of_mem _ hx)
      -- the longer of what covers the others and what covers this one
      have hone : ∃ q, Agreed B.entry w q ∧ (D.M.replay q).isSome ∧
          ∀ ret, o.returned = some ret → ret.index ≤ q.length := by
        cases hr : o.returned with
        | none => exact ⟨[], .nil _ _, rfl, by rintro _ ⟨⟩⟩
        | some ret =>
          rcases (h.returned o (hl List.mem_cons_self) ret hr).2.2 with
            ⟨-, response, -, q, e, v, x, hi, hq, hty, -, hv, hx, -⟩ | ⟨-, -, v, -, q, hi, hq, hv⟩
          · refine ⟨q ++ [e], hq, ?_, ?_⟩
            · rw [Machine.replay_normal hty, hv]
              simp [hx]
            · rintro _ ⟨⟩
              simp [hi]
          · refine ⟨q, hq, by rw [hv]; rfl, ?_⟩
            rintro _ ⟨⟩
            exact hi.ge
      obtain ⟨q, hq, hqsome, hqle⟩ := hone
      rcases le_total p.length q.length with hpq | hqp
      · refine ⟨q, hq, hqsome, fun x hx ret hret => ?_⟩
        rcases List.mem_cons.mp hx with rfl | hx
        · exact hqle ret hret
        · exact (hle x hx ret hret).trans hpq
      · refine ⟨p, hp, hsome, fun x hx ret hret => ?_⟩
        rcases List.mem_cons.mp hx with rfl | hx
        · exact (hqle ret hret).trans hqp
        · exact hle x hx ret hret
  exact key ops (List.Subset.refl _)

/-! ### Runs -/

/-- The service with a cluster of cores and the notes of an observer. -/
structure Upholds (D : Design σ ρ ν) (place : Caller → Option (ℕ × ℕ)) (floor : Caller → ℕ)
    (cl : Cluster) (w : World NodeID LogEntry) (s : Service σ ρ ν) : Prop where
  stage : D.Stage (register D.P s.ops place floor) cl w
  proc : ∀ k, (s.proc k).Sat
    (fun n => D.Attended (register D.P s.ops place floor) cl w k (s.life k) n ∧
      n.rn.appliedSnapshot = none)
    (D.Left (register D.P s.ops place floor) cl w k)
  net : ∀ m ∈ s.net, m ∈ cl.net
  chronicle : D.Chronicle (register D.P s.ops place floor) w s.now s.ops
  few : s.ops.length < 2 ^ 64
  nodup : (s.ops.map (·.caller)).Nodup
  known : ∀ c x, place c = some x → ∃ o ∈ s.ops, o.caller = c
  apart : ∀ c c' x, place c = some x → place c' = some x → c = c'
  fresh : ∀ o ∈ s.ops, o.caller.life ≤ s.life o.caller.node ∧
    ∀ n, s.proc o.caller.node = .up n → o.caller.life = s.life o.caller.node →
      o.caller.ticket < if o.caller.read then n.asked else n.proposed.length

/-- There were not more requests than steps. -/
structure Tallied (s : Service σ ρ ν) : Prop where
  ops : s.ops.length ≤ s.now
  asked : ∀ k n, s.proc k = .up n → n.asked ≤ s.now

section

variable {place place' : Caller → Option (ℕ × ℕ)} {floor floor' : Caller → ℕ} {cl cl' : Cluster}
  {s : Service σ ρ ν} {k : NodeID} {n : Node σ ρ}

theorem Upholds.up (h : Upholds D place floor cl w s) (hp : s.proc k = .up n) :
    D.Attended (register D.P s.ops place floor) cl w k (s.life k) n ∧
      n.rn.appliedSnapshot = none := by
  have := h.proc k
  rwa [hp] at this

theorem Upholds.down {st : MemoryStorage} (h : Upholds D place floor cl w s)
    (hp : s.proc k = .down st) : D.Left (register D.P s.ops place floor) cl w k st := by
  have := h.proc k
  rwa [hp] at this

/-- What holds of every process, with more requests noted. -/
theorem Upholds.noted (h : Upholds D place floor cl w s)
    (hB : (register D.P s.ops place floor).Grows B')
    (hfloor : ∀ u n, s.proc u = .up n → ∀ t < n.asked,
      B'.floor ⟨u, s.life u, t, true⟩ = floor ⟨u, s.life u, t, true⟩) (u : NodeID) :
    (s.proc u).Sat (fun n => D.Attended B' cl w u (s.life u) n ∧ n.rn.appliedSnapshot = none)
      (D.Left B' cl w u) := by
  cases hp : s.proc u with
  | up n =>
    obtain ⟨hn, hnone⟩ := h.up hp
    exact ⟨hn.mono hB (hfloor u n hp), hnone⟩
  | down st => exact (h.down hp).mono hB

/-- What happens in one place changes nothing for the others. -/
theorem sat_update {proc : NodeID → Proc σ ρ} {life life' : NodeID → ℕ} {p : Proc σ ρ}
    (hproc : ∀ u, (proc u).Sat
      (fun n => D.Attended B cl w u (life u) n ∧ n.rn.appliedSnapshot = none) (D.Left B cl w u))
    (hc : D.Course B k cl w cl' w') (hlife : ∀ u ≠ k, life' u = life u)
    (hp : p.Sat (fun n => D.Attended B cl' w' k (life' k) n ∧ n.rn.appliedSnapshot = none)
      (D.Left B cl' w' k)) (u : NodeID) :
    (Function.update proc k p u).Sat
      (fun n => D.Attended B cl' w' u (life' u) n ∧ n.rn.appliedSnapshot = none)
      (D.Left B cl' w' u) := by
  by_cases hu : u = k
  · subst hu
    simpa using hp
  · rw [Function.update_of_ne hu, hlife u hu]
    have hu' := hproc u
    cases hq : proc u with
    | up n =>
      rw [hq] at hu'
      exact ⟨hu'.1.other hc hu, hu'.2⟩
    | down st =>
      rw [hq] at hu'
      exact hu'.other hc hu

/-- Some of the requests are answered now. -/
theorem Upholds.tell (h : Upholds D place floor cl w s) {f : Operation ρ ν → Operation ρ ν}
    (hf : ∀ o ∈ s.ops, f o = o ∨ ∃ ret, f o = { o with returned := some ret } ∧ ret.time = s.now ∧
      D.Answers (register D.P s.ops place floor) w o ret) :
    Upholds D place floor cl w { s with now := s.now + 1, ops := s.ops.map f } := by
  have hkeeps : ∀ o ∈ s.ops, (f o).request = o.request ∧ (f o).caller = o.caller := by
    intro o ho
    rcases hf o ho with heq | ⟨ret, heq, -⟩ <;> rw [heq] <;> exact ⟨rfl, rfl⟩
  have hB : (register D.P s.ops place floor).Grows (register D.P (s.ops.map f) place floor) :=
    register_grows (fun o ho => ⟨f o, List.mem_map_of_mem ho, hkeeps o ho⟩) fun _ _ h => h
  have hchron := (h.chronicle.tell hf).later hB (.refl w) fun _ _ => ⟨rfl, rfl⟩
  have hcallers : (s.ops.map f).map (·.caller) = s.ops.map (·.caller) := by
    rw [List.map_map]
    exact List.map_congr_left fun o ho => (hkeeps o ho).2
  refine ⟨h.stage.mono hB, fun u => h.noted hB (fun _ _ _ _ _ => rfl) u, h.net, hchron, ?_, ?_, ?_,
    h.apart, ?_⟩
  · simpa using h.few
  · rw [hcallers]
    exact h.nodup
  · intro c x hx
    obtain ⟨o, ho, rfl⟩ := h.known c x hx
    exact ⟨f o, List.mem_map_of_mem ho, (hkeeps o ho).2⟩
  · intro x hx
    obtain ⟨o, ho, rfl⟩ := List.mem_map.mp hx
    rw [(hkeeps o ho).2]
    exact h.fresh o ho

/-- A read of a process looks at its state machine. -/
theorem Upholds.look (h : Upholds D place floor cl w s) {ticket : ℕ} (hc : s.Confirmed k ticket) :
    Upholds D place floor cl w (s.look D.view k ticket) := by
  rw [Service.Confirmed] at hc
  cases hp : s.proc k with
  | down st =>
    rw [hp] at hc
    exact hc.elim
  | up n =>
    rw [hp] at hc
    obtain ⟨i, hreply, hle⟩ := hc
    obtain ⟨hn, hnone⟩ := h.up hp
    rw [Service.look, hp]
    refine h.tell fun o _ => ?_
    rw [Operation.sees]
    split
    · rename_i hcond
      refine Or.inr ⟨_, rfl, rfl, Or.inr ?_⟩
      rw [hcond.2]
      exact ⟨rfl, ((hn.reads.told ticket i hreply).2).trans hle, _, rfl, hn.app hnone⟩
    · exact Or.inl rfl

/-- Something other than a request happens in a place. -/
theorem Upholds.replace (h : Upholds D place floor cl w s) (p : Proc σ ρ) (life : ℕ)
    {net : List Message} (hc : D.Course (register D.P s.ops place floor) k cl w cl' w')
    (hp : p.Sat (fun n => D.Attended (register D.P s.ops place floor) cl' w' k life n ∧
      n.rn.appliedSnapshot = none) (D.Left (register D.P s.ops place floor) cl' w' k))
    (hlife : s.life k ≤ life) (hup : ∀ n, p = .up n → s.life k < life)
    (hnet : ∀ m ∈ net, m ∈ cl'.net) :
    Upholds D place floor cl' w' { s with
      proc := Function.update s.proc k p
      net := s.net ++ net
      life := Function.update s.life k life } := by
  have hchron := h.chronicle.later (.refl _) hc.later fun _ _ => ⟨rfl, rfl⟩
  refine ⟨hc.stage, sat_update h.proc hc (fun u hu => Function.update_of_ne hu _ _) ?_, fun m hm => ?_,
    hchron, h.few, h.nodup, h.known, h.apart, fun o ho => ?_⟩
  · dsimp only
    rwa [Function.update_self]
  · exact (List.mem_append.mp hm).elim (fun hm => hc.net m (h.net m hm)) (hnet m)
  · obtain ⟨hle, hticket⟩ := h.fresh o ho
    by_cases hk : o.caller.node = k
    · rw [hk] at hle ⊢
      dsimp only
      rw [Function.update_self, Function.update_self]
      refine ⟨hle.trans hlife, fun n hn heq => ?_⟩
      have := hup n hn
      omega
    · dsimp only
      rw [Function.update_of_ne hk, Function.update_of_ne hk]
      exact ⟨hle, hticket⟩

/-! ### Requests -/

/-- The request that comes with an event. -/
theorem requested_spec {e : Event} {o : Operation ρ ν} (ho : o ∈ s.requested k n e) :
    o.returned = none ∧ o.invoked = s.now ∧ (o.request = .read ↔ o.caller.read = true) ∧
      o.caller = ⟨k, s.life k, if o.caller.read then n.asked else n.proposed.length, o.caller.read⟩ ∧
      (o.caller.read = false → ∃ cmd, e = .propose cmd ∧ o.request = .write cmd) := by
  cases e with
  | propose cmd =>
    cases List.mem_singleton.mp ho
    exact ⟨rfl, rfl, by simp, rfl, fun _ => ⟨cmd, rfl, rfl⟩⟩
  | read =>
    cases List.mem_singleton.mp ho
    exact ⟨rfl, rfl, by simp, rfl, by rintro ⟨⟩⟩
  | _ => cases ho

theorem requested_length (s : Service σ ρ ν) (k : NodeID) (n : Node σ ρ) (e : Event) :
    (s.requested k n e).length ≤ 1 := by
  cases e <;> simp [Service.requested]

/-- A ticket of a request is given when the event is taken. -/
theorem requested_lt {e : Event} {o : Operation ρ ν} (ho : o ∈ s.requested k n e) :
    o.caller.ticket <
      if o.caller.read then n.asked + e.asks else n.proposed.length + e.writes := by
  cases e with
  | propose cmd =>
    cases List.mem_singleton.mp ho
    exact Nat.lt_succ_self _
  | read =>
    cases List.mem_singleton.mp ho
    exact Nat.lt_succ_self _
  | _ => cases ho

theorem permits_event {e : Event} {faults : List Bool}
    (h : s.Permits D.boot D.P k (.event e faults)) :
    e.Permitted s.net ∧ (∀ cmd, e = .propose cmd → D.P cmd) ∧
      (s.requested k n e ≠ [] → s.now + 1 < 2 ^ 64) := by
  cases e with
  | propose cmd =>
    refine ⟨trivial, ?_, fun _ => h.2⟩
    rintro _ ⟨⟩
    exact h.1
  | read => exact ⟨trivial, by rintro _ ⟨⟩, fun _ => h⟩
  | _ => exact ⟨h, by rintro _ ⟨⟩, fun hne => absurd rfl hne⟩

/-- No earlier request has the caller of a new one. -/
theorem Upholds.caller_ne (h : Upholds D place floor cl w s) (hp : s.proc k = .up n)
    {o : Operation ρ ν} (ho : o ∈ s.ops) (read : Bool) :
    o.caller ≠ ⟨k, s.life k, if read then n.asked else n.proposed.length, read⟩ := by
  intro heq
  obtain ⟨-, hticket⟩ := h.fresh o ho
  rw [heq] at hticket
  exact (hticket n hp rfl).ne rfl

theorem Served.sat {o : Outcome σ ρ} {life : ℕ} (h : Served D B cl w k life o) :
    (Proc.after o).Sat (fun n => D.Attended B cl w k life n ∧ n.rn.appliedSnapshot = none)
      (D.Left B cl w k) := by
  have hproc := h.proc
  cases o with
  | running n => exact ⟨hproc, h.settled n rfl⟩
  | exited n => exact hproc
  | panicked n => exact hproc

/-- The leader of the term has not yet appended the entry that a proposal appends. -/
theorem Attended.log_lt {life : ℕ} (h : D.Attended B cl w k life n) (hst : D.Stage B cl w)
    {faults : List Bool} {cmd : List UInt8} {r' : RawNode}
    (hend : EndsIn ((Call.propose cmd).run (n.withFaults faults).rn) r')
    (hmem : n.rn.ownOf cmd ∈ r'.log.mem.ents) :
    (w.hist.log n.rn.term).length < n.rn.log.lastIndex + 1 := by
  have hn := h.withFaults faults
  obtain ⟨f, hf⟩ := hn.node
  rcases propose_ends hn.applying.wf hend with ⟨hlead, -⟩ | ⟨faults', rfl⟩
  · have hlen := hst.refines.length_log hf hlead
    exact Nat.lt_succ_of_le hlen.le
  · -- nothing was appended, and the entry cannot have been there
    have hmem : n.rn.ownOf cmd ∈ n.rn.log.mem.ents := hmem
    obtain ⟨j, hj⟩ := List.mem_iff_getElem?.mp hmem
    have hidx := h.applying.wf.log.inOrder j _ hj
    have hlt := (List.getElem?_eq_some_iff.mp hj).1
    change n.rn.log.lastIndex + 1 = _ at hidx
    have hlast : n.rn.log.lastIndex = n.rn.log.mem.base.index + n.rn.log.mem.ents.length := rfl
    omega

/-- The notes of the observer when an event is taken: the place of the entry that a write becomes, and
how much is decided. -/
structure Notes (s : Service σ ρ ν) (k : NodeID) (n : Node σ ρ) (e : Event) (wrote : Prop) (top : ℕ)
    (place : Caller → Option (ℕ × ℕ)) (floor : Caller → ℕ) (place' : Caller → Option (ℕ × ℕ))
    (floor' : Caller → ℕ) : Prop where
  new : wrote → place' ⟨k, s.life k, n.proposed.length, false⟩ =
    some (n.rn.log.lastIndex + 1, n.rn.term)
  old : ∀ c, c ≠ ⟨k, s.life k, n.proposed.length, false⟩ ∨ ¬ wrote → place' c = place c
  top : ∀ o ∈ s.requested k n e, floor' o.caller = top
  kept : ∀ c, (∀ o ∈ s.requested k n e, o.caller ≠ c) → floor' c = floor c

open Classical in
theorem exists_notes (s : Service σ ρ ν) (k : NodeID) (n : Node σ ρ) (e : Event) (wrote : Prop) (top : ℕ)
    (place : Caller → Option (ℕ × ℕ)) (floor : Caller → ℕ) :
    ∃ place' floor', Notes s k n e wrote top place floor place' floor' := by
  refine ⟨fun c => if c = ⟨k, s.life k, n.proposed.length, false⟩ ∧ wrote then
      some (n.rn.log.lastIndex + 1, n.rn.term) else place c,
    fun c => if ∃ o ∈ s.requested k n e, o.caller = c then top else floor c, ?_, ?_, ?_, ?_⟩
  · exact fun hwrote => if_pos ⟨rfl, hwrote⟩
  · rintro c (hc | hnot)
    · exact if_neg fun h => hc h.1
    · exact if_neg fun h => hnot h.2
  · exact fun o ho => if_pos ⟨o, ho, rfl⟩
  · refine fun c hc => if_neg ?_
    rintro ⟨o, ho, heq⟩
    exact hc o ho heq

section

variable {e : Event} {wrote : Prop} {top : ℕ}

theorem Upholds.place_none (h : Upholds D place floor cl w s) (hp : s.proc k = .up n) :
    place ⟨k, s.life k, n.proposed.length, false⟩ = none := by
  cases hx : place ⟨k, s.life k, n.proposed.length, false⟩ with
  | none => rfl
  | some x =>
    obtain ⟨o, ho, heq⟩ := h.known _ x hx
    exact absurd heq (h.caller_ne hp ho false)

theorem Upholds.notes_grow (h : Upholds D place floor cl w s) (hp : s.proc k = .up n)
    (hN : Notes s k n e wrote top place floor place' floor') :
    (register D.P s.ops place floor).Grows
      (register D.P (s.ops ++ s.requested k n e) place' floor') := by
  refine register_grows (fun o ho => ⟨o, List.mem_append_left _ ho, rfl, rfl⟩) fun c x hx => ?_
  rw [hN.old c (Or.inl ?_)]
  · exact hx
  · rintro rfl
    rw [h.place_none hp] at hx
    cases hx

theorem Upholds.notes_same (h : Upholds D place floor cl w s) (hp : s.proc k = .up n)
    (hN : Notes s k n e wrote top place floor place' floor') {o : Operation ρ ν} (ho : o ∈ s.ops) :
    place' o.caller = place o.caller ∧ floor' o.caller = floor o.caller := by
  refine ⟨hN.old _ (Or.inl (h.caller_ne hp ho false)), hN.kept _ fun o' ho' heq => ?_⟩
  obtain ⟨-, -, -, hcaller, -⟩ := requested_spec ho'
  exact h.caller_ne hp ho o'.caller.read (heq.symm.trans hcaller)

theorem Upholds.notes_floor (hN : Notes s k n e wrote top place floor place' floor')
    (hp : s.proc k = .up n) {u : NodeID} {m : Node σ ρ} (hu : s.proc u = .up m) {t : ℕ}
    (ht : t < m.asked) : floor' ⟨u, s.life u, t, true⟩ = floor ⟨u, s.life u, t, true⟩ := by
  refine hN.kept _ fun o ho heq => ?_
  obtain ⟨-, -, -, hcaller, -⟩ := requested_spec ho
  rw [heq] at hcaller
  obtain rfl : u = k := congrArg Caller.node hcaller
  have hticket : t = n.asked := congrArg Caller.ticket hcaller
  cases hp.symm.trans hu
  exact ht.ne hticket

/-- The places stay apart: the index of a new entry is above the leader's log. -/
theorem Upholds.notes_apart (h : Upholds D place floor cl w s)
    (hN : Notes s k n e wrote top place floor place' floor')
    (hlt : wrote → (w.hist.log n.rn.term).length < n.rn.log.lastIndex + 1) (c c' : Caller)
    (x : ℕ × ℕ) (hc : place' c = some x) (hc' : place' c' = some x) : c = c' := by
  -- the place of an earlier write is within the log of its term
  have hold : ∀ {c : Caller}, place c = some (n.rn.log.lastIndex + 1, n.rn.term) → ¬ wrote := by
    intro c hpl hwrote
    obtain ⟨o, ho, rfl⟩ := h.known c _ hpl
    obtain ⟨cmd, -, hent, -⟩ := h.chronicle.placed o ho _ _ hpl
    have hle := hent.length_le
    have := hlt hwrote
    change n.rn.log.lastIndex + 1 ≤ (w.hist.log n.rn.term).length at hle
    omega
  by_cases hwrote : wrote
  · by_cases h₁ : c = ⟨k, s.life k, n.proposed.length, false⟩ <;>
      by_cases h₂ : c' = ⟨k, s.life k, n.proposed.length, false⟩
    · exact h₁.trans h₂.symm
    · rw [h₁, hN.new hwrote] at hc
      rw [hN.old c' (Or.inl h₂), ← hc] at hc'
      exact absurd hwrote (hold hc')
    · rw [h₂, hN.new hwrote] at hc'
      rw [hN.old c (Or.inl h₁), ← hc'] at hc
      exact absurd hwrote (hold hc)
    · rw [hN.old c (Or.inl h₁)] at hc
      rw [hN.old c' (Or.inl h₂)] at hc'
      exact h.apart c c' x hc hc'
  · rw [hN.old c (Or.inr hwrote)] at hc
    rw [hN.old c' (Or.inr hwrote)] at hc'
    exact h.apart c c' x hc hc'

/-- The event is taken, with its request noted. -/
theorem Upholds.event {faults : List Bool} (h : Upholds D place floor cl w s) (ht : Tallied s)
    (hp : s.proc k = .up n) (hperm : s.Permits D.boot D.P k (.event e faults)) :
    ∃ place' floor' cl' w', Upholds D place' floor' cl' w'
        { s with
          toSystem := s.toSystem.act D.sm D.app k (.event e faults)
          ops := s.ops ++ s.requested k n e } ∧
      ∀ t i response, (t, .ok (i, response)) ∈ (n.run D.sm e faults).told →
        D.Fulfilled (register D.P (s.ops ++ s.requested k n e) place' floor') w'
          ⟨k, s.life k, t, false⟩ i response := by
  obtain ⟨hn, hnone⟩ := h.up hp
  obtain ⟨hallowed, hcmd, hbound⟩ := permits_event (n := n) hperm
  obtain ⟨p, hagreed, -, hcover⟩ := h.chronicle.exists_log
  obtain ⟨place', floor', hN⟩ := exists_notes s k n e
    (∃ cmd r', e = .propose cmd ∧ EndsIn ((Call.propose cmd).run (n.withFaults faults).rn) r' ∧
      n.rn.ownOf cmd ∈ r'.log.mem.ents) p.length place floor
  have hgrow := h.notes_grow hp hN
  have hlen : (s.ops ++ s.requested k n e).length < 2 ^ 64 := by
    rw [List.length_append]
    have hone := requested_length s k n e
    have hops := ht.ops
    by_cases hnil : s.requested k n e = []
    · rw [hnil]
      exact h.few
    · have := hbound hnil
      omega
  have hnoted : Noted (register D.P (s.ops ++ s.requested k n e) place' floor') w k (s.life k)
      (n.withFaults faults) e := by
    constructor
    · rintro cmd r' rfl hend hmem
      have hnew := hN.new ⟨cmd, r', rfl, hend, hmem⟩
      refine ⟨fun _ => ⟨hcmd cmd rfl, _, List.mem_append_right _ List.mem_cons_self, rfl, hnew⟩, hnew⟩
    · rintro rfl
      have hasked := ht.asked k n hp
      have hb := hbound (by simp [Service.requested])
      refine ⟨?_, p, hagreed.decided, (hN.top _ List.mem_cons_self).symm⟩
      change n.asked + 1 < 2 ^ 64
      omega
  have hn' := hn.mono hgrow fun t ht => Upholds.notes_floor hN hp hp ht
  obtain ⟨cl', w', hc, hserved, hentered⟩ :=
    hn'.event (h.stage.mono hgrow) (register_regular hlen) (hallowed.mono h.net) hnoted
  have hlt : (∃ cmd r', e = .propose cmd ∧
      EndsIn ((Call.propose cmd).run (n.withFaults faults).rn) r' ∧ n.rn.ownOf cmd ∈ r'.log.mem.ents) →
      (w.hist.log n.rn.term).length < n.rn.log.lastIndex + 1 := by
    rintro ⟨cmd, r', -, hend, hmem⟩
    exact hn.log_lt h.stage hend hmem
  have hact : (s.toSystem.act D.sm D.app k (.event e faults)).proc =
      Function.update s.proc k (Proc.after (n.run D.sm e faults)) := by
    simp only [System.act, hp, Proc.act]
  refine ⟨place', floor', cl', w', ⟨hc.stage, ?_, ?_, ?_, hlen, ?_, ?_, ?_, ?_⟩, hserved.told⟩
  · dsimp only
    rw [hact]
    exact sat_update (fun u => h.noted hgrow (fun u m hu t ht => Upholds.notes_floor hN hp hu ht) u) hc
      (fun _ _ => rfl) hserved.sat
  · intro m hm
    rcases List.mem_append.mp hm with hm | hm
    · exact hc.net m (h.net m hm)
    · rw [hp] at hm
      exact hserved.sent m (List.mem_of_mem_drop hm)
  · refine h.chronicle.extend hgrow hc.later (fun o ho => h.notes_same hp hN ho)
      (fun o ho => ?_) (fun o ho i t hpl => ?_) fun o ho a ha ret hret => ?_
    · obtain ⟨h1, h2, h3, -⟩ := requested_spec ho
      exact ⟨h1, h2, h3⟩
    · change place' o.caller = some (i, t) at hpl
      obtain ⟨-, -, -, hcaller, hreq⟩ := requested_spec ho
      cases hread : o.caller.read with
      | true =>
        -- a read has no place
        rw [hN.old _ (Or.inl fun heq => by rw [heq] at hread; cases hread)] at hpl
        obtain ⟨o', ho', heq⟩ := h.known _ _ hpl
        exact absurd (heq.trans hcaller) (h.caller_ne hp ho' o.caller.read)
      | false =>
        obtain ⟨cmd, rfl, hwrite⟩ := hreq hread
        have hcaller' : o.caller = ⟨k, s.life k, n.proposed.length, false⟩ := by
          rw [hcaller, hread]
          rfl
        by_cases hwrote : ∃ cmd' r', Event.propose cmd = .propose cmd' ∧
            EndsIn ((Call.propose cmd').run (n.withFaults faults).rn) r' ∧
            n.rn.ownOf cmd' ∈ r'.log.mem.ents
        · have hnew := hN.new hwrote
          have hlt := hlt hwrote
          rw [hcaller', hnew] at hpl
          cases hpl
          obtain ⟨cmd', r', heq, hend, hmem⟩ := hwrote
          cases heq
          exact ⟨cmd, hwrite, hentered cmd r' rfl hend hmem, w, p, h.stage.refines.inv, hc.later,
            hagreed.decided, (hN.top o ho).symm, hlt⟩
        · rw [hcaller', hN.old _ (Or.inr hwrote), h.place_none hp] at hpl
          cases hpl
    · change _ ≤ floor' o.caller
      rw [hN.top o ho]
      exact hcover a ha ret hret
  · rw [List.map_append, List.nodup_append]
    refine ⟨h.nodup, ?_, ?_⟩
    · have := requested_length s k n e
      rcases hreq : s.requested k n e with _ | ⟨o, _ | ⟨o', l⟩⟩
      · simp
      · simp
      · rw [hreq] at this
        simp at this
    · intro c hc c' hc'
      obtain ⟨o, ho, rfl⟩ := List.mem_map.mp hc
      obtain ⟨o', ho', rfl⟩ := List.mem_map.mp hc'
      rw [(requested_spec ho').2.2.2.1]
      exact h.caller_ne hp ho o'.caller.read
  · intro c x hx
    by_cases hnew : c = ⟨k, s.life k, n.proposed.length, false⟩ ∧
        ∃ cmd r', e = .propose cmd ∧ EndsIn ((Call.propose cmd).run (n.withFaults faults).rn) r' ∧
          n.rn.ownOf cmd ∈ r'.log.mem.ents
    · obtain ⟨rfl, cmd, r', rfl, -⟩ := hnew
      exact ⟨_, List.mem_append_right _ List.mem_cons_self, rfl⟩
    · rw [hN.old c (not_and_or.mp hnew)] at hx
      obtain ⟨o, ho, heq⟩ := h.known c x hx
      exact ⟨o, List.mem_append_left _ ho, heq⟩
  · exact h.notes_apart hN hlt
  · intro o ho
    dsimp only
    rw [hact]
    by_cases hk : o.caller.node = k
    · rw [hk, Function.update_self]
      -- the tickets that were given before, and the one that is given now
      have hold : o.caller.life ≤ s.life k ∧ (o.caller.life = s.life k → o.caller.ticket <
          if o.caller.read then n.asked + e.asks else n.proposed.length + e.writes) := by
        rcases List.mem_append.mp ho with ho | ho
        · obtain ⟨hle, hticket⟩ := h.fresh o ho
          rw [hk] at hle hticket
          refine ⟨hle, fun heq => (hticket n hp heq).trans_le ?_⟩
          split <;> omega
        · obtain ⟨-, -, -, hcaller, -⟩ := requested_spec ho
          have hlife : o.caller.life = s.life k := by rw [hcaller]
          exact ⟨hlife.le, fun _ => requested_lt ho⟩
      refine ⟨hold.1, fun m hm heq => ?_⟩
      have hrun : n.run D.sm e faults = .running m := by
        cases hr : n.run D.sm e faults with
        | running m' =>
          rw [hr] at hm
          cases hm
          rfl
        | exited m' => rw [hr] at hm; cases hm
        | panicked m' => rw [hr] at hm; cases hm
      obtain ⟨hprop, hasked⟩ := run_counts hn.applying.wf hrun
      rw [hprop, hasked]
      exact hold.2 heq
    · have hmem : o ∈ s.ops := by
        refine (List.mem_append.mp ho).resolve_right fun ho => hk ?_
        rw [(requested_spec ho).2.2.2.1]
      rw [Function.update_of_ne hk]
      exact h.fresh o hmem

end

/-! ### Whole runs -/

/-- Time passes. -/
theorem Upholds.wait (h : Upholds D place floor cl w s) :
    Upholds D place floor cl w { s with now := s.now + 1 } := by
  have htell := h.tell (f := fun o => o) fun _ _ => Or.inl rfl
  rwa [List.map_id'] at htell

theorem mem_of_lookup {α β : Type} [BEq α] [LawfulBEq α] {l : List (α × β)} {a : α} {b : β}
    (h : l.lookup a = some b) : (a, b) ∈ l := by
  obtain ⟨l₁, l₂, rfl, -⟩ := List.lookup_eq_some_iff.mp h
  simp

/-- A client hears what the loop tells it. -/
theorem hears_spec (life now : ℕ) (replies : List (ℕ × ProposeResult ρ)) (o : Operation ρ ν) :
    o.hears k life now replies = o ∨ ∃ i response,
      o.hears k life now replies = { o with returned := some ⟨now, i, .wrote response⟩ } ∧
      o.caller = ⟨k, life, o.caller.ticket, false⟩ ∧
      (o.caller.ticket, .ok (i, some response)) ∈ replies := by
  rw [Operation.hears]
  split
  · rename_i hcond
    split
    · rename_i i response hlook
      exact Or.inr ⟨i, response, rfl, hcond.2, mem_of_lookup hlook⟩
    · exact Or.inl rfl
  · exact Or.inl rfl

theorem Upholds.told {replies : List (ℕ × ProposeResult ρ)} (h : Upholds D place floor cl w s)
    (htold : ∀ t i response, (t, .ok (i, response)) ∈ replies →
      D.Fulfilled (register D.P s.ops place floor) w ⟨k, s.life k, t, false⟩ i response) :
    Upholds D place floor cl w
      { s with now := s.now + 1, ops := s.ops.map (.hears k (s.life k) s.now replies) } := by
  refine h.tell fun o _ => ?_
  rcases hears_spec (s.life k) s.now replies o with heq | ⟨i, response, heq, hcaller, hmem⟩
  · exact Or.inl heq
  · refine Or.inr ⟨_, heq, rfl, Or.inl ⟨by rw [hcaller], response, rfl, ?_⟩⟩
    rw [hcaller]
    exact htold _ i (some response) hmem

/-- Nothing but time has passed. -/
theorem act_of_same {a : Happening} (hproc : (s.proc k).act D.sm D.app a = s.proc k)
    (hsent : System.sentBy D.sm (s.proc k) a = []) (hlife : Service.lifeAfter (s.life k) (s.proc k) a = s.life k)
    (hops : s.opsAfter D.sm k (s.proc k) a = s.ops) :
    s.act D.sm D.app k a = { s with now := s.now + 1 } := by
  simp only [Service.act, System.act, hproc, hsent, hlife, hops, Function.update_eq_self,
    List.append_nil]

/-- A happening in one place of the service. -/
theorem Upholds.act {a : Happening} (h : Upholds D place floor cl w s) (ht : Tallied s)
    (hperm : s.Permits D.boot D.P k a) :
    ∃ place' floor' cl' w', Upholds D place' floor' cl' w' (s.act D.sm D.app k a) := by
  have hstay : s.act D.sm D.app k a = { s with now := s.now + 1 } →
      ∃ place' floor' cl' w', Upholds D place' floor' cl' w' (s.act D.sm D.app k a) := fun heq =>
    ⟨place, floor, cl, w, heq ▸ h.wait⟩
  cases hp : s.proc k with
  | down st =>
    have hleft := h.down hp
    cases a with
    | start cfg =>
      have hact : s.act D.sm D.app k (.start cfg) =
          { s with
            proc := Function.update s.proc k ((Proc.down st).act D.sm D.app (.start cfg))
            net := s.net ++ []
            life := Function.update s.life k (s.life k + 1)
            now := s.now + 1 } := by
        simp only [Service.act, System.act, hp, System.sentBy, Service.lifeAfter, Service.opsAfter]
      rw [hact, Proc.act]
      cases hst : Loop.start D.sm D.app cfg st with
      | error err =>
        exact ⟨place, floor, cl, w, (h.replace (.down st) (s.life k + 1) (.refl h.stage) hleft (Nat.le_succ _)
          (by rintro _ ⟨⟩) (by rintro _ ⟨⟩)).wait⟩
      | ok n =>
        obtain ⟨cl', w', hc, hn⟩ := hleft.start h.stage (register_regular h.few) hperm.1 hperm.2 hst
        exact ⟨place, floor, cl', w', (h.replace (.up n) (s.life k + 1) hc hn (Nat.le_succ _)
          (fun _ _ => Nat.lt_succ_self _) (by rintro _ ⟨⟩)).wait⟩
    | crash => exact hstay (act_of_same (by rw [hp]; rfl) (by rw [hp]; rfl) (by rw [hp]; rfl) (by rw [hp]; rfl))
    | event e faults =>
      exact hstay (act_of_same (by rw [hp]; rfl) (by rw [hp]; rfl) (by rw [hp]; rfl) (by rw [hp]; rfl))
  | up n =>
    obtain ⟨hn, -⟩ := h.up hp
    cases a with
    | start cfg =>
      exact hstay (act_of_same (by rw [hp]; rfl) (by rw [hp]; rfl) (by rw [hp]; rfl) (by rw [hp]; rfl))
    | crash =>
      have hact : s.act D.sm D.app k .crash =
          { s with
            proc := Function.update s.proc k (.down n.rn.log.mem)
            net := s.net ++ []
            life := Function.update s.life k (s.life k)
            now := s.now + 1 } := by
        simp only [Service.act, System.act, hp, Proc.act, System.sentBy, Service.lifeAfter,
          Service.opsAfter]
      rw [hact]
      obtain ⟨cl', w', hc, hl⟩ := hn.crash h.stage
      exact ⟨place, floor, cl', w', (h.replace (.down n.rn.log.mem) (s.life k) hc hl le_rfl
        (by rintro _ ⟨⟩) (by rintro _ ⟨⟩)).wait⟩
    | event e faults =>
      have hact : s.act D.sm D.app k (.event e faults) =
          { s with
            toSystem := s.toSystem.act D.sm D.app k (.event e faults)
            now := s.now + 1
            ops := (s.ops ++ s.requested k n e).map
              (.hears k (s.life k) s.now (n.run D.sm e faults).told) } := by
        simp only [Service.act, hp, Service.lifeAfter, Service.opsAfter, Function.update_eq_self]
      obtain ⟨place', floor', cl', w', hev, htold⟩ := h.event ht hp hperm
      rw [hact]
      exact ⟨place', floor', cl', w', hev.told htold⟩

theorem Tallied.act {a : Happening} (h : Upholds D place floor cl w s) (ht : Tallied s) :
    Tallied (s.act D.sm D.app k a) := by
  constructor
  · change (s.opsAfter D.sm k (s.proc k) a).length ≤ s.now + 1
    have hops := ht.ops
    cases hp : s.proc k with
    | down st => cases a <;> exact hops.trans (Nat.le_succ _)
    | up n =>
      cases a with
      | event e faults =>
        have hone := requested_length s k n e
        rw [Service.opsAfter, List.length_map, List.length_append]
        omega
      | _ => exact hops.trans (Nat.le_succ _)
  · intro u m hu
    change m.asked ≤ s.now + 1
    by_cases huk : u = k
    · subst huk
      simp only [Service.act, System.act, Function.update_self] at hu
      cases hp : s.proc u with
      | down st =>
        rw [hp] at hu
        cases a with
        | start cfg =>
          simp only [Proc.act] at hu
          split at hu
          · rename_i n hst
            cases hu
            obtain ⟨_, _, _, _, -, -, rfl, -⟩ := start_ok hst
            exact Nat.zero_le _
          · cases hu
        | crash => cases hu
        | event e faults => cases hu
      | up n =>
        have hasked := ht.asked u n hp
        rw [hp] at hu
        cases a with
        | start cfg =>
          cases hu
          exact hasked.trans (Nat.le_succ _)
        | crash => cases hu
        | event e faults =>
          change Proc.after (n.run D.sm e faults) = .up m at hu
          cases hr : n.run D.sm e faults with
          | running m' =>
            rw [hr] at hu
            cases hu
            have hcount := (run_counts (h.up hp).1.applying.wf hr).2
            have hle : e.asks ≤ 1 := by cases e <;> simp [Event.asks]
            omega
          | exited m' => rw [hr] at hu; cases hu
          | panicked m' => rw [hr] at hu; cases hu
    · simp only [Service.act, System.act, Function.update_of_ne huk] at hu
      exact (ht.asked u m hu).trans (Nat.le_succ _)

theorem Tallied.look {ticket : ℕ} (ht : Tallied s) : Tallied (s.look D.view k ticket) := by
  rw [Service.look]
  split
  · exact ht
  · refine ⟨?_, fun u m hu => (ht.asked u m hu).trans (Nat.le_succ _)⟩
    change (s.ops.map _).length ≤ s.now + 1
    rw [List.length_map]
    exact ht.ops.trans (Nat.le_succ _)

theorem upholds_start (D : Design σ ρ ν) :
    Upholds D (fun _ => none) (fun _ => 0) {} World.start {} where
  stage := ⟨.start _, ⟨by rintro _ _ ⟨⟩, by rintro _ _ ⟨⟩, by rintro _ ⟨⟩, by rintro _ _ ⟨⟩⟩,
    by rintro _ ⟨⟩⟩
  proc _ := ⟨rfl, by rintro _ ⟨⟩, by rintro ⟨⟩⟩
  net := by rintro _ ⟨⟩
  chronicle := ⟨by rintro _ ⟨⟩, by rintro _ ⟨⟩, by rintro _ ⟨⟩, by rintro _ ⟨⟩, by rintro _ ⟨⟩⟩
  few := Nat.two_pow_pos 64
  nodup := List.nodup_nil
  known := by rintro _ _ ⟨⟩
  apart := by rintro _ _ _ ⟨⟩
  fresh := by rintro _ ⟨⟩

/-- In every run of a service an observer can take such notes. -/
theorem upholds_run (hrun : Service.Run D.sm D.app D.view D.boot D.P {} s) :
    ∃ place floor cl w, Upholds D place floor cl w s ∧ Tallied s := by
  induction hrun with
  | refl => exact ⟨_, _, _, _, upholds_start D, ⟨Nat.zero_le _, by rintro _ _ ⟨⟩⟩⟩
  | tail _ hstep ih =>
    obtain ⟨place, floor, cl, w, h, ht⟩ := ih
    cases hstep with
    | act k a hperm =>
      obtain ⟨place', floor', cl', w', h'⟩ := h.act ht hperm
      exact ⟨place', floor', cl', w', h', ht.act h⟩
    | look k ticket hc => exact ⟨place, floor, cl, w, h.look hc, ht.look⟩

end

end Design

end RaftStore.Loop
