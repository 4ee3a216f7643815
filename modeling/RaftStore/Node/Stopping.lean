import RaftStore.Node.Turn

/-! When a storage write fails.  The loop ends on every error of the core that it does not take for
an answer; the two handlers that pass the core's errors on to a client take every error for one. -/

namespace RaftStore.Loop

open Lib Raft

variable {σ ρ α β : Type} {n : Node σ ρ}

/-- The program reports a write that failed, by an error that wraps no sentinel. -/
def Alerts (x : NodeM σ ρ α) (n : Node σ ρ) : Prop :=
  Meets x n (fun _ n' => n'.rn.faultsLeft = n.rn.faultsLeft)
    fun e n' => n'.rn.faultsLeft = n.rn.faultsLeft ∨ e.Bare

namespace Alerts

theorem pure (a : α) : Alerts (pure a) n := rfl

theorem throw (e : Fail) : Alerts (throw e : NodeM σ ρ α) n := Or.inl rfl

theorem set {n' : Node σ ρ} (h : n'.rn = n.rn) : Alerts (set n' : NodeM σ ρ Unit) n := by
  change n'.rn.faultsLeft = n.rn.faultsLeft
  rw [h]

theorem modify {f : Node σ ρ → Node σ ρ} (h : (f n).rn = n.rn) :
    Alerts (modify f : NodeM σ ρ Unit) n :=
  set h

theorem after {x : NodeM σ ρ α} {n' : Node σ ρ} (h : n'.rn.faultsLeft = n.rn.faultsLeft)
    (hx : Alerts x n') :
    Meets x n' (fun _ n'' => n''.rn.faultsLeft = n.rn.faultsLeft)
      fun e n'' => n''.rn.faultsLeft = n.rn.faultsLeft ∨ e.Bare :=
  Meets.mono hx (fun _ _ h' => h'.trans h) fun _ _ h' => h'.imp_left fun h' => h'.trans h

theorem bind {x : NodeM σ ρ α} {f : α → NodeM σ ρ β} (hx : Alerts x n)
    (hf : ∀ a n', Alerts (f a) n') : Alerts (x >>= f) n :=
  Meets.bind (Meets.mono hx (fun a n' h => (hf a n').after h) fun _ _ h => h)

theorem get_bind {f : Node σ ρ → NodeM σ ρ α} (h : Alerts (f n) n) : Alerts (get >>= f) n :=
  Meets.bind h

theorem during {x : NodeM σ ρ α} (hx : Alerts x n) (what : String) : Alerts (during what x) n := by
  rw [Alerts, Loop.during, meets_mapFail, fatal]
  exact Meets.mono hx (fun _ _ h => h) fun _ _ h => h.imp_right fun h => h.wrap _

/-- A call on the core that reports its failed writes. -/
theorem onCore {x : Core α}
    (h : Meets x n.rn (fun _ r => r.faultsLeft = n.rn.faultsLeft)
      fun e r => r.faultsLeft = n.rn.faultsLeft ∨ e.Bare) : Alerts (onCore x) n := by
  rw [Alerts, Loop.onCore, meets_onPart]
  exact h

theorem of_reports {x : Core α} (h : Reports x n.rn) : Alerts (Loop.onCore x) n :=
  onCore (Meets.mono h (fun _ _ h => h.faults) fun _ _ h => h.2.2)

end Alerts

/-! ### Flushing -/

section Flush

variable (sm : StateMachine σ ρ)

theorem alerts_resolveReads : Alerts (resolveReads : NodeM σ ρ Unit) n :=
  Alerts.bind (Alerts.onCore rfl) fun states n' =>
    Alerts.modify (by rw [n'.foldl_resolveRead_eq states])

theorem alerts_restoreSnapshot : Alerts (restoreSnapshot sm) n := by
  refine Alerts.bind (Alerts.onCore rfl) fun snap n' => ?_
  split
  · exact Alerts.pure _
  · split
    · exact Alerts.throw _
    · refine Alerts.get_bind ?_
      split
      · exact Alerts.throw _
      · exact Alerts.set rfl

theorem alerts_applyEntry (e : LogEntry) : Alerts (applyEntry sm e) n := by
  refine Alerts.get_bind ?_
  split
  · split
    · exact Alerts.throw _
    · exact Alerts.set (by rw [Node.resolve_eq])
  · exact Alerts.set (by rw [Node.resolve_eq])

theorem alerts_applyEntries (entries : List LogEntry) : Alerts (applyEntries sm entries) n := by
  induction entries generalizing n with
  | nil => exact Alerts.pure _
  | cons e rest ih => exact Alerts.bind (alerts_applyEntry sm e) fun _ _ => ih

theorem alerts_applyTo (i : ℕ) : Alerts (onCore (applyTo i) : NodeM σ ρ Unit) n := by
  refine Alerts.onCore ?_
  rw [applyTo, onLog, meets_onPart, RaftLog.appliedTo, meets_bind, meets_get]
  split
  · rfl
  · split
    · exact Or.inl rfl
    · rfl

theorem alerts_applyBatches (fuel : ℕ) : Alerts (applyBatches sm fuel) n := by
  induction fuel generalizing n with
  | zero => exact Alerts.pure _
  | succ fuel ih =>
    refine Alerts.get_bind ?_
    split
    · exact Alerts.pure _
    · split
      · exact Alerts.throw _
      · split
        · exact Alerts.pure _
        · exact Alerts.bind (alerts_applyEntries sm _) fun _ _ =>
            Alerts.bind (alerts_applyTo _) fun _ _ => ih

theorem alerts_maybeSnapshot : Alerts (maybeSnapshot sm) n := by
  refine Alerts.get_bind ?_
  split
  · exact Alerts.pure _
  · split
    · exact Alerts.pure _
    · split
      · exact Alerts.throw _
      · refine Alerts.bind (Alerts.set rfl) fun _ n' => ?_
        rw [Alerts, meets_tryCatch]
        refine Meets.mono (Alerts.bind (Alerts.of_reports reports_createSnapshot) fun _ _ => .pure _)
          (fun _ _ h => h) fun e n'' h => ?_
        cases e with
        | error e =>
          dsimp only
          rcases h with h | ⟨_, heq, hw⟩
          · split
            · exact h
            · exact Or.inl h
          · cases heq
            rw [Error.is_of_bare hw, Error.is_of_bare hw]
            exact Or.inr ⟨_, rfl, hw⟩
        | panic text => exact h
        | outOfFuel => exact h

theorem alerts_flush : Alerts (flush sm) n := by
  refine Alerts.bind (Alerts.onCore rfl) fun msgs _ => Alerts.bind (Alerts.modify rfl) fun _ _ => ?_
  refine Alerts.bind alerts_resolveReads fun _ _ => ?_
  refine Alerts.bind (alerts_restoreSnapshot sm) fun _ _ => ?_
  refine Alerts.bind (Alerts.get_bind (alerts_applyBatches sm _)) fun _ _ => ?_
  exact Alerts.bind (alerts_maybeSnapshot sm) fun _ n' => Alerts.modify (by rw [n'.noteRole_eq])

end Flush

/-! ### Events -/

/-- The events whose handler passes the core's errors on to a client. -/
def Event.client : Event → Bool
  | .propose _ | .confChange _ => true
  | _ => false

theorem alerts_handle {e : Event} (he : e.client = false) : Alerts (handle e : NodeM σ ρ Unit) n := by
  cases e with
  | stop => exact Alerts.throw _
  | closed => exact Alerts.throw _
  | tick => exact (Alerts.of_reports reports_tick).during _
  | message m =>
    have hx : Alerts (onCore (step m) : NodeM σ ρ Unit) n := by
      refine Alerts.onCore (Meets.mono hands_step (fun _ _ h => ?_) fun _ _ h => ?_)
      · exact h.elim Steady.faults And.right
      · exact h.symm.imp_left fun h => h.elim Steady.faults And.right
    rw [handle, Alerts, meets_tryCatch]
    refine Meets.mono hx (fun _ _ h => h) fun e n' h => ?_
    cases e with
    | error e =>
      dsimp only
      rcases h with h | ⟨_, heq, hw⟩
      · split
        · exact h
        · exact Or.inl h
      · cases heq
        rw [Error.is_of_bare hw]
        exact Or.inr (Fail.Bare.wrap ⟨_, rfl, hw⟩ _)
    | panic text => exact h
    | outOfFuel => exact h
  | propose cmd => cases he
  | read =>
    -- a read writes nothing, so that its errors can be passed on
    have hx : ∀ (id : UInt64) (n : Node σ ρ), Meets (onCore (readIndex id) : NodeM σ ρ Unit) n
        (fun _ n' => n'.rn.faultsLeft = n.rn.faultsLeft)
        fun _ n' => n'.rn.faultsLeft = n.rn.faultsLeft := by
      intro id n
      rw [onCore, meets_onPart, readIndex, meets_bind, meets_get]
      split
      · rfl
      · split
        · rfl
        · dsimp only
          split
          · rfl
          · exact (steady_foldl (fun _ peer => steady_sendAppendWithRead peer id) _).faults
    refine Alerts.get_bind (Alerts.bind (Alerts.set rfl) fun _ n' => ?_)
    rw [Alerts, meets_tryCatch, meets_bind]
    refine Meets.mono (hx _ n') (fun _ _ h => h) fun e n'' h => ?_
    cases e with
    | error e => exact h
    | panic text => exact Or.inl h
    | outOfFuel => exact Or.inl h
  | confChange target => cases he
  | status => exact Alerts.modify rfl

/-! ### The end of the loop -/

/-- The turn ends the loop: nobody is left waiting, and whoever waited when it failed is told. -/
def Ends (sm : StateMachine σ ρ) (n : Node σ ρ) (e : Event) (faults : List Bool) : Prop :=
  ∃ n₁ err n', turn sm e (n.withFaults faults) = .error (.error err) n₁ ∧
    n.run sm e faults = .exited n' ∧ n'.pending = ∅ ∧ n'.pendingReads = ∅ ∧
    (∀ (i : ℕ) (w : Awaiting), n₁.pending[i]? = some w → (w.p.ticket, .error err) ∈ n'.replies) ∧
    ∀ (id : UInt64) (ticket : ℕ), n₁.pendingReads[id]? = some ticket →
      (ticket, .error err) ∈ n'.readReplies

variable {sm : StateMachine σ ρ} {e : Event} {faults : List Bool}

theorem ends_of_error {err : Error} {n₁ : Node σ ρ}
    (h : turn sm e (n.withFaults faults) = .error (.error err) n₁) : Ends sm n e faults := by
  refine ⟨n₁, err, (n₁.failPending err).failReads err, h, ?_, rfl, rfl, fun i w hw => ?_,
    fun id ticket ht => ?_⟩
  · rw [Node.run, h]
    rfl
  · refine List.mem_append_right _ (List.mem_map.mpr ⟨(i, w), ?_, rfl⟩)
    exact Std.ExtTreeMap.mem_toList_iff_getElem?_eq_some.mpr hw
  · refine List.mem_append_right _ (List.mem_map.mpr ⟨(id, ticket), ?_, rfl⟩)
    exact Std.ExtTreeMap.mem_toList_iff_getElem?_eq_some.mpr ht

/-- A write fails while the program runs. -/
def WriteFails (x : NodeM σ ρ α) (n : Node σ ρ) : Prop :=
  Meets x n (fun _ n' => n'.rn.faultsLeft < n.rn.faultsLeft)
    fun _ n' => n'.rn.faultsLeft < n.rn.faultsLeft

instance (x : NodeM σ ρ α) (n : Node σ ρ) : Decidable (WriteFails x n) := by
  unfold WriteFails Meets
  split <;> infer_instance

/-- A program that alerts, and in which a write fails, returns an error. -/
theorem Alerts.exists_error {x : NodeM σ ρ α} (h : Alerts x n) (hf : WriteFails x n) :
    ∃ err n', x n = .error (.error err) n' := by
  cases hx : x n with
  | ok a n' => exact absurd (h.ok hx) (hf.ok hx).ne
  | error f n' =>
    obtain ⟨err, rfl, -⟩ := (h.error hx).resolve_left (hf.error hx).ne
    exact ⟨err, n', rfl⟩

/-- The handlers of client events never return an error. -/
theorem meets_handle_client (he : e.client = true) :
    Meets (handle e : NodeM σ ρ Unit) n (fun _ _ => True) fun f _ => ∀ err, f ≠ .error err := by
  -- Both handlers catch every error, and let a panic through.
  have hcatch : ∀ {x : NodeM σ ρ Unit} {h : Fail → NodeM σ ρ Unit} (n : Node σ ρ),
      (∀ err, ∃ g, h (.error err) = modify g) → (∀ text, h (.panic text) = throw (.panic text)) →
      h .outOfFuel = throw .outOfFuel →
      Meets (tryCatch x h) n (fun _ _ => True) fun f _ => ∀ err, f ≠ .error err := by
    intro x h n herror hpanic hfuel
    rw [meets_tryCatch]
    refine Meets.mono (Q := fun _ _ => True) (F := fun _ _ => True) ?_ (fun _ _ _ => trivial) ?_
    · exact meets_iff.mpr ⟨fun _ _ _ => trivial, fun _ _ _ => trivial⟩
    · intro f n' _
      cases f with
      | error err =>
        obtain ⟨g, hg⟩ := herror err
        rw [hg, meets_modify]
        trivial
      | panic text =>
        rw [hpanic, meets_throw]
        rintro err ⟨⟩
      | outOfFuel =>
        rw [hfuel, meets_throw]
        rintro err ⟨⟩
  cases e with
  | propose cmd =>
    rw [handle, handlePropose, meets_bind, meets_get]
    dsimp only
    rw [meets_bind, meets_set]
    exact hcatch _ (fun _ => ⟨_, rfl⟩) (fun _ => rfl) rfl
  | confChange target => exact hcatch n (fun _ => ⟨_, rfl⟩) (fun _ => rfl) rfl
  | stop => cases he
  | closed => cases he
  | tick => cases he
  | message m => cases he
  | read => cases he
  | status => cases he

theorem turn_apply : turn sm e n =
    match handle e n with
    | .ok _ n₁ =>
      match flush sm n₁ with
      | .ok _ n₂ => .ok () n₂
      | .error f n₂ => .error (fatal "flush" f) n₂
    | .error f n₁ => .error f n₁ := by
  change EStateM.bind (handle e) (fun _ => during "flush" (flush sm)) n = _
  rw [EStateM.bind]
  cases handle e n with
  | error f n₁ => rfl
  | ok u n₁ =>
    change mapFail (fatal "flush") (flush sm) n₁ = _
    rw [mapFail]
    dsimp only
    cases flush sm n₁ <;> rfl

/-- A failed storage write ends the loop, with everyone who waits told, exactly when the event is not
a proposal or a membership change, or a write fails in the flush that follows it.  Apart from writes
nothing may fail in the flush. -/
theorem storage_failure_ends_iff (sm : StateMachine σ ρ) (n : Node σ ρ) (e : Event)
    (faults : List Bool) (hf : WriteFails (turn sm e) (n.withFaults faults))
    (hflush : ∀ n₁, handle e (n.withFaults faults) = .ok () n₁ → ¬WriteFails (flush sm) n₁ →
      ∃ n₂, flush sm n₁ = .ok () n₂) :
    Ends sm n e faults ↔ e.client = false ∨
      ∃ n₁, handle e (n.withFaults faults) = .ok () n₁ ∧ WriteFails (flush sm) n₁ := by
  constructor
  · rintro ⟨n₁, err, n', ht, -⟩
    cases he : e.client with
    | false => exact Or.inl rfl
    | true =>
      right
      have hclient := meets_handle_client (n := n.withFaults faults) he
      rw [turn_apply] at ht
      cases hh : handle e (n.withFaults faults) with
      | error f n₂ =>
        rw [hh] at ht
        injection ht with hf
        exact absurd hf (hclient.error hh err)
      | ok u n₂ =>
        refine ⟨n₂, rfl, by_contra fun hno => ?_⟩
        obtain ⟨n₃, hfl⟩ := hflush n₂ hh hno
        rw [hh] at ht
        dsimp only at ht
        rw [hfl] at ht
        cases ht
  · rintro (he | ⟨n₁, hh, hfails⟩)
    · have hturn : Alerts (turn sm e) (n.withFaults faults) :=
        Alerts.bind (alerts_handle he) fun _ _ => (alerts_flush sm).during _
      obtain ⟨err, n₁, ht⟩ := hturn.exists_error hf
      exact ends_of_error ht
    · obtain ⟨err, n₂, hfl⟩ := (alerts_flush sm).exists_error hfails
      have ht : turn sm e (n.withFaults faults) = .error (fatal "flush" (.error err)) n₂ := by
        rw [turn_apply, hh]
        dsimp only
        rw [hfl]
      exact ends_of_error ht

/-- A node that is its own cluster and takes a snapshot with every second entry. -/
def snapshottingElection : List Happening :=
  [.start { soloConfig with snapshotThreshold := 2 }, .event .tick [], .event .tick []]

/-- A proposal is appended and committed, and then the snapshot that is due cannot be saved: the
failure falls in the flush, and the loop ends. -/
theorem storage_failure_ends_snapshot :
    ∃ n : Node (List (List UInt8)) ℕ,
      (Proc.down {}).run scribe [] snapshottingElection = .up n ∧
        Ends scribe n (.propose [7]) [false, false, true] := by
  let faults : List Bool := [false, false, true]
  obtain ⟨n, hn, ht⟩ := Proc.exists_up (p := (Proc.down {}).run scribe [] snapshottingElection)
    (fun n => WriteFails (turn scribe (.propose [7])) (n.withFaults faults) &&
      match handle (.propose [7]) (n.withFaults faults) with
      | .ok _ n₁ => WriteFails (flush scribe) n₁
      | .error _ _ => false) (by decide +kernel)
  obtain ⟨hturn, hflush⟩ := Bool.and_eq_true_iff.mp ht
  split at hflush
  · rename_i n₁ hh
    have hfails := of_decide_eq_true hflush
    refine ⟨n, hn, (storage_failure_ends_iff scribe n _ faults (of_decide_eq_true hturn)
      fun n₂ hn₂ hno => ?_).mpr (Or.inr ⟨n₁, hh, hfails⟩)⟩
    rw [hh] at hn₂
    cases hn₂
    exact absurd hfails hno
  · cases hflush

/-- A leader whose log cannot be written answers the proposal with the error, and goes on: it is
still there to take the next one. -/
theorem storage_failure_passed_on :
    ∃ n n' n'' : Node (List (List UInt8)) ℕ,
      (Proc.down {}).run scribe [] soloElection = .up n ∧
      n.run scribe (.propose [7]) [true] = .running n' ∧
      n'.rn.faultsLeft < [true].count true ∧ n'.replies.map Prod.fst = [0] ∧
      n'.run scribe (.propose [8]) [] = .running n'' ∧ n''.replies.map Prod.fst = [0, 1] := by
  obtain ⟨n, hn, -⟩ := Proc.exists_up
    (p := (Proc.down {}).run scribe [] soloElection) (fun _ => true) (by decide +kernel)
  obtain ⟨n', hn', ht'⟩ := Proc.exists_up
    (p := (Proc.down {}).run scribe [] (soloElection ++ [.event (.propose [7]) [true]]))
    (fun n' => n'.rn.faultsLeft = 0 ∧ n'.replies.map Prod.fst = [0]) (by decide +kernel)
  obtain ⟨n'', hn'', ht''⟩ := Proc.exists_up
    (p := (Proc.down {}).run scribe []
      (soloElection ++ [.event (.propose [7]) [true]] ++ [.event (.propose [8]) []]))
    (fun n'' => n''.replies.map Prod.fst = [0, 1]) (by decide +kernel)
  rw [Proc.run_append, hn'] at hn''
  rw [Proc.run_append, hn] at hn'
  obtain ⟨hleft, hreplies⟩ := of_decide_eq_true ht'
  exact ⟨n, n', n'', hn, Proc.running_of_run hn', hleft ▸ Nat.one_pos, hreplies,
    Proc.running_of_run hn'', of_decide_eq_true ht''⟩

end RaftStore.Loop
