import RaftStore.Node.Process
import RaftStore.Raft.Faults
import RaftStore.Raft.Process

/-! What a turn of the loop can do.  It takes its event, which is at most one call on the core, and
then makes the moves of a flush; each is a call on the core together with what the loop does with the
result.  A turn that ends the loop has come some way and then failed. -/

namespace RaftStore.Loop

open Lib Raft

variable {σ ρ α : Type}

/-- Whether the failure is a panic, and not an error that is returned. -/
def panics : Fail → Bool
  | .error _ => false
  | _ => true

/-- The call that the loop makes to take an event; a read gets the next id. -/
def Event.call? (readSeq : UInt64) : Event → Option Call
  | .tick => some .tick
  | .message m => some (.step m)
  | .propose cmd => some (.propose cmd)
  | .read => some (.readIndex (readSeq + 1))
  | .confChange target => some (.proposeConfChange target)
  | _ => none

/-- The calls of a flush. -/
def flushing : Call → Bool
  | .messages | .readStates | .snapshotToApply | .applyTo _ | .createSnapshot _ => true
  | _ => false

namespace Node

/-- After a call on the core that left it as `r`. -/
def called (n : Node σ ρ) (r : RawNode) : Node σ ρ := { n with rn := r, trace := n.trace ++ [r] }

/-- A proposal has been appended at index `i`. -/
def accepted (n : Node σ ρ) (cmd : List UInt8) (i : ℕ) (r : RawNode) : Node σ ρ :=
  { n.called r with
    proposed := n.proposed ++ [cmd]
    pending := n.pending.insert i ⟨r.term, n.proposed.length, cmd⟩ }

/-- A proposal has been answered with the core's error. -/
def refused (n : Node σ ρ) (cmd : List UInt8) (err : Error) (r : RawNode) : Node σ ρ :=
  { n.called r with
    proposed := n.proposed ++ [cmd]
    replies := n.replies ++ [(n.proposed.length, .error err)] }

/-- A read waits for its confirmation. -/
def opened (n : Node σ ρ) (r : RawNode) : Node σ ρ :=
  { n.called r with
    readSeq := n.readSeq + 1
    asked := n.asked + 1
    pendingReads := n.pendingReads.insert (n.readSeq + 1) n.asked }

/-- A read has been answered with the core's error. -/
def unread (n : Node σ ρ) (err : Error) (r : RawNode) : Node σ ρ :=
  { n.called r with
    readSeq := n.readSeq + 1
    asked := n.asked + 1
    readReplies := n.readReplies ++ [(n.asked, .error err)] }

/-- A membership change has been answered. -/
def changed (n : Node σ ρ) (result : Except Error ℕ) (r : RawNode) : Node σ ρ :=
  { n.called r with confReplies := n.confReplies ++ [result] }

/-- The outbox has been sent. -/
def released (n : Node σ ρ) : Node σ ρ :=
  { n.called { n.rn with msgs := [] } with sent := n.sent ++ n.rn.msgs }

/-- The confirmed reads have been answered. -/
def answered (n : Node σ ρ) : Node σ ρ :=
  n.rn.readStates.foldl resolveRead (n.called { n.rn with readStates := [] })

/-- The core has been asked for a snapshot to restore. -/
def looked (n : Node σ ρ) : Node σ ρ := n.called { n.rn with appliedSnapshot := none }

/-- The state machine has been rebuilt from a snapshot that arrived. -/
def restored (n : Node σ ρ) (snap : Snapshot) (app : σ) : Node σ ρ :=
  let calls : List (AppCall ρ) := [.restore snap.data snap.lastIncludedIndex]
  { n.looked with app, calls := n.calls ++ calls }.failPending errProposalDropped

/-- The state machine has been told an entry. -/
def told (n : Node σ ρ) (app : σ) (e : LogEntry) (response : ρ) : Node σ ρ :=
  { n with app, calls := n.calls ++ [.apply e response] }

/-- A captured state has been handed to the core. -/
def captured (n : Node σ ρ) (data : List UInt8) (r : RawNode) : Node σ ρ :=
  { n.called r with
    calls := n.calls ++ [.snapshot data, .createSnapshot n.rn.log.applied data] }

end Node

/-- What the loop has done with an event when it goes on to flush. -/
inductive Taken (n : Node σ ρ) : Event → Node σ ρ → Prop
  | tick (r : RawNode) : Raft.tick n.rn = .ok () r → Taken n .tick (n.called r)
  | step (m : Message) (r : RawNode) : Raft.step m n.rn = .ok () r →
      Taken n (.message m) (n.called r)
  | ignore (m : Message) (err : Error) (r : RawNode) : Raft.step m n.rn = .error (.error err) r →
      err.is .ignoredMessage = true → Taken n (.message m) (n.called r)
  | propose (cmd : List UInt8) (i : ℕ) (r : RawNode) :
      Raft.propose { type := .normal, command := cmd } n.rn = .ok i r →
      Taken n (.propose cmd) (n.accepted cmd i r)
  | refuse (cmd : List UInt8) (err : Error) (r : RawNode) :
      Raft.propose { type := .normal, command := cmd } n.rn = .error (.error err) r →
      Taken n (.propose cmd) (n.refused cmd err r)
  | read (r : RawNode) : readIndex (n.readSeq + 1) n.rn = .ok () r → Taken n .read (n.opened r)
  | unread (err : Error) (r : RawNode) : readIndex (n.readSeq + 1) n.rn = .error (.error err) r →
      Taken n .read (n.unread err r)
  | change (target : Configuration) (i : ℕ) (r : RawNode) :
      proposeConfChange target n.rn = .ok i r → Taken n (.confChange target) (n.changed (.ok i) r)
  | unchanged (target : Configuration) (err : Error) (r : RawNode) :
      proposeConfChange target n.rn = .error (.error err) r →
      Taken n (.confChange target) (n.changed (.error err) r)
  | status : Taken n .status { n with statuses := n.statuses ++ [n.statusLocked] }

/-- Entries have been applied one after another, and whoever proposed them has been answered. -/
inductive Applies (sm : StateMachine σ ρ) : Node σ ρ → List LogEntry → Node σ ρ → Prop
  | nil (n : Node σ ρ) : Applies sm n [] n
  | normal {n n' : Node σ ρ} {e : LogEntry} {rest : List LogEntry} (response : ρ) (app : σ) :
      e.type = .normal → sm.apply n.app e = .ok (response, app) →
      Applies sm ((n.told app e response).resolve e (some response)) rest n' →
      Applies sm n (e :: rest) n'
  | other {n n' : Node σ ρ} {e : LogEntry} {rest : List LogEntry} : e.type ≠ .normal →
      Applies sm (n.resolve e none) rest n' → Applies sm n (e :: rest) n'

/-- One thing that the loop does in a flush. -/
inductive Move (sm : StateMachine σ ρ) (n : Node σ ρ) : Node σ ρ → Prop
  | release : Move sm n n.released
  | answer : Move sm n n.answered
  | look : n.rn.appliedSnapshot = none → Move sm n n.looked
  | restore (s : Snapshotter σ) (snap : Snapshot) (app : σ) : n.rn.appliedSnapshot = some snap →
      sm.snapshotter = some s → s.restore n.app snap.data snap.lastIncludedIndex = .ok app →
      Move sm n (n.restored snap app)
  | batch (entries : List LogEntry) (last : LogEntry) (n' : Node σ ρ) (r : RawNode) :
      n.rn.appliedSnapshot = none → n.rn.committedEntries = .ok entries →
      entries.getLast? = some last → Applies sm n entries n' →
      applyTo last.index n'.rn = .ok () r → Move sm n (n'.called r)
  | capture (s : Snapshotter σ) (data : List UInt8) (snap : Snapshot) (r : RawNode) :
      n.rn.appliedSnapshot = none → sm.snapshotter = some s → s.snapshot n.app = .ok data →
      createSnapshot data n.rn = .ok snap r → n.rn.shouldSnapshot = true →
      Move sm n (n.captured data r)
  | uncaptured (s : Snapshotter σ) (data : List UInt8) (err : Error) (r : RawNode) :
      n.rn.appliedSnapshot = none → sm.snapshotter = some s → s.snapshot n.app = .ok data →
      createSnapshot data n.rn = .error (.error err) r → n.rn.shouldSnapshot = true →
      (err.is .nothingToSnapshot || err.is .snapshotOutOfDate) = true →
      Move sm n (n.captured data r)
  | note : Move sm n n.noteRole

abbrev Moves (sm : StateMachine σ ρ) : Node σ ρ → Node σ ρ → Prop := Relation.ReflTransGen (Move sm)

/-- How a turn fails. -/
inductive Failing (sm : StateMachine σ ρ) (e : Event) (n : Node σ ρ) : Fail → Node σ ρ → Prop
  | idle (err : Error) : Failing sm e n (.error err) n
  | tick (err err' : Error) (r : RawNode) : e = .tick → Raft.tick n.rn = .error (.error err) r →
      Failing sm e n (.error err') (n.called r)
  | step (m : Message) (err err' : Error) (r : RawNode) : e = .message m →
      Raft.step m n.rn = .error (.error err) r → err.is .ignoredMessage = false →
      Failing sm e n (.error err') (n.called r)
  | restore (snap : Snapshot) (err : Error) : n.rn.appliedSnapshot = some snap →
      Failing sm e n (.error err) n.looked
  | batch (done rest : List LogEntry) (n' : Node σ ρ) (err : Error) :
      n.rn.appliedSnapshot = none → n.rn.committedEntries = .ok (done ++ rest) →
      Applies sm n done n' → Failing sm e n (.error err) n'
  | capture (s : Snapshotter σ) (data : List UInt8) (err err' : Error) (r : RawNode) :
      n.rn.appliedSnapshot = none → sm.snapshotter = some s → s.snapshot n.app = .ok data →
      createSnapshot data n.rn = .error (.error err) r →
      Failing sm e n (.error err') (n.captured data r)
  /-- A panic ends the process in the middle of a call. -/
  | panic (c : Call) (f f' : Fail) (n' : Node σ ρ) :
      e.call? n.readSeq = some c ∨ flushing c = true → panics f = true → panics f' = true →
      c.run n.rn = .error f n'.rn → n'.sent = n.sent → Failing sm e n f' n'

theorem Failing.fatal {sm : StateMachine σ ρ} {e : Event} {n n' : Node σ ρ} {f : Fail}
    (h : Failing sm e n f n') (what : String) : Failing sm e n (fatal what f) n' := by
  cases h with
  | idle err => exact .idle _
  | tick err err' r he hr => exact .tick err _ r he hr
  | step m err err' r he hr hi => exact .step m err _ r he hr hi
  | restore snap err hs => exact .restore snap _ hs
  | batch done rest _ err hs he ha => exact .batch done rest n' _ hs he ha
  | capture s data err err' r hs hm hd hr => exact .capture s data err _ r hs hm hd hr
  | panic c f₀ _ _ hc hf₀ hf hr hsent =>
    refine .panic c f₀ _ n' hc hf₀ ?_ hr hsent
    cases f <;> exact hf

/-! ### Taking an event -/

variable {sm : StateMachine σ ρ} {e : Event} {n n' : Node σ ρ}

theorem meets_onCore {x : Core α} {Q : α → Node σ ρ → Prop} {F : Fail → Node σ ρ → Prop} :
    Meets (onCore x) n Q F ↔ (∀ a r, x n.rn = .ok a r → Q a (n.called r)) ∧
      ∀ f r, x n.rn = .error f r → F f (n.called r) := by
  rw [onCore, meets_onPart, meets_iff]
  rfl

theorem meets_onCore_ok {x : Core α} {Q : α → Node σ ρ → Prop} {F : Fail → Node σ ρ → Prop} {a : α}
    {r : RawNode} (h : x n.rn = .ok a r) : Meets (onCore x) n Q F ↔ Q a (n.called r) := by
  rw [onCore, meets_onPart, Meets, h]
  rfl

/-- What is run for its effect alone. -/
theorem run_ok {x : Core α} {r r' : RawNode} {a : α} (h : x r = .ok a r') :
    (do let _ ← x : Core Unit) r = .ok () r' := by
  change EStateM.bind x _ r = _
  rw [EStateM.bind, h]
  rfl

theorem run_error {x : Core α} {r r' : RawNode} {f : Fail} (h : x r = .error f r') :
    (do let _ ← x : Core Unit) r = .error f r' := by
  change EStateM.bind x _ r = _
  rw [EStateM.bind, h]

/-- The call leaves a running core as `r'`. -/
def Goes (c : Call) (r r' : RawNode) : Prop := Slot.after c (c.run r) = .up r'

section

variable {c : Call} {r r' : RawNode}

theorem goes_of_ok (h : c.run r = .ok () r') : Goes c r r' := by
  rw [Goes, h]
  rfl

theorem goes_of_error {f : Fail} (h : c.run r = .error f r') (hf : c.stops f = false) :
    Goes c r r' := by
  rw [Goes, h, Slot.after, if_neg (by rw [hf]; rintro ⟨⟩)]

theorem goes_messages (r : RawNode) : Goes .messages r { r with msgs := [] } := goes_of_ok rfl

theorem goes_readStates (r : RawNode) : Goes .readStates r { r with readStates := [] } :=
  goes_of_ok rfl

theorem goes_snapshotToApply (r : RawNode) :
    Goes .snapshotToApply r { r with appliedSnapshot := none } := goes_of_ok rfl

theorem Goes.reach (h : Goes c r r') (hr : r.Wf) : Reach c r r' := by
  have hrun := c.meets_run hr
  rw [Goes] at h
  cases hc : c.run r with
  | ok _ r₁ =>
    rw [hc] at h
    cases h
    exact hrun.ok hc
  | error f r₁ =>
    rw [hc, Slot.after] at h
    have := hrun.error hc
    split at h
    · cases h
    · rename_i hf
      cases h
      rwa [if_neg hf] at this

end

/-- The loop has left the core alone, or made one of the calls, after which the core still runs. -/
def Ran (calls : Call → Prop) (n n' : Node σ ρ) : Prop :=
  n'.rn = n.rn ∧ n'.trace = n.trace ∨
    ∃ c, calls c ∧ Goes c n.rn n'.rn ∧ n'.trace = n.trace ++ [n'.rn]

theorem Ran.wf {calls : Call → Prop} (h : Ran calls n n') (hr : n.rn.Wf) : n'.rn.Wf := by
  rcases h with ⟨heq, -⟩ | ⟨c, -, hg, -⟩
  · rwa [heq]
  · exact (hg.reach hr).wf hr

theorem Taken.ran (h : Taken n e n') : Ran (fun c => e.call? n.readSeq = some c) n n' := by
  cases h with
  | tick r hr => exact Or.inr ⟨_, rfl, goes_of_ok hr, rfl⟩
  | step m r hr => exact Or.inr ⟨_, rfl, goes_of_ok hr, rfl⟩
  | ignore m err r hr hi =>
    exact Or.inr ⟨_, rfl, goes_of_error hr (by simp [Call.stops, hi]), rfl⟩
  | propose cmd i r hr => exact Or.inr ⟨_, rfl, goes_of_ok (run_ok hr), rfl⟩
  | refuse cmd err r hr => exact Or.inr ⟨_, rfl, goes_of_error (run_error hr) rfl, rfl⟩
  | read r hr => exact Or.inr ⟨_, rfl, goes_of_ok hr, rfl⟩
  | unread err r hr => exact Or.inr ⟨_, rfl, goes_of_error hr rfl, rfl⟩
  | change target i r hr => exact Or.inr ⟨_, rfl, goes_of_ok (run_ok hr), rfl⟩
  | unchanged target err r hr => exact Or.inr ⟨_, rfl, goes_of_error (run_error hr) rfl, rfl⟩
  | status => exact Or.inl ⟨rfl, rfl⟩

theorem meets_handle (sm : StateMachine σ ρ) (e : Event) (n : Node σ ρ) :
    Meets (handle e) n (fun _ n' => Taken n e n') fun f n' => Failing sm e n f n' := by
  cases e with
  | stop => exact .idle _
  | closed => exact .idle _
  | tick =>
    rw [handle, during, meets_mapFail, meets_onCore]
    refine ⟨fun _ r hr => .tick r hr, fun f r hr => ?_⟩
    cases f with
    | error err => exact .tick err _ r rfl hr
    | panic text => exact .panic .tick _ _ _ (Or.inl rfl) rfl rfl hr rfl
    | outOfFuel => exact .panic .tick _ _ _ (Or.inl rfl) rfl rfl hr rfl
  | message m =>
    rw [handle, meets_tryCatch, meets_onCore]
    refine ⟨fun _ r hr => .step m r hr, fun f r hr => ?_⟩
    cases f with
    | error err =>
      dsimp only
      cases hi : err.is .ignoredMessage with
      | true => exact .ignore m err r hr hi
      | false => exact .step m err _ r rfl hr hi
    | panic text => exact .panic (.step m) _ _ _ (Or.inl rfl) rfl rfl hr rfl
    | outOfFuel => exact .panic (.step m) _ _ _ (Or.inl rfl) rfl rfl hr rfl
  | propose cmd =>
    rw [handle, handlePropose, meets_bind, meets_get]
    dsimp only
    rw [meets_bind, meets_set, meets_tryCatch, meets_bind, meets_onCore]
    refine ⟨fun i r hr => .propose cmd i r hr, fun f r hr => ?_⟩
    cases f with
    | error err => exact .refuse cmd err r hr
    | panic text => exact .panic (.propose cmd) _ _ _ (Or.inl rfl) rfl rfl (run_error hr) rfl
    | outOfFuel => exact .panic (.propose cmd) _ _ _ (Or.inl rfl) rfl rfl (run_error hr) rfl
  | read =>
    rw [handle, handleRead, meets_bind, meets_get]
    dsimp only
    rw [meets_bind, meets_set, meets_tryCatch, meets_bind, meets_onCore]
    refine ⟨fun _ r hr => .read r hr, fun f r hr => ?_⟩
    cases f with
    | error err => exact .unread err r hr
    | panic text => exact .panic (.readIndex (n.readSeq + 1)) _ _ _ (Or.inl rfl) rfl rfl hr rfl
    | outOfFuel => exact .panic (.readIndex (n.readSeq + 1)) _ _ _ (Or.inl rfl) rfl rfl hr rfl
  | confChange target =>
    rw [handle, handleConfChange, meets_tryCatch, meets_bind, meets_onCore]
    refine ⟨fun i r hr => .change target i r hr, fun f r hr => ?_⟩
    cases f with
    | error err => exact .unchanged target err r hr
    | panic text =>
      exact .panic (.proposeConfChange target) _ _ _ (Or.inl rfl) rfl rfl (run_error hr) rfl
    | outOfFuel =>
      exact .panic (.proposeConfChange target) _ _ _ (Or.inl rfl) rfl rfl (run_error hr) rfl
  | status => exact .status

/-! ### Flushing -/

namespace Node

theorem resolve_eq (n : Node σ ρ) (e : LogEntry) (response : Option ρ) :
    n.resolve e response =
      { n with
        pending := (n.resolve e response).pending
        replies := (n.resolve e response).replies } := by
  rw [resolve]
  split
  · rfl
  · dsimp only
    split <;> rfl

theorem resolveRead_eq (n : Node σ ρ) (state : ReadState) :
    n.resolveRead state =
      { n with
        pendingReads := (n.resolveRead state).pendingReads
        readReplies := (n.resolveRead state).readReplies } := by
  rw [resolveRead]
  split <;> rfl

theorem foldl_resolveRead_eq (states : List ReadState) (n : Node σ ρ) :
    states.foldl resolveRead n =
      { n with
        pendingReads := (states.foldl resolveRead n).pendingReads
        readReplies := (states.foldl resolveRead n).readReplies } := by
  induction states generalizing n with
  | nil => rfl
  | cons state states ih =>
    rw [List.foldl_cons, ih, resolveRead_eq]

theorem noteRole_eq (n : Node σ ρ) :
    n.noteRole =
      { n with
        pending := n.noteRole.pending
        replies := n.noteRole.replies
        pendingReads := n.noteRole.pendingReads
        readReplies := n.noteRole.readReplies
        lastState := n.rn.state
        lastTerm := n.rn.term } := by
  rw [noteRole]
  split
  · dsimp only
    split <;> rfl
  · rename_i h
    obtain ⟨hs, ht⟩ : n.rn.state = n.lastState ∧ n.rn.term = n.lastTerm := by
      simpa [not_or] using h
    rw [hs, ht]

end Node

theorem Applies.eq {entries : List LogEntry} (h : Applies sm n entries n') :
    n' = { n with app := n'.app, calls := n'.calls, pending := n'.pending, replies := n'.replies } := by
  induction h with
  | nil n => rfl
  | normal response app _ _ _ ih =>
    rw [Node.resolve_eq] at ih
    exact ih
  | other _ _ ih =>
    rw [Node.resolve_eq] at ih
    exact ih

theorem Applies.frame {entries : List LogEntry} (h : Applies sm n entries n') :
    n'.rn = n.rn ∧ n'.sent = n.sent ∧ n'.trace = n.trace := by
  rw [h.eq]
  exact ⟨rfl, rfl, rfl⟩

/-- Entries are applied until one of them cannot be. -/
theorem meets_applyEntries (sm : StateMachine σ ρ) (entries : List LogEntry) (n : Node σ ρ) :
    Meets (applyEntries sm entries) n (fun _ n' => Applies sm n entries n') fun f n' =>
      (∃ err, f = .error err) ∧ ∃ done rest, entries = done ++ rest ∧ Applies sm n done n' := by
  induction entries generalizing n with
  | nil => exact .nil n
  | cons e rest ih =>
    rw [applyEntries, meets_bind, applyEntry, meets_bind, meets_get]
    split
    · rename_i hty
      split
      · exact ⟨⟨_, rfl⟩, [], e :: rest, rfl, .nil n⟩
      · rename_i response app happ
        rw [meets_set]
        refine Meets.mono (ih _) (fun _ n' h => .normal response app hty happ h) ?_
        rintro f n' ⟨herr, done, rest', rfl, h⟩
        exact ⟨herr, e :: done, rest', rfl, .normal response app hty happ h⟩
    · rename_i hty
      rw [meets_set]
      refine Meets.mono (ih _) (fun _ n' h => .other hty h) ?_
      rintro f n' ⟨herr, done, rest', rfl, h⟩
      exact ⟨herr, e :: done, rest', rfl, .other hty h⟩

theorem meets_restoreSnapshot (sm : StateMachine σ ρ) (e : Event) (n : Node σ ρ) :
    Meets (restoreSnapshot sm) n
      (fun _ n' => Move sm n n' ∧ n'.rn = { n.rn with appliedSnapshot := none })
      fun f n' => Failing sm e n f n' := by
  have hask : snapshotToApply n.rn =
      .ok n.rn.appliedSnapshot { n.rn with appliedSnapshot := none } := rfl
  rw [restoreSnapshot, meets_bind, meets_onCore_ok hask]
  cases hs : n.rn.appliedSnapshot with
  | none => exact ⟨.look hs, rfl⟩
  | some snap =>
    dsimp only
    split
    · exact .restore snap _ hs
    · rename_i s hm
      rw [meets_bind, meets_get]
      split
      · exact .restore snap _ hs
      · rename_i app happ
        exact ⟨.restore s snap app hs hm happ, rfl⟩

/-- What is committed can be applied up to any committed index. -/
theorem applyTo_ok {r : RawNode} {i : ℕ} (hlt : r.log.applied < i) (hle : i ≤ r.log.committed) :
    ∃ r', applyTo i r = .ok () r' ∧ Reach (.applyTo i) r r' ∧
      r' = { r with log := { r.log with applied := i } } := by
  refine ⟨_, Meets.eq_ok ?_, (Effect.apply i rfl hlt.le hle).reach, rfl⟩
  rw [applyTo, onLog, meets_onPart, RaftLog.appliedTo, meets_bind, meets_get, if_neg (by omega),
    if_neg (by omega)]
  exact ⟨rfl, rfl⟩

/-- Every batch applies something, so that with enough fuel nothing is left. -/
theorem meets_applyBatches (sm : StateMachine σ ρ) (e : Event) (fuel : ℕ) {n : Node σ ρ}
    (hr : n.rn.Wf) (hs : n.rn.appliedSnapshot = none)
    (hf : n.rn.log.committed - n.rn.log.applied ≤ fuel) :
    Meets (applyBatches sm fuel) n
      (fun _ n' => Moves sm n n' ∧ n'.rn.appliedSnapshot = none ∧
        n'.rn.log.applied = n'.rn.log.committed)
      fun f n' => ∃ n₁, Moves sm n n₁ ∧ Failing sm e n₁ f n' := by
  have hle := hr.log.applied_le
  induction fuel generalizing n with
  | zero => exact ⟨.refl, hs, by omega⟩
  | succ fuel ih =>
    rw [applyBatches, meets_bind, meets_get]
    by_cases hmore : n.rn.log.hasEntriesToApply
    · rw [if_neg (by simpa using hmore)]
      have hlt : n.rn.log.applied < n.rn.log.committed := of_decide_eq_true hmore
      obtain ⟨es, hes, hlen, hne, hat⟩ :=
        RaftLog.entriesToApply_ok hr.log n.rn.cfg.maxApplyEntries
      rw [hes]
      dsimp only
      have hpos : 0 < es.length := List.length_pos_of_ne_nil (hne hlt)
      obtain ⟨last, hlast⟩ : ∃ last, es.getLast? = some last :=
        ⟨_, List.getLast?_eq_some_getLast (hne hlt)⟩
      have hidx : last.index = n.rn.log.applied + es.length := by
        have := (hat (es.length - 1) last (by rw [← List.getLast?_eq_getElem?, hlast])).1
        omega
      rw [hlast]
      dsimp only
      rw [meets_bind]
      refine Meets.mono (meets_applyEntries sm es n) (fun _ n₁ ha => ?_) ?_
      · have hrn := ha.frame.1
        obtain ⟨r', hto, hreach, hr'⟩ := applyTo_ok (r := n₁.rn) (i := last.index)
          (by rw [hrn]; omega) (by rw [hrn]; omega)
        have hmove : Move sm n (n₁.called r') := .batch es last n₁ r' hs hes hlast ha hto
        have happlied : r'.log.applied = last.index := by rw [hr']
        have hcommitted : r'.log.committed = n.rn.log.committed := by rw [hr', hrn]
        rw [meets_bind, meets_onCore_ok hto]
        refine Meets.mono (ih (n := n₁.called r') (hreach.wf (hrn ▸ hr)) ?_ ?_ ?_) ?_ ?_
        · change r'.appliedSnapshot = none
          rw [hr', hrn, hs]
        · change r'.log.committed - r'.log.applied ≤ fuel
          omega
        · change r'.log.applied ≤ r'.log.committed
          omega
        · rintro _ n' ⟨hmoves, hrest⟩
          exact ⟨.head hmove hmoves, hrest⟩
        · rintro f n' ⟨n₂, hmoves, hfail⟩
          exact ⟨n₂, .head hmove hmoves, hfail⟩
      · rintro f n' ⟨⟨err, rfl⟩, done, rest, rfl, ha⟩
        exact ⟨n, .refl, .batch done rest n' err hs hes ha⟩
    · rw [if_pos (by simpa using hmore)]
      have : ¬ n.rn.log.applied < n.rn.log.committed := fun h => hmore (decide_eq_true h)
      exact ⟨.refl, hs, by omega⟩

/-- The two differ in the storage at most. -/
def SameButStorage (r r' : RawNode) : Prop :=
  r' = { r with log := { r.log with storage := r'.log.storage } }

theorem SameButStorage.trans {r r' r'' : RawNode} (h : SameButStorage r r')
    (h' : SameButStorage r' r'') : SameButStorage r r'' := by
  rw [SameButStorage, h', h]

/-- The program on the node's log changes nothing but the storage. -/
def OnStorage (x : LogM Unit) : Prop :=
  ∀ r, Meets (onLog x) r (fun _ r' => SameButStorage r r') fun _ r' => SameButStorage r r'

theorem onStorage_onDisk (x : EStateM Fail Disk Unit) : OnStorage (RaftLog.onDisk x) := by
  intro r
  rw [onLog, meets_onPart, RaftLog.onDisk, meets_onPart, meets_iff]
  exact ⟨fun _ _ _ => rfl, fun _ _ _ => rfl⟩

theorem onStorage_compact (upto : ℕ) : OnStorage (RaftLog.compact upto) := by
  intro r
  rw [onLog, meets_onPart, RaftLog.compact, meets_bind, meets_get]
  split
  · rfl
  · exact meets_onPart.mp (onStorage_onDisk _ r)

/-- Taking a snapshot changes nothing but the storage, and what is taken is what was handed over, at
the applied index. -/
theorem createSnapshot_same (data : List UInt8) (r : RawNode) :
    Meets (createSnapshot data) r
      (fun snap r' => SameButStorage r r' ∧ snap.lastIncludedIndex = r.log.applied ∧ snap.data = data)
      fun _ r' => SameButStorage r r' := by
  rw [createSnapshot, meets_bind, meets_get]
  dsimp only
  split
  · rfl
  · split
    · rfl
    · rw [meets_bind, meets_mapFail]
      refine Meets.mono (onStorage_onDisk _ r) (fun _ r₁ h₁ => ?_) fun _ _ h => h
      split
      · exact ⟨h₁, rfl, rfl⟩
      · generalize (if r.cfg.snapshotCatchUpEntries > 0 then
          r.log.applied - r.cfg.snapshotCatchUpEntries else r.log.applied) = compactTo
        rw [meets_bind, meets_get]
        split
        · exact ⟨h₁, rfl, rfl⟩
        · rw [meets_bind, wrapping, meets_mapFail]
          exact Meets.mono (onStorage_compact compactTo r₁) (fun _ _ h => ⟨h₁.trans h, rfl, rfl⟩)
            fun _ _ h => h₁.trans h

theorem meets_maybeSnapshot (sm : StateMachine σ ρ) (e : Event) {n : Node σ ρ}
    (hs : n.rn.appliedSnapshot = none) :
    Meets (maybeSnapshot sm) n
      (fun _ n' => Moves sm n n' ∧ SameButStorage n.rn n'.rn)
      fun f n' => Failing sm e n f n' := by
  rw [maybeSnapshot, meets_bind, meets_get]
  split
  · exact ⟨.refl, rfl⟩
  · rename_i hdue
    rw [Bool.not_eq_true', Bool.not_eq_false] at hdue
    split
    · exact ⟨.refl, rfl⟩
    · rename_i s hm
      split
      · exact .idle _
      · rename_i data hd
        have hsame := meets_iff.mp (createSnapshot_same data n.rn)
        rw [meets_bind, meets_set, meets_tryCatch, meets_bind, meets_onCore]
        refine ⟨fun snap r hr => ?_, fun f r hr => ?_⟩
        · exact ⟨.single (.capture s data snap r hs hm hd hr hdue), (hsame.1 _ _ hr).1⟩
        · cases f with
          | error err =>
            dsimp only
            split
            · rename_i his
              exact ⟨.single (.uncaptured s data err r hs hm hd hr hdue his), hsame.2 _ _ hr⟩
            · exact .capture s data err _ r hs hm hd hr
          | panic text =>
            exact .panic (.createSnapshot data) _ _ _ (Or.inr rfl) rfl rfl (run_error hr) rfl
          | outOfFuel =>
            exact .panic (.createSnapshot data) _ _ _ (Or.inr rfl) rfl rfl (run_error hr) rfl

theorem Move.ran (h : Move sm n n') : Ran (fun c => flushing c = true) n n' := by
  cases h with
  | release => exact Or.inr ⟨.messages, rfl, goes_messages n.rn, rfl⟩
  | answer =>
    rw [Node.answered, Node.foldl_resolveRead_eq]
    exact Or.inr ⟨.readStates, rfl, goes_readStates n.rn, rfl⟩
  | look => exact Or.inr ⟨.snapshotToApply, rfl, goes_snapshotToApply n.rn, rfl⟩
  | restore => exact Or.inr ⟨.snapshotToApply, rfl, goes_snapshotToApply n.rn, rfl⟩
  | batch entries last n₁ r _ _ _ ha hr =>
    obtain ⟨hrn, -, htrace⟩ := ha.frame
    rw [hrn] at hr
    exact Or.inr ⟨.applyTo last.index, rfl, goes_of_ok hr, by rw [Node.called, htrace]⟩
  | capture s data snap r _ _ _ hr =>
    exact Or.inr ⟨.createSnapshot data, rfl, goes_of_ok (run_ok hr), rfl⟩
  | uncaptured s data err r _ _ _ hr =>
    exact Or.inr ⟨.createSnapshot data, rfl, goes_of_error (run_error hr) rfl, rfl⟩
  | note =>
    rw [Node.noteRole_eq]
    exact Or.inl ⟨rfl, rfl⟩

theorem Moves.wf (h : Moves sm n n') (hr : n.rn.Wf) : n'.rn.Wf := by
  induction h with
  | refl => exact hr
  | tail _ hm ih => exact hm.ran.wf ih

/-- How a turn leaves the node when the loop goes on: no snapshot waits to be restored, everything
that is committed is applied, and the role is the one last noted. -/
structure Node.Settled (n : Node σ ρ) : Prop where
  snapshot : n.rn.appliedSnapshot = none
  applied : n.rn.log.applied = n.rn.log.committed
  state : n.lastState = n.rn.state

theorem meets_flush (sm : StateMachine σ ρ) (e : Event) {n : Node σ ρ} (hr : n.rn.Wf) :
    Meets (flush sm) n (fun _ n' => Moves sm n n' ∧ n'.Settled)
      fun f n' => ∃ n₁, Moves sm n n₁ ∧ Failing sm e n₁ f n' := by
  have hstart : Moves sm n n.released.answered := .tail (.single .release) .answer
  have hdrain : messages n.rn = .ok n.rn.msgs { n.rn with msgs := [] } := rfl
  have hreads : readStates n.released.rn =
      .ok n.released.rn.readStates { n.released.rn with readStates := [] } := rfl
  rw [flush, meets_bind, meets_onCore_ok hdrain, meets_bind, meets_modify, resolveReads, meets_bind,
    meets_bind]
  refine (meets_onCore_ok hreads).mpr ?_
  rw [meets_modify, meets_bind]
  refine Meets.mono (meets_restoreSnapshot sm e n.released.answered) (fun _ n₁ h₁ => ?_)
    fun f n' hf => ⟨_, hstart, hf⟩
  obtain ⟨hmove, hrn⟩ := h₁
  have h₁ : Moves sm n n₁ := .tail hstart hmove
  rw [meets_bind, applyCommitted, meets_bind, meets_get]
  refine Meets.mono (meets_applyBatches sm e _ (h₁.wf hr) (by rw [hrn]) le_rfl)
    (fun _ n₂ h₂ => ?_) fun f n' ⟨n₂, h₂, hf⟩ => ⟨n₂, h₁.trans h₂, hf⟩
  obtain ⟨h₂, hnone, hall⟩ := h₂
  rw [meets_bind]
  refine Meets.mono (meets_maybeSnapshot sm e hnone) (fun _ n₃ h₃ => ?_)
    fun f n' hf => ⟨n₂, h₁.trans h₂, hf⟩
  obtain ⟨h₃, hsame⟩ := h₃
  have hmoves : Moves sm n n₃.noteRole := .tail ((h₁.trans h₂).trans h₃) .note
  rw [meets_modify]
  refine ⟨hmoves, ?_, ?_, ?_⟩
  · rw [Node.noteRole_eq]
    rw [SameButStorage] at hsame
    rw [hsame]
    exact hnone
  · rw [Node.noteRole_eq]
    rw [SameButStorage] at hsame
    rw [hsame]
    exact hall
  · rw [Node.noteRole_eq]

/-- Whatever ends a process leaves the storage in order. -/
theorem mem_ok_of_error {c : Call} {r r' : RawNode} {f : Fail} (hr : r.Wf)
    (h : c.run r = .error f r') : r'.log.mem.OK := by
  have := (c.meets_run hr).error h
  split at this
  · obtain ⟨r'', hreach, hmem, -⟩ := this
    exact hmem ▸ (hreach.wf hr).mem_ok
  · exact (Reach.wf this hr).mem_ok

theorem Failing.mem_ok {f : Fail} (h : Failing sm e n f n') (hr : n.rn.Wf) : n'.rn.log.mem.OK := by
  cases h with
  | idle err => exact hr.mem_ok
  | tick err err' r _ hrun => exact mem_ok_of_error (c := .tick) hr hrun
  | step m err err' r _ hrun _ => exact mem_ok_of_error (c := .step m) hr hrun
  | restore snap err _ => exact hr.mem_ok
  | batch done rest _ err _ _ ha => exact ha.frame.1 ▸ hr.mem_ok
  | capture s data err err' r _ _ _ hrun =>
    exact mem_ok_of_error (c := .createSnapshot data) hr (run_error hrun)
  | panic c f' _ _ _ _ _ hrun _ => exact mem_ok_of_error hr hrun

/-! ### Starting -/

/-- A process starts with a core read from the storage, and with a state machine that has been told
nothing, or only the storage's snapshot. -/
theorem start_ok {app : σ} {cfg : Config} {st : MemoryStorage} (h : start sm app cfg st = .ok n) :
    ∃ cfg' rn app' calls, cfg.withDefaults = .ok cfg' ∧
      RawNode.new cfg'.core { mem := st } = .ok rn ∧
      n = { rn, app := app', lastState := rn.state, lastTerm := rn.term, calls, trace := [rn] } ∧
      (st.snapshot.lastIncludedIndex = 0 ∧ calls = [] ∨
        calls = [.restore st.snapshot.data st.snapshot.lastIncludedIndex]) := by
  rw [start] at h
  split at h
  · exact nomatch h
  · rename_i cfg' hcfg
    split at h
    · exact nomatch h
    · rename_i rn hnew
      rw [restoreFromDisk] at h
      split at h
      · rename_i hempty
        cases h
        exact ⟨cfg', rn, app, [], hcfg, hnew, rfl, Or.inl ⟨of_decide_eq_true hempty, rfl⟩⟩
      · split at h
        · exact nomatch h
        · split at h
          · exact nomatch h
          · rename_i app' _
            cases h
            exact ⟨cfg', rn, app', _, hcfg, hnew, rfl, Or.inr rfl⟩

/-! ### Turns -/

/-- The turn of the event has come as far as `n'`. -/
def Underway (sm : StateMachine σ ρ) (e : Event) (n n' : Node σ ρ) : Prop :=
  n' = n ∨ ∃ n₀, Taken n e n₀ ∧ Moves sm n₀ n'

/-- A turn takes its event and makes moves until the node is settled, or it fails on the way. -/
theorem meets_turn (sm : StateMachine σ ρ) (e : Event) {n : Node σ ρ} (hr : n.rn.Wf) :
    Meets (turn sm e) n (fun _ n' => ∃ n₁, Taken n e n₁ ∧ Moves sm n₁ n' ∧ n'.Settled)
      fun f n' => ∃ n₁, Underway sm e n n₁ ∧ Failing sm e n₁ f n' := by
  rw [turn, meets_bind]
  refine Meets.mono (meets_handle sm e n) (fun _ n₁ ht => ?_) fun f n' hf => ⟨n, Or.inl rfl, hf⟩
  rw [during, meets_mapFail]
  refine Meets.mono (meets_flush sm e (ht.ran.wf hr)) (fun _ n' ⟨hm, hs⟩ => ⟨n₁, ht, hm, hs⟩) ?_
  rintro f n' ⟨n₂, hm, hf⟩
  exact ⟨n₂, Or.inr ⟨n₁, ht, hm⟩, hf.fatal _⟩

/-- How a turn can end. -/
theorem run_cases (sm : StateMachine σ ρ) (e : Event) {n : Node σ ρ} (hr : n.rn.Wf)
    (faults : List Bool) :
    (∃ n₁ n', n.run sm e faults = .running n' ∧ Taken (n.withFaults faults) e n₁ ∧
      Moves sm n₁ n' ∧ n'.Settled) ∨
    (∃ n₁ n₂ err, n.run sm e faults = .exited ((n₂.failPending err).failReads err) ∧
      Underway sm e (n.withFaults faults) n₁ ∧ Failing sm e n₁ (.error err) n₂) ∨
    ∃ n₁ n' f, n.run sm e faults = .panicked n' ∧ Underway sm e (n.withFaults faults) n₁ ∧
      Failing sm e n₁ f n' := by
  have h := meets_turn sm e (n := n.withFaults faults)
    ((reach_withFaults (c := .tick) n.rn faults).wf hr)
  rw [Node.run]
  cases hturn : turn sm e (n.withFaults faults) with
  | ok _ n' =>
    obtain ⟨n₁, ht, hm, hs⟩ := h.ok hturn
    exact Or.inl ⟨n₁, n', rfl, ht, hm, hs⟩
  | error f n' =>
    obtain ⟨n₁, hu, hf⟩ := h.error hturn
    cases f with
    | error err => exact Or.inr (Or.inl ⟨n₁, n', err, rfl, hu, hf⟩)
    | panic text => exact Or.inr (Or.inr ⟨n₁, n', _, rfl, hu, hf⟩)
    | outOfFuel => exact Or.inr (Or.inr ⟨n₁, n', _, rfl, hu, hf⟩)

theorem Underway.wf (h : Underway sm e n n') (hr : n.rn.Wf) : n'.rn.Wf := by
  rcases h with rfl | ⟨n₀, ht, hm⟩
  · exact hr
  · exact hm.wf (ht.ran.wf hr)

/-- What every start gives and every turn that goes on keeps holds of every process that runs. -/
theorem Proc.invariant {app : σ} {I : Node σ ρ → Prop} {hs : List Happening}
    (hwf : ∀ n, I n → n.rn.Wf)
    (hstart : ∀ cfg st n, st.OK → start sm app cfg st = .ok n → I n)
    (hturn : ∀ n e faults n₁ n', I n → Taken (n.withFaults faults) e n₁ → Moves sm n₁ n' →
      n'.Settled → I n')
    (h : (Proc.down {}).run sm app hs = .up n) : I n := by
  have hinv : ((Proc.down {} : Proc σ ρ).run sm app hs).Sat I MemoryStorage.OK := by
    refine Proc.Sat.run (p := .down {}) MemoryStorage.OK.empty (Proc.allows_true sm app _ hs)
      (fun cfg st n _ => hstart cfg st n) (fun n e faults _ hn => ?_) fun n hn => (hwf n hn).mem_ok
    have hr := (reach_withFaults (c := .tick) n.rn faults).wf (hwf n hn)
    rcases run_cases sm e (hwf n hn) faults with ⟨n₁, n', hrun, ht, hm, hs⟩ |
      ⟨n₁, n₂, err, hrun, hu, hf⟩ | ⟨n₁, n₂, f, hrun, hu, hf⟩ <;> rw [hrun]
    · exact hturn n e faults n₁ n' hn ht hm hs
    · exact hf.mem_ok (hu.wf hr)
    · exact hf.mem_ok (hu.wf hr)
  rw [h] at hinv
  exact hinv

end RaftStore.Loop
