import RaftStore.Raft.Driver

/-! Storage writes that fail.  A call in which a write failed returns an error that wraps no
sentinel, so that no caller takes it for an answer of the core; and apart from the calls made for it,
nothing changes what the application has been told. -/

namespace RaftStore.Raft

open Lib RawNode

/-- An error that wraps no sentinel. -/
def Fail.Bare (f : Fail) : Prop := ∃ e, f = .error e ∧ e.wraps = []

theorem Fail.Bare.wrap {f : Fail} (h : f.Bare) (context : String) : (f.wrap context).Bare := by
  obtain ⟨e, rfl, he⟩ := h
  exact ⟨e.wrap context, rfl, he⟩

/-- The writes that are still to fail. -/
def Disk.faultsLeft (d : Disk) : ℕ := d.faults.count true

/-! ### The log -/

/-- The program keeps the applied index, and reports a write that failed. -/
def LogReports {α : Type} (x : LogM α) (l : RaftLog) : Prop :=
  Meets x l
    (fun _ l' => l'.applied = l.applied ∧ l'.storage.faultsLeft = l.storage.faultsLeft)
    fun e l' => l'.applied = l.applied ∧
      (l'.storage.faultsLeft = l.storage.faultsLeft ∨ e.Bare)

section Log

variable {α β : Type} {l : RaftLog}

theorem meets_write_faults {f : MemoryStorage → Except Error MemoryStorage} (d : Disk) :
    Meets (Disk.write f) d (fun _ d' => d'.faultsLeft = d.faultsLeft)
      fun e d' => d'.faultsLeft = d.faultsLeft ∨ e.Bare := by
  obtain ⟨mem, faults⟩ := d
  simp only [Meets, Disk.write]
  rcases faults with _ | ⟨_ | _, faults⟩
  · cases f mem with
    | ok mem' => rfl
    | error e => exact Or.inl rfl
  · cases f mem with
    | ok mem' => simp [Disk.faultsLeft]
    | error e => exact Or.inl (by simp [Disk.faultsLeft])
  · exact Or.inr ⟨_, rfl, rfl⟩

theorem logReports_write {f : MemoryStorage → Except Error MemoryStorage} :
    LogReports (RaftLog.onDisk (Disk.write f)) l := by
  rw [LogReports, RaftLog.onDisk, meets_onPart]
  exact Meets.mono (meets_write_faults l.storage) (fun _ _ h => ⟨rfl, h⟩) fun _ _ h => ⟨rfl, h⟩

theorem LogReports.pure (a : α) : LogReports (pure a) l := ⟨rfl, rfl⟩

theorem LogReports.throw (e : Fail) : LogReports (throw e : LogM α) l := ⟨rfl, Or.inl rfl⟩

theorem LogReports.bind {x : LogM α} {f : α → LogM β} (hx : LogReports x l)
    (hf : ∀ a l', LogReports (f a) l') : LogReports (x >>= f) l := by
  refine Meets.bind (Meets.mono hx (fun a l' h => ?_) fun _ _ h => h)
  refine Meets.mono (hf a l') (fun _ l'' h' => ?_) fun e l'' h' => ?_
  · exact ⟨h'.1.trans h.1, h'.2.trans h.2⟩
  · exact ⟨h'.1.trans h.1, h'.2.imp_left fun h2 => h2.trans h.2⟩

theorem logReports_append {ents : List LogEntry} : LogReports (RaftLog.append ents) l := by
  cases ents with
  | nil => exact .pure ()
  | cons e rest =>
    refine Meets.bind ?_
    rw [meets_get]
    split
    · exact LogReports.throw _
    · exact logReports_write

theorem logReports_commitTo {i : ℕ} : LogReports (RaftLog.commitTo i) l := by
  refine Meets.bind ?_
  rw [meets_get]
  split
  · exact LogReports.pure _
  · split
    · exact LogReports.throw _
    · exact ⟨rfl, rfl⟩

theorem logReports_maybeAppend {prevIdx prevTerm leaderCommit : ℕ} {ents : List LogEntry} :
    LogReports (RaftLog.maybeAppend prevIdx prevTerm leaderCommit ents) l := by
  refine Meets.bind ?_
  rw [meets_get]
  split
  · exact LogReports.pure _
  · refine LogReports.bind ?_ fun _ _ => LogReports.bind logReports_commitTo fun _ _ => .pure _
    split
    · exact LogReports.pure _
    · split
      · exact LogReports.throw _
      · split
        · exact LogReports.throw _
        · exact logReports_append

theorem meets_restore_faults {snap : Snapshot} :
    Meets (RaftLog.restore snap) l
      (fun _ l' => l'.applied = snap.lastIncludedIndex ∧
        l'.storage.faultsLeft = l.storage.faultsLeft)
      fun e l' => l'.applied = l.applied ∧
        (l'.storage.faultsLeft = l.storage.faultsLeft ∨ e.Bare) := by
  refine Meets.bind ?_
  rw [meets_get]
  split
  · exact ⟨rfl, Or.inl rfl⟩
  · exact Meets.bind (Meets.mono logReports_write (fun _ _ h => ⟨rfl, h.2⟩) fun _ _ h => h)

theorem logReports_compact {upto : ℕ} : LogReports (RaftLog.compact upto) l := by
  refine Meets.bind ?_
  rw [meets_get]
  split
  · exact LogReports.throw _
  · exact logReports_write

end Log

/-! ### The node -/

def RawNode.faultsLeft (r : RawNode) : ℕ := r.log.storage.faultsLeft

/-- What the application has been told is the same, and no write has failed. -/
structure Steady (r r' : RawNode) : Prop where
  applied : r'.log.applied = r.log.applied
  snapshot : r'.appliedSnapshot = r.appliedSnapshot
  faults : r'.faultsLeft = r.faultsLeft

variable {α β : Type} {r r' : RawNode}

theorem faultsLeft_withFaults {faults : List Bool} (h : true ∉ faults) :
    (r.withFaults faults).faultsLeft = 0 :=
  List.count_eq_zero.mpr h

theorem Steady.refl (r : RawNode) : Steady r r := ⟨rfl, rfl, rfl⟩

theorem Steady.trans {r'' : RawNode} (h : Steady r r') (h' : Steady r' r'') : Steady r r'' :=
  ⟨h'.applied.trans h.applied, h'.snapshot.trans h.snapshot, h'.faults.trans h.faults⟩

theorem Steady.of_log (hl : r'.log = r.log) (hs : r'.appliedSnapshot = r.appliedSnapshot) :
    Steady r r' :=
  ⟨by rw [hl], hs, by rw [faultsLeft, hl]; rfl⟩

/-- The program tells the application nothing, and reports a write that failed. -/
def Reports (x : Core α) (r : RawNode) : Prop :=
  Meets x r (fun _ r' => Steady r r') fun e r' =>
    r'.log.applied = r.log.applied ∧ r'.appliedSnapshot = r.appliedSnapshot ∧
      (r'.faultsLeft = r.faultsLeft ∨ e.Bare)

namespace Reports

theorem pure (a : α) : Reports (pure a) r := Steady.refl r

theorem throw (e : Fail) : Reports (throw e : Core α) r := ⟨rfl, rfl, Or.inl rfl⟩

theorem set (h : Steady r r') : Reports (set r' : Core Unit) r := h

theorem modify {f : RawNode → RawNode} (h : Steady r (f r)) : Reports (modify f : Core Unit) r := h

/-- After a steady change, what is reported is reported from before it as well. -/
theorem after {x : Core α} (h : Steady r r') (hx : Reports x r') :
    Meets x r' (fun _ r'' => Steady r r'') fun e r'' =>
      r''.log.applied = r.log.applied ∧ r''.appliedSnapshot = r.appliedSnapshot ∧
        (r''.faultsLeft = r.faultsLeft ∨ e.Bare) :=
  Meets.mono hx (fun _ _ h' => h.trans h') fun _ _ h' =>
    ⟨h'.1.trans h.applied, h'.2.1.trans h.snapshot, h'.2.2.imp_left fun h2 => h2.trans h.faults⟩

theorem bind {x : Core α} {f : α → Core β} (hx : Reports x r) (hf : ∀ a r', Reports (f a) r') :
    Reports (x >>= f) r :=
  Meets.bind (Meets.mono hx (fun a r' h => (hf a r').after h) fun _ _ h => h)

theorem get_bind {f : RawNode → Core α} (h : Reports (f r) r) : Reports (get >>= f) r :=
  Meets.bind h

theorem set_bind {f : PUnit → Core α} (h : Steady r r') (hf : Reports (f ⟨⟩) r') :
    Reports (MonadStateOf.set r' >>= f) r := by
  rw [Reports, meets_bind]
  exact hf.after h

/-- A handler that passes bare errors on. -/
theorem tryCatch {x : Core α} {h : Fail → Core α} (hx : Reports x r)
    (hs : ∀ e r', Reports (h e) r') (hb : ∀ e, e.Bare → ∃ e', e'.Bare ∧ h e = MonadExcept.throw e') :
    Reports (tryCatch x h) r := by
  rw [Reports, meets_tryCatch]
  refine Meets.mono hx (fun _ _ h => h) fun e r' ⟨h1, h2, h3⟩ => ?_
  rcases h3 with h3 | h3
  · exact (hs e r').after ⟨h1, h2, h3⟩
  · obtain ⟨e', hb', heq⟩ := hb e h3
    rw [heq]
    exact ⟨h1, h2, Or.inr hb'⟩

theorem mapFail {x : Core α} {g : Fail → Fail} (hx : Reports x r) (hg : ∀ e, e.Bare → (g e).Bare) :
    Reports (mapFail g x) r := by
  rw [Reports, meets_mapFail]
  exact Meets.mono hx (fun _ _ h => h) fun e _ ⟨h1, h2, h3⟩ => ⟨h1, h2, h3.imp_right (hg e)⟩

theorem wrapping {x : Core α} (hx : Reports x r) (context : String) :
    Reports (wrapping context x) r :=
  hx.mapFail fun _ h => h.wrap context

theorem onLog {x : LogM α} (hx : LogReports x r.log) : Reports (onLog x) r := by
  rw [Reports, Raft.onLog, meets_onPart]
  exact Meets.mono hx (fun _ _ h => ⟨h.1, rfl, h.2⟩) fun _ _ h => ⟨h.1, rfl, h.2⟩

theorem reads {f : RawNode → Except Fail α} : Reports (reads f) r := by
  rw [Reports, meets_reads]
  exact ⟨fun _ _ => .refl r, fun _ _ => ⟨rfl, rfl, Or.inl rfl⟩⟩

end Reports

theorem reports_persistHardState : Reports persistHardState r := by
  refine Reports.get_bind ?_
  split
  · exact Reports.pure _
  · refine Reports.bind (Reports.wrapping (Reports.onLog logReports_write) _) fun _ r' => ?_
    exact Reports.modify (Steady.of_log rfl rfl)

/-! ### Sending -/

theorem steady_foldl {f : RawNode → β → RawNode} (h : ∀ r b, Steady r (f r b)) (l : List β) :
    Steady r (l.foldl f r) := by
  induction l generalizing r with
  | nil => exact .refl r
  | cons b l ih => exact (h r b).trans ih

theorem steady_sendSnapshot (dest : NodeID) : Steady r (r.sendSnapshot dest) := by
  simp only [sendSnapshot]
  split
  · exact .refl r
  · split
    · exact .refl r
    · split
      · exact .refl r
      · exact .of_log rfl rfl

theorem steady_sendAppendWithRead (dest : NodeID) (readID : UInt64) :
    Steady r (r.sendAppendWithRead dest readID) := by
  simp only [sendAppendWithRead]
  split
  · exact .refl r
  · split
    · exact .refl r
    · split
      · exact steady_sendSnapshot dest
      · split
        · exact .refl r
        · exact .of_log rfl rfl

theorem steady_sendAppend (dest : NodeID) : Steady r (r.sendAppend dest) :=
  steady_sendAppendWithRead dest 0

theorem steady_broadcastAppend : Steady r r.broadcastAppend :=
  steady_foldl (fun _ dest => steady_sendAppend dest) _

theorem steady_resendReads : Steady r r.resendReads :=
  steady_foldl (fun r (req : ReadRequest) =>
    steady_foldl (fun _ peer => steady_sendAppendWithRead peer req.id) (r.conf.peers r.id)) _

theorem steady_expirePendingSnapshot (retryAfter : ℕ) (id : NodeID) :
    Steady r (expirePendingSnapshot retryAfter r id) := by
  rw [expirePendingSnapshot]
  split
  · exact .refl r
  · split
    · exact .refl r
    · split
      · exact .of_log rfl rfl
      · exact .of_log rfl rfl

theorem steady_expirePendingSnapshots : Steady r r.expirePendingSnapshots :=
  steady_foldl (fun _ id => steady_expirePendingSnapshot _ id) _

theorem steady_requestVotes {campaignTerm lastTerm : ℕ} {preVote : Bool} :
    Steady r (r.requestVotes campaignTerm preVote lastTerm) := by
  refine steady_foldl (fun r' peer => ?_) _
  split
  · exact .refl r'
  · exact .of_log rfl rfl

theorem steady_becomeFollower (term : ℕ) (lead : NodeID) : Steady r (r.becomeFollower term lead) := by
  rw [becomeFollower, reset_eq]
  exact .of_log rfl rfl

theorem steady_stepDownIfRemoved : Steady r r.stepDownIfRemoved := by
  rw [stepDownIfRemoved]
  split
  · exact .refl r
  · split
    · exact .refl r
    · exact steady_becomeFollower _ _

/-! ### Appending and committing -/

theorem steady_setConfiguration (conf : Configuration) (i : ℕ) :
    Steady r (r.setConfiguration conf i) := by
  simp only [setConfiguration]
  split
  · exact .refl r
  · split
    · simp only [refreshProgress]
      split <;> exact .of_log rfl rfl
    · exact .of_log rfl rfl

theorem reports_refresh : Reports (tryUpdate refreshConfiguration) r := by
  refine Reports.get_bind ?_
  split
  · exact Reports.throw _
  · rename_i r' h
    refine Reports.set ?_
    simp only [refreshConfiguration] at h
    split at h
    · exact nomatch h
    · cases h
      exact steady_setConfiguration _ _
    · split at h <;> cases h <;> exact steady_setConfiguration _ _

theorem reports_refreshIfNeeded {entries : List LogEntry} :
    Reports (refreshConfigurationIfNeeded entries) r := by
  refine Reports.get_bind ?_
  split
  · exact Reports.pure _
  · exact reports_refresh

theorem reports_appendOwn {e : LogEntry} : Reports (appendOwn e) r := by
  refine Reports.get_bind (Reports.bind (Reports.onLog logReports_append) fun _ r1 => ?_)
  refine Reports.bind ?_ fun _ r2 => Reports.bind (Reports.modify ?_) fun _ _ => Reports.pure _
  · split
    · exact reports_refresh
    · exact Reports.pure _
  · split
    · exact .refl r2
    · exact .of_log rfl rfl

theorem reports_maybeAdvanceCommitWith {lj : Core Unit} (hlj : ∀ r', Reports lj r') :
    Reports (maybeAdvanceCommitWith lj) r := by
  refine Reports.get_bind ?_
  split
  · exact Reports.pure _
  · dsimp only
    split
    · exact Reports.pure _
    · split
      · exact Reports.throw _
      · split
        · exact Reports.pure _
        · refine Reports.bind (Reports.onLog logReports_commitTo) fun _ _ => ?_
          refine Reports.bind reports_persistHardState fun _ _ => ?_
          refine Reports.bind (hlj _) fun _ _ => ?_
          exact Reports.bind (Reports.modify steady_stepDownIfRemoved) fun _ _ => Reports.pure _

theorem Error.is_of_bare {e : Error} (h : e.wraps = []) (s : Sentinel) : e.is s = false := by
  rw [Error.is, h]
  rfl

theorem reports_maybeLeaveJointWith {propose : LogEntry → Core ℕ}
    (hp : ∀ e r', Reports (propose e) r') : Reports (maybeLeaveJointWith propose) r := by
  refine Reports.get_bind ?_
  split
  · exact Reports.pure _
  · split
    · exact Reports.pure _
    · split
      · exact Reports.throw _
      · refine Reports.tryCatch (Reports.bind (hp _ _) fun _ _ => Reports.pure _) (fun e r' => ?_) ?_
        · split
          · split
            · exact Reports.pure _
            · exact Reports.throw _
          · exact Reports.throw _
        · rintro _ ⟨e, rfl, he⟩
          refine ⟨.error e, ⟨e, rfl, he⟩, ?_⟩
          dsimp only
          rw [Error.is_of_bare he]
          rfl

theorem reports_proposeWith {advance : Core Bool} {e : LogEntry} (ha : ∀ r', Reports advance r') :
    Reports (proposeWith advance e) r := by
  refine Reports.get_bind ?_
  split
  · exact Reports.throw _
  · refine Reports.bind reports_appendOwn fun _ _ => Reports.bind (ha _) fun _ _ => ?_
    exact Reports.bind (Reports.modify steady_broadcastAppend) fun _ _ => Reports.pure _

theorem reports_proposeN (n : ℕ) {e : LogEntry} : Reports (proposeN n e) r := by
  induction n generalizing e r with
  | zero => exact Reports.throw _
  | succ n ih =>
    exact reports_proposeWith fun _ => reports_maybeAdvanceCommitWith fun _ =>
      reports_maybeLeaveJointWith fun _ _ => ih

theorem reports_maybeAdvanceCommit : Reports maybeAdvanceCommit r :=
  reports_maybeAdvanceCommitWith fun _ => reports_maybeLeaveJointWith fun _ _ => reports_proposeN 1

theorem reports_propose {e : LogEntry} : Reports (propose e) r :=
  reports_proposeWith fun _ => reports_maybeAdvanceCommit

theorem reports_proposeConfChange {target : Configuration} :
    Reports (proposeConfChange target) r := by
  refine Reports.get_bind ?_
  split
  · exact Reports.throw _
  · split
    · exact Reports.throw _
    · split
      · exact Reports.throw _
      · split
        · exact Reports.throw _
        · split
          · exact Reports.throw _
          · exact reports_propose

/-! ### Reads and responses -/

theorem reports_readIndex {id : UInt64} : Reports (readIndex id) r := by
  refine Reports.get_bind ?_
  split
  · exact Reports.throw _
  · split
    · exact Reports.throw _
    · dsimp only
      split
      · exact Reports.set (.of_log rfl rfl)
      · have h1 : Steady r { r with pendingReads :=
            r.pendingReads ++ [⟨id, r.log.committed, fun n => n = r.id⟩] } := .of_log rfl rfl
        exact Reports.set (h1.trans
          (steady_foldl (fun _ peer => steady_sendAppendWithRead peer id) _))

theorem reports_recordMatch {pr : Progress} {m : Message} : Reports (recordMatch pr m) r := by
  refine Reports.get_bind ?_
  split
  · refine Reports.set_bind (.of_log rfl rfl) (Reports.bind reports_maybeAdvanceCommit fun _ r' => ?_)
    refine Reports.modify ?_
    split
    · exact steady_broadcastAppend
    · split
      · exact steady_sendAppend _
      · exact .refl r'
  · refine Reports.set ?_
    split
    · exact steady_sendAppend _
    · exact .refl r

theorem steady_backUp {pr : Progress} {m : Message} : Steady r (r.backUp pr m) := by
  simp only [backUp]
  generalize (if max 1 (r.nextAfterRejection pr m) ≤ pr.matched then pr.matched + 1
    else max 1 (r.nextAfterRejection pr m)) = next
  split
  · have h1 : Steady r (r.setPeer m.sender { pr with next }) := .of_log rfl rfl
    exact h1.trans (steady_sendAppend _)
  · exact .refl r

theorem reports_handleAppendResponse {m : Message} : Reports (handleAppendResponse m) r := by
  refine Reports.get_bind ?_
  split
  · exact Reports.throw _
  · split
    · exact Reports.throw _
    · dsimp only
      refine Reports.set_bind ?_ ?_
      · split
        · exact .of_log rfl rfl
        · exact .refl r
      · split
        · exact reports_recordMatch
        · exact Reports.set steady_backUp

theorem reports_handleSnapshotResponse {m : Message} : Reports (handleSnapshotResponse m) r := by
  refine Reports.get_bind ?_
  split
  · exact Reports.throw _
  · split
    · exact Reports.throw _
    · refine Reports.set_bind (.of_log rfl rfl) ?_
      split
      · exact Reports.pure _
      · exact reports_recordMatch

/-! ### Elections -/

theorem reports_becomeLeader : Reports becomeLeader r := by
  refine Reports.get_bind ?_
  split
  · exact Reports.throw _
  · refine Reports.set_bind (by rw [leading, reset_eq]; exact .of_log rfl rfl) ?_
    refine Reports.bind (Reports.wrapping (Reports.onLog logReports_append) _) fun _ r1 => ?_
    refine Reports.get_bind (Reports.bind ?_ fun _ _ => ?_)
    · split
      · exact Reports.throw _
      · exact Reports.set (.of_log rfl rfl)
    · refine Reports.bind reports_maybeAdvanceCommit fun _ _ => ?_
      exact Reports.bind reports_persistHardState fun _ _ => Reports.modify steady_broadcastAppend

theorem steady_recordVote (sender : NodeID) (granted : Bool) :
    Steady r (r.recordVote sender granted) := by
  rw [recordVote]
  split
  · exact .refl r
  · exact .of_log rfl rfl

theorem reports_tallyVotesWith {campaign : Core Unit} (hc : ∀ r', Reports campaign r') :
    Reports (tallyVotesWith campaign) r := by
  refine Reports.get_bind ?_
  split
  · split
    · exact Reports.bind (hc _) fun _ _ => Reports.pure _
    · exact Reports.bind reports_becomeLeader fun _ _ => Reports.pure _
  · split
    · exact Reports.set_bind (steady_becomeFollower _ _) (Reports.pure _)
    · exact Reports.pure _

theorem reports_campaignWith {campaign : Core Unit} {preVote : Bool}
    (hc : ∀ r', Reports campaign r') : Reports (campaignWith campaign preVote) r := by
  refine Reports.get_bind ?_
  split
  · exact Reports.pure _
  · refine Reports.bind ?_ fun _ r1 => Reports.get_bind ?_
    · split
      · refine Reports.get_bind ?_
        split
        · exact Reports.throw _
        · exact Reports.set (.of_log rfl rfl)
      · refine Reports.bind (Reports.get_bind ?_) fun _ _ => reports_persistHardState
        split
        · exact Reports.throw _
        · exact Reports.set (by rw [standing, reset_eq]; exact .of_log rfl rfl)
    · refine Reports.set_bind (steady_recordVote _ _) ?_
      refine Reports.bind (reports_tallyVotesWith hc) fun done _ => ?_
      split
      · exact Reports.pure _
      · exact Reports.bind Reports.reads fun _ _ => Reports.modify steady_requestVotes

theorem reports_campaignN (n : ℕ) {preVote : Bool} : Reports (campaignN n preVote) r := by
  induction n generalizing preVote r with
  | zero => exact Reports.throw _
  | succ n ih => exact reports_campaignWith fun _ => ih

theorem reports_handleVoteResponse {m : Message} : Reports (handleVoteResponse m) r := by
  refine Reports.get_bind ?_
  split
  · exact Reports.throw _
  · split
    · exact Reports.throw _
    · refine Reports.set_bind (steady_recordVote _ _) ?_
      exact Reports.bind (reports_tallyVotesWith fun _ => reports_campaignN 1) fun _ _ => .pure _

theorem reports_handleVoteRequest {m : Message} : Reports (handleVoteRequest m) r := by
  have hreply : ∀ granted : Bool, Reports (answerVote r m granted) r := by
    intro granted
    refine Reports.bind ?_ fun _ _ => Reports.modify (.of_log rfl rfl)
    split
    · exact Reports.set_bind (.of_log rfl rfl) reports_persistHardState
    · exact Reports.pure _
  refine Reports.get_bind ?_
  rw [Reports, meets_bind]
  split
  · rw [meets_reads]
    exact ⟨fun granted _ => hreply granted, fun _ _ => ⟨rfl, rfl, Or.inl rfl⟩⟩
  · exact hreply false

/-! ### Requests of a leader -/

theorem steady_hear (m : Message) : Steady r (r.hear m) := by
  simp only [hear]
  split
  · rw [becomeFollower, reset_eq]
    exact .of_log rfl rfl
  · exact .of_log rfl rfl

theorem reports_handleAppendRequest {m : Message} : Reports (handleAppendRequest m) r := by
  refine Reports.bind (Reports.modify (steady_hear m)) fun _ r1 => Reports.get_bind ?_
  split
  · exact Reports.set (.of_log rfl rfl)
  · refine Reports.bind (Reports.onLog logReports_maybeAppend) fun lastNew r2 => ?_
    split
    · exact Reports.modify (.of_log rfl rfl)
    · refine Reports.bind reports_refreshIfNeeded fun _ _ => ?_
      exact Reports.bind reports_persistHardState fun _ _ => Reports.modify (.of_log rfl rfl)

/-- A snapshot that was installed is handed to the application. -/
def Handed (r : RawNode) : Prop :=
  ∃ snap, r.appliedSnapshot = some snap ∧ r.log.applied = snap.lastIncludedIndex

/-- The program tells the application nothing, or hands it a snapshot, and reports a write that
failed. -/
def Hands (x : Core α) (r : RawNode) : Prop :=
  Meets x r (fun _ r' => Steady r r' ∨ Handed r' ∧ r'.faultsLeft = r.faultsLeft) fun e r' =>
    e.Bare ∨ Steady r r' ∨ Handed r' ∧ r'.faultsLeft = r.faultsLeft

theorem Reports.hands {x : Core α} (h : Reports x r) : Hands x r := by
  refine Meets.mono h (fun _ _ h => Or.inl h) fun e r' ⟨h1, h2, h3⟩ => ?_
  rcases h3 with h3 | h3
  · exact Or.inr (Or.inl ⟨h1, h2, h3⟩)
  · exact Or.inl h3

theorem Hands.after {x : Core α} (h : Steady r r') (hx : Hands x r') :
    Meets x r' (fun _ r'' => Steady r r'' ∨ Handed r'' ∧ r''.faultsLeft = r.faultsLeft)
      fun e r'' => e.Bare ∨ Steady r r'' ∨ Handed r'' ∧ r''.faultsLeft = r.faultsLeft := by
  have hmono : ∀ r'', Steady r' r'' ∨ Handed r'' ∧ r''.faultsLeft = r'.faultsLeft →
      Steady r r'' ∨ Handed r'' ∧ r''.faultsLeft = r.faultsLeft := fun r'' h' =>
    h'.imp h.trans fun ⟨h1, h2⟩ => ⟨h1, h2.trans h.faults⟩
  exact Meets.mono hx (fun _ r'' => hmono r'') fun _ r'' h' => h'.imp_right (hmono r'')

theorem Steady.handed (h : Steady r r') (hr : Handed r) : Handed r' := by
  obtain ⟨snap, h1, h2⟩ := hr
  exact ⟨snap, h.snapshot.trans h1, h.applied.trans h2⟩

/-- What comes after a snapshot was handed over. -/
theorem Reports.after_handed {x : Core α} (h : Reports x r) (hr : Handed r) :
    Meets x r (fun _ r' => Handed r' ∧ r'.faultsLeft = r.faultsLeft)
      fun e r' => e.Bare ∨ Handed r' ∧ r'.faultsLeft = r.faultsLeft := by
  refine Meets.mono h (fun _ r' h => ⟨h.handed hr, h.faults⟩) fun e r' ⟨h1, h2, h3⟩ => ?_
  rcases h3 with h3 | h3
  · exact Or.inr ⟨Steady.handed ⟨h1, h2, h3⟩ hr, h3⟩
  · exact Or.inl h3

theorem hands_handleSnapshotRequest {m : Message} : Hands (handleSnapshotRequest m) r := by
  rw [handleSnapshotRequest, Hands, meets_bind, meets_modify]
  refine Hands.after (steady_hear m) ?_
  generalize r.hear m = r1
  split
  · exact (Reports.throw _).hands
  · rename_i snap _
    rw [Hands, meets_bind, meets_get]
    split
    · exact Or.inl (.of_log rfl rfl)
    · rename_i hlt
      have hrest : ∀ r2 : RawNode, r2.log.applied = snap.lastIncludedIndex →
          r2.faultsLeft = r1.faultsLeft →
          Meets (do
            modify fun r =>
              if !snap.config.isEmpty then r.setConfiguration snap.config snap.lastIncludedIndex
              else r
            modify fun r => { r with appliedSnapshot := some snap }
            persistHardState
            modify fun r => r.send { type := .snapshotResp, dest := m.sender, success := true,
                                     matchIndex := snap.lastIncludedIndex } : Core Unit) r2
            (fun _ r' => Steady r1 r' ∨ Handed r' ∧ r'.faultsLeft = r1.faultsLeft)
            fun e r' => e.Bare ∨ Steady r1 r' ∨ Handed r' ∧ r'.faultsLeft = r1.faultsLeft := by
        intro r2 ha hf
        rw [meets_bind, meets_modify, meets_bind, meets_modify]
        have hconf : Steady r2 (if !snap.config.isEmpty then
            r2.setConfiguration snap.config snap.lastIncludedIndex else r2) := by
          split
          · exact steady_setConfiguration _ _
          · exact .refl r2
        generalize (if !snap.config.isEmpty then
          r2.setConfiguration snap.config snap.lastIncludedIndex else r2) = r3 at hconf ⊢
        have hh : Handed { r3 with appliedSnapshot := some snap } :=
          ⟨snap, rfl, hconf.applied.trans ha⟩
        have hf3 : ({ r3 with appliedSnapshot := some snap } : RawNode).faultsLeft =
            r1.faultsLeft := hconf.faults.trans hf
        have hend : Reports (do
            persistHardState
            modify fun r => r.send { type := .snapshotResp, dest := m.sender, success := true,
                                     matchIndex := snap.lastIncludedIndex } : Core Unit)
            { r3 with appliedSnapshot := some snap } :=
          Reports.bind reports_persistHardState fun _ _ => Reports.modify (.of_log rfl rfl)
        refine Meets.mono (hend.after_handed hh) (fun _ r' h => ?_) fun _ r' h => ?_
        · exact Or.inr ⟨h.1, h.2.trans hf3⟩
        · exact h.imp_right fun h => Or.inr ⟨h.1, h.2.trans hf3⟩
      rw [meets_bind, installSnapshot, meets_tryCatch, meets_bind, onLog, meets_onPart]
      refine Meets.mono meets_restore_faults (fun _ l h => ?_) fun e l ⟨h1, h2⟩ => ?_
      · exact hrest { r1 with log := l } h.1 h.2
      · cases e with
        | error e =>
          dsimp only
          rcases h2 with h2 | h2
          · have hst : Steady r1 { r1 with log := l } := ⟨h1, rfl, h2⟩
            split
            · exact Or.inl (hst.trans (.of_log rfl rfl))
            · exact Or.inr (Or.inl hst)
          · obtain ⟨_, heq, hw⟩ := h2
            cases heq
            rw [if_neg (by rw [Error.is_of_bare hw]; nofun)]
            exact Or.inl ⟨_, rfl, hw⟩
        | panic text =>
          rcases h2 with h2 | ⟨_, h2, -⟩
          · exact Or.inr (Or.inl ⟨h1, rfl, h2⟩)
          · exact nomatch h2
        | outOfFuel =>
          rcases h2 with h2 | ⟨_, h2, -⟩
          · exact Or.inr (Or.inl ⟨h1, rfl, h2⟩)
          · exact nomatch h2

/-! ### The calls -/

theorem reports_createSnapshot {data : List UInt8} : Reports (createSnapshot data) r := by
  refine Reports.get_bind ?_
  dsimp only
  split
  · exact Reports.throw _
  · split
    · exact Reports.throw _
    · refine Reports.bind (Reports.mapFail (Reports.onLog logReports_write) ?_) fun _ r1 => ?_
      · rintro _ ⟨e, rfl, he⟩
        dsimp only
        rw [if_neg (by rw [Error.is_of_bare he]; nofun)]
        exact ⟨_, rfl, he⟩
      · split
        · exact Reports.pure _
        · generalize (if r.cfg.snapshotCatchUpEntries > 0 then
            r.log.applied - r.cfg.snapshotCatchUpEntries else r.log.applied) = compactTo
          refine Reports.get_bind ?_
          split
          · exact Reports.pure _
          · exact Reports.bind (Reports.wrapping (Reports.onLog logReports_compact) _)
              fun _ _ => Reports.pure _

theorem reports_tick : Reports tick r := by
  refine Reports.get_bind ?_
  split
  · refine Reports.bind (Reports.modify (.of_log rfl rfl)) fun _ r1 => Reports.get_bind ?_
    split
    · exact Reports.pure _
    · refine Reports.set ?_
      have h1 : Steady r1 { r1 with heartbeatElapsed := 0 } := .of_log rfl rfl
      exact ((h1.trans steady_expirePendingSnapshots).trans steady_broadcastAppend).trans
        steady_resendReads
  · refine Reports.bind (Reports.modify (.of_log rfl rfl)) fun _ r1 => Reports.get_bind ?_
    split
    · exact Reports.pure _
    · exact Reports.set_bind (.of_log rfl rfl) (reports_campaignN 2)

theorem hands_dispatch {m : Message} : Hands (dispatch m) r := by
  rw [dispatch]
  split
  · exact reports_handleVoteRequest.hands
  · exact reports_handleVoteResponse.hands
  · exact reports_handleAppendRequest.hands
  · exact reports_handleAppendResponse.hands
  · exact hands_handleSnapshotRequest
  · exact reports_handleSnapshotResponse.hands
  · exact (Reports.throw _).hands

theorem reports_stepHigherTerm {m : Message} : Reports (stepHigherTerm m) r := by
  refine Reports.get_bind ?_
  split
  · exact Reports.pure _
  · split
    · exact Reports.pure _
    · exact Reports.set_bind (steady_becomeFollower _ _) reports_persistHardState

theorem hands_step {m : Message} : Hands (step m) r := by
  rw [step, Hands, meets_bind, meets_get]
  split
  · exact (Reports.throw _).hands
  · split
    · rw [meets_bind]
      refine Meets.mono reports_stepHigherTerm (fun _ _ h => hands_dispatch.after h)
        fun e r' ⟨h1, h2, h3⟩ => ?_
      rcases h3 with h3 | h3
      · exact Or.inr (Or.inl ⟨h1, h2, h3⟩)
      · exact Or.inl h3
    · split
      · refine Reports.hands (Reports.get_bind (Reports.set_bind ?_ (Reports.throw _)))
        split
        · exact .of_log rfl rfl
        · exact .of_log rfl rfl
        · exact .of_log rfl rfl
        · exact .refl r
      · exact hands_dispatch

end RaftStore.Raft
