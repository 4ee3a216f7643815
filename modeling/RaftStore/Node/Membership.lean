import RaftStore.Node.Loop
import RaftStore.Raft.Reign

/-! A membership change as its caller sees it.  The caller hands the change to the loop and then polls
the status until the configuration is no longer joint.  A configuration is in force from the moment
its entry is appended, and the status does not tell whether the entry is committed. -/

namespace RaftStore.Loop

open Raft Raft.Cluster Consensus

def writeIDs (ids : List NodeID) : String := ",".intercalate (ids.map toString)

def configString (c : Configuration) : String :=
  "(" ++ writeIDs c.voters ++
    (if c.isJoint then "|old:" ++ writeIDs c.oldVoters else "") ++
    (if c.learners.length > 0 then "|learners:" ++ writeIDs c.learners else "") ++ ")"

/-- What one poll decides; nothing while the configuration is joint. -/
def pollSettled (target : Configuration) (s : Status) : Option (Configuration × Option Error) :=
  if s.config.isJoint then none
  else if s.config ≠ target then
    some (s.config, some ⟨s!"node: the cluster settled on {configString s.config} rather than the requested {configString target}", []⟩)
  else some (s.config, none)

/-- Polls until the cluster has left the joint configuration. -/
def awaitSettled (target : Configuration) : List Status → Option (Configuration × Option Error)
  | [] => none
  | s :: rest =>
    match pollSettled target s with
    | some result => some result
    | none => awaitSettled target rest

/-- Moves the cluster to a new set of voters: what the caller is told after the loop's reply and the
given polls. -/
def changeMembership (voters : List NodeID) (reply : Except Error ℕ) (statuses : List Status) :
    Option (Configuration × Option Error) :=
  let target := Configuration.new voters
  match target.validate with
  | .error e => some ({}, some e)
  | .ok () =>
    match reply with
    | .error e => some ({}, some e)
    | .ok _ => awaitSettled target statuses

theorem awaitSettled_concat {target : Configuration} {before : List Status} {s : Status}
    (h : awaitSettled target before = none) :
    awaitSettled target (before ++ [s]) = pollSettled target s := by
  induction before with
  | nil =>
    rw [List.nil_append, awaitSettled]
    cases pollSettled target s <;> rfl
  | cons b before ih =>
    rw [awaitSettled] at h
    rw [List.cons_append, awaitSettled]
    split at h
    · exact nomatch h
    · exact ih h

/-- A caller that is told of success is told the configuration of the last poll. -/
theorem changeMembership_ok {voters : List NodeID} {reply : Except Error ℕ} {before : List Status}
    {s : Status} {conf : Configuration}
    (hwait : awaitSettled (Configuration.new voters) before = none)
    (h : changeMembership voters reply (before ++ [s]) = some (conf, none)) :
    conf = s.config ∧ s.config.isJoint = false ∧ s.config = Configuration.new voters := by
  simp only [changeMembership] at h
  split at h
  · exact nomatch h
  · split at h
    · exact nomatch h
    · rw [awaitSettled_concat hwait, pollSettled] at h
      split at h
      · exact nomatch h
      · rename_i hjoint
        split at h
        · exact nomatch h
        · rename_i heq
          cases h
          exact ⟨rfl, by simpa using hjoint, not_not.mp heq⟩

/-- The caller is told of success as soon as a poll shows the configuration it asked for. -/
theorem changeMembership_of_poll {voters : List NodeID} {i : ℕ} {before : List Status} {s : Status}
    (hv : (Configuration.new voters).validate = .ok ())
    (hwait : awaitSettled (Configuration.new voters) before = none)
    (hc : s.config = Configuration.new voters) (hj : s.config.isJoint = false) :
    changeMembership voters (.ok i) (before ++ [s]) = some (s.config, none) := by
  have hpoll : pollSettled (Configuration.new voters) s = some (s.config, none) := by
    rw [pollSettled, hj, if_neg (not_not.mpr hc)]
    rfl
  simp only [changeMembership, hv, awaitSettled_concat hwait, hpoll]

/-- In a log with all its entries the configuration in force was established at the index recorded
for it, unless it is the initial one. -/
theorem establishes_of_joint {boot : Configuration} {r : RawNode} (h : JointNode boot r)
    (h0 : 0 < r.confIndex) : ∃ e, Establishes r.log r.conf r.confIndex e := by
  have hc := h.conf
  generalize r.conf = conf at hc ⊢
  generalize r.confIndex = c at hc h0 ⊢
  cases hc with
  | entry a conf hl => exact establishes_of_lastConf hl
  | snapshot _ hne =>
    rw [h.disk.snapshot] at hne
    exact nomatch hne
  | bootstrap hno => exact absurd h0 (lt_irrefl _)

/-- In a run without snapshots every later leader holds what a node has committed. -/
theorem committed_stays {boot : Configuration} (hn : boot.Normalized) (hs : boot.Sized)
    {c c' : Cluster} (hm : Moments boot jointCalls c c') {n n' : NodeID} {r r' : RawNode}
    (hr : c.node? n = some r) (hr' : c'.node? n' = some r') (hl : r'.state = .leader)
    (ht : r.term < r'.term) {i : ℕ} {e : LogEntry} (he : r.log.mem.getEntry i = .ok e)
    (hi : i ≤ r.log.committed) : r'.log.mem.getEntry i = .ok e := by
  have hrun' : Run boot jointCalls {} c' := hm.elim (fun h => h.1.trans h.2) fun h => h.1
  obtain ⟨w', -, hw'⟩ := (Refines.start (joint boot hn hs)).run hrun'
  obtain ⟨-, -, hG', -⟩ := hw'.up hr'
  have hnode' : JointNode boot r' := hG'
  obtain ⟨k, hk, -⟩ := getElem_of_getEntry he
  rcases (joint boot hn hs).leader_holds hm hr hr' hi he hl ht with h | h
  · exact h
  · have hsnap : r'.log.mem.snapshot.lastIncludedIndex = 0 := by rw [hnode'.disk.snapshot]
    omega

section

variable {σ ρ : Type}

/-- A change is complete when its caller is told so by a node that still leads the term in which it
accepted the change, exactly when a quorum of the returned configuration has confirmed the entry that
established it.  The node may crash, fail to write and take snapshots on the way.  Where there are no
snapshots every later leader then holds the entry. -/
theorem change_complete_iff {acts acts' : List Act} {r₁ r₂ : RawNode} {nd : Node σ ρ}
    {voters : List NodeID} {faults : List Bool} {i : ℕ}
    (hrun : (Slot.down {}).Allows Orderly acts) (hr₁ : (Slot.down {}).run acts = .up r₁)
    (hsized : (Configuration.new voters).Sized)
    (hchange : proposeConfChange (Configuration.new voters) (r₁.withFaults faults) = .ok i r₂)
    (hrun' : (Slot.up r₂).Allows Orderly acts') (hr : (Slot.up r₂).run acts' = .up nd.rn)
    (hl : nd.rn.state = .leader) (ht : nd.rn.term = r₁.term) {before : List Status}
    {conf : Configuration} (hwait : awaitSettled (Configuration.new voters) before = none)
    (hret : changeMembership voters (.ok i) (before ++ [nd.statusLocked]) = some (conf, none)) :
    i ≤ nd.rn.confIndex ∧
    (nd.rn.confIndex ≤ nd.rn.log.mem.base.index ∨
      ∃ e, Establishes nd.rn.log conf nd.rn.confIndex e) ∧
    (nd.rn.confIndex ≤ nd.statusLocked.commitIndex ↔
      conf.hasQuorum (fun v => nd.rn.confIndex ≤ nd.rn.matchOf v) = true) ∧
    ∀ boot c n e, boot.Normalized → boot.Sized → c.node? n = some nd.rn →
      Establishes nd.rn.log conf nd.rn.confIndex e →
      conf.hasQuorum (fun v => nd.rn.confIndex ≤ nd.rn.matchOf v) = true →
      ∀ c' n' r', Moments boot jointCalls c c' → c'.node? n' = some r' → r'.state = .leader →
        nd.rn.term < r'.term → r'.log.mem.getEntry nd.rn.confIndex = .ok e := by
  obtain ⟨rfl, -, -⟩ := changeMembership_ok hwait hret
  obtain ⟨hg₁, hl₁⟩ := Orderly.run hrun hr₁
  obtain ⟨rfl, hw₂, hwatched⟩ := watched_of_proposeConfChange (Slot.wf_of_run hr₁) hg₁ hl₁ hsized
    hchange
  have hw : nd.rn.Wf := by
    have hok : ((Slot.up r₂).run acts').OK := Slot.OK.run (s := .up r₂) hw₂ acts'
    rw [hr] at hok
    exact hok
  obtain ⟨habove, hentry, hiff⟩ := (hwatched.run hw₂ hrun' hr).committed_iff hw hl ht
  refine ⟨habove, hentry, hiff, ?_⟩
  intro boot c n e hn hs hnode he hq c' n' r' hm hr' hl' ht'
  exact committed_stays hn hs hm hnode hr' hl' ht' he.entry (hiff.mpr hq)

end

/-- A process around a core, at rest. -/
def around (r : RawNode) : Node Unit Unit :=
  { rn := r, app := (), lastState := r.state, lastTerm := r.term }

/-- The leader of one has taken a snapshot. -/
def snapshotted : List Act := alone ++ [.call (.createSnapshot []) []]

/-- The second node confirms the joint configuration, and later the command that the leader appends
to the entry that left it. -/
def widenedAlone : List Act :=
  [.call (.step (confirms 2)) [], .call (.propose [7]) [], .call (.step (confirms 4)) []]

theorem change_complete_widenedAlone :
    ∃ r₁ r₂ r e, (Slot.down {}).run snapshotted = .up r₁ ∧ r₁.log.mem.base.index = 1 ∧
      proposeConfChange (Configuration.new [1, 2, 3]) (r₁.withFaults []) = .ok 2 r₂ ∧
      (Slot.up r₂).run widenedAlone = .up r ∧
      changeMembership [1, 2, 3] (.ok 2) [(around r₂).statusLocked, (around r).statusLocked] =
        some ({ voters := [1, 2, 3] }, none) ∧
      Establishes r.log { voters := [1, 2, 3] } 3 e ∧ 3 ≤ (around r).statusLocked.commitIndex := by
  have hfits : ∀ s : Slot, s.Allows Fitting snapshotted := by
    intro s
    exact ⟨(by decide : Configuration.Sized { voters := [1] }), trivial, trivial, trivial, trivial,
      trivial⟩
  have hrun : (Slot.down {}).Allows Orderly snapshotted := (hfits _).and (by decide +kernel)
  obtain ⟨r₁, hr₁, ht₁⟩ := Slot.exists_up (s := (Slot.down {}).run snapshotted)
    (fun r₁ : RawNode => decide (r₁.log.mem.base.index = 1 ∧ r₁.term = 1) &&
      Lib.succeeds (fun (i : ℕ) (r₂ : RawNode) => i = 2 && r₂.conf.isJoint &&
        decide ((Slot.up r₂).Allows (fun s a => confirmable s a = true) widenedAlone) &&
        ((Slot.up r₂).run widenedAlone).node?.any fun r : RawNode =>
          decide (r.state = .leader ∧ r.term = 1 ∧ r.conf = { voters := [1, 2, 3] } ∧
            r.confIndex = 3 ∧ r.log.mem.base.index = 1 ∧
            r.conf.hasQuorum (fun v => 3 ≤ r.matchOf v) = true))
        (proposeConfChange (Configuration.new [1, 2, 3]) (r₁.withFaults []))) (by decide +kernel)
  simp only [Bool.and_eq_true, decide_eq_true_eq] at ht₁
  obtain ⟨⟨hbase, hterm⟩, hsucc⟩ := ht₁
  obtain ⟨i, r₂, hchange, ht₂⟩ := Lib.exists_ok_of_succeeds hsucc
  simp only [Bool.and_eq_true, decide_eq_true_eq] at ht₂
  obtain ⟨⟨⟨rfl, hjoint⟩, hconfirm⟩, hnode⟩ := ht₂
  obtain ⟨r, hr, ht⟩ := Slot.exists_up _ hnode
  simp only [decide_eq_true_eq] at ht
  obtain ⟨hl, hterm', hconf, hidx, hbase', hq⟩ := ht
  have hrun' : (Slot.up r₂).Allows Orderly widenedAlone := by
    refine Slot.Allows.and ?_ hconfirm
    exact ⟨⟨by rintro _ ⟨⟩, by rintro ⟨⟩⟩, trivial, ⟨by rintro _ ⟨⟩, by rintro ⟨⟩⟩, trivial⟩
  have hwait : awaitSettled (Configuration.new [1, 2, 3]) [(around r₂).statusLocked] = none := by
    have hpoll : pollSettled (Configuration.new [1, 2, 3]) (around r₂).statusLocked = none := by
      rw [pollSettled]
      exact if_pos hjoint
    simp only [awaitSettled, hpoll]
  have hret : changeMembership [1, 2, 3] (.ok 2)
      ([(around r₂).statusLocked] ++ [(around r).statusLocked]) =
        some ({ voters := [1, 2, 3] }, none) := by
    have hc : (around r).statusLocked.config = { voters := [1, 2, 3] } := hconf
    rw [changeMembership_of_poll (by decide) hwait (hc.trans (by decide)) (by rw [hc]; decide), hc]
  have hnd : (Slot.up r₂).run widenedAlone = .up (around r).rn := hr
  obtain ⟨-, hentry, hiff, -⟩ := change_complete_iff hrun hr₁ (by decide) hchange hrun' hnd hl
    (hterm'.trans hterm.symm) hwait hret
  change r.confIndex ≤ r.log.mem.base.index ∨ _ at hentry
  rw [hidx, hbase'] at hentry
  obtain ⟨e, he⟩ := hentry.resolve_left (by decide)
  change r.confIndex ≤ _ ↔ _ at hiff
  exact ⟨r₁, r₂, r, e, hr₁, hbase, hchange, hr, hret, hidx ▸ he, hidx ▸ hiff.mpr (by
    rw [← hconf]
    change r.conf.hasQuorum (fun v => r.confIndex ≤ r.matchOf v) = true
    rw [hidx]
    exact hq)⟩

/-- A fourth voter is added, and the joint configuration is committed and left; the entry that
leaves it is in the leader's log only. -/
def widened : List Cluster.Event :=
  election ++
  [.act 4 (.start (trioConfig 4)),
   .act 1 (.call (.proposeConfChange { voters := [1, 2, 3, 4] }) []), .act 1 (.call .messages []),
   .deliver 2 11, .deliver 3 12, .act 2 (.call .messages []), .act 3 (.call .messages []),
   .deliver 1 14, .deliver 1 15]

/-- The leader crashes, the second node is elected in the joint configuration, and the first node
comes back and hears of it. -/
def undone : List Cluster.Event :=
  [.act 1 .crash, .act 3 (.call .tick []), .act 3 (.call .tick []), .act 2 (.call .tick []),
   .act 2 (.call .tick []), .act 2 (.call .messages []), .deliver 3 17, .deliver 4 18,
   .act 3 (.call .messages []), .act 4 (.call .messages []), .deliver 2 22, .deliver 2 23,
   .act 2 (.call .messages []), .deliver 3 25, .deliver 4 26, .act 3 (.call .messages []),
   .act 4 (.call .messages []), .deliver 2 27, .deliver 2 28, .act 2 (.call .messages []),
   .act 1 (.start (trioConfig 1)), .deliver 1 29]

theorem poll_widened {r : RawNode} (hr : r.conf = { voters := [1, 2, 3, 4] }) :
    changeMembership [1, 2, 3, 4] (.ok 2) [(around r).statusLocked] =
      some ({ voters := [1, 2, 3, 4] }, none) := by
  have hc : (around r).statusLocked.config = { voters := [1, 2, 3, 4] } := hr
  have hwait : awaitSettled (Configuration.new [1, 2, 3, 4]) [] = none := rfl
  have hpoll := changeMembership_of_poll (i := 2) (by decide) hwait (hc.trans (by decide))
    (by rw [hc]; decide)
  rw [hc] at hpoll
  exact hpoll

/-- The caller is told that the change is complete while the entry that left the joint configuration
is above the commit index; the next leader has no such entry, and the first node is in the joint
configuration again. -/
theorem change_reported_too_early :
    ∃ r e, Run trio jointCalls {} (({} : Cluster).plays widened) ∧
      (({} : Cluster).plays widened).node? 1 = some r ∧
      changeMembership [1, 2, 3, 4] (.ok 2) [(around r).statusLocked] =
        some ({ voters := [1, 2, 3, 4] }, none) ∧
      Establishes r.log { voters := [1, 2, 3, 4] } 3 e ∧
      (around r).statusLocked.commitIndex = 2 ∧
      Run trio jointCalls (({} : Cluster).plays widened) ((({} : Cluster).plays widened).plays undone) ∧
      ∃ r', ((({} : Cluster).plays widened).plays undone).node? 1 = some r' ∧
        r'.conf = { voters := [1, 2, 3, 4], oldVoters := [1, 2, 3] } := by
  have hrun : Run trio jointCalls {} (({} : Cluster).plays widened) := run_plays (by decide +kernel)
  obtain ⟨r, hr, ht⟩ := exists_node (c := ({} : Cluster).plays widened) (n := 1)
    (fun r => r.conf = { voters := [1, 2, 3, 4] } ∧ r.confIndex = 3 ∧ r.log.committed = 2)
    (by decide +kernel)
  obtain ⟨r', hr', ht'⟩ := exists_node (c := (({} : Cluster).plays widened).plays undone) (n := 1)
    (fun r => r.conf = { voters := [1, 2, 3, 4], oldVoters := [1, 2, 3] }) (by decide +kernel)
  simp only [decide_eq_true_eq] at ht ht'
  obtain ⟨hconf, hidx, hcom⟩ := ht
  obtain ⟨w, -, hw⟩ := (Refines.start (joint trio trio_normalized trio_sized)).run hrun
  obtain ⟨-, -, hG, -⟩ := hw.up hr
  have hnode : JointNode trio r := hG
  obtain ⟨e, he⟩ := establishes_of_joint hnode (by rw [hidx]; decide)
  rw [hidx, hconf] at he
  exact ⟨r, e, hrun, hr, poll_widened hconf, he, hcom, run_plays (by decide +kernel), r', hr', ht'⟩

end RaftStore.Loop
