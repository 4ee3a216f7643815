import RaftStore.Node.Turn
import RaftStore.Raft.FixedMembership
import RaftStore.Raft.Safety

/-! A cluster of processes: every node is run by its loop, and a message is delivered only after a
loop has sent it.  What the loops do to their cores is a run of a cluster of cores, so that what
holds of such runs holds of every core that a process has had. -/

namespace RaftStore.Loop

open Raft RawNode Consensus

variable {σ ρ : Type}

/-- A message arrives only if it was sent, and nobody asks for another membership. -/
def Event.Permitted (net : List Message) : Event → Prop
  | .message m => m ∈ net
  | .confChange _ => False
  | _ => True

structure System (σ ρ : Type) where
  proc : NodeID → Proc σ ρ := fun _ => .down {}
  net : List Message := []

namespace System

/-- What a process hands to the network. -/
def sentBy (sm : StateMachine σ ρ) : Proc σ ρ → Happening → List Message
  | .up n, .event e faults => (n.run sm e faults).node.sent.drop n.sent.length
  | _, _ => []

def act (sm : StateMachine σ ρ) (app : σ) (s : System σ ρ) (k : NodeID) (a : Happening) :
    System σ ρ where
  proc := Function.update s.proc k ((s.proc k).act sm app a)
  net := s.net ++ sentBy sm (s.proc k) a

/-- Every node is started with the same initial voters, and gets the events that a network and
clients can give it. -/
def Permits (boot : Configuration) (s : System σ ρ) (k : NodeID) : Happening → Prop
  | .start cfg => cfg.id = k ∧ .new cfg.voters = boot
  | .event e _ => e.Permitted s.net
  | .crash => True

def Step (sm : StateMachine σ ρ) (app : σ) (boot : Configuration) (s s' : System σ ρ) : Prop :=
  ∃ k a, s.Permits boot k a ∧ s' = s.act sm app k a

/-- A run of the processes of a cluster. -/
abbrev Run (sm : StateMachine σ ρ) (app : σ) (boot : Configuration) : System σ ρ → System σ ρ → Prop :=
  Relation.ReflTransGen (Step sm app boot)

/-- Written-out runs. -/
def acts (sm : StateMachine σ ρ) (app : σ) (s : System σ ρ) (l : List (NodeID × Happening)) :
    System σ ρ :=
  l.foldl (fun s a => s.act sm app a.1 a.2) s

def AllPermitted (sm : StateMachine σ ρ) (app : σ) (boot : Configuration) :
    System σ ρ → List (NodeID × Happening) → Prop
  | _, [] => True
  | s, a :: l => s.Permits boot a.1 a.2 ∧ AllPermitted sm app boot (s.act sm app a.1 a.2) l

theorem run_acts {sm : StateMachine σ ρ} {app : σ} {boot : Configuration}
    {l : List (NodeID × Happening)} {s : System σ ρ} (h : s.AllPermitted sm app boot l) :
    Run sm app boot s (s.acts sm app l) := by
  induction l generalizing s with
  | nil => exact .refl
  | cons a l ih => exact .head ⟨a.1, a.2, h.1, rfl⟩ (ih h.2)

instance (net : List Message) : ∀ e : Event, Decidable (e.Permitted net)
  | .message m => inferInstanceAs (Decidable (m ∈ net))
  | .confChange _ => inferInstanceAs (Decidable False)
  | .stop | .closed | .tick | .propose _ | .read | .status => inferInstanceAs (Decidable True)

instance (boot : Configuration) (s : System σ ρ) (k : NodeID) : ∀ a, Decidable (s.Permits boot k a)
  | .start cfg => inferInstanceAs (Decidable (cfg.id = k ∧ .new cfg.voters = boot))
  | .event e _ => inferInstanceAs (Decidable (e.Permitted s.net))
  | .crash => inferInstanceAs (Decidable True)

instance decidableAllPermitted (sm : StateMachine σ ρ) (app : σ) (boot : Configuration) :
    ∀ (s : System σ ρ) (l : List (NodeID × Happening)), Decidable (s.AllPermitted sm app boot l)
  | _, [] => inferInstanceAs (Decidable True)
  | s, a :: l =>
    have := decidableAllPermitted sm app boot (s.act sm app a.1 a.2) l
    inferInstanceAs (Decidable (s.Permits boot a.1 a.2 ∧ _))

end System

section

variable {boot : Configuration} (hn : boot.Normalized) (hs : boot.Sized)

/-- The core of the process runs in its place in a cluster of cores, where it was also seen in every
state that the process has had it in; and what the process has sent is in the network. -/
structure Followed (cl : Cluster) (w : World NodeID LogEntry) (k : NodeID) (n : Node σ ρ) : Prop where
  slot : ∃ faults, cl.slot k = .up (n.rn.withFaults faults)
  past : ∀ r ∈ n.trace, ∃ c₀ w₀, Refines (fixed boot hn hs) c₀ w₀ ∧ Later w₀ w ∧
    c₀.node? k = some r
  sent : ∀ m ∈ n.sent, m ∈ cl.net

/-- The cluster of cores goes on, by what happens in one place. -/
structure Onward (k : NodeID) (cl : Cluster) (w : World NodeID LogEntry) (cl' : Cluster)
    (w' : World NodeID LogEntry) : Prop where
  run : Cluster.Run boot Cluster.fixedCalls cl cl'
  refines : Refines (fixed boot hn hs) cl' w'
  later : Later w w'
  others : ∀ u ≠ k, cl'.slot u = cl.slot u
  net : ∀ m ∈ cl.net, m ∈ cl'.net

variable {hn hs} {cl cl' cl'' : Cluster} {w w' w'' : World NodeID LogEntry} {k : NodeID}

theorem Onward.refl (hw : Refines (fixed boot hn hs) cl w) : Onward hn hs k cl w cl w :=
  ⟨.refl, hw, .refl w, fun _ _ => rfl, fun _ h => h⟩

theorem Onward.trans (h : Onward hn hs k cl w cl' w') (h' : Onward hn hs k cl' w' cl'' w'') :
    Onward hn hs k cl w cl'' w'' :=
  ⟨h.run.trans h'.run, h'.refines, h.later.trans h'.later,
    fun u hu => (h'.others u hu).trans (h.others u hu), fun m hm => h'.net m (h.net m hm)⟩

theorem onward_act (hw : Refines (fixed boot hn hs) cl w) {a : Act}
    (hp : cl.Permits boot Cluster.fixedCalls k a) :
    ∃ w', Onward hn hs k cl w (cl.act k a) w' := by
  have hstep : cl.Step boot Cluster.fixedCalls (cl.act k a) := ⟨k, a, hp, rfl⟩
  obtain ⟨w', hl, hw'⟩ := hw.step hstep
  refine ⟨w', .single hstep, hw', hl, fun u hu => ?_, fun m hm => List.mem_append_left _ hm⟩
  simp [Cluster.act, hu]

/-- A process in another place. -/
theorem Followed.other {u : NodeID} {n : Node σ ρ} (h : Followed hn hs cl w u n)
    (ho : Onward hn hs k cl w cl' w') (hu : u ≠ k) : Followed hn hs cl' w' u n where
  slot := by
    rw [ho.others u hu]
    exact h.slot
  past r hr := by
    obtain ⟨c₀, w₀, hw₀, hl, hr⟩ := h.past r hr
    exact ⟨c₀, w₀, hw₀, hl.trans ho.later, hr⟩
  sent m hm := ho.net m (h.sent m hm)

/-! ### The calls of a turn -/

section

variable {sm : StateMachine σ ρ} {e : Event} {n n' : Node σ ρ} {c : Call}

theorem Followed.withFaults (h : Followed hn hs cl w k n) (faults : List Bool) :
    Followed hn hs cl w k (n.withFaults faults) where
  slot := by
    obtain ⟨f, hf⟩ := h.slot
    exact ⟨f, hf⟩
  past := h.past
  sent := h.sent

/-- The call, made on the core in its place. -/
theorem Followed.act_slot (h : Followed hn hs cl w k n) (c : Call) :
    (cl.act k (.call c n.rn.log.storage.faults)).slot k = Slot.after c (c.run n.rn) ∧
      (c = .messages → ∀ m ∈ n.rn.msgs, m ∈ (cl.act k (.call c n.rn.log.storage.faults)).net) := by
  obtain ⟨f, hf⟩ := h.slot
  refine ⟨?_, ?_⟩
  · simp only [Cluster.act, Function.update_self, hf]
    rfl
  · rintro rfl m hm
    refine List.mem_append_right _ ?_
    rw [hf]
    exact hm

/-- The process has made a call after which its core still runs. -/
theorem Followed.goes (h : Followed hn hs cl w k n) (hw : Refines (fixed boot hn hs) cl w)
    (hc : Cluster.fixedCalls cl k c) (hg : Goes c n.rn n'.rn)
    (htrace : n'.trace = n.trace ++ [n'.rn])
    (hsent : n'.sent = n.sent ∨ c = .messages ∧ n'.sent = n.sent ++ n.rn.msgs) :
    ∃ cl' w', Onward hn hs k cl w cl' w' ∧ Followed hn hs cl' w' k n' := by
  obtain ⟨hslot, hout⟩ := h.act_slot c
  obtain ⟨w', ho⟩ := onward_act (a := .call c n.rn.log.storage.faults) hw hc
  rw [Goes] at hg
  rw [hg] at hslot
  refine ⟨_, w', ho, ⟨n'.rn.log.storage.faults, hslot⟩, fun r hr => ?_, fun m hm => ?_⟩
  · rw [htrace] at hr
    rcases List.mem_append.mp hr with hr | hr
    · obtain ⟨c₀, w₀, hw₀, hl, hr⟩ := h.past r hr
      exact ⟨c₀, w₀, hw₀, hl.trans ho.later, hr⟩
    · rw [List.mem_singleton.mp hr]
      exact ⟨_, w', ho.refines, .refl w', Cluster.node?_eq_some.mpr hslot⟩
  · rcases hsent with hsent | ⟨hc, hsent⟩ <;> rw [hsent] at hm
    · exact ho.net m (h.sent m hm)
    · rcases List.mem_append.mp hm with hm | hm
      · exact ho.net m (h.sent m hm)
      · exact hout hc m hm

/-- The process has ended. -/
theorem Followed.crash (h : Followed hn hs cl w k n) (hw : Refines (fixed boot hn hs) cl w) :
    ∃ cl' w', Onward hn hs k cl w cl' w' ∧ cl'.slot k = .down n.rn.log.mem := by
  obtain ⟨w', ho⟩ := onward_act (k := k) (a := .crash) hw trivial
  obtain ⟨f, hf⟩ := h.slot
  refine ⟨_, w', ho, ?_⟩
  simp only [Cluster.act, Function.update_self, hf]
  rfl

/-- The process has ended with a call that failed. -/
theorem Followed.fails (h : Followed hn hs cl w k n) (hw : Refines (fixed boot hn hs) cl w)
    (hc : Cluster.fixedCalls cl k c) {f : Fail} {r : RawNode} (hrun : c.run n.rn = .error f r) :
    ∃ cl' w', Onward hn hs k cl w cl' w' ∧ cl'.slot k = .down r.log.mem := by
  obtain ⟨hslot, -⟩ := h.act_slot c
  obtain ⟨w', ho⟩ := onward_act (a := .call c n.rn.log.storage.faults) hw hc
  rw [hrun, Slot.after] at hslot
  split at hslot
  · exact ⟨_, w', ho, hslot⟩
  · obtain ⟨w'', ho'⟩ := onward_act (k := k) (a := .crash) ho.refines trivial
    refine ⟨_, w'', ho.trans ho', ?_⟩
    simp only [Cluster.act, Function.update_self] at hslot ⊢
    rw [hslot]
    rfl

/-- Nothing that a flush calls is excluded. -/
theorem fixedCalls_of_flushing (hc : flushing c = true) : Cluster.fixedCalls cl k c := by
  cases c <;> trivial

theorem Event.Permitted.calls {readSeq : UInt64} (he : e.Permitted cl.net)
    (hc : e.call? readSeq = some c) : Cluster.fixedCalls cl k c := by
  cases e <;> cases hc <;> exact he

theorem Event.Permitted.mono {net net' : List Message} (he : e.Permitted net)
    (hnet : ∀ m ∈ net, m ∈ net') : e.Permitted net' := by
  cases e with
  | message m => exact hnet m he
  | _ => exact he

theorem Followed.ran {calls : Call → Prop} (h : Followed hn hs cl w k n)
    (hw : Refines (fixed boot hn hs) cl w) (hran : Ran calls n n')
    (hcalls : ∀ c, calls c → Cluster.fixedCalls cl k c) (hsent : n'.sent = n.sent) :
    ∃ cl' w', Onward hn hs k cl w cl' w' ∧ Followed hn hs cl' w' k n' := by
  rcases hran with ⟨hrn, htrace⟩ | ⟨c, hc, hg, htrace⟩
  · refine ⟨cl, w, .refl hw, ?_, ?_, ?_⟩
    · rw [hrn]
      exact h.slot
    · rw [htrace]
      exact h.past
    · rw [hsent]
      exact h.sent
  · exact h.goes hw (hcalls c hc) hg htrace (Or.inl hsent)

theorem Followed.move (h : Followed hn hs cl w k n) (hw : Refines (fixed boot hn hs) cl w)
    (hm : Move sm n n') :
    ∃ cl' w', Onward hn hs k cl w cl' w' ∧ Followed hn hs cl' w' k n' := by
  have hran := hm.ran
  cases hm with
  | release => exact h.goes (c := .messages) hw trivial (goes_messages n.rn) rfl (Or.inr ⟨rfl, rfl⟩)
  | answer =>
    refine h.ran hw hran (fun c hc => fixedCalls_of_flushing hc) ?_
    rw [Node.answered, Node.foldl_resolveRead_eq]
    rfl
  | batch entries last n₁ r _ _ _ ha =>
    exact h.ran hw hran (fun c hc => fixedCalls_of_flushing hc) ha.frame.2.1
  | note =>
    refine h.ran hw hran (fun c hc => fixedCalls_of_flushing hc) ?_
    rw [Node.noteRole_eq]
  | _ => exact h.ran hw hran (fun c hc => fixedCalls_of_flushing hc) rfl

theorem Followed.moves (h : Followed hn hs cl w k n) (hw : Refines (fixed boot hn hs) cl w)
    (hm : Moves sm n n') :
    ∃ cl' w', Onward hn hs k cl w cl' w' ∧ Followed hn hs cl' w' k n' := by
  induction hm with
  | refl => exact ⟨cl, w, .refl hw, h⟩
  | tail _ hm ih =>
    obtain ⟨cl₁, w₁, ho₁, h₁⟩ := ih
    obtain ⟨cl₂, w₂, ho₂, h₂⟩ := h₁.move ho₁.refines hm
    exact ⟨cl₂, w₂, ho₁.trans ho₂, h₂⟩

theorem Followed.taken (h : Followed hn hs cl w k n) (hw : Refines (fixed boot hn hs) cl w)
    (he : e.Permitted cl.net) (ht : Taken n e n') :
    ∃ cl' w', Onward hn hs k cl w cl' w' ∧ Followed hn hs cl' w' k n' :=
  h.ran hw ht.ran (fun _ hc => he.calls hc) (by cases ht <;> rfl)

theorem Followed.underway (h : Followed hn hs cl w k n) (hw : Refines (fixed boot hn hs) cl w)
    (he : e.Permitted cl.net) (hu : Underway sm e n n') :
    ∃ cl' w', Onward hn hs k cl w cl' w' ∧ Followed hn hs cl' w' k n' := by
  rcases hu with rfl | ⟨n₀, ht, hm⟩
  · exact ⟨cl, w, .refl hw, h⟩
  · obtain ⟨cl₁, w₁, ho₁, h₁⟩ := h.taken hw he ht
    obtain ⟨cl₂, w₂, ho₂, h₂⟩ := h₁.moves ho₁.refines hm
    exact ⟨cl₂, w₂, ho₁.trans ho₂, h₂⟩

theorem Failing.sent_eq {f : Fail} (hf : Failing sm e n f n') : n'.sent = n.sent := by
  cases hf with
  | batch done rest _ err _ _ ha => exact ha.frame.2.1
  | panic _ _ _ _ _ _ _ _ hsent => exact hsent
  | _ => rfl

/-- The turn has failed, and the process has ended. -/
theorem Followed.failing {f : Fail} (h : Followed hn hs cl w k n)
    (hw : Refines (fixed boot hn hs) cl w) (he : e.Permitted cl.net) (hf : Failing sm e n f n') :
    ∃ cl' w', Onward hn hs k cl w cl' w' ∧ cl'.slot k = .down n'.rn.log.mem := by
  cases hf with
  | idle _ => exact h.crash hw
  | tick err _ r _ hrun => exact h.fails (c := .tick) hw trivial hrun
  | step m err _ r heq hrun _ =>
    subst heq
    exact h.fails (c := .step m) hw he hrun
  | restore snap err _ => exact h.crash hw
  | batch done rest _ err _ _ ha =>
    rw [ha.frame.1]
    exact h.crash hw
  | capture s data err _ r _ _ _ hrun =>
    exact h.fails (c := .createSnapshot data) hw trivial (run_error hrun)
  | panic c _ _ _ hc _ _ hrun _ =>
    refine h.fails hw ?_ hrun
    rcases hc with hc | hc
    · exact he.calls hc
    · exact fixedCalls_of_flushing hc

theorem Followed.event (h : Followed hn hs cl w k n) (hw : Refines (fixed boot hn hs) cl w)
    (hr : n.rn.Wf) (he : e.Permitted cl.net) (sm : StateMachine σ ρ) (faults : List Bool) :
    ∃ cl' w', Onward hn hs k cl w cl' w' ∧
      (Proc.after (n.run sm e faults)).Sat (Followed hn hs cl' w' k) (cl'.slot k = .down ·) ∧
      ∀ m ∈ (n.run sm e faults).node.sent, m ∈ cl'.net := by
  have hends : ∀ {n₁ n₂ : Node σ ρ} {f : Fail}, Underway sm e (n.withFaults faults) n₁ →
      Failing sm e n₁ f n₂ → ∃ cl' w', Onward hn hs k cl w cl' w' ∧
        cl'.slot k = .down n₂.rn.log.mem ∧ ∀ m ∈ n₂.sent, m ∈ cl'.net := by
    intro n₁ n₂ f hu hf
    obtain ⟨cl₁, w₁, ho₁, h₁⟩ := (h.withFaults faults).underway hw he hu
    obtain ⟨cl₂, w₂, ho₂, hslot⟩ := h₁.failing ho₁.refines (he.mono ho₁.net) hf
    refine ⟨cl₂, w₂, ho₁.trans ho₂, hslot, fun m hm => ho₂.net m (h₁.sent m ?_)⟩
    rwa [hf.sent_eq] at hm
  rcases run_cases sm e hr faults with ⟨n₁, n', hrun, ht, hm, -⟩ | ⟨n₁, n₂, err, hrun, hu, hf⟩ |
    ⟨n₁, n₂, f, hrun, hu, hf⟩ <;> rw [hrun]
  · obtain ⟨cl', w', ho, h'⟩ := (h.withFaults faults).underway hw he (Or.inr ⟨n₁, ht, hm⟩)
    exact ⟨cl', w', ho, h', h'.sent⟩
  · obtain ⟨cl', w', ho, hslot, hsent⟩ := hends hu hf
    exact ⟨cl', w', ho, hslot, hsent⟩
  · exact hends hu hf

end

/-! ### Systems -/

variable (hn hs) in
/-- A cluster of cores in which every process has its core. -/
structure Mirrors (s : System σ ρ) (cl : Cluster) (w : World NodeID LogEntry) : Prop where
  run : Cluster.Run boot Cluster.fixedCalls {} cl
  refines : Refines (fixed boot hn hs) cl w
  proc : ∀ k, (s.proc k).Sat (Followed hn hs cl w k) (cl.slot k = .down ·)
  net : ∀ m ∈ s.net, m ∈ cl.net

theorem Mirrors.wf {s : System σ ρ} {n : Node σ ρ} (h : Mirrors hn hs s cl w)
    (hp : s.proc k = .up n) : n.rn.Wf := by
  have hk := h.proc k
  rw [hp] at hk
  obtain ⟨f, hf⟩ := hk.slot
  have hwf := (h.refines.up (Cluster.node?_eq_some.mpr hf)).2.1
  exact (reach_withFaults (c := .tick) (n.rn.withFaults f) n.rn.log.storage.faults).wf hwf

/-- What happens in one place is mirrored when it is mirrored in that place. -/
theorem Mirrors.onward {s : System σ ρ} {p : Proc σ ρ} {net : List Message}
    (h : Mirrors hn hs s cl w) (ho : Onward hn hs k cl w cl' w')
    (hp : p.Sat (Followed hn hs cl' w' k) (cl'.slot k = .down ·)) (hnet : ∀ m ∈ net, m ∈ cl'.net) :
    Mirrors hn hs ⟨Function.update s.proc k p, s.net ++ net⟩ cl' w' where
  run := h.run.trans ho.run
  refines := ho.refines
  proc u := by
    by_cases hu : u = k
    · subst hu
      simpa using hp
    · simp only [Function.update_of_ne hu]
      have hproc := h.proc u
      cases hq : s.proc u with
      | up n =>
        rw [hq] at hproc
        exact hproc.other ho hu
      | down st =>
        rw [hq] at hproc
        exact (ho.others u hu).trans hproc
  net m hm := by
    rcases List.mem_append.mp hm with hm | hm
    · exact ho.net m (h.net m hm)
    · exact hnet m hm

theorem Mirrors.start {sm : StateMachine σ ρ} {app : σ} {cfg : Config} {st : MemoryStorage}
    {n : Node σ ρ} (hw : Refines (fixed boot hn hs) cl w) (hslot : cl.slot k = .down st)
    (hid : cfg.id = k) (hboot : .new cfg.voters = boot) (h : Loop.start sm app cfg st = .ok n) :
    ∃ cl' w', Onward hn hs k cl w cl' w' ∧ Followed hn hs cl' w' k n := by
  obtain ⟨cfg', rn, app', calls, hcfg, hnew, rfl, -⟩ := start_ok h
  have hcore : cfg'.core.id = k ∧ cfg'.core.bootstrap = boot := by
    rw [Config.withDefaults] at hcfg
    split at hcfg
    · cases hcfg
    · cases hcfg
      exact ⟨hid, hboot⟩
  obtain ⟨w', ho⟩ := onward_act (a := .start cfg'.core) hw hcore
  have hup : (cl.act k (.start cfg'.core)).slot k = .up rn := by
    simp only [Cluster.act, Function.update_self, hslot, Slot.act, hnew]
  refine ⟨_, w', ho, ⟨rn.log.storage.faults, hup⟩, fun r hr => ?_, fun m hm => (by cases hm)⟩
  rw [List.mem_singleton.mp hr]
  exact ⟨_, w', ho.refines, .refl w', Cluster.node?_eq_some.mpr hup⟩

/-- Every step of the processes is a run of the cores. -/
theorem Mirrors.act {sm : StateMachine σ ρ} {app : σ} {s : System σ ρ} {a : Happening}
    (h : Mirrors hn hs s cl w) (hp : s.Permits boot k a) :
    ∃ cl' w', Mirrors hn hs (s.act sm app k a) cl' w' := by
  have hstay : ∃ cl' w', Mirrors hn hs ⟨Function.update s.proc k (s.proc k), s.net ++ []⟩ cl' w' :=
    ⟨cl, w, h.onward (.refl h.refines) (h.proc k) fun _ hm => (by cases hm)⟩
  have hproc := h.proc k
  rw [System.act]
  cases hq : s.proc k with
  | down st =>
    rw [hq] at hproc hstay
    cases a with
    | start cfg =>
      simp only [Proc.act, System.sentBy]
      cases hst : Loop.start sm app cfg st with
      | error e => exact hstay
      | ok n =>
        obtain ⟨cl', w', ho, hf⟩ := Mirrors.start h.refines hproc hp.1 hp.2 hst
        exact ⟨cl', w', h.onward ho hf fun _ hm => (by cases hm)⟩
    | crash => exact hstay
    | event e faults => exact hstay
  | up n =>
    have hr := h.wf hq
    rw [hq] at hproc hstay
    cases a with
    | start cfg => exact hstay
    | crash =>
      obtain ⟨cl', w', ho, hslot⟩ := hproc.crash h.refines
      exact ⟨cl', w', h.onward ho hslot fun _ hm => (by cases hm)⟩
    | event e faults =>
      obtain ⟨cl', w', ho, hsat, hsent⟩ :=
        hproc.event h.refines hr (hp.mono h.net) sm faults
      exact ⟨cl', w', h.onward ho hsat fun m hm => hsent m (List.mem_of_mem_drop hm)⟩

theorem System.Run.mirrored {sm : StateMachine σ ρ} {app : σ} {s : System σ ρ}
    (hrun : System.Run sm app boot {} s) (hn : boot.Normalized) (hs : boot.Sized) :
    ∃ cl w, Mirrors hn hs s cl w := by
  induction hrun with
  | refl => exact ⟨{}, World.start, .refl, .start _, fun _ => rfl, fun _ hm => nomatch hm⟩
  | tail _ hstep ih =>
    obtain ⟨cl, w, h⟩ := ih
    obtain ⟨k, a, hp, rfl⟩ := hstep
    exact h.act hp

/-- An index and a term name one entry in all of these logs. -/
def OneEntry (trace : List RawNode) : Prop :=
  ∀ r ∈ trace, ∀ r' ∈ trace, ∀ e ∈ r.log.mem.ents, ∀ e' ∈ r'.log.mem.ents,
    e.index = e'.index → e.term = e'.term → e = e'

theorem Followed.oneEntry {n : Node σ ρ} (h : Followed hn hs cl w k n) : OneEntry n.trace := by
  intro r hr r' hr' e he e' he' hi ht
  obtain ⟨c₀, w₀, hw₀, hl, hnode⟩ := h.past r hr
  obtain ⟨c₁, w₁, hw₁, hl', hnode'⟩ := h.past r' hr'
  exact hw₀.one_entry hw₁ hl hl' hnode hnode' he he' hi ht

/-- What every start gives, and every turn keeps in whose logs an index and a term name one entry,
holds of every process of a system. -/
theorem System.Run.invariant {sm : StateMachine σ ρ} {app : σ} {s : System σ ρ}
    {I : Node σ ρ → Prop} (hrun : System.Run sm app boot {} s) (hn : boot.Normalized)
    (hs : boot.Sized) (hstart : ∀ cfg st n, st.OK → Loop.start sm app cfg st = .ok n → I n)
    (hturn : ∀ n e faults n₁ n', I n → Taken (n.withFaults faults) e n₁ → Moves sm n₁ n' →
      n'.Settled → OneEntry n'.trace → I n') {k : NodeID} {n : Node σ ρ} (hp : s.proc k = .up n) :
    I n := by
  induction hrun generalizing k n with
  | refl => cases hp
  | @tail b _ hb hstep ih =>
    obtain ⟨cl, w, hm⟩ := System.Run.mirrored hb hn hs
    obtain ⟨cl', w', hm'⟩ := System.Run.mirrored (hb.tail hstep) hn hs
    obtain ⟨u, a, -, rfl⟩ := hstep
    have hone : OneEntry n.trace := by
      have hk := hm'.proc k
      rw [hp] at hk
      exact hk.oneEntry
    by_cases hu : k = u
    · subst hu
      simp only [System.act, Function.update_self] at hp
      cases hq : b.proc k with
      | down st =>
        have hk := hm.proc k
        have hok := hm.refines.ok k
        rw [hq] at hp hk
        rw [show cl.slot k = .down st from hk] at hok
        cases a with
        | start cfg =>
          simp only [Proc.act] at hp
          cases hst : Loop.start sm app cfg st with
          | ok n₁ =>
            rw [hst] at hp
            cases hp
            exact hstart cfg st n hok hst
          | error e => rw [hst] at hp; cases hp
        | crash => cases hp
        | event e faults => cases hp
      | up n₀ =>
        rw [hq] at hp
        cases a with
        | start cfg =>
          cases hp
          exact ih hq
        | crash => cases hp
        | event e faults =>
          simp only [Proc.act] at hp
          rcases run_cases sm e (hm.wf hq) faults with ⟨n₁, n', hrun, ht, hmv, hset⟩ |
            ⟨n₁, n₂, err, hrun, -⟩ | ⟨n₁, n₂, f, hrun, -⟩ <;> rw [hrun] at hp <;> cases hp
          exact hturn n₀ e faults n₁ n (ih hq) ht hmv hset hone
    · simp only [System.act, Function.update_of_ne hu] at hp
      exact ih hp

theorem System.Run.oneEntry_underway {sm : StateMachine σ ρ} {app : σ} {s : System σ ρ}
    (hrun : System.Run sm app boot {} s) (hn : boot.Normalized) (hs : boot.Sized) {k : NodeID}
    {n n' : Node σ ρ} (hp : s.proc k = .up n) {e : Event} (he : e.Permitted s.net)
    {faults : List Bool} (hu : Underway sm e (n.withFaults faults) n') : OneEntry n'.trace := by
  obtain ⟨cl, w, hm⟩ := hrun.mirrored hn hs
  have hk := hm.proc k
  rw [hp] at hk
  obtain ⟨cl', w', -, h'⟩ := Followed.underway (hk.withFaults faults) hm.refines (he.mono hm.net) hu
  exact h'.oneEntry

end

end RaftStore.Loop
