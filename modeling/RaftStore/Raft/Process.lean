import RaftStore.Raft.Trace

/-! Runs of one node: whatever it is called with, told, and made to fail on, it is in order while it
runs and its storage is in order when it is down. -/

namespace RaftStore.Raft

open Lib RawNode

/-- What holds of a storage that a node has left behind. -/
structure MemoryStorage.OK (m : MemoryStorage) : Prop where
  inOrder : m.InOrder
  base_le : m.base.index ≤ m.snapshot.lastIncludedIndex
  snap_le : m.snapshot.lastIncludedIndex ≤ m.lastIndex
  commit_le : m.hardState.commit ≤ m.lastIndex

theorem MemoryStorage.OK.empty : MemoryStorage.OK {} :=
  ⟨.nil _, le_rfl, le_rfl, le_rfl⟩

theorem RawNode.Wf.mem_ok {r : RawNode} (h : r.Wf) : r.log.mem.OK where
  inOrder := h.log.inOrder
  base_le := h.log.base_le
  snap_le := (h.log.snap_le.trans h.log.applied_le).trans h.log.committed_le
  commit_le := h.commit_le.trans h.log.committed_le

/-- A node as it starts: a follower with what the storage holds, whose configuration has been
computed. -/
structure RawNode.Started (cfg : Config) (d : Disk) (r : RawNode) : Prop where
  valid : cfg.id ≠ None
  id : r.id = cfg.id
  cfg_eq : r.cfg = cfg
  term : r.term = d.mem.hardState.term
  vote : r.vote = d.mem.hardState.vote
  persisted : r.persisted = d.mem.hardState
  log : r.log = RaftLog.new d
  state : r.state = .follower
  bootstrap : r.bootstrap = cfg.bootstrap
  votes : r.votes = fun _ => none
  progress : r.progress = none
  pendingReads : r.pendingReads = []
  readStates : r.readStates = []
  msgs : r.msgs = []
  journal : r.journal = []

theorem RawNode.started_of_new {cfg : Config} {d : Disk} {r : RawNode} (h : new cfg d = .ok r) :
    r.Started cfg d := by
  simp only [new] at h
  split at h
  · exact nomatch h
  · rename_i hv
    have hid : cfg.id ≠ None := by
      intro h0
      simp [Config.validate, h0] at hv
    split at h
    · exact nomatch h
    · rename_i r1 h1
      cases h
      have hrec : ∀ r0 : RawNode, r0.refreshConfiguration = .ok r1 → r0.Reconf r1 := by
        intro r0 h0
        have := refreshed_reconf r0
        rwa [refreshed, h0] at this
      have hr1 := (hrec _ h1).eq
      rw [becomeFollower, reset_eq, hr1]
      split <;> exact ⟨hid, rfl, rfl, rfl, by simp, rfl, rfl, rfl, rfl, rfl, rfl, rfl, rfl, rfl, rfl⟩

/-- A node that starts has no snapshot for the application; the driver reads the storage's own. -/
theorem RawNode.appliedSnapshot_of_new {cfg : Config} {d : Disk} {r : RawNode}
    (h : new cfg d = .ok r) : r.appliedSnapshot = none := by
  simp only [new] at h
  split at h
  · exact nomatch h
  · split at h
    · exact nomatch h
    · rename_i r₁ h₁
      cases h
      rw [becomeFollower, reset_eq, (refreshConfiguration_reconf h₁).eq]
      split <;> rfl

theorem RawNode.Started.wf {cfg : Config} {d : Disk} {r : RawNode} (h : r.Started cfg d)
    (hd : d.mem.OK) : r.Wf where
  id_ne := by rw [h.id]; exact h.valid
  log := by rw [h.log]; exact .new hd.inOrder hd.base_le hd.snap_le
  synced := by rw [h.persisted, h.log]; rfl
  term_eq := by rw [h.term, h.log]; rfl
  vote_eq := by rw [h.vote, h.log]; rfl
  commit_le := by
    rw [h.log]
    change d.mem.hardState.commit ≤ if _ then _ else _
    split
    · exact le_min le_rfl hd.commit_le
    · omega
  lead_self hs := by rw [h.state] at hs; exact nomatch hs
  tracked hp := by rw [h.progress] at hp; exact nomatch hp
  next_pos id p hp := by simp [peer, h.progress] at hp
  reads _ := ⟨h.pendingReads, h.readStates⟩

/-- The run delivers the message. -/
def Delivered (acts : List Act) (m : Message) : Prop := ∃ faults, .call (.step m) faults ∈ acts

namespace Slot

def OK : Slot → Prop
  | .down st => st.OK
  | .up r => r.Wf

/-- What a call does to a running node: a sequence of effects, after which it still runs, or stops
and leaves its storage. -/
theorem act_call {r : RawNode} (hr : r.Wf) (c : Call) (faults : List Bool) :
    match (Slot.up r).act (.call c faults) with
    | .up r' => Reach c r r'
    | .down st => ∃ r', Reach c r r' ∧ r'.log.mem = st := by
  have h1 := reach_withFaults (c := c) r faults
  have h := c.meets_run (h1.wf hr)
  simp only [act, after]
  unfold Meets at h
  split at h <;> rename_i heq <;> rw [heq]
  · exact h1.trans h
  · dsimp only
    split at h <;> rename_i hst
    · rw [if_pos hst]
      obtain ⟨r', hr', hm, _⟩ := h
      exact ⟨r', h1.trans hr', hm⟩
    · rw [if_neg hst]
      exact h1.trans h

/-- `I` holds of the node while it runs, and `J` of the storage when it is down. -/
def Sat (I : RawNode → Prop) (J : MemoryStorage → Prop) : Slot → Prop
  | .down st => J st
  | .up r => I r

/-- A property of running nodes and one of storages are kept by everything that can happen to a
node when calls keep them, stopping gives the second, and starting gives the first back. -/
theorem Sat.act_of_call {I : RawNode → Prop} {J : MemoryStorage → Prop} {a : Act} {s : Slot}
    (hs : s.Sat I J) (hok : s.OK)
    (hcall : ∀ r c faults, s = .up r → a = .call c faults → r.Wf → I r → (s.act a).Sat I J)
    (hstop : ∀ r, r.Wf → I r → J r.log.mem)
    (hstart : ∀ cfg st r, s = .down st → a = .start cfg → st.OK → J st →
      new cfg { mem := st } = .ok r → I r) :
    (s.act a).Sat I J := by
  cases s with
  | down st =>
    cases a with
    | start cfg =>
      simp only [Slot.act]
      cases hn : RawNode.new cfg { mem := st } with
      | error e => exact hs
      | ok r => exact hstart cfg st r rfl rfl hok hs hn
    | crash => exact hs
    | call c faults => exact hs
  | up r =>
    cases a with
    | start cfg => exact hs
    | crash => exact hstop r hok hs
    | call c faults => exact hcall r c faults rfl rfl hok hs

/-- The same when every effect keeps the property of running nodes. -/
theorem Sat.act {I : RawNode → Prop} {J : MemoryStorage → Prop} {a : Act} {s : Slot}
    (hs : s.Sat I J) (hok : s.OK)
    (heffect : ∀ r₀ c faults, s = .up r₀ → a = .call c faults → I r₀ →
      ∀ r r', Reach c r₀ r → r.Wf → I r → Effect c r r' → I r')
    (hstop : ∀ r, r.Wf → I r → J r.log.mem)
    (hstart : ∀ cfg st r, s = .down st → a = .start cfg → st.OK → J st →
      new cfg { mem := st } = .ok r → I r) :
    (s.act a).Sat I J := by
  refine hs.act_of_call hok ?_ hstop hstart
  rintro r c faults rfl rfl hok hs
  have hreach : ∀ {r'}, Reach c r r' → I r' := by
    intro r' h
    induction h with
    | refl => exact hs
    | tail hb he ih => exact heffect r c faults rfl rfl hs _ _ hb (Reach.wf hb hok) ih he
  have h := act_call hok c faults
  split at h <;> rename_i heq <;> rw [heq]
  · exact hreach h
  · obtain ⟨r', hr', rfl⟩ := h
    exact hstop r' (hr'.wf hok) (hreach hr')

theorem OK.act {s : Slot} (h : s.OK) (a : Act) : (s.act a).OK := by
  have hs : s.Sat RawNode.Wf MemoryStorage.OK := by cases s <;> exact h
  have := hs.act (a := a) h (fun _ _ _ _ _ _ _ _ _ hr _ he => he.wf hr) (fun _ hr _ => hr.mem_ok)
    fun cfg st r _ _ hst _ hr => (started_of_new hr).wf hst
  cases hs' : s.act a <;> rw [hs'] at this <;> exact this

theorem node?_eq_some {s : Slot} {r : RawNode} : s.node? = some r ↔ s = .up r := by
  cases s <;> simp [node?]

/-- A node that a computation finds to run and to pass a test. -/
theorem exists_up {s : Slot} (test : RawNode → Bool) (h : s.node?.any test = true) :
    ∃ r, s = .up r ∧ test r = true := by
  cases s with
  | down st => exact nomatch h
  | up r => exact ⟨r, rfl, h⟩

/-- A run of one node. -/
def run (s : Slot) (acts : List Act) : Slot := acts.foldl Slot.act s

/-- Everything that happens in the run meets a condition, which may look at the node just before. -/
def Allows (P : Slot → Act → Prop) : Slot → List Act → Prop
  | _, [] => True
  | s, a :: acts => P s a ∧ Allows P (s.act a) acts

instance decidableAllows {P : Slot → Act → Prop} [∀ s a, Decidable (P s a)] :
    (s : Slot) → (acts : List Act) → Decidable (s.Allows P acts)
  | _, [] => isTrue trivial
  | s, a :: acts => @instDecidableAnd _ _ _ (decidableAllows (s.act a) acts)

theorem Allows.and {P Q : Slot → Act → Prop} {s : Slot} {acts : List Act} (hP : s.Allows P acts)
    (hQ : s.Allows Q acts) : s.Allows (fun s a => P s a ∧ Q s a) acts := by
  induction acts generalizing s with
  | nil => trivial
  | cons a acts ih => exact ⟨⟨hP.1, hQ.1⟩, ih hP.2 hQ.2⟩

theorem Allows.concat {P : Slot → Act → Prop} {s : Slot} {acts : List Act} {a : Act}
    (h : s.Allows P acts) (ha : P (s.run acts) a) : s.Allows P (acts ++ [a]) := by
  induction acts generalizing s with
  | nil => exact ⟨ha, trivial⟩
  | cons b acts ih => exact ⟨h.1, ih h.2 ha⟩

theorem allows_of_forall {P : Act → Prop} {acts : List Act} (h : ∀ a ∈ acts, P a) (s : Slot) :
    s.Allows (fun _ a => P a) acts := by
  induction acts generalizing s with
  | nil => trivial
  | cons a acts ih =>
    exact ⟨h a List.mem_cons_self, ih (fun b hb => h b (List.mem_cons_of_mem a hb)) _⟩

theorem OK.run {s : Slot} (h : s.OK) (acts : List Act) : (s.run acts).OK := by
  induction acts generalizing s with
  | nil => exact h
  | cons a acts ih => exact ih (h.act a)

/-- Every node that runs is in order. -/
theorem wf_of_run {acts : List Act} {r : RawNode} (hr : (Slot.down {}).run acts = .up r) : r.Wf := by
  have h : ((Slot.down {}).run acts).OK := OK.run (s := .down {}) MemoryStorage.OK.empty acts
  rw [hr] at h
  exact h

/-- The same for a whole run, in which everything meets a condition. -/
theorem Sat.run {I : RawNode → Prop} {J : MemoryStorage → Prop} {P : Slot → Act → Prop}
    {acts : List Act} {s : Slot} (hs : s.Sat I J) (hok : s.OK) (hp : s.Allows P acts)
    (heffect : ∀ r₀ c faults, P (.up r₀) (.call c faults) → I r₀ →
      ∀ r r', Reach c r₀ r → r.Wf → I r → Effect c r r' → I r')
    (hstop : ∀ r, r.Wf → I r → J r.log.mem)
    (hstart : ∀ cfg st r, P (.down st) (.start cfg) → st.OK → J st →
      new cfg { mem := st } = .ok r → I r) :
    (s.run acts).Sat I J := by
  induction acts generalizing s with
  | nil => exact hs
  | cons a acts ih =>
    refine ih (hs.act hok ?_ hstop ?_) (hok.act a) hp.2
    · rintro r₀ c faults rfl rfl hI
      exact heffect r₀ c faults hp.1 hI
    · rintro cfg st r rfl rfl
      exact hstart cfg st r hp.1

/-- What a node starts with, and every effect keeps, holds in every run in which the messages that are
delivered meet a condition. -/
theorem of_delivered {I : RawNode → Prop} {D : Message → Prop} {acts : List Act} {r : RawNode}
    (hD : ∀ m, Delivered acts m → D m) (hr : (Slot.down {}).run acts = .up r)
    (heffect : ∀ c r r', r.Wf → (∀ m, c = .step m → D m) → I r → Effect c r r' → I r')
    (hstart : ∀ cfg st r, new cfg { mem := st } = .ok r → I r) : I r := by
  have hacts : ∀ a ∈ acts, ∀ m faults, a = .call (.step m) faults → D m := by
    rintro _ ha m faults rfl
    exact hD m ⟨faults, ha⟩
  have h : ((Slot.down {}).run acts).Sat I fun _ => True := by
    refine Sat.run (s := .down {}) trivial MemoryStorage.OK.empty (allows_of_forall hacts _) ?_
      (fun _ _ _ => trivial) fun cfg st r _ _ _ => hstart cfg st r
    intro r₀ c faults hc _ r r' _ hw h he
    exact heffect c r r' hw (fun m hm => hc m faults (by rw [hm])) h he
  rw [hr] at h
  exact h

/-- A property that need not hold in the middle of a call is kept by a run when every call that the
process survives gives it back. -/
theorem Sat.run_calls {I : RawNode → Prop} {J : MemoryStorage → Prop} {P : Slot → Act → Prop}
    {acts : List Act} {s : Slot} (hs : s.Sat I J) (hok : s.OK) (hp : s.Allows P acts)
    (hcall : ∀ r c faults, P (.up r) (.call c faults) → r.Wf → I r →
      Meets c.run (r.withFaults faults) (fun _ => I) fun e r' =>
        if c.stops e then J r'.log.mem else I r')
    (hstop : ∀ r, r.Wf → I r → J r.log.mem)
    (hstart : ∀ cfg st r, P (.down st) (.start cfg) → st.OK → J st →
      new cfg { mem := st } = .ok r → I r) :
    (s.run acts).Sat I J := by
  induction acts generalizing s with
  | nil => exact hs
  | cons a acts ih =>
    refine ih (hs.act_of_call hok ?_ hstop ?_) (hok.act a) hp.2
    · rintro r c faults rfl rfl hok hs
      have h := hcall r c faults hp.1 hok hs
      simp only [Slot.act, after]
      unfold Meets at h
      split at h <;> rename_i heq <;> rw [heq]
      · exact h
      · dsimp only
        split at h <;> rename_i hst
        · rw [if_pos hst]
          exact h
        · rw [if_neg hst]
          exact h
    · rintro cfg st r rfl rfl
      exact hstart cfg st r hp.1

end Slot

end RaftStore.Raft
