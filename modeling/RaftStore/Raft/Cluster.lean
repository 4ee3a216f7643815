import RaftStore.Raft.Process

/-! A cluster: one place per node, and every message that was ever sent.  Nodes start, crash and are
called in any order; a message may be delivered at any later time, any number of times, to anyone,
or never. -/

namespace RaftStore.Raft

/-- `reads` are the ids that were passed to ReadIndex since the node was last started, and `starts`
counts its starts; neither is read by a node. -/
structure Cluster where
  slot : NodeID → Slot := fun _ => .down {}
  net : List Message := []
  reads : NodeID → List UInt64 := fun _ => []
  starts : NodeID → ℕ := fun _ => 0

namespace Cluster

/-- What a driver hands to the network. -/
def released : Slot → Act → List Message
  | .up r, .call .messages _ => r.msgs
  | _, _ => []

theorem mem_released {s : Slot} {a : Act} {m : Message} (h : m ∈ released s a) :
    ∃ r faults, s = .up r ∧ a = .call .messages faults ∧ m ∈ r.msgs := by
  unfold released at h
  split at h
  · exact ⟨_, _, rfl, rfl, h⟩
  · exact nomatch h

def readsAfter (ids : List UInt64) : Slot → Act → List UInt64
  | .down _, .start _ => []
  | .up _, .call (.readIndex id) _ => id :: ids
  | _, _ => ids

def startsAfter (k : ℕ) : Slot → Act → ℕ
  | .down _, .start _ => k + 1
  | _, _ => k

def act (c : Cluster) (n : NodeID) (a : Act) : Cluster where
  slot := Function.update c.slot n ((c.slot n).act a)
  net := c.net ++ released (c.slot n) a
  reads := Function.update c.reads n (readsAfter (c.reads n) (c.slot n) a)
  starts := Function.update c.starts n (startsAfter (c.starts n) (c.slot n) a)

/-- Every node is started with the same initial configuration; `calls` says what drivers do. -/
def Permits (boot : Configuration) (calls : Cluster → NodeID → Call → Prop) (c : Cluster)
    (n : NodeID) : Act → Prop
  | .start cfg => cfg.id = n ∧ cfg.bootstrap = boot
  | .crash => True
  | .call k _ => calls c n k

def Step (boot : Configuration) (calls : Cluster → NodeID → Call → Prop) (c c' : Cluster) : Prop :=
  ∃ n a, c.Permits boot calls n a ∧ c' = c.act n a

/-- A run of the cluster. -/
abbrev Run (boot : Configuration) (calls : Cluster → NodeID → Call → Prop) :
    Cluster → Cluster → Prop :=
  Relation.ReflTransGen (Step boot calls)

/-- Two moments of one run from the start, in either order. -/
def Moments (boot : Configuration) (calls : Cluster → NodeID → Call → Prop) (c c' : Cluster) : Prop :=
  Run boot calls {} c ∧ Run boot calls c c' ∨ Run boot calls {} c' ∧ Run boot calls c' c

/-- The node that runs in a place. -/
def node? (c : Cluster) (n : NodeID) : Option RawNode := (c.slot n).node?

/-- Drivers that change no membership: they deliver what was sent, and call anything else. -/
def fixedCalls (c : Cluster) (_ : NodeID) : Call → Prop
  | .step m => m ∈ c.net
  | .proposeConfChange _ => False
  | _ => True

/-- Drivers that change the membership at will, but take no snapshots. -/
def jointCalls (c : Cluster) (_ : NodeID) : Call → Prop
  | .step m => m ∈ c.net
  | .proposeConfChange target => target.Sized
  | .createSnapshot _ => False
  | _ => True

/-- Drivers that change no membership and give every read of a process its own id. -/
def readCalls (c : Cluster) (n : NodeID) : Call → Prop
  | .readIndex id => id ≠ 0 ∧ id ∉ c.reads n
  | k => fixedCalls c n k

section

variable {c : Cluster} {n : NodeID} {a : Act}

theorem node?_eq_some {r : RawNode} : c.node? n = some r ↔ c.slot n = .up r :=
  Slot.node?_eq_some

/-- An act changes the slot of one place only. -/
theorem forall_slot_act {P : NodeID → Slot → Prop} :
    (∀ u, P u ((c.act n a).slot u)) ↔ P n ((c.slot n).act a) ∧ ∀ u, u ≠ n → P u (c.slot u) :=
  Function.forall_update_iff c.slot P

theorem node?_act_ne {u : NodeID} (hu : u ≠ n) : (c.act n a).node? u = c.node? u := by
  simp [node?, Cluster.act, hu]

theorem reads_act_ne {u : NodeID} (hu : u ≠ n) : (c.act n a).reads u = c.reads u := by
  simp [Cluster.act, hu]

/-- While the process lives, its ids only become more. -/
theorem reads_act_self {r : RawNode} (hr : c.node? n = some r) {id : UInt64}
    (hid : id ∈ c.reads n) : id ∈ (c.act n a).reads n := by
  simp only [Cluster.act, Function.update_self, node?_eq_some.mp hr]
  cases a with
  | call k faults =>
    cases k with
    | readIndex _ => exact List.mem_cons_of_mem _ hid
    | _ => exact hid
  | _ => exact hid

theorem starts_le_act (c : Cluster) (n u : NodeID) (a : Act) :
    c.starts u ≤ (c.act n a).starts u := by
  by_cases hu : u = n
  · subst hu
    simp only [Cluster.act, Function.update_self, startsAfter]
    split
    · exact Nat.le_succ _
    · exact le_rfl
  · simp [Cluster.act, hu]

/-- A process that is started begins a new life. -/
theorem starts_lt_act {st : MemoryStorage} (cfg : Config) (hslot : c.slot n = .down st) :
    c.starts n < (c.act n (.start cfg)).starts n := by
  simp [Cluster.act, hslot, startsAfter]

/-- What runs in a place after an act was started by it, was there before, or was called. -/
theorem node?_act_self {r' : RawNode} (hok : (c.slot n).OK) (hr' : (c.act n a).node? n = some r') :
    (∃ cfg st, c.slot n = .down st ∧ a = .start cfg ∧ RawNode.new cfg { mem := st } = .ok r') ∨
      c.node? n = some r' ∨
      ∃ r k faults, c.node? n = some r ∧ a = .call k faults ∧ Reach k r r' := by
  rw [node?_eq_some] at hr'
  simp only [Cluster.act, Function.update_self] at hr'
  cases hslot : c.slot n with
  | down st =>
    rw [hslot] at hr'
    cases a with
    | start cfg =>
      simp only [Slot.act] at hr'
      split at hr'
      · rename_i r hnew
        cases hr'
        exact Or.inl ⟨cfg, st, rfl, rfl, hnew⟩
      · cases hr'
    | crash => cases hr'
    | call k faults => cases hr'
  | up r =>
    have hr := node?_eq_some.mpr hslot
    rw [hslot] at hr' hok
    cases a with
    | start cfg =>
      cases hr'
      exact Or.inr (Or.inl hr)
    | crash => cases hr'
    | call k faults =>
      have h := Slot.act_call hok k faults
      rw [hr'] at h
      exact Or.inr (Or.inr ⟨r, k, faults, hr, rfl, h⟩)

end

/-! ### Written-out runs -/

/-- An event of a written-out run: an act, or the delivery of the `k`-th message that was sent. -/
inductive Event
  | act (n : NodeID) (a : Act)
  | deliver (n : NodeID) (k : ℕ)

def play (c : Cluster) : Event → Cluster
  | .act n a => c.act n a
  | .deliver n k =>
    match c.net[k]? with
    | some m => c.act n (.call (.step m) [])
    | none => c

def plays (c : Cluster) (events : List Event) : Cluster := events.foldl play c

def Playable (boot : Configuration) (calls : Cluster → NodeID → Call → Prop) (c : Cluster) :
    Event → Prop
  | .act n a => c.Permits boot calls n a
  | .deliver n k => ∀ m ∈ c.net[k]?, calls c n (.step m)

def AllPlayable (boot : Configuration) (calls : Cluster → NodeID → Call → Prop) :
    Cluster → List Event → Prop
  | _, [] => True
  | c, e :: events => c.Playable boot calls e ∧ AllPlayable boot calls (c.play e) events

theorem run_plays {boot : Configuration} {calls : Cluster → NodeID → Call → Prop}
    {events : List Event} {c : Cluster} (h : c.AllPlayable boot calls events) :
    Run boot calls c (c.plays events) := by
  induction events generalizing c with
  | nil => exact .refl
  | cons e events ih =>
    refine Relation.ReflTransGen.trans ?_ (ih h.2)
    have he := h.1
    cases e with
    | act n a => exact .single ⟨n, a, he, rfl⟩
    | deliver n k =>
      simp only [play]
      split
      · rename_i m hm
        exact .single ⟨n, .call (.step m) [], he m hm, rfl⟩
      · exact .refl

section

variable {boot : Configuration} {calls : Cluster → NodeID → Call → Prop}

instance [∀ c n k, Decidable (calls c n k)] (c : Cluster) (n : NodeID) :
    ∀ a, Decidable (c.Permits boot calls n a)
  | .start cfg => inferInstanceAs (Decidable (cfg.id = n ∧ cfg.bootstrap = boot))
  | .crash => inferInstanceAs (Decidable True)
  | .call k _ => inferInstanceAs (Decidable (calls c n k))

instance [∀ c n k, Decidable (calls c n k)] (c : Cluster) :
    ∀ e, Decidable (c.Playable boot calls e)
  | .act n a => inferInstanceAs (Decidable (c.Permits boot calls n a))
  | .deliver n k => inferInstanceAs (Decidable (∀ m ∈ c.net[k]?, calls c n (.step m)))

instance decidableAllPlayable [∀ c n k, Decidable (calls c n k)] :
    ∀ (c : Cluster) (events : List Event), Decidable (c.AllPlayable boot calls events)
  | _, [] => inferInstanceAs (Decidable True)
  | c, e :: events =>
    have := decidableAllPlayable (c.play e) events
    inferInstanceAs (Decidable (c.Playable boot calls e ∧ AllPlayable boot calls (c.play e) events))

end

instance (c : Cluster) (n : NodeID) : ∀ k, Decidable (fixedCalls c n k)
  | .step m => inferInstanceAs (Decidable (m ∈ c.net))
  | .proposeConfChange _ => inferInstanceAs (Decidable False)
  | .tick | .propose _ | .readIndex _ | .readStates | .messages | .applyTo _ | .createSnapshot _
  | .snapshotToApply | .campaign => inferInstanceAs (Decidable True)

instance (c : Cluster) (n : NodeID) : ∀ k, Decidable (jointCalls c n k)
  | .step m => inferInstanceAs (Decidable (m ∈ c.net))
  | .proposeConfChange target => inferInstanceAs (Decidable target.Sized)
  | .createSnapshot _ => inferInstanceAs (Decidable False)
  | .tick | .propose _ | .readIndex _ | .readStates | .messages | .applyTo _ | .snapshotToApply
  | .campaign => inferInstanceAs (Decidable True)

instance (c : Cluster) (n : NodeID) : ∀ k, Decidable (readCalls c n k)
  | .readIndex id => inferInstanceAs (Decidable (id ≠ 0 ∧ id ∉ c.reads n))
  | .step m => inferInstanceAs (Decidable (m ∈ c.net))
  | .proposeConfChange _ => inferInstanceAs (Decidable False)
  | .tick | .propose _ | .readStates | .messages | .applyTo _ | .createSnapshot _
  | .snapshotToApply | .campaign => inferInstanceAs (Decidable True)

theorem exists_node {c : Cluster} {n : NodeID} (test : RawNode → Bool)
    (h : (c.node? n).any test = true) : ∃ r, c.node? n = some r ∧ test r = true :=
  (Option.any_eq_true _ _).mp h

/-- Three voters that poll before they campaign. -/
def trio : Configuration := { voters := [1, 2, 3] }

theorem trio_normalized : trio.Normalized := ⟨by decide, by decide, by decide, fun _ h => nomatch h⟩

theorem trio_sized : trio.Sized := ⟨by decide, by decide, by decide⟩

def trioConfig (id : NodeID) : Config :=
  { id, electionTick := 2, heartbeatTick := 1, preVote := true, bootstrap := trio }

/-- The first of the three is elected with the vote of the second, and commits its first entry. -/
def election : List Event :=
  [.act 1 (.start (trioConfig 1)), .act 2 (.start (trioConfig 2)), .act 3 (.start (trioConfig 3)),
   .act 1 (.call .tick []), .act 1 (.call .tick []), .act 1 (.call .messages []),
   .deliver 2 0, .act 2 (.call .messages []), .deliver 1 2, .act 1 (.call .messages []),
   .deliver 2 3, .act 2 (.call .messages []), .deliver 1 5, .act 1 (.call .messages []),
   .deliver 2 6, .act 2 (.call .messages []), .deliver 1 8]

/-- After the election the leader stays in office for as long as an election would take. -/
def heartbeats : List Event :=
  [.act 1 (.call .tick []), .act 1 (.call .messages []), .deliver 2 9,
   .act 1 (.call .tick []), .act 1 (.call .messages []), .deliver 2 13]

end Cluster

end RaftStore.Raft
