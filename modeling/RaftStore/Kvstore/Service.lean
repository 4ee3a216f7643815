import RaftStore.Kvstore.Restore
import RaftStore.Node.Linearizable

/-! The store behind the nodes of a cluster, seen by clients that set, delete and read keys.  Clients with
sessions are left out: a snapshot does not hold the sessions, so that a store which came back from one
may apply a retry that the others recognise. -/

namespace RaftStore.Kvstore

open Lib Raft Loop Store

/-- The store as the state machine of a node. -/
def stateMachine : StateMachine Store Result where
  apply := Store.apply
  snapshotter := some { snapshot := fun s => .ok s.snapshot, restore := Store.restore }

/-- One map that takes the commands itself. -/
def mapObject : Loop.Machine Map Result where
  init := ∅
  step m b :=
    match decodeCommand b with
    | .error _ => none
    | .ok cmd => execute m cmd

/-- Bytes that are no command of a client with a session. -/
def Sessionless (b : List UInt8) : Prop :=
  match decodeCommand b with
  | .error _ => True
  | .ok cmd => cmd.clientID = 0

instance : DecidablePred Sessionless := fun b => by
  unfold Sessionless
  split <;> infer_instance

/-- Without a session a command is always executed, and nothing else changes. -/
theorem apply_sessionless {s s' : Store} {e : LogEntry} {result : Result} (he : Sessionless e.command)
    (h : s.apply e = .ok (result, s')) : mapObject.step s.data e.command = some (result, s'.data) := by
  rw [Sessionless] at he
  rw [Store.apply] at h
  simp only [mapObject]
  cases hd : decodeCommand e.command with
  | error err =>
    rw [hd] at h
    cases h
  | ok cmd =>
    simp only [hd] at he h ⊢
    rw [checkSession, if_pos he] at h
    cases hx : execute s.data cmd with
    | none =>
      rw [hx] at h
      cases h
    | some x =>
      simp only [hx, recordSession, dif_pos he] at h
      cases h
      rfl

/-- A command adds at most one key, and what was decoded can be written again. -/
theorem Store.Fits.step {m m' : Map} {n : ℕ} {b : List UInt8} {result : Result} (h : Fits m n)
    (hstep : mapObject.step m b = some (result, m')) : Fits m' (n + 1) := by
  simp only [mapObject] at hstep
  cases hd : decodeCommand b with
  | error err =>
    rw [hd] at hstep
    cases hstep
  | ok cmd =>
    rw [hd] at hstep
    obtain ⟨hkey, hvalue⟩ := decodeCommand_length hd
    exact h.execute hkey hvalue hstep

theorem Store.Fits.run {m m' : Map} {n : ℕ} {cmds : List (List UInt8)} (h : Fits m n)
    (hrun : cmds.foldlM (fun v cmd => (mapObject.step v cmd).map Prod.snd) m = some m') :
    Fits m' (n + cmds.length) := by
  induction cmds generalizing m n with
  | nil =>
    cases hrun
    exact h
  | cons cmd cmds ih =>
    rw [List.foldlM_cons] at hrun
    obtain ⟨m₁, hm₁, hrun⟩ := Option.bind_eq_some_iff.mp hrun
    obtain ⟨x, hx, rfl⟩ := Option.map_eq_some_iff.mp hm₁
    have := ih (h.step hx) hrun
    rwa [Nat.add_right_comm, Nat.add_assoc] at this

theorem store_implements (n : Int64) :
    Implements stateMachine (newWithSessionLimit n) mapObject Store.data Sessionless where
  init := rfl
  apply := by
    intro s e result s' he h
    exact apply_sessionless he h
  restore := by
    rintro _ cmds s data s₀ i s' ⟨⟩ - hlen hrun ⟨⟩ hrestore
    have hfits : Fits s.data (0 + cmds.length) := fits_empty.run hrun
    have hsized : Sized s.data := ⟨(hfits.1.trans (Nat.zero_add _).le).trans_lt hlen, hfits.2⟩
    simp only [Store.restore, snapshot, decodeMap_encodeMap hsized] at hrestore
    cases hrestore
    rfl

/-- The store of a cluster is one linearizable map to clients without sessions: in every run, with
whatever failures, crashes, restarts and snapshots, the sets, deletes and reads have an order in which one
map performs them with the answers that the clients got, and none comes before one that was answered
before it was asked for. -/
theorem store_linearizable (n : Int64) (voters : List NodeID) (hs : (Configuration.new voters).Sized)
    {s : Service Store Result Map}
    (hrun : Service.Run stateMachine (newWithSessionLimit n) Store.data (.new voters) Sessionless {} s) :
    ∃ history, history.Sublist s.ops ∧ (∀ o ∈ s.ops, o.returned.isSome → o ∈ history) ∧
      Linearizable Operation.precedes (Operation.performed mapObject) ∅ history :=
  Design.linearizable_run (D := ⟨stateMachine, newWithSessionLimit n, mapObject, Store.data, Sessionless,
    .new voters, store_implements n, Configuration.normalize_normalized _, hs⟩) hrun

/-- A node that is its own cluster is elected, and is asked to set a key and then for a read. -/
def soloStore : List Service.Deed :=
  [.act 1 (.start soloConfig), .act 1 (.event .tick []), .act 1 (.event .tick []),
    .act 1 (.event (.propose [0, 0, 0, 1, 1, 1, 20]) []), .act 1 (.event .read []), .look 1 0]

theorem store_linearizable_solo :
    ∃ s : Service Store Result Map, s.ops.map (·.returned.map (·.answer)) =
        [some (.wrote {}), some (.saw ((∅ : Map).insert [1] [20]))] ∧
      ∃ history, history.Sublist s.ops ∧ (∀ o ∈ s.ops, o.returned.isSome → o ∈ history) ∧
        Linearizable Operation.precedes (Operation.performed mapObject) ∅ history :=
  ⟨soloStore.foldl (Service.does stateMachine (newWithSessionLimit 4096) Store.data) {},
    by decide +kernel,
    store_linearizable 4096 [1] ⟨by decide, by decide, by decide⟩
      (Service.run_deeds (by decide +kernel))⟩

end RaftStore.Kvstore
