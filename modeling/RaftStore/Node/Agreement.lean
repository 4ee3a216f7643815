import RaftStore.Node.Applying
import RaftStore.Node.Service
import RaftStore.Raft.Decided
import RaftStore.Raft.Origins

/-! What the requests of a service have to do with what its cores decide.  A state of the object is
shown when it is what the decided entries up to some index make of it; every process shows the state
at its applied index, every snapshot holds one that is shown, and an answered write is the entry that
its process made of it. -/

namespace RaftStore.Loop

open Lib Raft RawNode Consensus

variable {σ ρ ν : Type}

/-! ### Replays -/

/-- What the entries tell the application. -/
def commands (p : List LogEntry) : List (List UInt8) := (p.filter (·.type = .normal)).map (·.command)

/-- The object after the entries. -/
def Machine.replay (M : Machine ν ρ) (p : List LogEntry) : Option ν := M.run (commands p)

section

variable {M : Machine ν ρ} {p q : List LogEntry} {e : LogEntry}

theorem commands_append (p q : List LogEntry) : commands (p ++ q) = commands p ++ commands q := by
  simp [commands]

theorem Machine.replay_append (M : Machine ν ρ) (p q : List LogEntry) :
    M.replay (p ++ q) =
      (M.replay p).bind ((commands q).foldlM fun v cmd => (M.step v cmd).map Prod.snd) := by
  rw [replay, commands_append, run, List.foldlM_append]
  rfl

theorem Machine.replay_normal (h : e.type = .normal) :
    M.replay (p ++ [e]) = (M.replay p).bind fun v => (M.step v e.command).map Prod.snd := by
  rw [replay_append]
  simp [commands, h]

theorem Machine.replay_other (h : e.type ≠ .normal) : M.replay (p ++ [e]) = M.replay p := by
  rw [replay_append]
  simp [commands, h]

theorem Machine.isSome_replay_of_prefix (hq : q <+: p) (h : (M.replay p).isSome) :
    (M.replay q).isSome := by
  obtain ⟨rest, rfl⟩ := hq
  rw [replay_append] at h
  exact Option.isSome_of_isSome_bind h

end

/-! ### What is shown -/

/-- A service: the state machine that its processes run, the object that this stands for, the
commands that clients may propose, and the voters. -/
structure Design (σ ρ ν : Type) where
  sm : StateMachine σ ρ
  app : σ
  M : Machine ν ρ
  view : σ → ν
  P : List UInt8 → Prop
  boot : Configuration
  implements : Implements sm app M view P
  normalized : boot.Normalized
  sized : boot.Sized

/-- What an observer notes of the requests: the entries that they may have led to, the index and the
term of the entry that a write became, and how much was decided when a request came. -/
structure Register where
  entry : LogEntry → Prop
  place : Caller → Option (ℕ × ℕ)
  floor : Caller → ℕ

/-- One register follows from another as requests come in. -/
structure Register.Grows (B B' : Register) : Prop where
  entry : ∀ e, B.entry e → B'.entry e
  place : ∀ c x, B.place c = some x → B'.place c = some x

theorem Register.Grows.refl (B : Register) : B.Grows B := ⟨fun _ h => h, fun _ _ h => h⟩

/-- The normal entries carry commands that clients may propose, and there are not too many. -/
structure Register.Regular (P : List UInt8 → Prop) (B : Register) : Prop where
  cmd : ∀ e, B.entry e → e.type = .normal → P e.command
  few : ∀ p, Contiguous 1 p → (∀ e ∈ p, B.entry e) → (commands p).length < 2 ^ 64
  other : ∀ e : LogEntry, e.type ≠ .normal → B.entry e

/-- The entries are decided, in the order of their indexes, and all of them are in `E`. -/
structure Agreed (E : LogEntry → Prop) (w : World NodeID LogEntry) (p : List LogEntry) : Prop where
  decided : Decided w p
  contiguous : Contiguous 1 p
  all : ∀ e ∈ p, E e

namespace Agreed

variable {E E' : LogEntry → Prop} {w w' : World NodeID LogEntry} {p q : List LogEntry} {e : LogEntry}

theorem nil (E : LogEntry → Prop) (w : World NodeID LogEntry) : Agreed E w [] :=
  ⟨.nil w, .nil 1, fun _ h => by cases h⟩

theorem mono (h : Agreed E w p) (hE : ∀ e, E e → E' e) (hl : Later w w') : Agreed E' w' p :=
  ⟨h.decided.later hl, h.contiguous, fun e he => hE e (h.all e he)⟩

theorem shorter (h : Agreed E w p) (hq : q <+: p) : Agreed E w q where
  decided := h.decided.shorter hq
  contiguous := by
    obtain ⟨rest, rfl⟩ := hq
    simpa using h.contiguous.take q.length
  all e he := h.all e (hq.subset he)

theorem index_eq (h : Agreed E w (p ++ [e])) : e.index = p.length + 1 := by
  have := h.contiguous p.length e (by simp)
  omega

end Agreed

namespace Design

variable (D : Design σ ρ ν) (B : Register) (w : World NodeID LogEntry)

/-- The decided entries up to the index bring the object into the state. -/
def Shows (i : ℕ) (v : ν) : Prop :=
  ∃ p, p.length = i ∧ Agreed B.entry w p ∧ D.M.replay p = some v

/-- The snapshot was taken of a state machine that showed the state at the snapshot's index. -/
def IsImage (snap : Snapshot) : Prop :=
  ∃ sn s, D.sm.snapshotter = some sn ∧ sn.snapshot s = .ok snap.data ∧
    D.Shows B w snap.lastIncludedIndex (D.view s)

/-- The write has become the decided entry at the index, and was answered as the object answers it. -/
def Fulfilled (c : Caller) (i : ℕ) (response : Option ρ) : Prop :=
  ∃ p e v x, p.length + 1 = i ∧ Agreed B.entry w (p ++ [e]) ∧ e.type = .normal ∧
    B.place c = some (i, e.term) ∧ D.M.replay p = some v ∧ D.M.step v e.command = some x ∧
    response = some x.1

variable {D B w} {B' : Register} {w' : World NodeID LogEntry} {i : ℕ} {v : ν}

theorem Shows.mono (h : D.Shows B w i v) (hB : B.Grows B') (hl : Later w w') : D.Shows B' w' i v := by
  obtain ⟨p, hp, hagreed, hv⟩ := h
  exact ⟨p, hp, hagreed.mono hB.entry hl, hv⟩

theorem IsImage.mono {snap : Snapshot} (h : D.IsImage B w snap) (hB : B.Grows B') (hl : Later w w') :
    D.IsImage B' w' snap := by
  obtain ⟨sn, s, hsn, hdata, hshow⟩ := h
  exact ⟨sn, s, hsn, hdata, hshow.mono hB hl⟩

theorem Fulfilled.mono {c : Caller} {response : Option ρ} (h : D.Fulfilled B w c i response)
    (hB : B.Grows B') (hl : Later w w') : D.Fulfilled B' w' c i response := by
  obtain ⟨p, e, v, x, hi, hagreed, hty, hplace, hrest⟩ := h
  exact ⟨p, e, v, x, hi, hagreed.mono hB.entry hl, hty, hB.place _ _ hplace, hrest⟩

/-- What is restored from an image shows what the image was taken of. -/
theorem IsImage.restored {snap : Snapshot} (h : D.IsImage B w snap) (hB : B.Regular D.P)
    {sn : Snapshotter σ} (hsn : D.sm.snapshotter = some sn) {s s' : σ}
    (hs : sn.restore s snap.data snap.lastIncludedIndex = .ok s') :
    D.Shows B w snap.lastIncludedIndex (D.view s') := by
  obtain ⟨sn', s₀, hsn', hdata, p, hp, hagreed, hv⟩ := h
  cases hsn.symm.trans hsn'
  have hcmds : ∀ cmd ∈ commands p, D.P cmd := by
    intro cmd hcmd
    obtain ⟨e, he, rfl⟩ := List.mem_map.mp hcmd
    obtain ⟨he, hty⟩ := List.mem_filter.mp he
    exact hB.cmd e (hagreed.all e he) (of_decide_eq_true hty)
  rw [D.implements.restore sn (commands p) s₀ snap.data s _ s' hsn hcmds
    (hB.few p hagreed.contiguous hagreed.all) hv hdata hs]
  exact ⟨p, hp, hagreed, hv⟩

end Design

end RaftStore.Loop
