import RaftStore.Node.Loop

/-! A process over its life: it is started from what its storage holds, with a fresh state machine,
takes events, and goes down by a crash, by an error that ends the loop, or by a panic. -/

namespace RaftStore.Loop

open Raft

variable {σ ρ : Type}

/-- A running process, or the storage that it left behind. -/
inductive Proc (σ ρ : Type)
  | down (storage : MemoryStorage)
  | up (n : Node σ ρ)

/-- What can happen to it.  An event comes with the storage writes that are to fail in its turn. -/
inductive Happening
  | start (cfg : Config)
  | crash
  | event (e : Event) (faults : List Bool)

namespace Proc

/-- The process after a turn. -/
def after : Outcome σ ρ → Proc σ ρ
  | .running n => .up n
  | .exited n | .panicked n => .down n.rn.log.mem

def act (sm : StateMachine σ ρ) (app : σ) : Proc σ ρ → Happening → Proc σ ρ
  | .down st, .start cfg =>
    match Loop.start sm app cfg st with
    | .ok n => .up n
    | .error _ => .down st
  | .up n, .crash => .down n.rn.log.mem
  | .up n, .event e faults => after (n.run sm e faults)
  | p, _ => p

def run (sm : StateMachine σ ρ) (app : σ) (p : Proc σ ρ) (hs : List Happening) : Proc σ ρ :=
  hs.foldl (act sm app) p

theorem run_append (sm : StateMachine σ ρ) (app : σ) (p : Proc σ ρ) (hs hs' : List Happening) :
    p.run sm app (hs ++ hs') = (p.run sm app hs).run sm app hs' :=
  List.foldl_append

theorem running_of_run {sm : StateMachine σ ρ} {app : σ} {n n' : Node σ ρ} {e : Event}
    {faults : List Bool} (h : (up n).run sm app [.event e faults] = .up n') :
    n.run sm e faults = .running n' := by
  change after (n.run sm e faults) = .up n' at h
  cases ho : n.run sm e faults with
  | running m => rw [ho] at h; exact congrArg _ (up.inj h)
  | exited m => exact nomatch (ho ▸ h)
  | panicked m => exact nomatch (ho ▸ h)

def node? : Proc σ ρ → Option (Node σ ρ)
  | .up n => some n
  | .down _ => none

/-- A process that a computation finds to run and to pass a test. -/
theorem exists_up {p : Proc σ ρ} (test : Node σ ρ → Bool) (h : p.node?.any test = true) :
    ∃ n, p = .up n ∧ test n = true := by
  cases p with
  | down st => exact nomatch h
  | up n => exact ⟨n, rfl, h⟩

/-- The process runs in a state with the one property, or has left a storage with the other. -/
def Sat (I : Node σ ρ → Prop) (J : MemoryStorage → Prop) : Proc σ ρ → Prop
  | .up n => I n
  | .down st => J st

/-- Everything that happens in the run meets a condition, which may look at the process just
before. -/
def Allows (sm : StateMachine σ ρ) (app : σ) (P : Proc σ ρ → Happening → Prop) :
    Proc σ ρ → List Happening → Prop
  | _, [] => True
  | p, a :: hs => P p a ∧ Allows sm app P (p.act sm app a) hs

instance decidableAllows (sm : StateMachine σ ρ) (app : σ) (P : Proc σ ρ → Happening → Prop)
    [∀ p a, Decidable (P p a)] : ∀ p hs, Decidable (Allows sm app P p hs)
  | _, [] => .isTrue trivial
  | p, a :: hs =>
    have := decidableAllows sm app P (p.act sm app a) hs
    inferInstanceAs (Decidable (_ ∧ _))

/-- The two properties hold along a run when turns keep the first or end in the second, going down
gives the second, and starting gives the first back. -/
theorem Sat.run {sm : StateMachine σ ρ} {app : σ} {I : Node σ ρ → Prop} {J : MemoryStorage → Prop}
    {P : Proc σ ρ → Happening → Prop} {hs : List Happening} {p : Proc σ ρ} (hp : p.Sat I J)
    (ha : p.Allows sm app P hs)
    (hstart : ∀ cfg st n, P (.down st) (.start cfg) → J st → Loop.start sm app cfg st = .ok n → I n)
    (hevent : ∀ n e faults, P (.up n) (.event e faults) → I n →
      (after (n.run sm e faults)).Sat I J)
    (hcrash : ∀ n, I n → J n.rn.log.mem) : (p.run sm app hs).Sat I J := by
  induction hs generalizing p with
  | nil => exact hp
  | cons a hs ih =>
    refine ih ?_ ha.2
    cases p with
    | down st =>
      cases a with
      | start cfg =>
        simp only [act]
        cases hst : Loop.start sm app cfg st with
        | ok n => exact hstart cfg st n ha.1 hp hst
        | error e => exact hp
      | crash => exact hp
      | event e faults => exact hp
    | up n =>
      cases a with
      | start cfg => exact hp
      | crash => exact hcrash n hp
      | event e faults => exact hevent n e faults ha.1 hp

theorem allows_true (sm : StateMachine σ ρ) (app : σ) (p : Proc σ ρ) (hs : List Happening) :
    p.Allows sm app (fun _ _ => True) hs := by
  induction hs generalizing p with
  | nil => trivial
  | cons a hs ih => exact ⟨trivial, ih _⟩

end Proc

/-! ### A state machine to run -/

/-- Keeps the commands and answers with their number; a snapshot is that number in one byte, and
what is restored from it is that many empty commands. -/
def scribe : StateMachine (List (List UInt8)) ℕ where
  apply s e := .ok (s.length + 1, s ++ [e.command])
  snapshotter := some
    { snapshot := fun s => .ok [UInt8.ofNat s.length]
      restore := fun _ data _ => .ok (List.replicate (data.headD 0).toNat []) }

/-- A node that is its own cluster, and its first election. -/
def soloConfig : Config := { id := 1, bootstrap := [1], electionTick := 2, heartbeatTick := 1 }

def soloElection : List Happening := [.start soloConfig, .event .tick [], .event .tick []]

end RaftStore.Loop
