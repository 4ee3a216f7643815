import RaftStore.Lib.Linearizable
import RaftStore.Node.System

/-! The service that clients see: writes that the processes of a cluster propose, and reads that they
make once the core has confirmed that it leads and the state machine has come far enough.  The history
has the time at which the loop took each request, and the time at which its client was told of success
or saw the state machine.  A client that is told of an error, or nothing at all, does not know what has
become of its request. -/

namespace RaftStore.Loop

open Lib Raft

variable {σ ρ ν : Type}

/-! ### Objects -/

/-- A sequential object: what a command does to a state and is answered with, if the object knows the
command. -/
structure Machine (ν ρ : Type) where
  init : ν
  step : ν → List UInt8 → Option (ρ × ν)

/-- The object after the commands. -/
def Machine.run (M : Machine ν ρ) (cmds : List (List UInt8)) : Option ν :=
  cmds.foldlM (fun v cmd => (M.step v cmd).map Prod.snd) M.init

/-- The state machine does on the commands in `P` what the object does, and comes back from a snapshot
as it was; `view` is the state of the object that a state of the machine stands for. -/
structure Implements (sm : StateMachine σ ρ) (app : σ) (M : Machine ν ρ) (view : σ → ν)
    (P : List UInt8 → Prop) : Prop where
  init : view app = M.init
  apply : ∀ s e response s', P e.command → sm.apply s e = .ok (response, s') →
    M.step (view s) e.command = some (response, view s')
  restore : ∀ sn cmds s data s₀ i s', sm.snapshotter = some sn → (∀ cmd ∈ cmds, P cmd) →
    cmds.length < 2 ^ 64 → M.run cmds = some (view s) → sn.snapshot s = .ok data →
    sn.restore s₀ data i = .ok s' → view s' = view s

/-! ### Histories -/

inductive Request
  | write (cmd : List UInt8)
  | read
  deriving DecidableEq

/-- Who asks: the process, by its place and life, and the ticket that it gives to the request.  Writes
and reads are counted apart. -/
structure Caller where
  node : NodeID
  life : ℕ
  ticket : ℕ
  read : Bool
  deriving DecidableEq

inductive Answer (ρ ν : Type)
  | wrote (response : ρ)
  | saw (state : ν)
  deriving DecidableEq

/-- What a client was told and when, and the index of the last entry that the answer reflects. -/
structure Return (ρ ν : Type) where
  time : ℕ
  index : ℕ
  answer : Answer ρ ν

/-- A request; `returned` when it has succeeded. -/
structure Operation (ρ ν : Type) where
  caller : Caller
  request : Request
  invoked : ℕ
  returned : Option (Return ρ ν) := none

namespace Operation

/-- The first had returned when the second was invoked. -/
def precedes (a b : Operation ρ ν) : Prop := ∃ ret, a.returned = some ret ∧ ret.time < b.invoked

/-- What the object makes of an operation: a write is answered as it was, if it was, and a read saw the
state. -/
def performed [DecidableEq ρ] [DecidableEq ν] (M : Machine ν ρ) (v : ν) (o : Operation ρ ν) : Option ν :=
  match o.request, o.returned with
  | .write cmd, none => (M.step v cmd).map Prod.snd
  | .write cmd, some ret =>
    (M.step v cmd).bind fun x => if ret.answer = .wrote x.1 then some x.2 else none
  | .read, none => none
  | .read, some ret => if ret.answer = .saw v then some v else none

/-- The client of a write of this process hears of its success, if it has not before. -/
def hears (k : NodeID) (life now : ℕ) (replies : List (ℕ × ProposeResult ρ)) (o : Operation ρ ν) :
    Operation ρ ν :=
  if o.returned.isNone ∧ o.caller = ⟨k, life, o.caller.ticket, false⟩ then
    match replies.lookup o.caller.ticket with
    | some (.ok (index, some response)) => { o with returned := some ⟨now, index, .wrote response⟩ }
    | _ => o
  else o

/-- The client of this read has seen the state machine. -/
def sees (c : Caller) (ret : Return ρ ν) (o : Operation ρ ν) : Operation ρ ν :=
  if o.returned.isNone ∧ o.caller = c then { o with returned := some ret } else o

end Operation

/-- What the loop has told the clients of its writes.  When the process dies of a panic in the middle
of a turn, so do its clients. -/
def Outcome.told : Outcome σ ρ → List (ℕ × ProposeResult ρ)
  | .running n | .exited n => n.replies
  | .panicked _ => []

/-! ### The service -/

/-- The processes with the number of their starts, the time, and the history. -/
structure Service (σ ρ ν : Type) extends System σ ρ where
  life : NodeID → ℕ := fun _ => 0
  now : ℕ := 0
  ops : List (Operation ρ ν) := []

namespace Service

/-- The request that comes with an event. -/
def requested (s : Service σ ρ ν) (k : NodeID) (n : Node σ ρ) : Event → List (Operation ρ ν)
  | .propose cmd => [{ caller := ⟨k, s.life k, n.proposed.length, false⟩, request := .write cmd,
                       invoked := s.now }]
  | .read => [{ caller := ⟨k, s.life k, n.asked, true⟩, request := .read, invoked := s.now }]
  | _ => []

def lifeAfter (life : ℕ) : Proc σ ρ → Happening → ℕ
  | .down _, .start _ => life + 1
  | _, _ => life

def opsAfter (sm : StateMachine σ ρ) (s : Service σ ρ ν) (k : NodeID) :
    Proc σ ρ → Happening → List (Operation ρ ν)
  | .up n, .event e faults =>
    (s.ops ++ s.requested k n e).map (.hears k (s.life k) s.now (n.run sm e faults).told)
  | _, _ => s.ops

def act (sm : StateMachine σ ρ) (app : σ) (s : Service σ ρ ν) (k : NodeID) (a : Happening) :
    Service σ ρ ν where
  toSystem := s.toSystem.act sm app k a
  life := Function.update s.life k (lifeAfter (s.life k) (s.proc k) a)
  now := s.now + 1
  ops := s.opsAfter sm k (s.proc k) a

/-- The last step of LinearizableRead: a read looks at the state machine of its process. -/
def look (view : σ → ν) (s : Service σ ρ ν) (k : NodeID) (ticket : ℕ) : Service σ ρ ν :=
  match s.proc k with
  | .down _ => s
  | .up n =>
    { s with
      now := s.now + 1
      ops := s.ops.map
        (.sees ⟨k, s.life k, ticket, true⟩ ⟨s.now, n.rn.log.applied, .saw (view n.app)⟩) }

/-- Clients propose commands in `P`, and there are no more requests than 64 bits can count. -/
def Permits (boot : Configuration) (P : List UInt8 → Prop) (s : Service σ ρ ν) (k : NodeID) :
    Happening → Prop
  | .event (.propose cmd) _ => P cmd ∧ s.now + 1 < 2 ^ 64
  | .event .read _ => s.now + 1 < 2 ^ 64
  | a => s.toSystem.Permits boot k a

/-- What ReadIndex and AwaitApplied have established when the read is made: the core has confirmed it
with an index, and as much is applied. -/
def Confirmed (s : Service σ ρ ν) (k : NodeID) (ticket : ℕ) : Prop :=
  match s.proc k with
  | .down _ => False
  | .up n => ∃ i, (ticket, .ok i) ∈ n.readReplies ∧ i ≤ n.rn.log.applied

inductive Step (sm : StateMachine σ ρ) (app : σ) (view : σ → ν) (boot : Configuration)
    (P : List UInt8 → Prop) (s : Service σ ρ ν) : Service σ ρ ν → Prop
  | act (k : NodeID) (a : Happening) : s.Permits boot P k a → Step sm app view boot P s (s.act sm app k a)
  | look (k : NodeID) (ticket : ℕ) : s.Confirmed k ticket →
      Step sm app view boot P s (s.look view k ticket)

/-- A run of the service. -/
abbrev Run (sm : StateMachine σ ρ) (app : σ) (view : σ → ν) (boot : Configuration)
    (P : List UInt8 → Prop) : Service σ ρ ν → Service σ ρ ν → Prop :=
  Relation.ReflTransGen (Step sm app view boot P)

/-! ### Written-out runs -/

inductive Deed
  | act (k : NodeID) (a : Happening)
  | look (k : NodeID) (ticket : ℕ)

def does (sm : StateMachine σ ρ) (app : σ) (view : σ → ν) (s : Service σ ρ ν) : Deed → Service σ ρ ν
  | .act k a => s.act sm app k a
  | .look k ticket => s.look view k ticket

def Allows (boot : Configuration) (P : List UInt8 → Prop) (s : Service σ ρ ν) : Deed → Prop
  | .act k a => s.Permits boot P k a
  | .look k ticket => s.Confirmed k ticket

def AllAllowed (sm : StateMachine σ ρ) (app : σ) (view : σ → ν) (boot : Configuration)
    (P : List UInt8 → Prop) : Service σ ρ ν → List Deed → Prop
  | _, [] => True
  | s, d :: ds => s.Allows boot P d ∧ AllAllowed sm app view boot P (s.does sm app view d) ds

theorem run_deeds {sm : StateMachine σ ρ} {app : σ} {view : σ → ν} {boot : Configuration}
    {P : List UInt8 → Prop} {ds : List Deed} {s : Service σ ρ ν}
    (h : s.AllAllowed sm app view boot P ds) :
    Run sm app view boot P s (ds.foldl (does sm app view) s) := by
  induction ds generalizing s with
  | nil => exact .refl
  | cons d ds ih =>
    refine .head ?_ (ih h.2)
    have hd := h.1
    cases d with
    | act k a => exact .act k a hd
    | look k ticket => exact .look k ticket hd

section

variable {sm : StateMachine σ ρ} {app : σ} {view : σ → ν} {boot : Configuration}
  {P : List UInt8 → Prop} [DecidablePred P]

instance (s : Service σ ρ ν) (k : NodeID) : ∀ a, Decidable (s.Permits boot P k a)
  | .event (.propose cmd) _ => inferInstanceAs (Decidable (P cmd ∧ s.now + 1 < 2 ^ 64))
  | .event .read _ => inferInstanceAs (Decidable (s.now + 1 < 2 ^ 64))
  | .event (.message m) faults =>
    inferInstanceAs (Decidable (s.toSystem.Permits boot k (.event (.message m) faults)))
  | .event (.confChange _) _ => inferInstanceAs (Decidable False)
  | .event .stop _ | .event .closed _ | .event .tick _ | .event .status _ | .crash =>
    inferInstanceAs (Decidable True)
  | .start cfg => inferInstanceAs (Decidable (s.toSystem.Permits boot k (.start cfg)))

instance (s : Service σ ρ ν) (k : NodeID) (ticket : ℕ) : Decidable (s.Confirmed k ticket) :=
  match h : s.proc k with
  | .down _ => .isFalse (by simp [Confirmed, h])
  | .up n =>
    decidable_of_iff (∃ reply ∈ n.readReplies, reply.1 = ticket ∧
      reply.2.toOption.any (· ≤ n.rn.log.applied) = true) (by
        simp only [Confirmed, h, Option.any_eq_true, decide_eq_true_eq]
        constructor
        · rintro ⟨⟨t, result⟩, hmem, rfl, i, hi, hle⟩
          obtain rfl : result = .ok i := eq_ok_of_toOption hi
          exact ⟨i, hmem, hle⟩
        · rintro ⟨i, hmem, hle⟩
          exact ⟨_, hmem, rfl, i, rfl, hle⟩)

instance (s : Service σ ρ ν) : ∀ d, Decidable (s.Allows boot P d)
  | .act k a => inferInstanceAs (Decidable (s.Permits boot P k a))
  | .look k ticket => inferInstanceAs (Decidable (s.Confirmed k ticket))

instance decidableAllAllowed :
    ∀ (s : Service σ ρ ν) (ds : List Deed), Decidable (s.AllAllowed sm app view boot P ds)
  | _, [] => inferInstanceAs (Decidable True)
  | s, d :: ds =>
    have := decidableAllAllowed (s.does sm app view d) ds
    inferInstanceAs (Decidable (s.Allows boot P d ∧ _))

end

end Service

end RaftStore.Loop
