import RaftStore.Lib.EventLoop
import Mathlib.Algebra.GroupWithZero.Nat
import Mathlib.Data.Int.Notation
import Mathlib.Logic.Function.Basic

/-! A clock that only moves when it is told to, with the timers and tickers that wait for it.  Times are
nanoseconds since the zero time, and durations are nanoseconds.  A waiter is known by the number of
waiters made before it. -/

namespace RaftStore.Clock

open Lib

/-- A timer, or a ticker if its period is positive.  The channel holds one time at most. -/
structure Waiter where
  atTime : ℤ
  ch : Option ℤ := none
  period : ℤ
  stopped : Bool := false
  deriving DecidableEq, Repr

/-- The list holds the waiters that are registered, each once; none of them is stopped. -/
@[ext]
structure Fake where
  now : ℤ
  waiters : List ℕ := []
  count : ℕ := 0
  waiter : ℕ → Waiter
  nodup : waiters.Nodup
  known : ∀ w ∈ waiters, w < count
  active : ∀ w ∈ waiters, (waiter w).stopped = false

/-- The first of January 2030. -/
def fixedInstant : ℤ := 64029052800000000000

def newFake (start : ℤ) : Fake where
  now := if start = 0 then fixedInstant else start
  waiter := fun _ => { atTime := 0, period := 0 }
  nodup := List.nodup_nil
  known := List.forall_mem_nil _
  active := List.forall_mem_nil _

namespace Fake

variable (f : Fake)

/-- Writes the fields of a waiter other than `stopped`. -/
def set (w : ℕ) (new : Waiter) (h : new.stopped = (f.waiter w).stopped) : Fake :=
  { f with
    waiter := Function.update f.waiter w new
    active := fun v hv => by
      rcases eq_or_ne v w with rfl | hne
      · rw [Function.update_self, h]
        exact f.active v hv
      · rw [Function.update_of_ne hne]
        exact f.active v hv }

def add (d period : ℤ) : ℕ × Fake :=
  (f.count,
    { f with
      waiters := f.waiters ++ [f.count]
      count := f.count + 1
      waiter := Function.update f.waiter f.count { atTime := f.now + d, period }
      nodup := List.nodup_append.mpr ⟨f.nodup, List.nodup_singleton _, fun v hv w hw heq =>
        (f.known v hv).ne (heq.trans (List.mem_singleton.mp hw))⟩
      known := fun v hv => by
        rcases List.mem_append.mp hv with hv | hv
        · exact (f.known v hv).trans (Nat.lt_succ_self _)
        · rw [List.mem_singleton.mp hv]
          exact Nat.lt_succ_self _
      active := fun v hv => by
        rcases List.mem_append.mp hv with hv | hv
        · rw [Function.update_of_ne (f.known v hv).ne]
          exact f.active v hv
        · rw [List.mem_singleton.mp hv, Function.update_self] })

def newTimer (d : ℤ) : ℕ × Fake := f.add d 0

/-- The error is the text of the panic. -/
def newTicker (d : ℤ) : Except String (ℕ × Fake) :=
  if d ≤ 0 then .error "clock: ticker period must be positive" else .ok (f.add d d)

/-- The waiters that are due, the earliest first. -/
def dueLocked (target : ℤ) : List ℕ :=
  (f.waiters.filter fun w => !(f.waiter w).stopped && (f.waiter w).atTime ≤ target).insertionSort
    fun v w => (f.waiter v).atTime ≤ (f.waiter w).atTime

def removeLocked (w : ℕ) : Fake :=
  { f with
    waiters := f.waiters.erase w
    nodup := f.nodup.erase w
    known := fun v hv => f.known v (List.mem_of_mem_erase hv)
    active := fun v hv => f.active v (List.mem_of_mem_erase hv) }

/-- A ticker is set to its next deadline, and a timer is taken off the list. -/
def rearm (w : ℕ) : Fake :=
  if 0 < (f.waiter w).period then
    f.set w { f.waiter w with atTime := (f.waiter w).atTime + (f.waiter w).period } rfl
  else f.removeLocked w

/-- A send that does not wait: it is dropped if the channel is full. -/
def send (w : ℕ) (t : ℤ) : Fake :=
  f.set w { f.waiter w with ch := (f.waiter w).ch.or (some t) } rfl

/-- One round of the loop in `advance`. -/
def fire (w : ℕ) : Fake :=
  let fireAt := (f.waiter w).atTime
  ({ f with now := fireAt }.rearm w).send w fireAt

def fireNext (target : ℤ) (f : Fake) : Option ((ℕ × ℤ) × Fake) :=
  match f.dueLocked target with
  | [] => none
  | w :: _ => some ((w, (f.waiter w).atTime), f.fire w)

end Fake

/-- How often a waiter fires until `target`. -/
def Waiter.firings (w : Waiter) (target : ℤ) : ℕ :=
  if target < w.atTime then 0
  else if 0 < w.period then ((target - w.atTime) / w.period).toNat + 1
  else 1

namespace Fake

variable (f : Fake)

def firings (target : ℤ) : ℕ := (f.waiters.map fun w => (f.waiter w).firings target).sum

/-- Moves the clock.  It returns which waiters have fired and at what times, in their order; it returns
nothing if the loop needs more rounds than there are firings. -/
def advance (d : ℤ) : Option (List (ℕ × ℤ) × Fake) :=
  let target := f.now + d
  (drain (fireNext target) (f.firings target + 1) f).map fun r => (r.1, { r.2 with now := target })

def stop (w : Fin f.count) : Bool × Fake :=
  if (f.waiter w).stopped then (false, f)
  else
    (true,
      { f with
        waiters := f.waiters.erase w
        waiter := Function.update f.waiter w { f.waiter w with stopped := true }
        nodup := f.nodup.erase _
        known := fun v hv => f.known v (List.mem_of_mem_erase hv)
        active := fun v hv => by
          rw [Function.update_of_ne (f.nodup.mem_erase_iff.mp hv).1]
          exact f.active v (List.mem_of_mem_erase hv) })

def reset (w : Fin f.count) (d : ℤ) : Bool × Fake :=
  let active := !(f.waiter w).stopped
  if h : (f.waiter w).stopped then
    (active,
      { f with
        waiters := f.waiters ++ [w.val]
        waiter := Function.update f.waiter w { f.waiter w with stopped := false, atTime := f.now + d }
        nodup := List.nodup_append.mpr ⟨f.nodup, List.nodup_singleton _, fun v hv u hu heq => by
          rw [heq, List.mem_singleton.mp hu] at hv
          rw [f.active _ hv] at h
          cases h⟩
        known := fun v hv => by
          rcases List.mem_append.mp hv with hv | hv
          · exact f.known v hv
          · rw [List.mem_singleton.mp hv]
            exact w.isLt
        active := fun v hv => by
          rcases eq_or_ne v w.val with rfl | hne
          · rw [Function.update_self]
          · rw [Function.update_of_ne hne]
            rcases List.mem_append.mp hv with hv | hv
            · exact f.active v hv
            · exact absurd (List.mem_singleton.mp hv) hne })
  else (active, f.set w { f.waiter w with atTime := f.now + d } rfl)

end Fake

end RaftStore.Clock
