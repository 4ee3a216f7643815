import Mathlib.Data.Prod.Lex
import RaftStore.Lib.Heap
import RaftStore.Raft.Types

/-! The simulator's queue of events: a heap ordered by time and then by the order of scheduling.  It is
compared with the list of what is to come, in which an event stands behind those of its time. -/

namespace RaftStore.Sim

open Lib Raft

/-- What an event does when it fires.  A restart may find the disk gone. -/
inductive EventKind
  | tick (node : NodeID)
  | deliver (msg : Message)
  | crash (node : NodeID)
  | restart (node : NodeID) (loseDisk : Bool)
  | partition
  | heal
  | clientWrite
  deriving DecidableEq, Repr

/-- `time` is in virtual milliseconds since the run began. -/
structure Event where
  time : ℤ
  seq : ℕ
  kind : EventKind
  deriving DecidableEq, Repr

/-- Events are ordered by time, then by sequence number. -/
def Event.key (e : Event) : ℤ ×ₗ ℕ := toLex (e.time, e.seq)

theorem Event.key_lt {a b : Event} :
    a.key < b.key ↔ a.time < b.time ∨ a.time = b.time ∧ a.seq < b.seq := Prod.Lex.toLex_lt_toLex

structure EventQueue where
  items : Array Event := #[]
  next : ℕ := 0

namespace EventQueue

/-- Adds an event, with the next sequence number. -/
def schedule (q : EventQueue) (time : ℤ) (kind : EventKind) : EventQueue where
  items := Heap.push Event.key q.items { time, seq := q.next, kind }
  next := q.next + 1

/-- The earliest event. -/
def pop (q : EventQueue) : Option (Event × EventQueue) :=
  (Heap.pop Event.key q.items).map fun p => (p.1, { q with items := p.2 })

/-- Every event has a sequence number of its own, which was given out. -/
structure OK (q : EventQueue) : Prop where
  heap : Heap.WF Event.key q.items
  given : ∀ e ∈ q.items.toList, e.seq < q.next
  distinct : q.items.toList.Pairwise fun a b => a.seq ≠ b.seq

theorem ok_empty : OK {} := ⟨Heap.wf_empty, nofun, .nil⟩

variable {q q' : EventQueue} {e : Event}

theorem items_schedule (q : EventQueue) (time : ℤ) (kind : EventKind) :
    (q.schedule time kind).items.toList.Perm ({ time, seq := q.next, kind } :: q.items.toList) :=
  Heap.push_perm _

theorem mem_schedule {time : ℤ} {kind : EventKind} :
    e ∈ (q.schedule time kind).items.toList ↔
      e = { time, seq := q.next, kind } ∨ e ∈ q.items.toList := by
  rw [(items_schedule q time kind).mem_iff, List.mem_cons]

theorem OK.schedule (h : q.OK) (time : ℤ) (kind : EventKind) : (q.schedule time kind).OK where
  heap := h.heap.push _
  given e he := by
    change e.seq < q.next + 1
    rcases mem_schedule.mp he with rfl | he
    · exact Nat.lt_succ_self _
    · exact (h.given e he).trans (Nat.lt_succ_self _)
  distinct := by
    refine ((items_schedule q time kind).pairwise_iff fun hab => Ne.symm hab).mpr ?_
    exact List.pairwise_cons.mpr ⟨fun e he => (h.given e he).ne', h.distinct⟩

theorem pop_eq_none : q.pop = none ↔ q.items.toList = [] := by
  rw [pop, Option.map_eq_none_iff, Heap.pop_eq_none, Array.toList_eq_nil_iff]

/-- The event that is taken is before every other. -/
theorem OK.of_pop (h : q.OK) (hp : q.pop = some (e, q')) :
    q'.OK ∧ q'.next = q.next ∧ q.items.toList.Perm (e :: q'.items.toList) ∧
      ∀ x ∈ q'.items.toList, e.key < x.key := by
  obtain ⟨⟨e', items⟩, hpop, heq⟩ := Option.map_eq_some_iff.mp hp
  cases heq
  obtain ⟨hwf, hperm, hmin⟩ := h.heap.of_pop hpop
  have hdistinct := (hperm.pairwise_iff fun hab => Ne.symm hab).mp h.distinct
  obtain ⟨hne, hdistinct⟩ := List.pairwise_cons.mp hdistinct
  have hmem : ∀ x ∈ items.toList, x ∈ q.items.toList := fun x hx =>
    hperm.mem_iff.mpr (List.mem_cons_of_mem _ hx)
  refine ⟨⟨hwf, fun x hx => h.given x (hmem x hx), hdistinct⟩, rfl, hperm, fun x hx => ?_⟩
  refine lt_of_le_of_ne (hmin x (hmem x hx)) fun heq => hne x hx ?_
  exact congrArg (fun k => (ofLex k).2) heq

end EventQueue

/-! ### The list of what is to come -/

/-- What is to come, in its order. -/
abbrev Timeline := List (ℤ × EventKind)

/-- An event stands behind those of its time. -/
def Timeline.schedule (l : Timeline) (time : ℤ) (kind : EventKind) : Timeline :=
  l.orderedInsert (fun a b => a.1 < b.1) (time, kind)

def Timeline.pop : Timeline → Option ((ℤ × EventKind) × Timeline)
  | [] => none
  | e :: l => some (e, l)

/-- A use of the queue. -/
inductive QueueOp
  | schedule (time : ℤ) (kind : EventKind)
  | pop

/-- What the queue returns, operation by operation. -/
def EventQueue.outputs : EventQueue → List QueueOp → List (Option (ℤ × EventKind))
  | _, [] => []
  | q, .schedule time kind :: ops => (q.schedule time kind).outputs ops
  | q, .pop :: ops =>
    match q.pop with
    | some (e, q') => some (e.time, e.kind) :: q'.outputs ops
    | none => none :: q.outputs ops

def Timeline.outputs : Timeline → List QueueOp → List (Option (ℤ × EventKind))
  | _, [] => []
  | l, .schedule time kind :: ops => Timeline.outputs (l.schedule time kind) ops
  | l, .pop :: ops =>
    match l.pop with
    | some (e, l') => some e :: Timeline.outputs l' ops
    | none => none :: Timeline.outputs l ops

/-- The queue holds what is to come: its events, put in order, are the list. -/
structure EventQueue.Shows (q : EventQueue) (l : Timeline) : Prop where
  ok : q.OK
  sorted : ∃ es : List Event, q.items.toList.Perm es ∧ es.Pairwise (fun a b => a.key < b.key) ∧
    l = es.map fun e => (e.time, e.kind)

/-- Behind the events of its time is where an event goes by its sequence number, which is the greatest. -/
theorem sorted_insert {es : List Event} {x : Event} (hes : es.Pairwise fun a b => a.key < b.key)
    (hx : ∀ e ∈ es, e.seq < x.seq) :
    (es.orderedInsert (fun a b => a.time < b.time) x).Pairwise fun a b => a.key < b.key := by
  induction es with
  | nil => exact List.pairwise_singleton _ _
  | cons e es ih =>
    obtain ⟨he, hes⟩ := List.pairwise_cons.mp hes
    rw [List.orderedInsert_cons]
    split
    · rename_i hlt
      have hxe : x.key < e.key := Event.key_lt.mpr (Or.inl hlt)
      exact List.pairwise_cons.mpr ⟨List.forall_mem_cons.mpr ⟨hxe, fun b hb => hxe.trans (he b hb)⟩,
        List.pairwise_cons.mpr ⟨he, hes⟩⟩
    · rename_i hge
      refine List.pairwise_cons.mpr ⟨fun b hb => ?_,
        ih hes fun b hb => hx b (List.mem_cons_of_mem e hb)⟩
      rcases (List.mem_orderedInsert _).mp hb with rfl | hb
      · have hseq := hx e List.mem_cons_self
        rw [Event.key_lt]
        omega
      · exact he b hb

namespace EventQueue.Shows

variable {q : EventQueue} {l : Timeline}

theorem empty : EventQueue.Shows {} [] := ⟨ok_empty, [], .refl _, .nil, rfl⟩

theorem schedule (h : q.Shows l) (time : ℤ) (kind : EventKind) :
    (q.schedule time kind).Shows (l.schedule time kind) := by
  obtain ⟨es, hperm, hes, rfl⟩ := h.sorted
  refine ⟨h.ok.schedule time kind, es.orderedInsert (fun a b => a.time < b.time)
    { time, seq := q.next, kind }, ?_, sorted_insert hes fun e he => ?_, ?_⟩
  · exact (items_schedule q time kind).trans ((hperm.cons _).trans (List.perm_orderedInsert ..).symm)
  · exact h.ok.given e (hperm.mem_iff.mpr he)
  · rw [Timeline.schedule, List.map_orderedInsert _ (fun a b => a.1 < b.1)]
    · exact fun _ _ => Iff.rfl
    · exact fun _ _ => Iff.rfl

theorem pop (h : q.Shows l) :
    q.pop = none ∧ l.pop = none ∨
      ∃ e q' l', q.pop = some (e, q') ∧ l.pop = some ((e.time, e.kind), l') ∧ q'.Shows l' := by
  obtain ⟨es, hperm, hes, rfl⟩ := h.sorted
  cases hq : q.pop with
  | none =>
    rw [EventQueue.pop_eq_none] at hq
    rw [hq] at hperm
    rw [hperm.nil_eq.symm]
    exact Or.inl ⟨rfl, rfl⟩
  | some p =>
    obtain ⟨e, q'⟩ := p
    obtain ⟨hok, -, hperm', hfirst⟩ := h.ok.of_pop hq
    -- The least event stands first in the list.
    cases es with
    | nil => exact absurd (hperm'.symm.trans hperm) (by simp)
    | cons x es =>
      obtain ⟨hx, hrest⟩ := List.pairwise_cons.mp hes
      have hcons := hperm'.symm.trans hperm
      obtain rfl : e = x := by
        by_contra hne
        have he := (List.mem_cons.mp (hcons.mem_iff.mp List.mem_cons_self)).resolve_left hne
        have hx' := (List.mem_cons.mp (hcons.mem_iff.mpr List.mem_cons_self)).resolve_left (Ne.symm hne)
        exact lt_asymm (hx e he) (hfirst x hx')
      exact Or.inr ⟨e, q', _, rfl, rfl, hok, es, (List.perm_cons e).mp hcons, hrest, rfl⟩

end EventQueue.Shows

/-- However events are scheduled and taken, the queue hands them out in the order of their times, and
those of one time in the order in which they were scheduled. -/
theorem queue_outputs_eq (ops : List QueueOp) :
    EventQueue.outputs {} ops = Timeline.outputs [] ops := by
  suffices h : ∀ (q : EventQueue) (l : Timeline), q.Shows l → q.outputs ops = l.outputs ops from
    h {} [] .empty
  induction ops with
  | nil => exact fun _ _ _ => rfl
  | cons op ops ih =>
    intro q l h
    cases op with
    | schedule time kind => exact ih _ _ (h.schedule time kind)
    | pop =>
      rw [EventQueue.outputs, Timeline.outputs]
      rcases h.pop with ⟨hq, hl⟩ | ⟨e, q', l', hq, hl, h'⟩
      · rw [hq, hl]
        exact congrArg _ (ih q l h)
      · rw [hq, hl]
        exact congrArg _ (ih q' l' h')

end RaftStore.Sim
