import RaftStore.Lib.Linearizable
import Mathlib.Data.List.Dedup
import Mathlib.Data.List.Sort
import Mathlib.Data.String.Basic

/-! The model by which client histories are checked for linearizability: one key at a time, with the
operations whose outcome is unknown returning after everything else.  The search itself is left out;
what it decides is whether an order exists. -/

namespace RaftStore.Chaos

open Lib

inductive OpKind
  | get
  | put
  | delete
  /-- A byte that names no operation. -/
  | unnamed (byte : UInt8)
  deriving DecidableEq, Repr

structure Input where
  op : OpKind
  key : String
  value : String := ""
  deriving DecidableEq, Repr

/-- What a client was told; `unknown` when it never learned the outcome. -/
structure Output where
  value : String := ""
  found : Bool := false
  unknown : Bool := false
  deriving DecidableEq, Repr

/-- One operation of a client.  `returned` is zero for one that never completed. -/
structure Event where
  clientID : ℤ := 0
  id : ℤ := 0
  input : Input
  output : Output := {}
  invoked : ℤ
  returned : ℤ := 0
  deriving DecidableEq, Repr

def Event.completed (e : Event) : Bool := e.returned ≠ 0 && !e.output.unknown

/-- An operation as the search takes it: every one has a return time. -/
structure Operation where
  clientId : ℤ
  input : Input
  output : Output
  call : ℤ
  returned : ℤ
  deriving DecidableEq, Repr

/-! ### The model -/

structure ModelState where
  value : String := ""
  found : Bool := false
  deriving DecidableEq, Repr

def init : ModelState := {}

/-- What an operation does to the state of its key, and whether its answer fits. -/
def step (st : ModelState) (i : Input) (out : Output) : Bool × ModelState :=
  match i.op with
  | .get => (out.found = st.found && (!st.found || out.value = st.value), st)
  | .put => (true, { value := i.value, found := true })
  | .delete => if !out.unknown && out.found ≠ st.found then (false, st) else (true, {})
  | .unnamed _ => (false, st)

/-- The history of each key, in the order of the keys. -/
def partition (history : List Operation) : List (List Operation) :=
  let byKey : String → List Operation := history.foldl (fun byKey op =>
    Function.update byKey op.input.key (byKey op.input.key ++ [op])) fun _ => []
  let keys := ((history.map fun op => op.input.key).dedup).insertionSort (· ≤ ·)
  keys.map byKey

/-- A time past the end of the history. -/
def endOf (events : List Event) : ℤ :=
  events.foldl (fun last e => max (max last e.returned) e.invoked) 0 + 1

/-- The recorded history as the search takes it: an operation that never returned is given a return
time past the end. -/
def toPorcupine (events : List Event) : List Operation :=
  events.map fun e =>
    { clientId := e.clientID, input := e.input, output := e.output, call := e.invoked
      returned := if e.completed then e.returned else endOf events }

/-- The operation returned before the other was invoked. -/
def Operation.precedes (a b : Operation) : Prop := a.returned < b.call

instance : DecidableRel Operation.precedes := fun _ _ => inferInstanceAs (Decidable (_ < _))

/-- The model as an object that accepts operations. -/
def accepts (st : ModelState) (op : Operation) : Option ModelState :=
  if (step st op.input op.output).1 then some (step st op.input op.output).2 else none

/-- Every part of the history has a legal order. -/
def Passes (history : List Operation) : Prop :=
  ∀ part ∈ partition history, Linearizable Operation.precedes accepts init part

instance (history : List Operation) : Decidable (Passes history) :=
  inferInstanceAs (Decidable (∀ part ∈ partition history, _))

/-! ### One map -/

/-- A key/value map. -/
abbrev KV := String → Option String

/-- What an operation does to the map, whatever it answers. -/
def perform (m : KV) (i : Input) : Option KV :=
  match i.op with
  | .get => some m
  | .put => some (Function.update m i.key (some i.value))
  | .delete => some (Function.update m i.key none)
  | .unnamed _ => none

/-- The answer reports the value, or that there is none. -/
def Output.reports (out : Output) : Option String → Bool
  | none => !out.found
  | some v => out.found && out.value = v

/-- The answer that the map gives: a get the current value, a delete whether the key existed. -/
def answers (m : KV) (i : Input) (out : Output) : Bool :=
  match i.op with
  | .get => out.reports (m i.key)
  | .delete => out.found = (m i.key).isSome
  | _ => true

/-- One map that performs one operation at a time. -/
def mapStep (m : KV) (op : Operation) : Option KV :=
  if answers m op.input op.output then perform m op.input else none

/-- The value of a key that a model state stands for. -/
def ModelState.content (st : ModelState) : Option String := if st.found then some st.value else none

/-! ### The parts and the whole -/

theorem byKey_eq_filter (history : List Operation) (byKey : String → List Operation) (k : String) :
    history.foldl (fun byKey op =>
      Function.update byKey op.input.key (byKey op.input.key ++ [op])) byKey k =
      byKey k ++ history.filter fun op => op.input.key = k := by
  induction history generalizing byKey with
  | nil => simp
  | cons op history ih =>
    rw [List.foldl_cons, ih]
    by_cases hk : op.input.key = k
    · subst hk
      simp
    · rw [Function.update_of_ne (Ne.symm hk), List.filter_cons_of_neg (by simpa using hk)]

/-- The parts are the operations on each key that occurs. -/
theorem mem_partition {history part : List Operation} :
    part ∈ partition history ↔ ∃ op ∈ history,
      part = history.filter fun op' => op'.input.key = op.input.key := by
  simp only [partition, List.mem_map, List.mem_insertionSort, List.mem_dedup, byKey_eq_filter,
    List.nil_append]
  constructor
  · rintro ⟨_, ⟨op, hop, rfl⟩, rfl⟩
    exact ⟨op, hop, rfl⟩
  · rintro ⟨op, hop, rfl⟩
    exact ⟨_, ⟨op, hop, rfl⟩, rfl⟩

/-- A key that does not occur has nothing to be ordered. -/
theorem passes_iff (history : List Operation) :
    Passes history ↔ ∀ k, Linearizable Operation.precedes accepts init
      (history.filter fun op => op.input.key = k) := by
  constructor
  · intro h k
    cases hpart : history.filter fun op => op.input.key = k with
    | nil => exact ⟨[], .refl _, .nil, rfl⟩
    | cons op rest =>
      have hop := List.mem_filter.mp (hpart ▸ List.mem_cons_self : op ∈ _)
      have hk : op.input.key = k := by simpa using hop.2
      rw [← hpart]
      exact h _ (mem_partition.mpr ⟨op, hop.1, by rw [hk]⟩)
  · rintro h part hpart
    obtain ⟨op, -, rfl⟩ := mem_partition.mp hpart
    exact h _

theorem passes_iff_stepAt {history : List Operation} (hwf : ∀ op ∈ history, op.call ≤ op.returned) :
    Passes history ↔ Linearizable Operation.precedes (stepAt (fun op => op.input.key) accepts)
      (fun _ => init) history := by
  rw [passes_iff]
  exact (linearizable_stepAt_iff Operation.call Operation.returned hwf fun _ => init).symm

/-- What an operation with a known outcome does to the value of its key. -/
def valueStep (v : Option String) (op : Operation) : Option (Option String) :=
  match op.input.op with
  | .get => if op.output.reports v then some v else none
  | .put => some (some op.input.value)
  | .delete => if op.output.found = v.isSome then some none else none
  | .unnamed _ => none

theorem accepts_content {op : Operation} (h : op.input.op = .delete → op.output.unknown = false)
    (st : ModelState) :
    (accepts st op).map ModelState.content = valueStep st.content op := by
  obtain ⟨value, found⟩ := st
  cases hop : op.input.op with
  | get =>
    cases found <;> cases hf : op.output.found <;>
      simp [accepts, step, valueStep, ModelState.content, Output.reports, hop, hf]
  | put => simp [accepts, step, valueStep, ModelState.content, hop]
  | delete =>
    cases found <;> cases hf : op.output.found <;>
      simp [accepts, step, valueStep, ModelState.content, hop, hf, h hop]
  | unnamed byte => simp [accepts, step, valueStep, hop]

theorem stepAt_valueStep (m : KV) (op : Operation) :
    stepAt (fun op => op.input.key) valueStep m op = mapStep m op := by
  cases hop : op.input.op with
  | get =>
    simp only [stepAt, valueStep, mapStep, answers, perform, hop]
    split <;> simp
  | put => simp [stepAt, valueStep, mapStep, answers, perform, hop]
  | delete =>
    simp only [stepAt, valueStep, mapStep, answers, perform, hop, decide_eq_true_eq]
    split <;> simp
  | unnamed byte => simp [stepAt, valueStep, mapStep, answers, perform, hop]

/-- On operations with a known outcome, the models of all keys together are the map. -/
theorem stepAt_accepts {op : Operation} (h : op.output.unknown = false)
    (objects : String → ModelState) :
    (stepAt (fun op => op.input.key) accepts objects op).map (fun objects k => (objects k).content) =
      mapStep (fun k => (objects k).content) op := by
  rw [stepAt_map ModelState.content (accepts_content (fun _ => h) _), stepAt_valueStep]

/-- Checking per key is checking the whole map. -/
theorem passes_iff_linearizable {events : List Event}
    (hc : ∀ e ∈ events, e.completed = true ∧ e.invoked ≤ e.returned) :
    Linearizable Operation.precedes mapStep (fun _ => none) (toPorcupine events) ↔
      Passes (toPorcupine events) := by
  have hops : ∀ op ∈ toPorcupine events, op.output.unknown = false ∧ op.call ≤ op.returned := by
    intro op hop
    obtain ⟨e, he, rfl⟩ := List.mem_map.mp hop
    obtain ⟨hdone, hle⟩ := hc e he
    have hknown : e.output.unknown = false := by
      simp only [Event.completed, Bool.and_eq_true, Bool.not_eq_true'] at hdone
      exact hdone.2
    exact ⟨hknown, by simpa [hdone] using hle⟩
  rw [passes_iff_stepAt fun op hop => (hops op hop).2]
  exact (linearizable_congr (s := fun _ => init) (fun objects k => (objects k).content)
    (fun objects op hop => stepAt_accepts (hops op hop).1 objects) fun _ _ _ _ => Iff.rfl).symm

/-- Two clients on two keys: a get that overlaps the put it reads, and a delete of a missing key. -/
def overlapping : List Event :=
  [{ clientID := 1, input := { op := .put, key := "a", value := "x" }, invoked := 1, returned := 5 },
   { clientID := 2, input := { op := .get, key := "a" }, output := { value := "x", found := true },
     invoked := 2, returned := 3 },
   { clientID := 2, input := { op := .delete, key := "b" }, invoked := 4, returned := 6 }]

theorem passes_iff_linearizable_overlapping :
    Linearizable Operation.precedes mapStep (fun _ => none) (toPorcupine overlapping) := by
  have hc : ∀ e ∈ overlapping, e.completed = true ∧ e.invoked ≤ e.returned := by decide
  exact (passes_iff_linearizable hc).mpr (by decide)

/-! ### Unknown outcomes -/

/-- An operation that never returned precedes nothing. -/
def Event.precedes (a b : Event) : Prop := a.completed = true ∧ a.returned < b.invoked

instance : DecidableRel Event.precedes := fun _ _ => inferInstanceAs (Decidable (_ ∧ _))

/-- The answer as it was recorded is compared with the state: that of a read, and that of a delete
which is not marked as unknown.  A byte that names no operation fits nowhere. -/
def Event.held (e : Event) : Bool :=
  match e.input.op with
  | .put => false
  | .delete => !e.output.unknown
  | _ => true

/-- Every operation that is held to its recorded answer gives it. -/
def recordedStep (m : KV) (e : Event) : Option KV :=
  if !e.held || answers m e.input e.output then perform m e.input else none

/-- The history is explained with all operations kept that are held to what was recorded of them, and
with those answers. -/
def Truthful (events : List Event) : Prop :=
  ∃ kept, kept.Sublist (events.filter fun e => !(e.completed || e.held)) ∧
    Linearizable Event.precedes recordedStep (fun _ => none)
      (events.filter (fun e => e.completed || e.held) ++ kept)

end RaftStore.Chaos
