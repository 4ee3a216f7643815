import RaftStore.Clock.Advance

/-! The timers of the clock, as a program uses them that receives from every channel after each
advance. They are compared with timers as they should be, each of which is pending, fired or
stopped. -/

namespace RaftStore.Clock

open Lib

inductive Op where
  | newTimer (d : ℤ)
  | stop (w : ℕ)
  | reset (w : ℕ) (d : ℤ)
  | advance (d : ℤ)
  deriving DecidableEq, Repr

/-- What a program sees of an operation: the timer it gets, whether the timer was active, or the
times that it receives with the timers they come from. -/
inductive Outcome where
  | created (w : ℕ)
  | active (b : Bool)
  | received (times : List (ℕ × ℤ))
  deriving DecidableEq, Repr

/-! ### Timers as they should be -/

inductive Status where
  | pending (deadline : ℤ)
  | fired
  | stopped
  deriving DecidableEq, Repr

def Status.isPending : Status → Bool
  | .pending _ => true
  | _ => false

/-- The deadline of a pending timer, if `target` reaches it. -/
def Status.due (target : ℤ) : Status → Option ℤ
  | .pending t => if t ≤ target then some t else none
  | _ => none

def Status.after (target : ℤ) : Status → Status
  | .pending t => if t ≤ target then .fired else .pending t
  | st => st

structure Timers where
  now : ℤ
  count : ℕ
  status : ℕ → Status

namespace Timers

/-- No timer has been made. -/
def new (now : ℤ) : Timers := ⟨now, 0, fun _ => .stopped⟩

def step (s : Timers) : Op → Outcome × Timers
  | .newTimer d =>
    (.created s.count,
      { s with
        count := s.count + 1
        status := Function.update s.status s.count (.pending (s.now + d)) })
  | .stop w =>
    (.active (s.status w).isPending, { s with status := Function.update s.status w .stopped })
  | .reset w d =>
    (.active (s.status w).isPending,
      { s with status := Function.update s.status w (.pending (s.now + d)) })
  | .advance d =>
    let target := s.now + d
    let times := (List.range s.count).filterMap fun w =>
      ((s.status w).due target).map fun t => (w, t)
    (.received times, { s with now := target, status := fun w => (s.status w).after target })

def run (s : Timers) : List Op → List Outcome
  | [] => []
  | op :: ops => (s.step op).1 :: run (s.step op).2 ops

/-- The operation is on a timer that there is. -/
def Names (s : Timers) : Op → Prop
  | .stop w => w < s.count
  | .reset w _ => w < s.count
  | _ => True

/-- The operation is not on a timer that has fired. -/
def Spares (s : Timers) : Op → Prop
  | .stop w => s.status w ≠ .fired
  | .reset w _ => s.status w ≠ .fired
  | _ => True

/-- A condition on each operation holds along a run. -/
def Along (p : Timers → Op → Prop) (s : Timers) : List Op → Prop
  | [] => True
  | op :: ops => p s op ∧ Along p (s.step op).2 ops

instance (s : Timers) (op : Op) : Decidable (s.Names op) := by
  cases op <;> unfold Names <;> infer_instance

instance (s : Timers) (op : Op) : Decidable (s.Spares op) := by
  cases op <;> unfold Spares <;> infer_instance

instance decidableAlong (p : Timers → Op → Prop) [∀ s op, Decidable (p s op)] :
    ∀ (s : Timers) (ops : List Op), Decidable (Along p s ops)
  | _, [] => .isTrue trivial
  | s, op :: ops =>
    have := decidableAlong p (s.step op).2 ops
    inferInstanceAs (Decidable (p s op ∧ Along p (s.step op).2 ops))

end Timers

/-! ### The timers of the clock -/

namespace Fake

/-- What there is to receive, and from which timers. -/
def received (f : Fake) : List (ℕ × ℤ) :=
  (List.range f.count).filterMap fun w => (f.waiter w).ch.map fun t => (w, t)

/-- The clock after everything is received. -/
def emptied (f : Fake) : Fake :=
  { f with
    waiter := fun w => { f.waiter w with ch := none }
    active := f.active }

def step (f : Fake) : Op → Option (Outcome × Fake)
  | .newTimer d => some (.created (f.newTimer d).1, (f.newTimer d).2)
  | .stop w =>
    if h : w < f.count then some (.active (f.stop ⟨w, h⟩).1, (f.stop ⟨w, h⟩).2) else none
  | .reset w d =>
    if h : w < f.count then some (.active (f.reset ⟨w, h⟩ d).1, (f.reset ⟨w, h⟩ d).2) else none
  | .advance d => (f.advance d).map fun r => (.received r.2.received, r.2.emptied)

def run (f : Fake) : List Op → Option (List Outcome)
  | [] => some []
  | op :: ops =>
    match f.step op with
    | none => none
    | some (outcome, f) => (run f ops).map fun outcomes => outcome :: outcomes

/-- A timer when the clock has come to `target`. -/
def reached (f : Fake) (target : ℤ) (w : ℕ) : Waiter :=
  if w ∈ f.waiters ∧ (f.waiter w).atTime ≤ target then
    { f.waiter w with ch := (f.waiter w).ch.or (some (f.waiter w).atTime) }
  else f.waiter w

theorem count_fire (f : Fake) (w : ℕ) : (f.fire w).count = f.count := by
  simp only [fire, send, set, rearm]
  split <;> rfl

/-- Advancing a clock that has only timers: those that are due leave the list, and their deadlines
are sent. -/
theorem drain_timers {f : Fake} {target : ℤ} {fuel : ℕ} {r : List (ℕ × ℤ) × Fake}
    (h : drain (fireNext target) fuel f = some r) (htimers : ∀ w, ¬0 < (f.waiter w).period) :
    r.2.count = f.count ∧ (∀ w, w ∈ r.2.waiters ↔ w ∈ f.waiters ∧ target < (f.waiter w).atTime) ∧
      ∀ w, r.2.waiter w = f.reached target w := by
  revert htimers
  refine drain_induction (motive := fun f _ f' => (∀ w, ¬0 < (f.waiter w).period) →
    f'.count = f.count ∧ (∀ w, w ∈ f'.waiters ↔ w ∈ f.waiters ∧ target < (f.waiter w).atTime) ∧
      ∀ w, f'.waiter w = f.reached target w) ?_ ?_ h
  · intro f hnone _
    have hlate := fireNext_eq_none.mp hnone
    refine ⟨rfl, fun w => ⟨fun hw => ⟨hw, hlate w hw⟩, And.left⟩, fun w => ?_⟩
    rw [reached, if_neg]
    rintro ⟨hw, hdue⟩
    exact (hlate w hw).not_ge hdue
  · intro f e f₁ fired f₂ hstep ih htimers
    obtain ⟨w, hw, heq, hdue, -⟩ := fireNext_eq_some hstep
    cases heq
    obtain ⟨hwaiters, hself⟩ := fire_timer (htimers w)
    have hgone : w ∉ (f.fire w).waiters := by
      rw [hwaiters]
      exact f.nodup.not_mem_erase
    have hperiod : ∀ v, ¬0 < ((f.fire w).waiter v).period := by
      intro v
      rcases eq_or_ne v w with rfl | hne
      · rw [hself]
        exact htimers v
      · rw [waiter_fire_of_ne hne]
        exact htimers v
    obtain ⟨hcount, hlist, hcells⟩ := ih hperiod
    refine ⟨hcount.trans (f.count_fire w), fun v => ?_, fun v => ?_⟩
    · rw [hlist]
      rcases eq_or_ne v w with rfl | hne
      · exact ⟨fun h => absurd h.1 hgone, fun h => absurd hdue h.2.not_ge⟩
      · rw [mem_waiters_fire hne, waiter_fire_of_ne hne]
    · rw [hcells]
      rcases eq_or_ne v w with rfl | hne
      · rw [reached, reached, if_neg fun h => hgone h.1, if_pos ⟨hw, hdue⟩, hself]
      · simp only [reached, mem_waiters_fire hne, waiter_fire_of_ne hne]

theorem stop_fst (f : Fake) (w : Fin f.count) : (f.stop w).1 = !(f.waiter w).stopped := by
  rw [stop]
  split
  · simp [*]
  · simp [*]

theorem reset_fst (f : Fake) (w : Fin f.count) (d : ℤ) :
    (f.reset w d).1 = !(f.waiter w).stopped := by
  rw [reset]
  split <;> rfl

end Fake

/-! ### Simulation -/

/-- How the clock keeps the status of a timer: in the list, in its flag, or in neither. -/
def Status.KeptBy (f : Fake) (w : ℕ) : Status → Prop
  | .pending t => w ∈ f.waiters ∧ (f.waiter w).atTime = t
  | .fired => w ∉ f.waiters ∧ (f.waiter w).stopped = false
  | .stopped => (f.waiter w).stopped = true

/-- What an advance to `target` does to one timer. -/
theorem Status.KeptBy.advance {f f' : Fake} {w : ℕ} {st : Status} {target : ℤ} (h : st.KeptBy f w)
    (hempty : (f.waiter w).ch = none)
    (hlist : w ∈ f'.waiters ↔ w ∈ f.waiters ∧ target < (f.waiter w).atTime)
    (hcell : f'.waiter w = f.reached target w) :
    (f'.waiter w).ch = st.due target ∧ (st.after target).KeptBy f' w := by
  cases st with
  | pending t =>
    obtain ⟨hw, rfl⟩ := h
    by_cases hdue : (f.waiter w).atTime ≤ target
    · have hgone : w ∉ f'.waiters := fun hw' => (hlist.mp hw').2.not_ge hdue
      simp [hcell, Fake.reached, hw, hdue, hempty, due, after, KeptBy, hgone, f.active w hw]
    · have hstays : w ∈ f'.waiters := hlist.mpr ⟨hw, not_le.mp hdue⟩
      simp [hcell, Fake.reached, hdue, hempty, due, after, KeptBy, hstays]
  | fired =>
    have hgone : w ∉ f'.waiters := fun hw' => h.1 (hlist.mp hw').1
    simp [hcell, Fake.reached, h.1, hempty, due, after, KeptBy, hgone, h.2]
  | stopped =>
    have hstopped : (f.waiter w).stopped = true := h
    have hnot : w ∉ f.waiters := fun hw => by
      cases hstopped.symm.trans (f.active w hw)
    simp [hcell, Fake.reached, hnot, hempty, due, after, KeptBy, hstopped]

structure Keeps (f : Fake) (s : Timers) : Prop where
  now : f.now = s.now
  count : f.count = s.count
  timer : ∀ w, (f.waiter w).period = 0
  empty : ∀ w, (f.waiter w).ch = none
  status : ∀ w < s.count, (s.status w).KeptBy f w

namespace Keeps

variable {f : Fake} {s : Timers}

theorem new (start : ℤ) : Keeps (newFake start) (Timers.new (newFake start).now) where
  now := rfl
  count := rfl
  timer _ := rfl
  empty _ := rfl
  status _ hw := absurd hw (Nat.not_lt_zero _)

/-- What the two operations on a timer return is right exactly when the timer has not fired: the
flag does not tell a fired timer from a pending one. -/
theorem flag_iff (h : Keeps f s) {w : ℕ} (hw : w < s.count) :
    (!(f.waiter w).stopped) = (s.status w).isPending ↔ s.status w ≠ .fired := by
  have hkept := h.status w hw
  cases hst : s.status w with
  | pending t =>
    rw [hst] at hkept
    simp [f.active w hkept.1, Status.isPending]
  | fired =>
    rw [hst] at hkept
    simp [hkept.2, Status.isPending]
  | stopped =>
    rw [hst] at hkept
    simp only [Status.KeptBy] at hkept
    simp [hkept, Status.isPending]

/-- An operation on one timer. -/
theorem update (h : Keeps f s) {f' : Fake} {w c : ℕ} {st : Status} (hnow : f'.now = f.now)
    (hcount : f'.count = c) (hc : ∀ v < c, v ≠ w → v < s.count)
    (hother : ∀ v, v ≠ w → (v ∈ f'.waiters ↔ v ∈ f.waiters) ∧ f'.waiter v = f.waiter v)
    (hperiod : (f'.waiter w).period = 0) (hch : (f'.waiter w).ch = none) (hst : st.KeptBy f' w) :
    Keeps f' ⟨s.now, c, Function.update s.status w st⟩ where
  now := hnow.trans h.now
  count := hcount
  timer v := by
    rcases eq_or_ne v w with rfl | hne
    · exact hperiod
    · rw [(hother v hne).2]
      exact h.timer v
  empty v := by
    rcases eq_or_ne v w with rfl | hne
    · exact hch
    · rw [(hother v hne).2]
      exact h.empty v
  status v hv := by
    dsimp only
    rcases eq_or_ne v w with rfl | hne
    · rw [Function.update_self]
      exact hst
    · rw [Function.update_of_ne hne]
      have hkept := h.status v (hc v hv hne)
      cases hstv : s.status v <;> rw [hstv] at hkept <;>
        simpa only [Status.KeptBy, (hother v hne).1, (hother v hne).2] using hkept

theorem newTimer (h : Keeps f s) (d : ℤ) :
    Keeps (f.newTimer d).2 (s.step (.newTimer d)).2 := by
  rw [Timers.step, ← h.count]
  refine h.update rfl rfl (fun v hv hne => ?_) (fun v hne => ⟨?_, ?_⟩) ?_ ?_ ⟨?_, ?_⟩
  · rw [← h.count]
    omega
  · simp [Fake.newTimer, Fake.add, hne]
  · exact Function.update_of_ne hne _ _
  · simp [Fake.newTimer, Fake.add]
  · simp [Fake.newTimer, Fake.add]
  · exact List.mem_append_right _ List.mem_cons_self
  · simp [Fake.newTimer, Fake.add, h.now]

theorem stop (h : Keeps f s) (w : Fin f.count) :
    Keeps (f.stop w).2 (s.step (.stop w)).2 := by
  rw [Fake.stop]
  split
  · rename_i hstopped
    exact h.update rfl h.count (fun v hv _ => hv) (fun v _ => ⟨.rfl, rfl⟩) (h.timer w) (h.empty w)
      hstopped
  · refine h.update rfl h.count (fun v hv _ => hv) (fun v hne => ⟨?_, ?_⟩) ?_ ?_ ?_
    · exact List.mem_erase_of_ne hne
    · exact Function.update_of_ne hne _ _
    · simp only [Function.update_self, h.timer]
    · simp only [Function.update_self, h.empty]
    · simp only [Status.KeptBy, Function.update_self]

theorem reset (h : Keeps f s) (w : Fin f.count) (d : ℤ) (hspares : s.status w ≠ .fired) :
    Keeps (f.reset w d).2 (s.step (.reset w d)).2 := by
  have hw : w < s.count := h.count ▸ w.isLt
  rw [Fake.reset, Timers.step]
  split
  · refine h.update rfl h.count (fun v hv _ => hv) (fun v hne => ⟨?_, ?_⟩) ?_ ?_ ?_
    · simp [hne]
    · exact Function.update_of_ne hne _ _
    · simp only [Function.update_self, h.timer]
    · simp only [Function.update_self, h.empty]
    · simp [Status.KeptBy, h.now]
  · rename_i hflag
    -- The timer is neither stopped nor fired, so it is in the list already.
    have hlisted : (w : ℕ) ∈ f.waiters := by
      have hkept := h.status w hw
      cases hst : s.status w with
      | pending t =>
        rw [hst] at hkept
        exact hkept.1
      | fired => exact absurd hst hspares
      | stopped =>
        rw [hst] at hkept
        exact absurd hkept hflag
    refine h.update rfl h.count (fun v hv _ => hv) (fun v hne => ⟨.rfl, ?_⟩) ?_ ?_ ⟨hlisted, ?_⟩
    · exact Function.update_of_ne hne _ _
    · simp only [Fake.set, Function.update_self, h.timer]
    · simp only [Fake.set, Function.update_self, h.empty]
    · simp only [Fake.set, Function.update_self, h.now]

theorem advance (h : Keeps f s) (d : ℤ) : ∃ fired f', f.advance d = some (fired, f') ∧
    Outcome.received f'.received = (s.step (.advance d)).1 ∧
      Keeps f'.emptied (s.step (.advance d)).2 := by
  obtain ⟨r, hr⟩ := Fake.exists_drain_fireNext f (f.now + d)
  have htimers : ∀ w, ¬0 < (f.waiter w).period := fun w => by
    rw [h.timer w]
    exact lt_irrefl 0
  obtain ⟨hcount, hlist, hcells⟩ := Fake.drain_timers hr htimers
  have hrun : f.advance d = some (r.1, { r.2 with now := f.now + d }) := by
    simp only [Fake.advance, hr, Option.map_some]
  refine ⟨r.1, _, hrun, ?_, ?_⟩
  · rw [Timers.step, Fake.received, Outcome.received.injEq, hcount, h.count, ← h.now]
    refine List.filterMap_congr fun w hw => ?_
    have hkept := h.status w (List.mem_range.mp hw)
    rw [(hkept.advance (h.empty w) (hlist w) (hcells w)).1]
  · refine ⟨congrArg (· + d) h.now, hcount.trans h.count, fun w => ?_, fun w => rfl, fun w hw => ?_⟩
    · have hperiod : (r.2.waiter w).period = (f.waiter w).period := by
        rw [hcells, Fake.reached]
        split <;> rfl
      exact hperiod.trans (h.timer w)
    · have hkept := ((h.status w hw).advance (h.empty w) (hlist w) (hcells w)).2
      simp only [Timers.step, ← h.now]
      cases hst : (s.status w).after (f.now + d) <;> rw [hst] at hkept <;> exact hkept

/-- Every operation on a timer that there is goes through.  If the timer has not fired, the
operation does what it should, and otherwise the program sees something else. -/
theorem step (h : Keeps f s) {op : Op} (hnames : s.Names op) :
    ∃ outcome f', f.step op = some (outcome, f') ∧ (outcome = (s.step op).1 ↔ s.Spares op) ∧
      (s.Spares op → Keeps f' (s.step op).2) := by
  cases op with
  | newTimer d =>
    refine ⟨_, _, rfl, ⟨fun _ => trivial, fun _ => ?_⟩, fun _ => h.newTimer d⟩
    exact congrArg Outcome.created h.count
  | stop w =>
    have hw : w < f.count := h.count.symm ▸ hnames
    refine ⟨_, _, dif_pos hw, ?_, fun _ => h.stop ⟨w, hw⟩⟩
    rw [Fake.stop_fst, Timers.step, Outcome.active.injEq]
    exact h.flag_iff hnames
  | reset w d =>
    have hw : w < f.count := h.count.symm ▸ hnames
    refine ⟨_, _, dif_pos hw, ?_, h.reset ⟨w, hw⟩ d⟩
    rw [Fake.reset_fst, Timers.step, Outcome.active.injEq]
    exact h.flag_iff hnames
  | advance d =>
    obtain ⟨fired, f', hrun, hreceived, hkeeps⟩ := h.advance d
    have hstep : f.step (.advance d) = some (.received f'.received, f'.emptied) := by
      rw [Fake.step, hrun, Option.map_some]
    exact ⟨_, _, hstep, ⟨fun _ => trivial, fun _ => hreceived⟩, fun _ => hkeeps⟩

theorem run (h : Keeps f s) {ops : List Op} (hnames : s.Along Timers.Names ops) :
    f.run ops = some (s.run ops) ↔ s.Along Timers.Spares ops := by
  induction ops generalizing f s with
  | nil => exact ⟨fun _ => trivial, fun _ => rfl⟩
  | cons op ops ih =>
    obtain ⟨outcome, f', hstep, hsees, hkeeps⟩ := h.step hnames.1
    simp only [Fake.run, hstep, Timers.run, Timers.Along, Option.map_eq_some_iff, List.cons.injEq]
    constructor
    · rintro ⟨outcomes, hrun, houtcome, rfl⟩
      have hspares := hsees.mp houtcome
      exact ⟨hspares, (ih (hkeeps hspares) hnames.2).mp hrun⟩
    · rintro ⟨hspares, hrest⟩
      exact ⟨_, (ih (hkeeps hspares) hnames.2).mpr hrest, hsees.mpr hspares, rfl⟩

end Keeps

/-- The timers of the clock do what timers should do exactly as long as no timer is stopped or reset
after it has fired: every such run ends and the program sees what it should see, and in every other
run it sees something else. -/
theorem timers_agree_iff (start : ℤ) {ops : List Op}
    (hnames : (Timers.new (newFake start).now).Along Timers.Names ops) :
    (newFake start).run ops = some ((Timers.new (newFake start).now).run ops) ↔
      (Timers.new (newFake start).now).Along Timers.Spares ops :=
  (Keeps.new start).run hnames

/-- A timer is put off while it is pending, stopped, and started again; it fires once. -/
theorem timers_agree_restarted :
    (newFake 5).run
      [.newTimer 1, .reset 0 4, .advance 2, .stop 0, .reset 0 3, .advance 3, .advance 3] =
        some [.created 0, .active true, .received [], .active true, .active false,
          .received [(0, 10)], .received []] :=
  (timers_agree_iff 5 (by decide)).mpr (by decide)

/-- A timer that has fired and is reset says that it was pending and never fires again, and one that
is stopped after it has fired says that it was pending. -/
theorem fired_timer_not_restarted :
    (newFake 5).run [.newTimer 1, .advance 2, .reset 0 1, .advance 2] =
      some [.created 0, .received [(0, 6)], .active true, .received []] ∧
    (Timers.new 5).run [.newTimer 1, .advance 2, .reset 0 1, .advance 2] =
      [.created 0, .received [(0, 6)], .active false, .received [(0, 8)]] ∧
    (newFake 5).run [.newTimer 1, .advance 2, .stop 0] =
      some [.created 0, .received [(0, 6)], .active true] := by
  decide

end RaftStore.Clock
