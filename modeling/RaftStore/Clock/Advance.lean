import RaftStore.Clock.Fake
import Mathlib.Algebra.Order.BigOperators.Group.List
import Mathlib.Tactic.Ring

/-! Advancing the clock: the loop comes to an end, the waiters fire in the order of their deadlines,
and two advances do what one advance over both durations does. -/

namespace RaftStore.Clock

open Lib

/-- The times at which a waiter fires if it is left alone. -/
def Waiter.Deadline (w : Waiter) (t : ℤ) : Prop :=
  t = w.atTime ∨ 0 < w.period ∧ ∃ k : ℕ, t = w.atTime + k * w.period

/-- One firing comes before another: it is earlier, or its waiter is registered first. -/
def Earlier (waiters : List ℕ) (x y : ℕ × ℤ) : Prop :=
  x.2 < y.2 ∨ x.2 = y.2 ∧ [x.1, y.1].Sublist waiters

theorem Earlier.mono {l l' : List ℕ} {x y : ℕ × ℤ} (h : Earlier l x y) (hl : l.Sublist l') :
    Earlier l' x y :=
  h.imp_right fun h => ⟨h.1, h.2.trans hl⟩

theorem Waiter.le_of_deadline {w : Waiter} {t : ℤ} (h : w.Deadline t) : w.atTime ≤ t := by
  rcases h with rfl | ⟨hperiod, k, rfl⟩
  · exact le_rfl
  · exact Int.le_add_of_nonneg_right (Int.mul_nonneg (Int.natCast_nonneg k) hperiod.le)

/-- A ticker that has fired fires at its other deadlines. -/
theorem Waiter.deadline_iff {w : Waiter} (hperiod : 0 < w.period) (t : ℤ) :
    w.Deadline t ↔ t = w.atTime ∨
      Waiter.Deadline { w with atTime := w.atTime + w.period } t := by
  constructor
  · rintro (rfl | ⟨-, k, rfl⟩)
    · exact .inl rfl
    · cases k with
      | zero => exact .inl (by simp)
      | succ k => exact .inr (.inr ⟨hperiod, k, by push_cast; ring⟩)
  · rintro (rfl | rfl | ⟨-, k, rfl⟩)
    · exact .inl rfl
    · exact .inr ⟨hperiod, 1, by simp⟩
    · exact .inr ⟨hperiod, k + 1, by push_cast; ring⟩

/-- A ticker that has fired has one firing less to come. -/
theorem Waiter.firings_next {w : Waiter} {target : ℤ} (hperiod : 0 < w.period)
    (hdue : w.atTime ≤ target) :
    Waiter.firings { w with atTime := w.atTime + w.period } target + 1 = w.firings target := by
  simp only [Waiter.firings, hperiod, if_true, not_lt.mpr hdue, if_false]
  split
  · rename_i hlate
    rw [Int.ediv_eq_zero_of_lt (by omega) (by omega)]
    rfl
  · rename_i hdue'
    have hsplit : target - w.atTime = target - (w.atTime + w.period) + 1 * w.period := by omega
    have hnonneg : 0 ≤ (target - (w.atTime + w.period)) / w.period :=
      Int.ediv_nonneg (by omega) hperiod.le
    rw [hsplit, Int.add_mul_ediv_right _ _ hperiod.ne']
    omega

namespace Fake

variable {f f' : Fake} {target target' : ℤ} {w : ℕ}

/-! ### One firing -/

theorem fireNext_eq_none :
    fireNext target f = none ↔ ∀ w ∈ f.waiters, target < (f.waiter w).atTime := by
  have hnil : fireNext target f = none ↔ f.dueLocked target = [] := by
    rw [fireNext]
    cases f.dueLocked target with
    | nil => exact ⟨fun _ => rfl, fun _ => rfl⟩
    | cons w due => constructor <;> rintro ⟨⟩
  rw [hnil, dueLocked, ← List.length_eq_zero_iff, List.length_insertionSort,
    List.length_eq_zero_iff, List.filter_eq_nil_iff]
  refine forall₂_congr fun w hw => ?_
  simp [f.active w hw]

/-- The waiter that fires is the earliest that is registered, and the first of those that are
equally early. -/
theorem fireNext_eq_some {x : (ℕ × ℤ) × Fake} (h : fireNext target f = some x) :
    ∃ w ∈ f.waiters, x = ((w, (f.waiter w).atTime), f.fire w) ∧ (f.waiter w).atTime ≤ target ∧
      ∀ v ∈ f.waiters, v ≠ w →
        Earlier f.waiters (w, (f.waiter w).atTime) (v, (f.waiter v).atTime) := by
  rw [fireNext] at h
  cases hdue : f.dueLocked target with
  | nil =>
    rw [hdue] at h
    cases h
  | cons w rest =>
    rw [hdue] at h
    cases h
    obtain ⟨before, after, hsplit, hbefore, hafter⟩ := insertionSort_head hdue
    have hw : w ∈ f.waiters ∧ (f.waiter w).atTime ≤ target := by
      have hmem : w ∈ before ++ w :: after := List.mem_append_right _ List.mem_cons_self
      rw [← hsplit, List.mem_filter] at hmem
      exact ⟨hmem.1, by simpa using (Bool.and_eq_true_iff.mp hmem.2).2⟩
    refine ⟨w, hw.1, rfl, hw.2, fun v hv hne => ?_⟩
    by_cases hlate : target < (f.waiter v).atTime
    · exact .inl (hw.2.trans_lt hlate)
    · have hmem : v ∈ before ++ w :: after := by
        rw [← hsplit, List.mem_filter]
        exact ⟨hv, by simp [f.active v hv, not_lt.mp hlate]⟩
      rcases List.mem_append.mp hmem with hv' | hv'
      · exact .inl (hbefore v hv')
      · have hv' := (List.mem_cons.mp hv').resolve_left hne
        rcases (hafter v hv').lt_or_eq with hlt | heq
        · exact .inl hlt
        · refine .inr ⟨heq, ?_⟩
          have hsub : [w, v].Sublist (before ++ w :: after) :=
            ((List.singleton_sublist.mpr hv').cons_cons w).trans (List.sublist_append_right _ _)
          exact (hsplit ▸ hsub).trans List.filter_sublist

/-- What fires first until some time is what fires first until a later time. -/
theorem fireNext_mono (hle : target ≤ target') {x : (ℕ × ℤ) × Fake}
    (h : fireNext target f = some x) : fireNext target' f = some x := by
  obtain ⟨w, hw, rfl, hdue, hfirst⟩ := fireNext_eq_some h
  cases h' : fireNext target' f with
  | none => exact absurd (fireNext_eq_none.mp h' w hw) (hdue.trans hle).not_gt
  | some x' =>
    obtain ⟨v, hv, rfl, -, hfirst'⟩ := fireNext_eq_some h'
    rcases eq_or_ne v w with rfl | hne
    · rfl
    · rcases hfirst v hv hne with hlt | ⟨heq, hsub⟩
      · rcases hfirst' w hw hne.symm with hlt' | ⟨heq', -⟩
        · exact absurd hlt hlt'.not_gt
        · exact absurd heq' hlt.ne'
      · rcases hfirst' w hw hne.symm with hlt' | ⟨-, hsub'⟩
        · exact absurd heq hlt'.ne'
        · exact absurd hsub' (not_sublist_swap f.nodup hsub)

/-- The loop does not look at the time it has come to. -/
theorem fireNext_now (t : ℤ) : fireNext target { f with now := t } = fireNext target f := rfl

theorem waiter_fire_of_ne {v : ℕ} (h : v ≠ w) : (f.fire w).waiter v = f.waiter v := by
  simp only [fire, send, set, Function.update_of_ne h, rearm]
  split
  · exact Function.update_of_ne h _ _
  · rfl

theorem fire_ticker (h : 0 < (f.waiter w).period) :
    (f.fire w).waiters = f.waiters ∧ (f.fire w).waiter w =
      { f.waiter w with
        atTime := (f.waiter w).atTime + (f.waiter w).period
        ch := (f.waiter w).ch.or (some (f.waiter w).atTime) } := by
  simp only [fire, rearm, h, if_true, send, set, Function.update_self, and_self]

theorem fire_timer (h : ¬0 < (f.waiter w).period) :
    (f.fire w).waiters = f.waiters.erase w ∧ (f.fire w).waiter w =
      { f.waiter w with ch := (f.waiter w).ch.or (some (f.waiter w).atTime) } := by
  simp only [fire, rearm, h, if_false, send, set, removeLocked, Function.update_self, and_self]

theorem waiters_fire_sublist : (f.fire w).waiters.Sublist f.waiters := by
  by_cases h : 0 < (f.waiter w).period
  · rw [(fire_ticker h).1]
  · rw [(fire_timer h).1]
    exact List.erase_sublist

theorem mem_waiters_fire {v : ℕ} (h : v ≠ w) : v ∈ (f.fire w).waiters ↔ v ∈ f.waiters := by
  by_cases hperiod : 0 < (f.waiter w).period
  · rw [(fire_ticker hperiod).1]
  · rw [(fire_timer hperiod).1, List.mem_erase_of_ne h]

/-- The deadlines that a firing leaves. -/
theorem deadline_fire (hw : w ∈ f.waiters) (v : ℕ) (t : ℤ) :
    v ∈ f.waiters ∧ (f.waiter v).Deadline t ↔ (v, t) = (w, (f.waiter w).atTime) ∨
      v ∈ (f.fire w).waiters ∧ ((f.fire w).waiter v).Deadline t := by
  rcases eq_or_ne v w with rfl | hne
  · simp only [hw, true_and, Prod.mk.injEq]
    by_cases hperiod : 0 < (f.waiter v).period
    · rw [(fire_ticker hperiod).1, (fire_ticker hperiod).2, Waiter.deadline_iff hperiod]
      simp only [hw, true_and]
      rfl
    · have hgone : v ∉ (f.fire v).waiters := by
        rw [(fire_timer hperiod).1]
        exact f.nodup.not_mem_erase
      simp only [hgone, false_and, or_false, Waiter.Deadline, hperiod]
  · simp only [Prod.mk.injEq, hne, false_and, false_or, mem_waiters_fire hne, waiter_fire_of_ne hne]

/-- After a firing the ticker is later than before. -/
theorem lt_of_deadline_fire {t : ℤ} (hw : w ∈ (f.fire w).waiters)
    (h : ((f.fire w).waiter w).Deadline t) : (f.waiter w).atTime < t := by
  by_cases hperiod : 0 < (f.waiter w).period
  · have hle := Waiter.le_of_deadline h
    rw [(fire_ticker hperiod).2] at hle
    exact (Int.lt_add_of_pos_right _ hperiod).trans_le hle
  · rw [(fire_timer hperiod).1] at hw
    exact absurd hw f.nodup.not_mem_erase

/-- Every round of the loop leaves fewer firings. -/
theorem firings_fire (hw : w ∈ f.waiters) (hdue : (f.waiter w).atTime ≤ target) :
    (f.fire w).firings target < f.firings target := by
  have hsame : ∀ v, v ≠ w →
      ((f.fire w).waiter v).firings target = (f.waiter v).firings target := fun v hne => by
    rw [waiter_fire_of_ne hne]
  by_cases hperiod : 0 < (f.waiter w).period
  · have hself : ((f.fire w).waiter w).firings target < (f.waiter w).firings target := by
      rw [(fire_ticker hperiod).2, ← Waiter.firings_next hperiod hdue]
      exact Nat.lt_succ_self _
    rw [firings, firings, (fire_ticker hperiod).1]
    refine List.sum_lt_sum _ _ (fun v _ => ?_) ⟨w, hw, hself⟩
    rcases eq_or_ne v w with rfl | hne
    · exact hself.le
    · exact (hsame v hne).le
  · have hmap : (f.waiters.erase w).map (fun v => ((f.fire w).waiter v).firings target) =
        (f.waiters.erase w).map fun v => (f.waiter v).firings target :=
      List.map_congr_left fun v hv => hsame v (f.nodup.mem_erase_iff.mp hv).1
    have hone : (f.waiter w).firings target = 1 := by
      simp only [Waiter.firings, not_lt.mpr hdue, hperiod, if_false]
    rw [firings, firings, (fire_timer hperiod).1, hmap,
      ← List.sum_map_erase (fun v => (f.waiter v).firings target) hw, hone]
    omega

/-! ### The loop -/

theorem exists_drain_fireNext (f : Fake) (target : ℤ) :
    ∃ r, drain (fireNext target) (f.firings target + 1) f = some r := by
  apply exists_drain fun f => f.firings target
  · intro f e f' h
    obtain ⟨w, hw, heq, hdue, -⟩ := fireNext_eq_some h
    cases heq
    exact firings_fire hw hdue
  · exact Nat.lt_succ_self _

/-- The loop fires every registered waiter at each of its deadlines up to the target, and in order.
-/
theorem drain_fireNext {fuel : ℕ} {r : List (ℕ × ℤ) × Fake}
    (h : drain (fireNext target) fuel f = some r) :
    (∀ w t, (w, t) ∈ r.1 ↔ (w ∈ f.waiters ∧ (f.waiter w).Deadline t) ∧ t ≤ target) ∧
      r.1.Pairwise (Earlier f.waiters) := by
  refine drain_induction (motive := fun f fired _ =>
    (∀ w t, (w, t) ∈ fired ↔ (w ∈ f.waiters ∧ (f.waiter w).Deadline t) ∧ t ≤ target) ∧
      fired.Pairwise (Earlier f.waiters)) ?_ ?_ h
  · intro f hnone
    refine ⟨fun w t => ⟨fun hmem => absurd hmem List.not_mem_nil, ?_⟩, .nil⟩
    rintro ⟨⟨hw, hdeadline⟩, ht⟩
    have hlate := fireNext_eq_none.mp hnone w hw
    exact absurd (Waiter.le_of_deadline hdeadline) (ht.trans_lt hlate).not_ge
  · intro f e f₁ fired f₂ hstep ⟨hmem, hsorted⟩
    obtain ⟨w, hw, heq, hdue, hfirst⟩ := fireNext_eq_some hstep
    cases heq
    constructor
    · intro v t
      rw [List.mem_cons, hmem, deadline_fire hw]
      constructor
      · rintro (heq | ⟨hlater, ht⟩)
        · cases heq
          exact ⟨.inl rfl, hdue⟩
        · exact ⟨.inr hlater, ht⟩
      · rintro ⟨heq | hlater, ht⟩
        · exact .inl heq
        · exact .inr ⟨hlater, ht⟩
    · refine List.pairwise_cons.mpr ⟨?_, hsorted.imp fun h => h.mono waiters_fire_sublist⟩
      rintro ⟨v, t⟩ hvt
      obtain ⟨⟨hv, hdeadline⟩, -⟩ := (hmem v t).mp hvt
      rcases eq_or_ne v w with rfl | hne
      · exact .inl (lt_of_deadline_fire hv hdeadline)
      · rw [waiter_fire_of_ne hne] at hdeadline
        have hle := Waiter.le_of_deadline hdeadline
        rcases hfirst v ((mem_waiters_fire hne).mp hv) hne with hlt | ⟨heq, hsub⟩
        · exact .inl (hlt.trans_le hle)
        · rcases hle.lt_or_eq with hlt | heq'
          · exact .inl (heq.trans_lt hlt)
          · exact .inr ⟨heq.trans heq', hsub⟩

/-- The loop leaves in an empty channel the first deadline that it has reached, and nothing else
there; a full channel stays as it is. -/
theorem drain_channels {fuel : ℕ} {r : List (ℕ × ℤ) × Fake}
    (h : drain (fireNext target) fuel f = some r) (v : ℕ) :
    (r.2.waiter v).ch = (f.waiter v).ch.or
      (if v ∈ f.waiters ∧ (f.waiter v).atTime ≤ target then some (f.waiter v).atTime else none) := by
  refine drain_induction (motive := fun f _ f' => (f'.waiter v).ch = (f.waiter v).ch.or
    (if v ∈ f.waiters ∧ (f.waiter v).atTime ≤ target then some (f.waiter v).atTime else none))
    ?_ ?_ h
  · intro f hnone
    rw [if_neg fun hv => (fireNext_eq_none.mp hnone v hv.1).not_ge hv.2, Option.or_none]
  · intro f e f₁ fired f₂ hstep hch
    obtain ⟨w, hw, heq, hdue, -⟩ := fireNext_eq_some hstep
    cases heq
    rw [hch]
    rcases eq_or_ne v w with rfl | hne
    · have hsent : ((f.fire v).waiter v).ch = (f.waiter v).ch.or (some (f.waiter v).atTime) := by
        by_cases hperiod : 0 < (f.waiter v).period
        · rw [(fire_ticker hperiod).2]
        · rw [(fire_timer hperiod).2]
      -- Once it has fired the channel is full, and later firings are dropped.
      rw [hsent, Option.or_assoc, Option.some_or, if_pos ⟨hw, hdue⟩]
    · simp only [waiter_fire_of_ne hne, mem_waiters_fire hne]

/-- The loop goes on from the time that the last round has left as from any other. -/
theorem drain_now {fuel : ℕ} {r : List (ℕ × ℤ) × Fake} (t : ℤ)
    (h : drain (fireNext target) fuel { f with now := t } = some r) :
    ∃ g, drain (fireNext target) fuel f = some (r.1, g) ∧
      { g with now := target } = { r.2 with now := target } := by
  cases fuel with
  | zero => cases h
  | succ fuel =>
    cases hstep : fireNext target f with
    | none =>
      rw [drain_of_none ((fireNext_now t).trans hstep)] at h
      cases h
      exact ⟨f, drain_of_none hstep, rfl⟩
    | some x =>
      rw [drain_of_some ((fireNext_now t).trans hstep)] at h
      rw [drain_of_some hstep]
      exact ⟨r.2, h, rfl⟩

/-- Advancing the clock comes to an end, with the new time on the clock.  Each waiter has fired at
all of its deadlines that were reached, in the order of the deadlines and, where they are the same,
in the order in which the waiters are registered.  A channel that was empty holds the first deadline
of its waiter that was reached, and a full one is as before.  A second advance leaves what one advance
over both durations leaves. -/
theorem advance_additive (f : Fake) (a : ℤ) {b : ℤ} (hb : 0 ≤ b) :
    ∃ fired f₁ fired' f₂, f.advance a = some (fired, f₁) ∧ f₁.now = f.now + a ∧
      (∀ w t, (w, t) ∈ fired ↔ (w ∈ f.waiters ∧ (f.waiter w).Deadline t) ∧ t ≤ f.now + a) ∧
      fired.Pairwise (Earlier f.waiters) ∧
      (∀ w, (f₁.waiter w).ch = (f.waiter w).ch.or
        (if w ∈ f.waiters ∧ (f.waiter w).atTime ≤ f.now + a then some (f.waiter w).atTime
          else none)) ∧
      f₁.advance b = some (fired', f₂) ∧ f.advance (a + b) = some (fired ++ fired', f₂) := by
  obtain ⟨r, hr⟩ := exists_drain_fireNext f (f.now + a)
  obtain ⟨r', hr'⟩ := exists_drain_fireNext { r.2 with now := f.now + a } (f.now + a + b)
  obtain ⟨r'', hr''⟩ := exists_drain_fireNext f (f.now + (a + b))
  obtain ⟨g, hg, hnow⟩ := drain_now _ hr'
  obtain ⟨hmem, hsorted⟩ := drain_fireNext hr
  -- Two loops, one after the other, are one loop to the later target.
  have hboth := drain_append (fun f x => fireNext_mono (Int.le_add_of_nonneg_right hb)) hr hg
  rw [← Int.add_assoc] at hr''
  have hone := drain_unique hr'' hboth
  refine ⟨r.1, { r.2 with now := f.now + a }, r'.1, { r'.2 with now := f.now + a + b }, ?_, rfl,
    hmem, hsorted, drain_channels hr, ?_, ?_⟩
  · simp only [advance, hr, Option.map_some]
  · simp only [advance, hr', Option.map_some]
  · simp only [advance, ← Int.add_assoc, hr'', hone, Option.map_some, hnow]

/-- A timer and a ticker that are due together, and a second tick in the second advance, for which
the channel has no room. -/
theorem advance_additive_ticker :
    let f := (((newFake 5).newTimer 2).2.add 2 2).2
    ∃ f₁ f₂, f.advance 3 = some ([(0, 7), (1, 7)], f₁) ∧ f₁.now = 8 ∧
      (f₁.waiter 0).ch = some 7 ∧ (f₁.waiter 1).ch = some 7 ∧
      f₁.advance 1 = some ([(1, 9)], f₂) ∧ (f₂.waiter 1).ch = some 7 ∧
      f.advance 4 = some ([(0, 7), (1, 7), (1, 9)], f₂) := by
  intro f
  obtain ⟨fired, f₁, fired', f₂, h, hnow, -, -, hch, h', hsum⟩ :=
    advance_additive f 3 (show (0 : ℤ) ≤ 1 by decide)
  have hfired : (f.advance 3).map (·.1) = some [(0, 7), (1, 7)] := by decide
  have hall : (f.advance 4).map (·.1) = some [(0, 7), (1, 7), (1, 9)] := by decide
  have hlast : (f.advance 4).map (fun r => (r.2.waiter 1).ch) = some (some 7) := by decide
  rw [h] at hfired
  cases hfired
  rw [show (4 : ℤ) = 3 + 1 from rfl, hsum] at hall hlast
  cases hall
  exact ⟨f₁, f₂, h, hnow, (hch 0).trans (by decide), (hch 1).trans (by decide), h',
    Option.some.inj hlast, hsum⟩

end Fake

end RaftStore.Clock
