import Mathlib.Data.List.Sort
import Mathlib.Logic.Hydra
import RaftStore.Lib.Prog

/-! Event loops.  A loop takes the next event of a state until there is none.  The next event is often
the first of a list that is sorted by time, where events at the same time keep their order.  A loop
whose rounds may fail is a program that is repeated. -/

namespace RaftStore.Lib

section Drain

variable {σ ε : Type*} {step step' : σ → Option (ε × σ)} {fuel fuel' : ℕ} {s : σ}

/-- Takes events until there is none, and returns them with the state that is left.  It returns nothing
when it is still going after `fuel` rounds. -/
def drain (step : σ → Option (ε × σ)) : ℕ → σ → Option (List ε × σ)
  | 0, _ => none
  | fuel + 1, s =>
    match step s with
    | none => some ([], s)
    | some (e, s') => (drain step fuel s').map fun r => (e :: r.1, r.2)

theorem drain_of_none (h : step s = none) : drain step (fuel + 1) s = some ([], s) := by
  rw [drain, h]

theorem drain_of_some {e : ε} {s' : σ} (h : step s = some (e, s')) :
    drain step (fuel + 1) s = (drain step fuel s').map fun r => (e :: r.1, r.2) := by
  rw [drain, h]

/-- Induction over a loop that has come to its end, from the end to its start. -/
theorem drain_induction {motive : σ → List ε → σ → Prop}
    (done : ∀ s, step s = none → motive s [] s)
    (next : ∀ s e s' es s'', step s = some (e, s') → motive s' es s'' → motive s (e :: es) s'')
    {r : List ε × σ} (h : drain step fuel s = some r) : motive s r.1 r.2 := by
  induction fuel generalizing s r with
  | zero => cases h
  | succ fuel ih =>
    cases hstep : step s with
    | none =>
      rw [drain_of_none hstep] at h
      cases h
      exact done s hstep
    | some x =>
      rw [drain_of_some hstep, Option.map_eq_some_iff] at h
      obtain ⟨rest, hrest, rfl⟩ := h
      exact next s x.1 x.2 rest.1 rest.2 hstep (ih hrest)

theorem drain_mono {r : List ε × σ} (h : drain step fuel s = some r) (hle : fuel ≤ fuel') :
    drain step fuel' s = some r := by
  induction fuel generalizing fuel' s r with
  | zero => cases h
  | succ fuel ih =>
    obtain ⟨fuel', rfl⟩ := Nat.exists_eq_add_of_le' (Nat.one_le_of_lt hle)
    cases hstep : step s with
    | none =>
      rw [drain_of_none hstep] at h ⊢
      exact h
    | some x =>
      rw [drain_of_some hstep, Option.map_eq_some_iff] at h
      obtain ⟨rest, hrest, rfl⟩ := h
      rw [drain_of_some hstep, ih hrest (Nat.le_of_succ_le_succ hle)]
      rfl

theorem drain_unique {r r' : List ε × σ} (h : drain step fuel s = some r)
    (h' : drain step fuel' s = some r') : r = r' :=
  Option.some.inj
    ((drain_mono h (Nat.le_max_left fuel fuel')).symm.trans (drain_mono h' (Nat.le_max_right _ _)))

/-- A loop whose every round has less left to do comes to an end. -/
theorem exists_drain (measure : σ → ℕ)
    (hstep : ∀ s e s', step s = some (e, s') → measure s' < measure s) (h : measure s < fuel) :
    ∃ r, drain step fuel s = some r := by
  induction fuel generalizing s with
  | zero => exact absurd h (Nat.not_lt_zero _)
  | succ fuel ih =>
    cases hs : step s with
    | none => exact ⟨_, drain_of_none hs⟩
    | some x =>
      obtain ⟨r, hr⟩ := ih ((hstep s x.1 x.2 hs).trans_le (Nat.le_of_lt_succ h))
      rw [drain_of_some hs, hr]
      exact ⟨_, rfl⟩

/-- A loop with more to do goes on where one with less to do has stopped. -/
theorem drain_append (hsame : ∀ s x, step s = some x → step' s = some x) {es es' : List ε} {s₁ s₂ : σ}
    (h : drain step fuel s = some (es, s₁)) (h' : drain step' fuel' s₁ = some (es', s₂)) :
    drain step' (fuel + fuel') s = some (es ++ es', s₂) := by
  induction fuel generalizing s es with
  | zero => cases h
  | succ fuel ih =>
    rw [Nat.succ_add]
    cases hs : step s with
    | none =>
      rw [drain_of_none hs] at h
      cases h
      exact drain_mono h' (by omega)
    | some x =>
      rw [drain_of_some hs, Option.map_eq_some_iff] at h
      obtain ⟨rest, hrest, heq⟩ := h
      cases heq
      rw [drain_of_some (hsame s x hs), ih hrest]
      rfl

end Drain

section Earliest

variable {α κ : Type*} [LinearOrder κ] {key : α → κ} {l rest : List α} {a b : α}

/-- The first of a sorted list is the earliest of the list as it was, and the first of those that are
equally early. -/
theorem insertionSort_head (h : l.insertionSort (fun x y => key x ≤ key y) = a :: rest) :
    ∃ before after, l = before ++ a :: after ∧ (∀ x ∈ before, key a < key x) ∧
      ∀ x ∈ after, key a ≤ key x := by
  induction l generalizing a rest with
  | nil => cases h
  | cons b l ih =>
    rw [List.insertionSort_cons] at h
    cases hsort : l.insertionSort (fun x y => key x ≤ key y) with
    | nil =>
      rw [hsort, List.orderedInsert_nil] at h
      cases h
      have hnil : l = [] := by
        rw [← List.length_eq_zero_iff, ← List.length_insertionSort (fun x y => key x ≤ key y), hsort]
        rfl
      exact ⟨[], [], by rw [hnil]; rfl, List.forall_mem_nil _, List.forall_mem_nil _⟩
    | cons c rest' =>
      obtain ⟨before, after, hl, hbefore, hafter⟩ := ih hsort
      rw [hsort, List.orderedInsert_cons] at h
      split at h
      · rename_i hle
        cases h
        refine ⟨[], l, rfl, List.forall_mem_nil _, fun x hx => ?_⟩
        rw [hl] at hx
        rcases List.mem_append.mp hx with hx | hx
        · exact hle.trans (hbefore x hx).le
        · rcases List.mem_cons.mp hx with rfl | hx
          · exact hle
          · exact hle.trans (hafter x hx)
      · rename_i hlt
        cases h
        refine ⟨b :: before, after, by rw [hl]; rfl, ?_, hafter⟩
        exact List.forall_mem_cons.mpr ⟨not_le.mp hlt, hbefore⟩

/-- Two members of a list without repetitions stand in one order. -/
theorem not_sublist_swap (hl : l.Nodup) (h : [a, b].Sublist l) : ¬[b, a].Sublist l := by
  induction l with
  | nil => cases h
  | cons x l ih =>
    obtain ⟨hx, hl⟩ := List.nodup_cons.mp hl
    intro hswap
    cases h with
    | cons _ h =>
      cases hswap with
      | cons _ hswap => exact ih hl h hswap
      | cons_cons _ hswap => exact hx (h.subset (List.mem_cons_of_mem _ List.mem_cons_self))
    | cons_cons _ h =>
      cases hswap with
      | cons _ hswap => exact hx (hswap.subset (List.mem_cons_of_mem _ List.mem_cons_self))
      | cons_cons _ hswap => exact hx (hswap.subset List.mem_cons_self)

end Earliest

section Iterate

variable {ε σ β : Type} {body : EStateM ε σ (Option β)} {bound : ε} {fuel : ℕ} {s : σ}

/-- Repeats a program until it returns a result.  It fails with `bound` when it is still going after
`fuel` rounds. -/
def iterate (body : EStateM ε σ (Option β)) (bound : ε) : ℕ → EStateM ε σ β
  | 0 => throw bound
  | fuel + 1 => do
    match ← body with
    | some b => pure b
    | none => iterate body bound fuel

/-- What every round keeps holds when the loop returns. -/
theorem meets_iterate {I : σ → Prop} {Q : β → σ → Prop} {F : ε → σ → Prop}
    (hbody : ∀ s, I s → Meets body s (fun b s' => (b.elim (I s') fun b => Q b s')) F)
    (hbound : ∀ s, I s → F bound s) (h : I s) : Meets (iterate body bound fuel) s Q F := by
  induction fuel generalizing s with
  | zero => exact hbound s h
  | succ fuel ih =>
    rw [iterate, meets_bind]
    refine Meets.mono (hbody s h) (fun b s' hb => ?_) fun _ _ hF => hF
    cases b with
    | some b => exact hb
    | none => exact ih hb

/-- A loop whose every round that goes on leaves less to do comes to an end. -/
theorem exists_iterate {I : σ → Prop} {Q : β → σ → Prop} {F : ε → σ → Prop} {R : σ → σ → Prop}
    (hR : WellFounded R)
    (hbody : ∀ s, I s → Meets body s (fun b s' => (b.elim (I s' ∧ R s' s) fun b => Q b s')) F)
    (h : I s) : ∃ n, ∀ fuel ≥ n, Meets (iterate body bound fuel) s Q F := by
  induction s using hR.induction with
  | _ s ih =>
    have hs := hbody s h
    unfold Meets at hs
    split at hs
    · rename_i b s' hx
      cases b with
      | some b =>
        refine ⟨1, fun fuel hfuel => ?_⟩
        obtain ⟨fuel, rfl⟩ := Nat.exists_eq_add_of_le' hfuel
        rw [iterate, meets_bind]
        exact meets_of_ok hx hs
      | none =>
        obtain ⟨n, hn⟩ := ih s' hs.2 hs.1
        refine ⟨n + 1, fun fuel hfuel => ?_⟩
        obtain ⟨fuel, rfl⟩ := Nat.exists_eq_add_of_le' (Nat.one_le_of_lt hfuel)
        rw [iterate, meets_bind]
        exact meets_of_ok hx (hn fuel (Nat.le_of_succ_le_succ hfuel))
    · rename_i e s' hx
      refine ⟨1, fun fuel hfuel => ?_⟩
      obtain ⟨fuel, rfl⟩ := Nat.exists_eq_add_of_le' hfuel
      rw [iterate, meets_bind, Meets, hx]
      exact hs

end Iterate

/-! ### Items that are replaced -/

section Replaces

variable {ι κ : Type*} [LT κ] [WellFoundedLT κ] {rank : ι → κ}

/-- One item of the list is replaced by items of lower rank. -/
def Replaces (rank : ι → κ) (l' l : List ι) : Prop :=
  ∃ x new rest, l.Perm (x :: rest) ∧ l'.Perm (new ++ rest) ∧ ∀ y ∈ new, rank y < rank x

/-- However many items take the place of one, this cannot go on. -/
theorem wellFounded_replaces (rank : ι → κ) : WellFounded (Replaces rank) := by
  refine Subrelation.wf ?_ (InvImage.wf (fun l : List ι => ((l.map rank : List κ) : Multiset κ))
    (WellFounded.cutExpand (wellFounded_lt (α := κ))))
  intro l' l h
  obtain ⟨x, new, rest, hl, hl', hnew⟩ := h
  refine ⟨((new.map rank : List κ) : Multiset κ), rank x, fun a ha => ?_, ?_⟩
  · obtain ⟨y, hy, rfl⟩ := List.mem_map.mp (Multiset.mem_coe.mp ha)
    exact hnew y hy
  · dsimp only
    rw [Multiset.coe_eq_coe.mpr (hl.map rank), Multiset.coe_eq_coe.mpr (hl'.map rank),
      List.map_append, List.map_cons, ← Multiset.coe_add, ← Multiset.cons_coe,
      ← Multiset.singleton_add, add_comm, add_assoc, add_comm (_ : Multiset κ) (new.map rank : List κ)]

end Replaces

end RaftStore.Lib
