import Mathlib.Data.List.MinMax
import Mathlib.Data.List.Permutation
import Mathlib.Data.List.Sort
import Mathlib.Data.Prod.Lex
import Mathlib.Logic.Function.Basic

/-! Histories of operations with real-time intervals, and the orders in which one sequential object
could have performed them.  Objects that share nothing can be looked at one by one: if the operations
on each have such an order, then so have all of them together.  Operations that a log has put in order
have one. -/

namespace RaftStore.Lib

variable {O O' S S' K T : Type}

/-- The object after the operations, one after the other, if it accepts each. -/
def performs (step : S → O → Option S) (s : S) (ops : List O) : Option S := ops.foldlM step s

/-- The operations have an order in which the object accepts them, and in which none comes before
another that precedes it in real time. -/
def Linearizable (precedes : O → O → Prop) (step : S → O → Option S) (s : S) (history : List O) :
    Prop :=
  ∃ order : List O, order.Perm history ∧ order.Pairwise (fun a b => ¬ precedes b a) ∧
    (performs step s order).isSome

instance {precedes : O → O → Prop} [DecidableRel precedes] {step : S → O → Option S} {s : S}
    {history : List O} : Decidable (Linearizable precedes step s history) :=
  decidable_of_iff (∃ order ∈ history.permutations', order.Pairwise (fun a b => ¬ precedes b a) ∧
    (performs step s order).isSome) (by simp only [Linearizable, List.mem_permutations'])

section performs

variable {step : S → O → Option S} {s : S} {ops : List O}

theorem performs_cons (o : O) : performs step s (o :: ops) = (step s o).bind (performs step · ops) := by
  rw [performs, List.foldlM_cons]
  rfl

theorem performs_append (ops' : List O) :
    performs step s (ops ++ ops') = (performs step s ops).bind (performs step · ops') := by
  rw [performs, List.foldlM_append]
  rfl

theorem isSome_performs_cons {o : O} :
    (performs step s (o :: ops)).isSome ↔ ∃ s', step s o = some s' ∧ (performs step s' ops).isSome := by
  rw [performs_cons]
  cases step s o <;> simp

/-- An object that another one mirrors accepts the same operations. -/
theorem performs_map {step' : S' → O → Option S'} (f : S → S') {P : O → Prop}
    (h : ∀ s o, P o → (step s o).map f = step' (f s) o) (hP : ∀ o ∈ ops, P o) :
    (performs step s ops).map f = performs step' (f s) ops := by
  induction ops generalizing s with
  | nil => rfl
  | cons o ops ih =>
    rw [performs_cons, performs_cons, ← h s o (hP o List.mem_cons_self)]
    cases hs : step s o with
    | none => rfl
    | some s' => exact ih fun o ho => hP o (List.mem_cons_of_mem _ ho)

end performs

section Linearizable

variable {precedes precedes' : O → O → Prop} {step : S → O → Option S} {step' : S' → O → Option S'}
  {s : S} {history : List O}

theorem Linearizable.perm {history' : List O} (h : Linearizable precedes step s history)
    (hp : history.Perm history') : Linearizable precedes step s history' := by
  obtain ⟨order, hperm, h⟩ := h
  exact ⟨order, hperm.trans hp, h⟩

/-- An object that accepts whatever another one does has the same orders. -/
theorem Linearizable.imp {step' : S → O → Option S} (h : Linearizable precedes step s history)
    (hstep : ∀ s o s', step s o = some s' → step' s o = some s') :
    Linearizable precedes step' s history := by
  obtain ⟨order, hperm, hpair, hlegal⟩ := h
  refine ⟨order, hperm, hpair, ?_⟩
  clear hperm hpair
  induction order generalizing s with
  | nil => rfl
  | cons o order ih =>
    obtain ⟨s', hs', hrest⟩ := isSome_performs_cons.mp hlegal
    exact isSome_performs_cons.mpr ⟨s', hstep s o s' hs', ih hrest⟩

/-- What an object does with the operations of the history, and how they precede one another, is all
that matters. -/
theorem linearizable_congr (f : S → S')
    (hstep : ∀ s, ∀ o ∈ history, (step s o).map f = step' (f s) o)
    (hprec : ∀ a ∈ history, ∀ b ∈ history, precedes a b ↔ precedes' a b) :
    Linearizable precedes step s history ↔ Linearizable precedes' step' (f s) history := by
  refine exists_congr fun order => and_congr_right fun hperm => and_congr ?_ ?_
  · refine List.Pairwise.iff_of_mem fun {a b} ha hb => not_congr ?_
    exact hprec b (hperm.mem_iff.mp hb) a (hperm.mem_iff.mp ha)
  · rw [← performs_map f (fun s o ho => hstep s o ho) fun o ho => hperm.mem_iff.mp ho,
      Option.isSome_map]

/-- Operations that nothing follows in real time, and that the object accepts in every state, can
come last. -/
theorem Linearizable.append {later : List O} (h : Linearizable precedes step s history)
    (hlast : ∀ a ∈ later, ∀ b, ¬ precedes a b) (haccept : ∀ s, ∀ a ∈ later, (step s a).isSome) :
    Linearizable precedes step s (history ++ later) := by
  obtain ⟨order, hperm, hpair, hlegal⟩ := h
  refine ⟨order ++ later, hperm.append_right later, ?_, ?_⟩
  · refine List.pairwise_append.mpr ⟨hpair, ?_, fun a _ b hb => hlast b hb a⟩
    exact List.pairwise_of_forall_mem_list fun a _ b hb => hlast b hb a
  · obtain ⟨s', hs'⟩ := Option.isSome_iff_exists.mp hlegal
    rw [performs_append, hs', Option.bind_some]
    clear hs' hlegal
    induction later generalizing s' with
    | nil => rfl
    | cons o later ih =>
      obtain ⟨s'', hs''⟩ := Option.isSome_iff_exists.mp (haccept s' o List.mem_cons_self)
      exact isSome_performs_cons.mpr ⟨s'', hs'', ih (fun a ha => hlast a (List.mem_cons_of_mem o ha))
        (fun s a ha => haccept s a (List.mem_cons_of_mem o ha)) s''⟩

end Linearizable

/-! ### Locality -/

section Locality

variable [DecidableEq K] {key : O → K} {step : S → O → Option S}

/-- One object per key: an operation acts on the object of its key. -/
def stepAt (key : O → K) (step : S → O → Option S) (objects : K → S) (o : O) : Option (K → S) :=
  (step (objects (key o)) o).map (Function.update objects (key o))

/-- Objects that others mirror, key by key. -/
theorem stepAt_map {step' : S' → O → Option S'} (f : S → S') {o : O} {objects : K → S}
    (h : (step (objects (key o)) o).map f = step' (f (objects (key o))) o) :
    (stepAt key step objects o).map (fun objects k => f (objects k)) =
      stepAt key step' (fun k => f (objects k)) o := by
  rw [stepAt, stepAt, ← h]
  cases step (objects (key o)) o with
  | none => rfl
  | some s' =>
    exact congrArg some (funext fun k => Function.apply_update (fun _ => f) objects (key o) s' k)

/-- What happens to one object is what the operations on its key do. -/
theorem performs_stepAt_filter {objects objects' : K → S} {ops : List O} (k : K)
    (h : performs (stepAt key step) objects ops = some objects') :
    performs step (objects k) (ops.filter fun o => key o = k) = some (objects' k) := by
  induction ops generalizing objects with
  | nil =>
    cases h
    rfl
  | cons o ops ih =>
    rw [performs_cons, stepAt] at h
    cases hs : step (objects (key o)) o with
    | none =>
      rw [hs] at h
      exact nomatch h
    | some s' =>
      rw [hs] at h
      have := ih h
      by_cases hk : key o = k
      · subst hk
        rw [List.filter_cons_of_pos (by simp), performs_cons, hs, Option.bind_some]
        simpa using this
      · rw [List.filter_cons_of_neg (by simpa using hk)]
        rwa [Function.update_of_ne (Ne.symm hk)] at this

variable [LinearOrder T] {invoked returned : O → T}

/-- Of the operations that are left, the one that returns first is on some object; the next operation
in that object's order was invoked no later, so it may come first. -/
theorem exists_first {history : List O} (hne : history ≠ [])
    (hwf : ∀ o ∈ history, invoked o ≤ returned o) {orders : K → List O}
    (hperm : ∀ k, (orders k).Perm (history.filter fun o => key o = k))
    (hpair : ∀ k, (orders k).Pairwise fun a b => ¬ returned b < invoked a) :
    ∃ o ∈ history, ∃ rest, orders (key o) = o :: rest ∧ ∀ x ∈ history, invoked o ≤ returned x := by
  obtain ⟨m, hm⟩ : ∃ m, m ∈ history.argmin returned := by
    cases hmin : history.argmin returned with
    | none => exact absurd (List.argmin_eq_none.mp hmin) hne
    | some m => exact ⟨m, rfl⟩
  have hmem : m ∈ history := List.argmin_mem hm
  have hmorder : m ∈ orders (key m) := (hperm (key m)).mem_iff.mpr (by simp [hmem])
  obtain ⟨o, rest, hord⟩ := List.exists_cons_of_ne_nil (List.ne_nil_of_mem hmorder)
  have ho : o ∈ history ∧ key o = key m := by
    have := (hperm (key m)).mem_iff.mp (hord ▸ List.mem_cons_self)
    simpa using this
  refine ⟨o, ho.1, rest, ho.2 ▸ hord, fun x hx => ?_⟩
  have hle : invoked o ≤ returned m := by
    rw [hord] at hmorder
    rcases List.mem_cons.mp hmorder with rfl | hrest
    · exact hwf m hmem
    · exact not_lt.mp (List.rel_of_pairwise_cons (hord ▸ hpair (key m)) hrest)
  exact hle.trans (List.le_of_mem_argmin hx hm)

/-- The merge of the orders of the objects. -/
theorem exists_merge (n : ℕ) {history : List O} (hn : history.length = n)
    (hwf : ∀ o ∈ history, invoked o ≤ returned o) {objects : K → S} {orders : K → List O}
    (hperm : ∀ k, (orders k).Perm (history.filter fun o => key o = k))
    (hpair : ∀ k, (orders k).Pairwise fun a b => ¬ returned b < invoked a)
    (hlegal : ∀ k, (performs step (objects k) (orders k)).isSome) :
    Linearizable (fun a b => returned a < invoked b) (stepAt key step) objects history := by
  induction n generalizing history objects orders with
  | zero =>
    obtain rfl := List.length_eq_zero_iff.mp hn
    exact ⟨[], .refl _, .nil, rfl⟩
  | succ n ih =>
    obtain ⟨o, ho, rest, hord, hfirst⟩ :=
      exists_first (List.ne_nil_of_length_eq_add_one hn) hwf hperm hpair
    obtain ⟨before, after, rfl⟩ := List.append_of_mem ho
    have hsplit : (before ++ o :: after).Perm (o :: (before ++ after)) := List.perm_middle
    have hlen : (before ++ after).length = n := by
      rw [List.length_append, List.length_cons] at hn
      rw [List.length_append]
      omega
    obtain ⟨s', hs', hrest⟩ := isSome_performs_cons.mp (hord ▸ hlegal (key o))
    -- Without `o`, the object of its key is one step further and the others are where they were.
    have hperm' : ∀ k, (Function.update orders (key o) rest k).Perm
        ((before ++ after).filter fun x => key x = k) := by
      intro k
      have hfilter := (hperm k).trans (hsplit.filter _)
      rcases eq_or_ne k (key o) with rfl | hk
      · rw [hord, List.filter_cons_of_pos (by simp)] at hfilter
        rw [Function.update_self]
        exact hfilter.cons_inv
      · rw [List.filter_cons_of_neg (by simpa using Ne.symm hk)] at hfilter
        rwa [Function.update_of_ne hk]
    have hpair' : ∀ k, (Function.update orders (key o) rest k).Pairwise
        fun a b => ¬ returned b < invoked a := by
      intro k
      rcases eq_or_ne k (key o) with rfl | hk
      · rw [Function.update_self]
        exact (hord ▸ hpair (key o)).of_cons
      · rw [Function.update_of_ne hk]
        exact hpair k
    have hlegal' : ∀ k, (performs step (Function.update objects (key o) s' k)
        (Function.update orders (key o) rest k)).isSome := by
      intro k
      rcases eq_or_ne k (key o) with rfl | hk
      · rwa [Function.update_self, Function.update_self]
      · rw [Function.update_of_ne hk, Function.update_of_ne hk]
        exact hlegal k
    obtain ⟨order, hoperm, hopair, holegal⟩ := ih hlen
      (fun x hx => hwf x (hsplit.mem_iff.mpr (List.mem_cons_of_mem o hx))) hperm' hpair' hlegal'
    refine ⟨o :: order, (hoperm.cons o).trans hsplit.symm,
      List.pairwise_cons.mpr ⟨fun y hy => ?_, hopair⟩, ?_⟩
    · have hy' : y ∈ before ++ o :: after :=
        hsplit.mem_iff.mpr (List.mem_cons_of_mem o (hoperm.mem_iff.mp hy))
      exact not_lt.mpr (hfirst y hy')
    · refine isSome_performs_cons.mpr ⟨_, ?_, holegal⟩
      rw [stepAt, hs', Option.map_some]

/-- A history over many objects is linearizable exactly when the part of each object is. -/
theorem linearizable_stepAt_iff (invoked returned : O → T) {history : List O}
    (hwf : ∀ o ∈ history, invoked o ≤ returned o) (objects : K → S) :
    Linearizable (fun a b => returned a < invoked b) (stepAt key step) objects history ↔
      ∀ k, Linearizable (fun a b => returned a < invoked b) step (objects k)
        (history.filter fun o => key o = k) := by
  constructor
  · rintro ⟨order, hperm, hpair, hlegal⟩ k
    obtain ⟨objects', hrun⟩ := Option.isSome_iff_exists.mp hlegal
    refine ⟨order.filter fun o => key o = k, hperm.filter _, hpair.filter _, ?_⟩
    rw [performs_stepAt_filter k hrun]
    rfl
  · intro h
    choose orders hperm hpair hlegal using h
    exact exists_merge _ rfl hwf hperm hpair hlegal

end Locality

/-! ### Histories of a log -/

/-- The history is that of a log which takes the object from state to state: a write stands at the
place of its entry, a read at the last entry that it saw, and an entry that is no write of the history
changes nothing.  What precedes a write stands below it; what precedes a read stands at its place at
most, and a read of the same place came back earlier. -/
structure Traced (precedes : O → O → Prop) (step : S → O → Option S) (state : ℕ → S) (reads : O → Prop)
    (place time : O → ℕ) (history : List O) : Prop where
  read : ∀ o ∈ history, reads o → step (state (place o)) o = some (state (place o))
  write : ∀ o ∈ history, ¬ reads o → ∃ j, place o = j + 1 ∧ step (state j) o = some (state (j + 1))
  idle : ∀ j, (∀ o ∈ history, ¬ reads o → place o ≠ j + 1) → state (j + 1) = state j
  apart : history.Pairwise fun a b => ¬ reads a → ¬ reads b → place a ≠ place b
  order : ∀ a ∈ history, ∀ b ∈ history, precedes a b →
    place a < place b ∨ place a = place b ∧ reads b ∧ (reads a → time a < time b)

namespace Traced

variable {precedes : O → O → Prop} {step : S → O → Option S} {state : ℕ → S} {reads : O → Prop}
  {place time : O → ℕ} {history : List O}

/-- The object stays as it is from one place to another when no write stands between them. -/
theorem state_eq (h : Traced precedes step state reads place time history) {i j : ℕ} (hij : i ≤ j)
    (hno : ∀ o ∈ history, ¬ reads o → i < place o → j < place o) : state j = state i := by
  induction j, hij using Nat.le_induction with
  | base => rfl
  | succ j hij ih =>
    refine (h.idle j fun o ho hw hp => ?_).trans (ih fun o ho hw hlt => ?_)
    · have := hno o ho hw (by omega)
      omega
    · have := hno o ho hw hlt
      omega

/-- Operations in the order of their places, reads after the write of their place, are accepted from
the state that the first of them finds. -/
theorem performs_isSome (h : Traced precedes step state reads place time history) {order : List O}
    {i : ℕ} (hmem : ∀ o ∈ order, o ∈ history)
    (hsort : order.Pairwise fun a b => place a < place b ∨ place a = place b ∧ reads b)
    (hread : ∀ o ∈ order, i ≤ place o) (hwrite : ∀ o ∈ order, ¬ reads o → i < place o)
    (hrest : ∀ o ∈ history, ¬ reads o → i < place o → o ∈ order) :
    (performs step (state i) order).isSome := by
  induction order generalizing i with
  | nil => rfl
  | cons o order ih =>
    obtain ⟨hhead, hsort⟩ := List.pairwise_cons.mp hsort
    have ho : o ∈ history := hmem o List.mem_cons_self
    -- every write above `i` but `o` itself comes later in the order, so it stands above `o`
    have habove : ∀ b ∈ history, ¬ reads b → i < place b → b = o ∨ b ∈ order ∧ place o < place b := by
      intro b hb hw hlt
      rcases List.mem_cons.mp (hrest b hb hw hlt) with rfl | hb'
      · exact Or.inl rfl
      · exact Or.inr ⟨hb', (hhead b hb').resolve_right fun h => hw h.2⟩
    rw [isSome_performs_cons]
    by_cases hr : reads o
    · have hstate : state (place o) = state i := by
        refine h.state_eq (hread o List.mem_cons_self) fun b hb hw hlt => ?_
        rcases habove b hb hw hlt with rfl | hb'
        · exact absurd hr hw
        · exact hb'.2
      refine ⟨state (place o), hstate ▸ h.read o ho hr, ih (fun b hb => ?_) hsort (fun b hb => ?_)
        (fun b hb hw => ?_) fun b hb hw hlt => ?_⟩
      · exact hmem b (List.mem_cons_of_mem o hb)
      · rcases hhead b hb with hlt | ⟨heq, -⟩ <;> omega
      · exact (hhead b hb).resolve_right fun h => hw h.2
      · rcases habove b hb hw ((hread o List.mem_cons_self).trans_lt hlt) with rfl | hb'
        · exact absurd hr hw
        · exact hb'.1
    · obtain ⟨j, hj, hstep⟩ := h.write o ho hr
      have hlt := hwrite o List.mem_cons_self hr
      have hstate : state j = state i := by
        refine h.state_eq (by omega) fun b hb hw hlt => ?_
        rcases habove b hb hw hlt with rfl | hb' <;> omega
      refine ⟨state (j + 1), hstate ▸ hstep, ih (fun b hb => ?_) hsort (fun b hb => ?_)
        (fun b hb hw => ?_) fun b hb hw hlt' => ?_⟩
      · exact hmem b (List.mem_cons_of_mem o hb)
      · rcases hhead b hb with hlt | ⟨heq, -⟩ <;> omega
      · have := (hhead b hb).resolve_right fun h => hw h.2
        omega
      · rcases habove b hb hw (by omega) with rfl | hb'
        · omega
        · exact hb'.1

open Classical in
/-- By place, a read after the write of its place, reads of one place by time. -/
noncomputable def rank (reads : O → Prop) (place time : O → ℕ) (o : O) : ℕ ×ₗ ℕ :=
  toLex (2 * place o + if reads o then 1 else 0, time o)

theorem rank_lt {a b : O} (h : place a < place b ∨ place a = place b ∧ reads b ∧
    (reads a → time a < time b)) : rank reads place time a < rank reads place time b := by
  rw [rank, rank, Prod.Lex.toLex_lt_toLex]
  rcases h with h | ⟨h, hb, ht⟩
  · left
    dsimp only
    split <;> split <;> omega
  · dsimp only
    by_cases ha : reads a
    · right
      simp [h, ha, hb, ht ha]
    · left
      simp [h, ha, hb]

theorem le_of_rank_le {a b : O} (h : rank reads place time a ≤ rank reads place time b) :
    place a < place b ∨ place a = place b ∧ (reads b ∨ ¬ reads a) := by
  rw [rank, rank, Prod.Lex.toLex_le_toLex] at h
  by_cases ha : reads a <;> by_cases hb : reads b <;> simp [ha, hb] at h ⊢ <;> omega

theorem linearizable (h : Traced precedes step state reads place time history) :
    Linearizable precedes step (state 0) history := by
  let r : O → O → Prop := InvImage (· ≤ ·) (rank reads place time)
  have : DecidableRel r := Classical.decRel r
  have : Std.Total r := ⟨fun a b => le_total (rank reads place time a) _⟩
  have : IsTrans O r := ⟨fun a b c hab hbc => le_trans (a := rank reads place time a) hab hbc⟩
  have hperm : (history.insertionSort r).Perm history := history.perm_insertionSort r
  have hsort : (history.insertionSort r).Pairwise r := history.pairwise_insertionSort r
  have hmem : ∀ o ∈ history.insertionSort r, o ∈ history := fun o ho => hperm.mem_iff.mp ho
  refine ⟨history.insertionSort r, hperm, ?_, ?_⟩
  · refine hsort.imp_of_mem fun {a b} ha hb hab hprec => ?_
    exact not_lt.mpr hab (rank_lt (h.order b (hmem b hb) a (hmem a ha) hprec))
  · have hapart : (history.insertionSort r).Pairwise fun a b => ¬ reads a → ¬ reads b →
        place a ≠ place b :=
      (hperm.pairwise_iff fun {a b} hab hb ha => (hab ha hb).symm).mpr h.apart
    refine h.performs_isSome hmem ((hsort.and hapart).imp fun {a b} hab => ?_)
      (fun _ _ => Nat.zero_le _) (fun o ho hw => ?_) fun o ho _ _ => hperm.mem_iff.mpr ho
    · obtain ⟨hle, hne⟩ := hab
      rcases le_of_rank_le hle with hlt | ⟨heq, hb | ha⟩
      · exact Or.inl hlt
      · exact Or.inr ⟨heq, hb⟩
      · refine Or.inr ⟨heq, by_contra fun hb => hne ha hb heq⟩
    · obtain ⟨j, hj, -⟩ := h.write o (hmem o ho) hw
      omega

end Traced

end RaftStore.Lib
