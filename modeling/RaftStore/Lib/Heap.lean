import Mathlib.Data.List.Sort

/-! Binary heaps kept in an array, as in Go's container/heap.  The element at `i` has the one at
`(i - 1) / 2` above it; an element moves up or down by exchanges until it is in order with the one
above and those below. -/

namespace RaftStore.Lib.Heap

variable {α κ : Type*} [LinearOrder κ] (key : α → κ)

/-- Moves the element at `j` up while it is less than the one above it. -/
def up (a : Array α) (j : ℕ) (hj : j < a.size) : Array α :=
  let i := (j - 1) / 2
  if i = j then a
  else if key a[j] < key a[i] then up (a.swap i j) i (by rw [Array.size_swap]; omega)
  else a
termination_by j

/-- The lesser of the elements below `i`, the left one if they are equal; `n` elements take part. -/
def lesser (a : Array α) (i n : ℕ) (hn : n ≤ a.size) : ℕ :=
  if h : 2 * i + 2 < n then if key a[2 * i + 2] < key a[2 * i + 1] then 2 * i + 2 else 2 * i + 1
  else 2 * i + 1

theorem lesser_eq (a : Array α) (i n : ℕ) (hn : n ≤ a.size) :
    lesser key a i n hn = 2 * i + 1 ∨ lesser key a i n hn = 2 * i + 2 ∧ 2 * i + 2 < n := by
  unfold lesser
  split
  · split
    · exact Or.inr ⟨rfl, by assumption⟩
    · exact Or.inl rfl
  · exact Or.inl rfl

/-- Moves the element at `i` down while one below it is less; `n` elements take part. -/
def down (a : Array α) (i n : ℕ) (hn : n ≤ a.size) : Array α :=
  if hi : 2 * i + 1 < n then
    have hj := lesser_eq key a i n hn
    if key a[lesser key a i n hn] < key a[i] then
      down (a.swap i (lesser key a i n hn)) (lesser key a i n hn) n
        (by rw [Array.size_swap]; exact hn)
    else a
  else a
termination_by n - i

def push (a : Array α) (x : α) : Array α :=
  up key (a.push x) a.size (by rw [Array.size_push]; omega)

/-- Takes the first element out: the last one is put in its place and moved down. -/
def pop (a : Array α) : Option (α × Array α) :=
  if h : 0 < a.size then
    let b := down key (a.swap 0 (a.size - 1)) 0 (a.size - 1) (by rw [Array.size_swap]; omega)
    b.back?.map fun x => (x, b.pop)
  else none

/-- The first `n` elements are in order with those above them. -/
def Ordered (a : Array α) (n : ℕ) : Prop :=
  ∀ k (hk : k < a.size), k < n → key a[(k - 1) / 2] ≤ key a[k]

/-- Only the element at `j` may be less than the one above it, which is in order with those below
`j`. -/
structure UpReady (a : Array α) (j : ℕ) (hj : j < a.size) : Prop where
  except : ∀ k (hk : k < a.size), k ≠ j → key a[(k - 1) / 2] ≤ key a[k]
  below : ∀ k (hk : k < a.size), (k - 1) / 2 = j → key a[(j - 1) / 2] ≤ key a[k]

/-- Only the element at `i` may be greater than those below it, which are in order with the one above
`i`. -/
structure DownReady (a : Array α) (i n : ℕ) (hn : n ≤ a.size) (hi : i ≤ n) : Prop where
  except : ∀ k (hk : k < n), k = 0 ∨ (k - 1) / 2 ≠ i → key a[(k - 1) / 2] ≤ key a[k]
  below : i ≠ 0 → ∀ k (hk : k < n), (k - 1) / 2 = i → key a[(i - 1) / 2] ≤ key a[k]

section

variable {key} {a : Array α} {i j n : ℕ}

/-! ### An exchange -/

/-- The exchanged element goes on where the one above it was; each pair that it touches is in order. -/
theorem UpReady.swap {hj : j < a.size} (h : UpReady key a j hj) (hne : (j - 1) / 2 ≠ j)
    (hlt : key a[j] < key a[(j - 1) / 2]) :
    UpReady key (a.swap ((j - 1) / 2) j) ((j - 1) / 2) (by rw [Array.size_swap]; omega) := by
  obtain ⟨i, hi⟩ : ∃ i, (j - 1) / 2 = i := ⟨_, rfl⟩
  simp only [hi] at hne hlt ⊢
  have hij : i < j := by omega
  constructor
  · intro k hk hki
    rw [Array.size_swap] at hk
    have habove := h.except k hk
    have hbelow := h.below k hk
    simp only [hi] at hbelow
    simp only [Array.getElem_swap]
    grind
  · intro k hk hki
    rw [Array.size_swap] at hk
    have habove := h.except k hk
    have hparent := h.except i (by omega) (by omega)
    simp only [Array.getElem_swap]
    grind

variable (key) in
theorem lesser_le (hn : n ≤ a.size) {k : ℕ} (hk : k < n) (hk0 : k ≠ 0) (hki : (k - 1) / 2 = i) :
    have := lesser_eq key a i n hn
    key a[lesser key a i n hn] ≤ key a[k] := by
  intro hj
  have hcases : k = 2 * i + 1 ∨ k = 2 * i + 2 := by omega
  unfold lesser
  split
  · split
    · rename_i hlt
      rcases hcases with rfl | rfl
      · exact hlt.le
      · exact le_rfl
    · rename_i hlt
      rcases hcases with rfl | rfl
      · exact le_rfl
      · exact not_lt.mp hlt
  · obtain rfl : k = 2 * i + 1 := by omega
    exact le_rfl

/-- The lesser of the elements below takes the place of the one that goes down. -/
theorem DownReady.swap {hn : n ≤ a.size} {hi : i ≤ n} (h : DownReady key a i n hn hi)
    (hj : (j - 1) / 2 = i) (hj0 : j ≠ 0) (hjn : j < n)
    (hmin : ∀ k (hk : k < n), k ≠ 0 → (k - 1) / 2 = i → key a[j] ≤ key a[k])
    (hlt : key a[j] < key a[i]) :
    DownReady key (a.swap i j) j n (by rw [Array.size_swap]; exact hn) hjn.le := by
  have hij : i < j := by omega
  constructor
  · intro k hk hkj
    have habove := h.except k hk
    have hjbelow := fun hi0 => h.below hi0 j hjn hj
    have hleast := hmin k hk
    simp only [Array.getElem_swap]
    grind
  · intro _ k hk hkj
    have habove := h.except k hk
    simp only [Array.getElem_swap]
    grind

/-! ### The loops -/

theorem up_perm (a : Array α) (j : ℕ) (hj : j < a.size) : (up key a j hj).toList.Perm a.toList := by
  fun_induction up key a j hj with
  | case1 => exact .refl _
  | case2 a j hj i hne hlt ih =>
    exact ih.trans (Array.perm_iff_toList_perm.mp (Array.swap_perm _ _))
  | case3 => exact .refl _

theorem up_ordered (a : Array α) (j : ℕ) (hj : j < a.size) (h : UpReady key a j hj) :
    Ordered key (up key a j hj) (up key a j hj).size := by
  fun_induction up key a j hj with
  | case1 a j hj i hij =>
    intro k hk _
    by_cases hkj : k = j
    · subst hkj
      simp only [show (k - 1) / 2 = k from hij]
      exact le_rfl
    · exact h.except k hk hkj
  | case2 a j hj i hne hlt ih => exact ih (h.swap hne hlt)
  | case3 a j hj i hne hge =>
    intro k hk _
    by_cases hkj : k = j
    · subst hkj
      exact not_lt.mp hge
    · exact h.except k hk hkj

theorem down_perm (a : Array α) (i n : ℕ) (hn : n ≤ a.size) :
    (down key a i n hn).toList.Perm a.toList := by
  fun_induction down key a i n hn with
  | case1 a i hn hi hj hlt ih =>
    exact ih.trans (Array.perm_iff_toList_perm.mp (Array.swap_perm _ _))
  | case2 => exact .refl _
  | case3 => exact .refl _

/-- What takes no part stays where it is. -/
theorem getElem?_down {k : ℕ} (a : Array α) (i n : ℕ) (hn : n ≤ a.size) (hin : i ≤ n) (hk : n ≤ k) :
    (down key a i n hn)[k]? = a[k]? := by
  fun_induction down key a i n hn with
  | case1 a i hn hi hj hlt ih =>
    rw [ih (by omega), Array.getElem?_swap]
    grind
  | case2 => rfl
  | case3 => rfl

theorem down_ordered (a : Array α) (i n : ℕ) (hn : n ≤ a.size) (hi : i ≤ n)
    (h : DownReady key a i n hn hi) :
    Ordered key (down key a i n hn) n := by
  fun_induction down key a i n hn with
  | case1 a i hn hlt hj hless ih =>
    refine ih (by omega) (h.swap (by omega) (by omega) (by omega) (fun k hk hk0 hki => ?_) hless)
    exact lesser_le key hn hk hk0 hki
  | case2 a i hn hlt hj hge =>
    intro k _ hk
    by_cases hki : k = 0 ∨ (k - 1) / 2 ≠ i
    · exact h.except k hk hki
    · simp only [not_or, not_not] at hki
      have := lesser_le key hn hk hki.1 hki.2
      simp only [hki.2]
      exact (not_lt.mp hge).trans this
  | case3 a i hn hge =>
    intro k _ hk
    exact h.except k hk (by omega)

/-! ### What the operations do -/

/-- In a heap nothing is less than the first element. -/
theorem Ordered.first_le (h : Ordered key a n) {k : ℕ} (hk : k < a.size) (hkn : k < n) :
    key a[0] ≤ key a[k] := by
  induction k using Nat.strong_induction_on with
  | h k ih =>
    by_cases hk0 : k = 0
    · subst hk0
      exact le_rfl
    · exact (ih ((k - 1) / 2) (by omega) (by omega) (by omega)).trans (h k hk hkn)

end

/-- A heap: every element is in order with the one above it. -/
def WF (a : Array α) : Prop := Ordered key a a.size

variable {key} {a : Array α}

theorem wf_empty : WF key (#[] : Array α) := fun _ hk => absurd hk (Nat.not_lt_zero _)

theorem push_perm (x : α) : (push key a x).toList.Perm (x :: a.toList) := by
  refine (up_perm _ _ _).trans ?_
  rw [Array.toList_push]
  exact List.perm_append_singleton x a.toList

theorem WF.push (h : WF key a) (x : α) : WF key (push key a x) := by
  refine up_ordered _ _ _ ⟨fun k hk hka => ?_, fun k hk hka => ?_⟩
  · rw [Array.size_push] at hk
    have := h k (by omega) (by omega)
    rwa [Array.getElem_push_lt (by omega), Array.getElem_push_lt (by omega)]
  · rw [Array.size_push] at hk
    have h0 : a.size = 0 := by omega
    have hk0 : k = 0 := by omega
    subst hk0
    simp only [h0]
    exact le_rfl

/-- With the last element in the first place only that one may be out of order. -/
theorem WF.downReady (h : WF key a) (h0 : 0 < a.size) :
    DownReady key (a.swap 0 (a.size - 1)) 0 (a.size - 1) (by rw [Array.size_swap]; omega)
      (Nat.zero_le _) := by
  constructor
  · intro k hk hk0
    have := h k (by omega) (by omega)
    simp only [Array.getElem_swap]
    grind
  · exact fun hne => absurd rfl hne

variable (key) in
theorem pop_spec (h0 : 0 < a.size) : ∃ b : Array α, pop key a = some (a[0], b) ∧
    a.toList.Perm (a[0] :: b.toList) ∧ (WF key a → WF key b) := by
  have hn : a.size - 1 ≤ (a.swap 0 (a.size - 1)).size := by rw [Array.size_swap]; omega
  obtain ⟨d, hd⟩ : ∃ d, down key (a.swap 0 (a.size - 1)) 0 (a.size - 1) hn = d := ⟨_, rfl⟩
  have hperm : d.toList.Perm a.toList := by
    rw [← hd]
    exact (down_perm _ _ _ _).trans (Array.perm_iff_toList_perm.mp (Array.swap_perm _ _))
  have hsize : d.size = a.size := by simpa using hperm.length_eq
  -- The first element now stands last, and takes no part in the way down.
  have hlast : d[a.size - 1]? = some a[0] := by
    rw [← hd, getElem?_down _ _ _ _ (Nat.zero_le _) le_rfl, Array.getElem?_swap]
    grind
  have hback : d.back? = some a[0] := by rw [Array.back?, hsize, hlast]
  obtain ⟨hne, hget⟩ := Array.getElem?_eq_some_iff.mp hlast
  refine ⟨d.pop, ?_, ?_, fun h k hk hkn => ?_⟩
  · rw [pop, dif_pos h0]
    simp only [hd, hback, Option.map_some]
  · refine hperm.symm.trans ?_
    have hsplit : d.toList = d.pop.toList ++ [a[0]] := by
      have hlt : d.toList ≠ [] := by simpa [← Array.size_eq_zero_iff] using by omega
      rw [Array.toList_pop, ← List.dropLast_concat_getLast hlt]
      simp [List.getLast_eq_getElem, hsize, hget]
    rw [hsplit]
    exact List.perm_append_singleton _ _
  · have hord := down_ordered _ _ _ _ _ (h.downReady h0)
    rw [hd] at hord
    rw [Array.size_pop] at hk
    rw [Array.getElem_pop, Array.getElem_pop]
    exact hord k (by omega) (by omega)

theorem pop_eq_none : pop key a = none ↔ a = #[] := by
  rw [← Array.size_eq_zero_iff]
  constructor
  · intro hp
    by_contra h0
    obtain ⟨b, hb, -⟩ := pop_spec key (Nat.pos_of_ne_zero h0)
    rw [hp] at hb
    cases hb
  · intro h0
    rw [pop, dif_neg (by omega)]

theorem WF.of_pop (h : WF key a) {x : α} {b : Array α} (hp : pop key a = some (x, b)) :
    WF key b ∧ a.toList.Perm (x :: b.toList) ∧ ∀ y ∈ a.toList, key x ≤ key y := by
  have h0 : 0 < a.size := by
    by_contra h0
    rw [pop, dif_neg h0] at hp
    cases hp
  obtain ⟨b', hb, hperm, hwf⟩ := pop_spec key h0
  cases hp.symm.trans hb
  refine ⟨hwf h, hperm, fun y hy => ?_⟩
  obtain ⟨k, hk, rfl⟩ := List.mem_iff_getElem.mp hy
  exact h.first_le hk hk

end RaftStore.Lib.Heap
