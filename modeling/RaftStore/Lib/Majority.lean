import Mathlib.Data.List.Sort
import Mathlib.Algebra.Order.Group.Nat

/-! Majorities of a list: two of them share an element, and the middle element of a sorted list is
reached by a majority of the list. -/

namespace RaftStore.Lib

variable {α : Type}

theorem countP_add_countP_le {p q : α → Bool} (l : List α)
    (h : ∀ x ∈ l, ¬(p x = true ∧ q x = true)) : l.countP p + l.countP q ≤ l.length := by
  induction l with
  | nil => simp
  | cons a l ih =>
    have hl := ih fun x hx => h x (List.mem_cons_of_mem _ hx)
    have ha := h a List.mem_cons_self
    rw [List.countP_cons, List.countP_cons, List.length_cons]
    split <;> split <;> simp_all <;> omega

/-- Two majorities of one list share an element. -/
theorem exists_mem_of_majorities {p q : α → Bool} {l : List α} (hp : l.length < l.countP p * 2)
    (hq : l.length < l.countP q * 2) : ∃ x ∈ l, p x = true ∧ q x = true := by
  by_contra hne
  have h := countP_add_countP_le (p := p) (q := q) l fun x hx hpq => hne ⟨x, hx, hpq⟩
  omega

/-- In a list that never decreases, the element at position `k` is at least `i` when all from there
on are, and only then. -/
theorem le_getElem_iff_countP {l : List ℕ} (hl : l.Pairwise (· ≤ ·)) {k : ℕ} (hk : k < l.length)
    (i : ℕ) : i ≤ l[k] ↔ l.length - k ≤ l.countP (fun x => i ≤ x) := by
  have hsplit : l = l.take k ++ l[k] :: l.drop (k + 1) := by
    rw [← List.drop_eq_getElem_cons hk, List.take_append_drop]
  have hpair := hl
  rw [hsplit, List.pairwise_append] at hpair
  obtain ⟨-, htail, hcross⟩ := hpair
  constructor
  · intro hle
    have hall : (l.drop k).countP (fun x => i ≤ x) = (l.drop k).length := by
      rw [List.countP_eq_length]
      intro x hx
      rw [List.drop_eq_getElem_cons hk, List.mem_cons] at hx
      rw [decide_eq_true_eq]
      rcases hx with rfl | hx
      · exact hle
      · exact hle.trans (List.rel_of_pairwise_cons htail hx)
    calc l.length - k = (l.drop k).length := by simp
      _ = (l.drop k).countP (fun x => i ≤ x) := hall.symm
      _ ≤ l.countP (fun x => i ≤ x) := (List.drop_sublist k l).countP_le
  · intro hcount
    by_contra hlt
    -- the first `k + 1` elements are all below `i`
    have hnone : (l.take (k + 1)).countP (fun x => i ≤ x) = 0 := by
      rw [List.countP_eq_zero]
      intro x hx
      rw [List.take_succ_eq_append_getElem hk, List.mem_append, List.mem_singleton] at hx
      rw [decide_eq_true_eq]
      rcases hx with hx | rfl
      · have := hcross x hx l[k] List.mem_cons_self
        omega
      · exact hlt
    have hrest := List.countP_le_length (p := fun x => decide (i ≤ x)) (l := l.drop (k + 1))
    have hsum : l.countP (fun x => i ≤ x) =
        (l.take (k + 1)).countP (fun x => i ≤ x) + (l.drop (k + 1)).countP (fun x => i ≤ x) := by
      rw [← List.countP_append, List.take_append_drop]
    rw [List.length_drop] at hrest
    omega

/-- The middle of the sorted values is at least `i` when a majority of the values is, and only
then. -/
theorem le_middle_iff (f : α → ℕ) {l : List α} (hl : l ≠ []) (i : ℕ) :
    i ≤ ((l.map f).insertionSort (· ≤ ·)).getD ((l.length - 1) / 2) 0 ↔
      l.length < l.countP (fun x => i ≤ f x) * 2 := by
  have hpos : 0 < l.length := List.length_pos_of_ne_nil hl
  have hlen : ((l.map f).insertionSort (· ≤ ·)).length = l.length := by simp
  have hk : (l.length - 1) / 2 < ((l.map f).insertionSort (· ≤ ·)).length := by omega
  have hcount := le_getElem_iff_countP (List.pairwise_insertionSort (· ≤ ·) (l.map f)) hk i
  rw [(List.perm_insertionSort (· ≤ ·) (l.map f)).countP_eq, List.countP_map, hlen] at hcount
  rw [List.getD_eq_getElem?_getD, List.getElem?_eq_getElem hk, Option.getD_some, hcount]
  simp only [Function.comp_def]
  omega

end RaftStore.Lib
