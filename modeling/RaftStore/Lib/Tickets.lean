import Mathlib.Data.List.Nodup
import Mathlib.Data.List.Pairwise

/-! Requests that are given consecutive tickets and wait in a table, under keys of their own, until
they are answered. -/

namespace RaftStore.Lib

variable {K V : Type} {cmp : K → K → Ordering} [Std.TransCmp cmp]

/-- Of the tickets issued none has been answered twice, or answered and kept waiting, or put into the
table twice. -/
structure Tickets (ticket : V → ℕ) (issued : ℕ) (table : Std.ExtTreeMap K V cmp)
    (answered : List ℕ) : Prop where
  nodup : answered.Nodup
  answered_lt : ∀ t ∈ answered, t < issued
  waiting_lt : ∀ (k : K) v, table[k]? = some v → ticket v < issued
  apart : ∀ (k : K) v, table[k]? = some v → ticket v ∉ answered
  inj : ∀ (k k' : K) v v', table[k]? = some v → table[k']? = some v' → ticket v = ticket v' → k = k'

/-- Every ticket issued has been answered or waits. -/
def NoneLost (ticket : V → ℕ) (issued : ℕ) (table : Std.ExtTreeMap K V cmp)
    (answered : List ℕ) : Prop :=
  ∀ t < issued, t ∈ answered ∨ ∃ (k : K) (v : V), table[k]? = some v ∧ ticket v = t

variable {ticket : V → ℕ} {issued : ℕ} {table : Std.ExtTreeMap K V cmp} {answered : List ℕ}

theorem Tickets.empty (ticket : V → ℕ) : Tickets ticket 0 (∅ : Std.ExtTreeMap K V cmp) [] where
  nodup := .nil
  answered_lt := nofun
  waiting_lt k v h := by simp at h
  apart k v h := by simp at h
  inj k k' v v' h := by simp at h

theorem NoneLost.empty (ticket : V → ℕ) : NoneLost ticket 0 (∅ : Std.ExtTreeMap K V cmp) [] :=
  fun t ht => absurd ht (Nat.not_lt_zero t)

/-- A request is answered at once. -/
theorem Tickets.refuse (h : Tickets ticket issued table answered) :
    Tickets ticket (issued + 1) table (answered ++ [issued]) := by
  refine ⟨?_, ?_, fun k v hk => Nat.lt_succ_of_lt (h.waiting_lt k v hk), ?_, h.inj⟩
  · rw [← List.concat_eq_append]
    exact h.nodup.concat fun hmem => absurd (h.answered_lt _ hmem) (Nat.lt_irrefl _)
  · intro t ht
    rcases List.mem_append.mp ht with ht | ht
    · exact Nat.lt_succ_of_lt (h.answered_lt t ht)
    · rw [List.mem_singleton.mp ht]
      exact Nat.lt_succ_self issued
  · intro k v hk hmem
    rcases List.mem_append.mp hmem with hmem | hmem
    · exact h.apart k v hk hmem
    · have := h.waiting_lt k v hk
      rw [List.mem_singleton.mp hmem] at this
      exact Nat.lt_irrefl _ this

theorem NoneLost.refuse (h : NoneLost ticket issued table answered) :
    NoneLost ticket (issued + 1) table (answered ++ [issued]) := by
  intro t ht
  rcases Nat.lt_succ_iff_lt_or_eq.mp ht with ht | rfl
  · exact (h t ht).imp_left (List.mem_append_left _)
  · exact Or.inl (List.mem_append_right _ List.mem_cons_self)

variable [Std.LawfulEqCmp cmp]

/-- A new request waits; what waited under its key no longer does. -/
theorem Tickets.insert (h : Tickets ticket issued table answered) (k : K) {v : V}
    (hv : ticket v = issued) : Tickets ticket (issued + 1) (table.insert k v) answered := by
  have hold : ∀ (k' : K) v', (table.insert k v)[k']? = some v' →
      k = k' ∧ v = v' ∨ table[k']? = some v' := by
    intro k' v' h'
    rw [Std.ExtTreeMap.getElem?_insert] at h'
    split at h'
    · rename_i heq
      exact Or.inl ⟨Std.LawfulEqCmp.eq_of_compare heq, Option.some.inj h'⟩
    · exact Or.inr h'
  refine ⟨h.nodup, fun t ht => Nat.lt_succ_of_lt (h.answered_lt t ht), ?_, ?_, ?_⟩
  · intro k' v' h'
    rcases hold k' v' h' with ⟨-, rfl⟩ | h'
    · omega
    · exact Nat.lt_succ_of_lt (h.waiting_lt k' v' h')
  · intro k' v' h' hmem
    rcases hold k' v' h' with ⟨-, rfl⟩ | h'
    · exact absurd (h.answered_lt _ hmem) (by omega)
    · exact h.apart k' v' h' hmem
  · intro k₁ k₂ v₁ v₂ h₁ h₂ heq
    rcases hold k₁ v₁ h₁ with ⟨rfl, rfl⟩ | h₁' <;> rcases hold k₂ v₂ h₂ with ⟨rfl, rfl⟩ | h₂'
    · rfl
    · have := h.waiting_lt k₂ v₂ h₂'
      omega
    · have := h.waiting_lt k₁ v₁ h₁'
      omega
    · exact h.inj k₁ k₂ v₁ v₂ h₁' h₂' heq

/-- Under a key that nothing waits under, a request is put without loss. -/
theorem NoneLost.insert (h : NoneLost ticket issued table answered) {k : K} {v : V}
    (hv : ticket v = issued) (hk : table[k]? = none) :
    NoneLost ticket (issued + 1) (table.insert k v) answered := by
  intro t ht
  rcases Nat.lt_succ_iff_lt_or_eq.mp ht with ht | rfl
  · refine (h t ht).imp_right ?_
    rintro ⟨k', v', hk', rfl⟩
    refine ⟨k', v', ?_, rfl⟩
    rw [Std.ExtTreeMap.getElem?_insert, if_neg, hk']
    intro heq
    rw [← Std.LawfulEqCmp.eq_of_compare heq, hk] at hk'
    exact nomatch hk'
  · exact Or.inr ⟨k, v, Std.ExtTreeMap.getElem?_insert_self, hv⟩

/-- A request that waits is answered. -/
theorem Tickets.answer (h : Tickets ticket issued table answered) {k : K} {v : V}
    (hk : table[k]? = some v) :
    Tickets ticket issued (table.erase k) (answered ++ [ticket v]) := by
  have hold : ∀ (k' : K) v', (table.erase k)[k']? = some v' → k ≠ k' ∧ table[k']? = some v' := by
    intro k' v' h'
    rw [Std.ExtTreeMap.getElem?_erase] at h'
    split at h'
    · exact nomatch h'
    · rename_i hne
      exact ⟨fun heq => hne (heq ▸ Std.ReflCmp.compare_self), h'⟩
  refine ⟨?_, ?_, fun k' v' h' => h.waiting_lt k' v' (hold k' v' h').2, ?_, ?_⟩
  · rw [← List.concat_eq_append]
    exact h.nodup.concat (h.apart k v hk)
  · intro t ht
    rcases List.mem_append.mp ht with ht | ht
    · exact h.answered_lt t ht
    · rw [List.mem_singleton.mp ht]
      exact h.waiting_lt k v hk
  · intro k' v' h' hmem
    obtain ⟨hne, h'⟩ := hold k' v' h'
    rcases List.mem_append.mp hmem with hmem | hmem
    · exact h.apart k' v' h' hmem
    · exact hne (h.inj k k' v v' hk h' (List.mem_singleton.mp hmem).symm)
  · intro k₁ k₂ v₁ v₂ h₁ h₂
    exact h.inj k₁ k₂ v₁ v₂ (hold k₁ v₁ h₁).2 (hold k₂ v₂ h₂).2

theorem NoneLost.answer (h : NoneLost ticket issued table answered) {k : K} {v : V}
    (hk : table[k]? = some v) :
    NoneLost ticket issued (table.erase k) (answered ++ [ticket v]) := by
  intro t ht
  rcases h t ht with hmem | ⟨k', v', hk', rfl⟩
  · exact Or.inl (List.mem_append_left _ hmem)
  · by_cases heq : cmp k k' = .eq
    · rw [← Std.LawfulEqCmp.eq_of_compare heq, hk] at hk'
      rw [Option.some.inj hk']
      exact Or.inl (List.mem_append_right _ List.mem_cons_self)
    · exact Or.inr ⟨k', v', by rw [Std.ExtTreeMap.getElem?_erase, if_neg heq, hk'], rfl⟩

/-- Every request that waits is answered. -/
theorem Tickets.answerAll (h : Tickets ticket issued table answered) :
    Tickets ticket issued (∅ : Std.ExtTreeMap K V cmp)
      (answered ++ table.toList.map fun w => ticket w.2) := by
  have hmem : ∀ {t}, t ∈ table.toList.map (fun w => ticket w.2) →
      ∃ (k : K) (v : V), table[k]? = some v ∧ ticket v = t := by
    intro t ht
    obtain ⟨⟨k, v⟩, hw, rfl⟩ := List.mem_map.mp ht
    exact ⟨k, v, Std.ExtTreeMap.mem_toList_iff_getElem?_eq_some.mp hw, rfl⟩
  refine ⟨?_, ?_, fun k v hk => by simp at hk, fun k v hk => by simp at hk,
    fun k k' v v' hk => by simp at hk⟩
  · refine List.nodup_append.mpr ⟨h.nodup, ?_, ?_⟩
    · refine List.pairwise_map.mpr (Std.ExtTreeMap.distinct_keys_toList.imp_of_mem ?_)
      intro w w' hw hw' hne heq
      have := h.inj w.1 w'.1 w.2 w'.2 (Std.ExtTreeMap.mem_toList_iff_getElem?_eq_some.mp hw)
        (Std.ExtTreeMap.mem_toList_iff_getElem?_eq_some.mp hw') heq
      exact hne (this ▸ Std.ReflCmp.compare_self)
    · intro t ht t' ht' heq
      obtain ⟨k, v, hk, rfl⟩ := hmem ht'
      exact h.apart k v hk (heq ▸ ht)
  · intro t ht
    rcases List.mem_append.mp ht with ht | ht
    · exact h.answered_lt t ht
    · obtain ⟨k, v, hk, rfl⟩ := hmem ht
      exact h.waiting_lt k v hk

theorem NoneLost.answerAll (h : NoneLost ticket issued table answered) :
    NoneLost ticket issued (∅ : Std.ExtTreeMap K V cmp)
      (answered ++ table.toList.map fun w => ticket w.2) := by
  intro t ht
  refine Or.inl (List.mem_append.mpr ((h t ht).imp_right ?_))
  rintro ⟨k, v, hk, rfl⟩
  exact List.mem_map.mpr ⟨(k, v), Std.ExtTreeMap.mem_toList_iff_getElem?_eq_some.mpr hk, rfl⟩

end RaftStore.Lib
