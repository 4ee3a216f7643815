import Mathlib.Data.List.Sort

/-! Walking an ordered map with a cursor: the pairs it visits are the map's list of pairs, so what a
walk deletes or writes shows in that list. -/

namespace RaftStore.Lib

open Std

variable {α β : Type*} {cmp : α → α → Ordering} [TransCmp cmp] [LawfulEqCmp cmp]

omit [LawfulEqCmp cmp] in
theorem ne_of_lt {a b : α} (h : cmp a b = .lt) : a ≠ b := by
  rintro rfl
  have hself : cmp a a = .eq := ReflCmp.compare_self
  exact nomatch hself.symm.trans h

/-- The list of pairs is the only one in order with the map's pairs. -/
theorem toList_eq {m : ExtTreeMap α β cmp} {l : List (α × β)}
    (hl : l.Pairwise fun a b => cmp a.1 b.1 = .lt) (hmem : ∀ k v, m[k]? = some v ↔ (k, v) ∈ l) :
    m.toList = l := by
  have hm : m.toList.Pairwise fun a b => cmp a.1 b.1 = .lt := ExtTreeMap.ordered_keys_toList
  have hnodup : ∀ {l : List (α × β)}, l.Pairwise (fun a b => cmp a.1 b.1 = .lt) → l.Nodup :=
    fun h => h.imp fun {a b} hab heq => ne_of_lt hab (congrArg Prod.fst heq)
  have hperm : m.toList.Perm l := by
    refine (List.perm_ext_iff_of_nodup (hnodup hm) (hnodup hl)).mpr fun p => ?_
    exact ExtTreeMap.mem_toList_iff_getElem?_eq_some.trans (hmem p.1 p.2)
  refine List.Perm.eq_of_pairwise ?_ hm hl hperm
  intro a b _ _ hab hba
  have hswap : cmp a.1 b.1 = (cmp b.1 a.1).swap := OrientedCmp.eq_swap
  rw [hba, hab] at hswap
  exact nomatch hswap

/-- Sorting the keys gives the order of the map, whatever order they came in. -/
theorem insertionSort_eq_keys {m : ExtTreeMap α β cmp} {order : List α} (h : order.Perm m.keys) :
    order.insertionSort (fun a b => (cmp a b).isLE = true) = m.keys := by
  have htotal : Std.Total fun a b => (cmp a b).isLE = true := by
    refine ⟨fun a b => ?_⟩
    rw [← OrientedCmp.isGE_iff_isLE (a := a) (b := b)]
    cases cmp a b
    · exact .inl rfl
    · exact .inl rfl
    · exact .inr rfl
  have htrans : IsTrans α fun a b => (cmp a b).isLE = true :=
    ⟨fun _ _ _ => TransCmp.isLE_trans⟩
  refine List.Perm.eq_of_pairwise ?_
    (List.pairwise_insertionSort _ _) ?_ ((List.perm_insertionSort _ _).trans h)
  · exact fun a b _ _ hab hba =>
      LawfulEqCmp.compare_eq_iff_eq.mp (OrientedCmp.isLE_antisymm hab hba)
  · exact ExtTreeMap.ordered_keys.imp fun hlt => Ordering.isLE_of_eq_lt hlt

/-- Erasing the keys of a list leaves the other pairs. -/
theorem getElem?_foldl_erase {γ : Type*} {f : γ → α} {l : List γ} {m : ExtTreeMap α β cmp} {k : α}
    {v : β} : (l.foldl (fun m c => m.erase (f c)) m)[k]? = some v ↔
      k ∉ l.map f ∧ m[k]? = some v := by
  induction l generalizing m with
  | nil => simp
  | cons c l ih =>
    rw [List.foldl_cons, ih, ExtTreeMap.getElem?_erase, List.map_cons, List.mem_cons]
    by_cases hk : f c = k
    · rw [if_pos (LawfulEqCmp.compare_eq_iff_eq.mpr hk)]
      simp [hk]
    · rw [if_neg fun h => hk (LawfulEqCmp.compare_eq_iff_eq.mp h)]
      simp [Ne.symm hk]

omit [LawfulEqCmp cmp] in
theorem pairwise_key_unique {l : List (α × β)} (hl : l.Pairwise fun a b => cmp a.1 b.1 = .lt)
    {l₁ l₂ : List (α × β)} (h : l = l₁ ++ l₂) {k : α} {v w : β} (h₁ : (k, v) ∈ l₁)
    (h₂ : (k, w) ∈ l₂) : False := by
  rw [h] at hl
  exact ne_of_lt ((List.pairwise_append.mp hl).2.2 _ h₁ _ h₂) rfl

/-- Deleting some of the pairs leaves the others. -/
theorem toList_foldl_erase {m : ExtTreeMap α β cmp} {l l' : List (α × β)}
    (hl : l.Pairwise fun a b => cmp a.1 b.1 = .lt)
    (h : ∀ p, p ∈ m.toList ↔ p ∈ l ∨ p ∈ l')
    (hne : ∀ {k v w}, (k, v) ∈ l → (k, w) ∈ l' → False) :
    (l'.foldl (fun m p => m.erase p.1) m).toList = l := by
  refine toList_eq hl fun k v => ?_
  rw [getElem?_foldl_erase, ← ExtTreeMap.mem_toList_iff_getElem?_eq_some, h]
  constructor
  · rintro ⟨hk, hv | hv⟩
    · exact hv
    · exact absurd (List.mem_map_of_mem (f := Prod.fst) hv) hk
  · intro hv
    refine ⟨fun hk => ?_, .inl hv⟩
    obtain ⟨⟨_, w⟩, hw, rfl⟩ := List.mem_map.mp hk
    exact hne hv hw

/-- Deleting what a cursor visits from some place to the end leaves what is before it. -/
theorem toList_erase_right {m : ExtTreeMap α β cmp} {l₁ l₂ : List (α × β)}
    (h : m.toList = l₁ ++ l₂) : (l₂.foldl (fun m p => m.erase p.1) m).toList = l₁ := by
  have hm : m.toList.Pairwise fun a b => cmp a.1 b.1 = .lt := ExtTreeMap.ordered_keys_toList
  exact toList_foldl_erase (h ▸ hm |> List.pairwise_append.mp).1 (by simp [h])
    (pairwise_key_unique hm h)

/-- Deleting what a cursor visits from the beginning to some place leaves what is after it. -/
theorem toList_erase_left {m : ExtTreeMap α β cmp} {l₁ l₂ : List (α × β)}
    (h : m.toList = l₁ ++ l₂) : (l₁.foldl (fun m p => m.erase p.1) m).toList = l₂ := by
  have hm : m.toList.Pairwise fun a b => cmp a.1 b.1 = .lt := ExtTreeMap.ordered_keys_toList
  exact toList_foldl_erase (h ▸ hm |> List.pairwise_append.mp).2.1 (by simp [h, or_comm])
    fun h₂ h₁ => pairwise_key_unique hm h h₁ h₂

/-- Writing pairs past the end, in order, appends them. -/
theorem toList_insert_right {m : ExtTreeMap α β cmp} {l : List (α × β)}
    (h : (m.toList ++ l).Pairwise fun a b => cmp a.1 b.1 = .lt) :
    (l.foldl (fun m p => m.insert p.1 p.2) m).toList = m.toList ++ l := by
  induction l generalizing m with
  | nil => simp
  | cons p l ih =>
    have hsplit : m.toList ++ p :: l = m.toList ++ [p] ++ l := by simp
    rw [hsplit] at h
    have hone : (m.insert p.1 p.2).toList = m.toList ++ [p] := by
      refine toList_eq (List.pairwise_append.mp h).1 fun k v => ?_
      rw [ExtTreeMap.getElem?_insert, List.mem_append, List.mem_singleton,
        ExtTreeMap.mem_toList_iff_getElem?_eq_some]
      have hlast := (List.pairwise_append.mp (List.pairwise_append.mp h).1).2.2
      by_cases hk : p.1 = k
      · rw [if_pos (LawfulEqCmp.compare_eq_iff_eq.mpr hk)]
        constructor
        · rintro ⟨⟩
          exact .inr (by rw [← hk])
        · rintro (hv | rfl)
          · exact absurd hk.symm (ne_of_lt (hlast _
              (ExtTreeMap.mem_toList_iff_getElem?_eq_some.mpr hv) p (List.mem_singleton_self p)))
          · rfl
      · rw [if_neg fun h => hk (LawfulEqCmp.compare_eq_iff_eq.mp h)]
        constructor
        · exact .inl
        · rintro (hv | rfl)
          · exact hv
          · exact absurd rfl hk
    rw [List.foldl_cons, ih (hone ▸ h), hone, hsplit]

end RaftStore.Lib
