import RaftStore.Kvstore.Sessions

/-! A store that was restored from a snapshot against one that replayed the log.  A snapshot carries
the map and not the clients, so the two agree on what follows exactly when the restored store
already had the other's clients in the same order. -/

namespace RaftStore.Kvstore

open Lib Raft

/-- The index of the last entry, `k` when there is none. -/
def lastIndex (k : ℕ) : List LogEntry → ℕ
  | [] => k
  | e :: es => lastIndex e.index es

namespace Store

/-- Two stores that answer every later stretch of log alike and end it with the same map. -/
def Alike (k : ℕ) (a b : Store) : Prop :=
  ∀ S, Commands k S → ∃ results a' b', a.applyAll S = .ok (results, a') ∧
    b.applyAll S = .ok (results, b') ∧ a'.data = b'.data

/-! ### Stores that remember the same -/

theorem alike_of_machine {a b : Store} {k : ℕ} (ha : a.Ages k) (hb : b.Ages k)
    (h : a.machine = b.machine) : Alike k a b := by
  intro S hS
  induction S generalizing a b k with
  | nil => exact ⟨[], a, b, rfl, rfl, congrArg Machine.data h⟩
  | cons e S ih =>
    obtain ⟨hk, hknown, hS⟩ := hS
    obtain ⟨cmd, hcmd⟩ := Option.isSome_iff_exists.mp hknown
    obtain ⟨result, a', happly, hstep, ha'⟩ := apply_machine ha hk hcmd
    obtain ⟨resultb, b', happlyb, hstepb, hb'⟩ := apply_machine hb hk hcmd
    -- One machine takes one step, so both results and both machines afterwards are the same.
    rw [h, hstepb] at hstep
    simp only [Option.some.injEq, Prod.mk.injEq] at hstep
    obtain ⟨rfl, hmachine⟩ := hstep
    obtain ⟨results, a'', b'', ha'', hb'', hdata⟩ := ih ha' hb' hmachine.symm hS
    refine ⟨resultb :: results, a'', b'', ?_, ?_, hdata⟩
    · simp only [applyAll, happly, ha'']
    · simp only [applyAll, happlyb, hb'']

/-! ### Stores that remember different things -/

theorem Alike.step {a b : Store} {k : ℕ} (h : Alike k a b) {e : LogEntry} (hk : k < e.index)
    (hknown : (knownCommand e).isSome = true) :
    ∃ result a' b', a.apply e = .ok (result, a') ∧ b.apply e = .ok (result, b') ∧
      Alike e.index a' b' := by
  have hsplit : ∀ S, Commands e.index S → ∃ result results a' b' a'' b'',
      a.apply e = .ok (result, a') ∧ b.apply e = .ok (result, b') ∧
      a'.applyAll S = .ok (results, a'') ∧ b'.applyAll S = .ok (results, b'') ∧
      a''.data = b''.data := by
    intro S hS
    obtain ⟨results, a'', b'', ha, hb, hdata⟩ := h (e :: S) ⟨hk, hknown, hS⟩
    rw [applyAll] at ha hb
    split at ha
    · exact nomatch ha
    · rename_i result a' happly
      split at ha
      · exact nomatch ha
      · rename_i resultsa s ha'
        cases ha
        split at hb
        · exact nomatch hb
        · rename_i resultb b' happlyb
          split at hb
          · exact nomatch hb
          · rename_i hb'
            cases hb
            exact ⟨_, _, _, _, _, _, happly, happlyb, ha', hb', hdata⟩
  obtain ⟨result, -, a', b', -, -, ha, hb, -⟩ := hsplit [] trivial
  refine ⟨result, a', b', ha, hb, fun S hS => ?_⟩
  obtain ⟨_, results, _, _, a'', b'', ha', hb', haa, hbb, hdata⟩ := hsplit S hS
  rw [ha] at ha'
  rw [hb] at hb'
  cases ha'
  cases hb'
  exact ⟨results, a'', b'', haa, hbb, hdata⟩

/-- An entry of client `c` with sequence number `q`, which deletes a key. -/
def probe (c q : UInt64) (index : ℕ) : LogEntry where
  index := index
  command := 1 :: (appendUvarint [] c ++ (appendUvarint [] q ++ appendBytes [] [0]))

theorem knownCommand_probe (c q : UInt64) (index : ℕ) :
    knownCommand (probe c q index) =
      some { op := .delete, key := [0], clientID := c, sequence := q } := by
  have hread := readBytes_append (b := [0]) (by decide) [] "key"
  rw [List.append_nil] at hread
  simp [knownCommand, decodeCommand, probe, uvarint_append, hread, Op.ofByte]

/-- Stores that answer alike hold the same answers. -/
theorem Alike.checkSession_eq {a b : Store} {k : ℕ} (h : Alike k a b) (c q : UInt64) :
    a.checkSession c q = b.checkSession c q := by
  have hcmd := knownCommand_probe c q (k + 1)
  obtain ⟨result, a', b', ha, hb, -⟩ := h.step (e := probe c q (k + 1)) (Nat.lt_succ_self k)
    (Option.isSome_iff_exists.mpr ⟨_, hcmd⟩)
  rcases a.apply_ok hcmd with ⟨ra, hca, happly⟩ | ⟨ra, da, hca, -, hda, happly⟩ <;>
    rcases b.apply_ok hcmd with ⟨rb, hcb, happlyb⟩ | ⟨rb, db, hcb, -, hdb, happlyb⟩ <;>
    rw [ha] at happly <;> rw [hb] at happlyb <;> cases happly <;> cases happlyb
  · exact hca.trans hcb.symm
  · exact nomatch (duplicate_of_checkSession hca).symm.trans hdb
  · exact nomatch (duplicate_of_checkSession hcb).symm.trans hda
  · exact hca.trans hcb.symm

theorem answer_eq_of_check {a b : Store} (h : ∀ c q, a.checkSession c q = b.checkSession c q) :
    a.memory.answer = b.memory.answer := by
  funext c
  simp only [memory]
  by_cases hc : c = 0
  · rw [hc, a.nonzero, b.nonzero]
  · cases ha : a.sessions[c]? with
    | none =>
      cases hb : b.sessions[c]? with
      | none => rfl
      | some sb =>
        have := h c sb.lastSeq
        rw [checkSession_of_none ha, checkSession_of_some hc hb, if_neg (UInt64.lt_irrefl _)] at this
        cases this
    | some sa =>
      cases hb : b.sessions[c]? with
      | none =>
        have := h c sa.lastSeq
        rw [checkSession_of_none hb, checkSession_of_some hc ha, if_neg (UInt64.lt_irrefl _)] at this
        cases this
      | some sb =>
        have h1 := h c sa.lastSeq
        have h2 := h c sb.lastSeq
        rw [checkSession_of_some hc ha, checkSession_of_some hc hb,
          if_neg (UInt64.lt_irrefl _)] at h1 h2
        split at h1
        · cases h1
        · rename_i hle
          split at h2
          · cases h2
          · rename_i hge
            have hseq := UInt64.le_antisymm (UInt64.not_lt.mp hge) (UInt64.not_lt.mp hle)
            have hexisted := congrArg Result.existed (Option.some.inj h1)
            simp only at hexisted
            rw [Option.map_some, Option.map_some, hseq, hexisted]

theorem mem_order_iff_of_answer {a b : Store} (h : a.memory.answer = b.memory.answer) (c : UInt64) :
    c ∈ a.memory.order ↔ c ∈ b.memory.order := by
  have hc : (a.sessions[c]?.map fun s => (s.lastSeq, s.result.existed)).isSome =
      (b.sessions[c]?.map fun s => (s.lastSeq, s.result.existed)).isSome :=
    congrArg Option.isSome (congrFun h c)
  rw [Option.isSome_map, Option.isSome_map] at hc
  rw [mem_order, mem_order, ← Option.isSome_iff_exists, ← Option.isSome_iff_exists, hc]

theorem Alike.mem_order_iff {a b : Store} {k : ℕ} (h : Alike k a b) (c : UInt64) :
    c ∈ a.memory.order ↔ c ∈ b.memory.order :=
  mem_order_iff_of_answer (answer_eq_of_check h.checkSession_eq) c

theorem Alike.size_eq {a b : Store} {k : ℕ} (h : Alike k a b) :
    a.sessions.size = b.sessions.size := by
  rw [← order_length, ← order_length]
  exact ((List.perm_ext_iff_of_nodup a.order_nodup b.order_nodup).mpr h.mem_order_iff).length_eq

/-- There is always a client that the store does not know. -/
theorem exists_fresh (s : Store) : ∃ f : UInt64, f ≠ 0 ∧ s.sessions[f]? = none := by
  by_contra hall
  push Not at hall
  have hlimit := s.limit_lt
  -- One client more than the table holds, all of them known.
  let ids := (List.range (s.maxSessions + 1)).map fun n => UInt64.ofNat (n + 1)
  have hval : ∀ n ∈ List.range (s.maxSessions + 1), (UInt64.ofNat (n + 1)).toNat = n + 1 := by
    intro n hn
    have := List.mem_range.mp hn
    exact UInt64.toNat_ofNat_of_lt' (by simp only [UInt64.size]; omega)
  have hnodup : ids.Nodup := by
    refine List.Nodup.map_on ?_ List.nodup_range
    intro m hm n hn heq
    have := congrArg UInt64.toNat heq
    rw [hval m hm, hval n hn] at this
    omega
  have hsub : ids ⊆ s.memory.order := by
    intro id hid
    obtain ⟨n, hn, rfl⟩ := List.mem_map.mp hid
    rw [mem_order, ← Option.isSome_iff_exists, ← Option.ne_none_iff_isSome]
    refine hall _ fun hzero => ?_
    have := congrArg UInt64.toNat hzero
    rw [hval n hn] at this
    exact nomatch this
  have hle := (List.subperm_of_subset hnodup hsub).length_le
  have hsize := s.size_le
  rw [order_length, List.length_map, List.length_range] at hle
  omega

/-- A client the store does not know is put into the table, and the oldest leaves a full one. -/
theorem visit (s : Store) {f : UInt64} (hf : f ≠ 0) (hnone : s.sessions[f]? = none) (i : ℕ) :
    ∃ result s', s.apply (probe f 0 i) = .ok (result, s') ∧ s'.maxSessions = s.maxSessions ∧
      s'.sessions = evictSessions s.maxSessions (s.sessions.insert f ⟨0, i, result⟩) := by
  rcases s.apply_ok (knownCommand_probe f 0 i) with ⟨r, hcheck, -⟩ | ⟨r, data, -, -, -, happly⟩
  · rw [checkSession_of_none hnone] at hcheck
    exact nomatch hcheck
  · refine ⟨r, _, happly, maxSessions_recordSession _ _ _ _ _, ?_⟩
    simp only [recordSession, hf, dif_neg, not_false_eq_true, probe]

theorem order_of_evict {s s' : Store} {f : UInt64} {new : Session} (hnone : s.sessions[f]? = none)
    (hs' : s'.sessions = evictSessions s.maxSessions (s.sessions.insert f new)) :
    s'.memory.order = ((candidates (s.sessions.insert f new)).drop
      (s.sessions.size + 1 - s.maxSessions)).map (·.id) := by
  have hsize : (s.sessions.insert f new).size = s.sessions.size + 1 := by
    rw [Std.ExtTreeMap.size_insert, if_neg]
    rw [Std.ExtTreeMap.contains_eq_isSome_getElem?, hnone]
    exact Bool.false_ne_true
  rw [memory, hs', candidates_evictSessions, hsize]

/-- Every client in the table was last heard of at or below index `k`. -/
def Upto (s : Store) (k : ℕ) : Prop :=
  ∀ (c : UInt64) session, s.sessions[c]? = some session → session.lastIndex ≤ k

/-- The first client stands before the second in the order of eviction. -/
def Older (s : Store) (x y : UInt64) : Prop :=
  ∀ sx sy, s.sessions[x]? = some sx → s.sessions[y]? = some sy →
    Candidate.LE ⟨x, sx.lastIndex⟩ ⟨y, sy.lastIndex⟩

theorem Older.congr {s s' : Store} {x y : UInt64} (h : s'.Older x y)
    (hx : s'.sessions[x]? = s.sessions[x]?) (hy : s'.sessions[y]? = s.sessions[y]?) : s.Older x y :=
  fun sx sy hsx hsy => h sx sy (hx.trans hsx) (hy.trans hsy)

/-- The client that leaves a full table is the oldest. -/
theorem older_of_evicted {s s' : Store} {f x y : UInt64} {new : Session}
    (hnone : s.sessions[f]? = none) (hfull : s.sessions.size = s.maxSessions)
    (hs' : s'.sessions = evictSessions s.maxSessions (s.sessions.insert f new))
    (hx : x ≠ f) (hy : y ≠ f) (hgone : x ∉ s'.memory.order) : s.Older x y := by
  intro sx sy hsx hsy
  rw [order_of_evict hnone hs', hfull, Nat.add_sub_cancel_left] at hgone
  have hmem : ∀ z sz, z ≠ f → s.sessions[z]? = some sz →
      (⟨z, sz.lastIndex⟩ : Candidate) ∈ candidates (s.sessions.insert f new) := by
    intro z sz hz hsz
    refine mem_candidates.mpr ⟨sz, ?_, rfl⟩
    rw [Std.ExtTreeMap.getElem?_insert, if_neg]
    · exact hsz
    · rw [Std.LawfulEqCmp.compare_eq_iff_eq]
      exact Ne.symm hz
  have hcx := hmem x sx hx hsx
  have hcy := hmem y sy hy hsy
  have hsorted := candidates_pairwise (s.sessions.insert f new)
  cases hL : candidates (s.sessions.insert f new) with
  | nil =>
    rw [hL] at hcx
    exact nomatch hcx
  | cons c L =>
    rw [hL] at hcx hcy hgone hsorted
    rcases List.mem_cons.mp hcx with rfl | hcx
    · rcases List.mem_cons.mp hcy with heq | hcy
      · rw [heq]
        exact .inr ⟨rfl, UInt64.le_refl _⟩
      · exact (List.pairwise_cons.mp hsorted).1 _ hcy
    · exact absurd (List.mem_map_of_mem (f := Candidate.id) hcx) hgone

theorem getElem?_of_evict {s s' : Store} {f y : UInt64} {new : Session} (hy : y ≠ f)
    (hs' : s'.sessions = evictSessions s.maxSessions (s.sessions.insert f new))
    (hkept : y ∈ s'.memory.order) : s'.sessions[y]? = s.sessions[y]? := by
  obtain ⟨session, hsession⟩ := mem_order.mp hkept
  rw [hsession]
  rw [hs', getElem?_evictSessions] at hsession
  split at hsession
  · rw [Std.ExtTreeMap.getElem?_insert, if_neg] at hsession
    · exact hsession.symm
    · rw [Std.LawfulEqCmp.compare_eq_iff_eq]
      exact Ne.symm hy
  · exact nomatch hsession

theorem order_of_evict_last {s s' : Store} {k : ℕ} {f : UInt64} {new : Session} (hk : s.Upto k)
    (hnone : s.sessions[f]? = none) (hnew : new.lastIndex = k + 1)
    (hs' : s'.sessions = evictSessions s.maxSessions (s.sessions.insert f new)) :
    s'.memory.order = (s.memory.order ++ [f]).drop (s.sessions.size + 1 - s.maxSessions) := by
  have hothers : (candidates s.sessions).filter (·.id ≠ f) = candidates s.sessions := by
    refine List.filter_eq_self.mpr fun c hc => decide_eq_true ?_
    rintro rfl
    obtain ⟨session, hs, -⟩ := mem_candidates.mp hc
    exact nomatch hnone.symm.trans hs
  rw [order_of_evict hnone hs', candidates_insert, hothers, List.map_drop, List.map_append]
  · rfl
  · intro c session hs _
    refine .inl ?_
    have := hk c session hs
    simp only
    omega

/-- Both stores take in a client that neither knows. -/
theorem Alike.visit {a b : Store} {k : ℕ} (h : Alike k a b) :
    ∃ f new a' b', a.sessions[f]? = none ∧ b.sessions[f]? = none ∧ new.lastIndex = k + 1 ∧
      a'.maxSessions = a.maxSessions ∧ b'.maxSessions = b.maxSessions ∧
      a'.sessions = evictSessions a.maxSessions (a.sessions.insert f new) ∧
      b'.sessions = evictSessions b.maxSessions (b.sessions.insert f new) ∧
      Alike (k + 1) a' b' := by
  obtain ⟨f, hf, hfa⟩ := a.exists_fresh
  have hfb : b.sessions[f]? = none := by
    by_contra hne
    have := mem_order.mpr (Option.ne_none_iff_exists'.mp hne)
    obtain ⟨session, hs⟩ := mem_order.mp ((h.mem_order_iff f).mpr this)
    exact nomatch hfa.symm.trans hs
  obtain ⟨result, a', b', happly, happlyb, h'⟩ := h.step (e := probe f 0 (k + 1))
    (Nat.lt_succ_self k) (Option.isSome_iff_exists.mpr ⟨_, knownCommand_probe _ _ _⟩)
  obtain ⟨ra, a'', ha'', hmaxa, hsa⟩ := a.visit hf hfa (k + 1)
  obtain ⟨rb, b'', hb'', hmaxb, hsb⟩ := b.visit hf hfb (k + 1)
  rw [happly] at ha''
  rw [happlyb] at hb''
  cases ha''
  cases hb''
  exact ⟨f, _, _, _, hfa, hfb, rfl, hmaxa, hmaxb, hsa, hsb, h'⟩

theorem size_of_evict {s s' : Store} {f : UInt64} {new : Session} (hnone : s.sessions[f]? = none)
    (hs' : s'.sessions = evictSessions s.maxSessions (s.sessions.insert f new)) :
    s'.sessions.size = min (s.sessions.size + 1) s.maxSessions := by
  have hsize : (s.sessions.insert f new).size = s.sessions.size + 1 := by
    rw [Std.ExtTreeMap.size_insert, if_neg]
    rw [Std.ExtTreeMap.contains_eq_isSome_getElem?, hnone]
    exact Bool.false_ne_true
  rw [← order_length, order_of_evict hnone hs', List.length_map, List.length_drop,
    candidates_length, hsize]
  omega

/-- A table with less room has to give up a client that the other one keeps. -/
theorem Alike.limit_le {a b : Store} {k : ℕ} (h : Alike k a b) : b.maxSessions ≤ a.maxSessions := by
  by_contra hlt
  generalize hn : a.maxSessions - a.sessions.size = n
  induction n generalizing a b k with
  | zero =>
    obtain ⟨f, new, a', b', hfa, hfb, -, -, -, hsa, hsb, h'⟩ := h.visit
    have hsize := h.size_eq
    have hsize' := h'.size_eq
    have hle := a.size_le
    rw [size_of_evict hfa hsa, size_of_evict hfb hsb] at hsize'
    omega
  | succ n ih =>
    obtain ⟨f, new, a', b', hfa, hfb, -, hmaxa, hmaxb, hsa, -, h'⟩ := h.visit
    refine ih h' (by omega) ?_
    rw [size_of_evict hfa hsa]
    omega

theorem Alike.symm {a b : Store} {k : ℕ} (h : Alike k a b) : Alike k b a := fun S hS =>
  let ⟨results, a', b', ha, hb, hdata⟩ := h S hS
  ⟨results, b', a', hb, ha, hdata.symm⟩

theorem Alike.limit_eq {a b : Store} {k : ℕ} (h : Alike k a b) : a.maxSessions = b.maxSessions :=
  le_antisymm h.symm.limit_le h.limit_le

theorem Upto.evict {s s' : Store} {k : ℕ} {f : UInt64} {new : Session} (h : s.Upto k)
    (hnew : new.lastIndex = k + 1)
    (hs' : s'.sessions = evictSessions s.maxSessions (s.sessions.insert f new)) :
    s'.Upto (k + 1) := by
  intro c session hs
  rw [hs', getElem?_evictSessions] at hs
  split at hs
  · rw [Std.ExtTreeMap.getElem?_insert] at hs
    split at hs
    · cases hs
      exact hnew.le
    · exact (h c session hs).trans (Nat.le_succ k)
  · exact nomatch hs

/-- Filling the table with clients that neither store knows, and then one by one pushing the old
ones out, shows the order of the old ones: they have to leave both stores together. -/
theorem Alike.pairwise_older {a b : Store} {k : ℕ} {xs fs : List UInt64} (h : Alike k a b)
    (hk : a.Upto k) (horder : a.memory.order = xs ++ fs) : xs.Pairwise b.Older := by
  generalize hn : a.maxSessions - a.sessions.size + xs.length = n
  induction n generalizing a b k xs fs with
  | zero =>
    have : xs = [] := List.eq_nil_of_length_eq_zero (by omega)
    rw [this]
    exact List.Pairwise.nil
  | succ n ih =>
    obtain ⟨f, new, a', b', hfa, hfb, hnew, hmaxa, hmaxb, hsa, hsb, h'⟩ := h.visit
    have hne : ∀ x ∈ a.memory.order, x ≠ f := by
      rintro x hx rfl
      obtain ⟨session, hs⟩ := mem_order.mp hx
      exact nomatch hfa.symm.trans hs
    have horder' := order_of_evict_last hk hfa hnew hsa
    have hsize' := size_of_evict hfa hsa
    have hkept : ∀ x ∈ xs, x ∈ a'.memory.order → b'.sessions[x]? = b.sessions[x]? := fun x hx hx' =>
      getElem?_of_evict (hne x (horder ▸ List.mem_append_left fs hx)) hsb ((h'.mem_order_iff x).mp hx')
    by_cases hfull : a.sessions.size = a.maxSessions
    · cases xs with
      | nil => exact List.Pairwise.nil
      | cons x xs =>
        rw [hfull, Nat.add_sub_cancel_left, horder] at horder'
        have hrest : a'.memory.order = xs ++ (fs ++ [f]) := by simpa using horder'
        have hgone : x ∉ a'.memory.order := by
          have hnodup := a.order_nodup
          rw [horder, List.cons_append, List.nodup_cons] at hnodup
          rw [hrest, ← List.append_assoc, List.mem_append, List.mem_singleton]
          exact fun hin => hin.elim hnodup.1
            (hne x (horder ▸ List.mem_append_left fs List.mem_cons_self))
        have hin : ∀ y ∈ xs, y ∈ a'.memory.order := fun y hy =>
          hrest ▸ List.mem_append_left _ hy
        refine List.pairwise_cons.mpr ⟨fun y hy => ?_, ?_⟩
        · refine older_of_evicted hfb (h.size_eq ▸ h.limit_eq ▸ hfull) hsb ?_ ?_
            fun hx => hgone ((h'.mem_order_iff x).mpr hx)
          · exact hne x (horder ▸ List.mem_append_left fs List.mem_cons_self)
          · exact hne y (horder ▸ List.mem_append_left fs (List.mem_cons_of_mem _ hy))
        · have hpair := ih h' (hk.evict hnew hsa) hrest (by simp at hn; omega)
          refine hpair.imp_of_mem fun hx hy hold => hold.congr ?_ ?_
          · exact hkept _ (List.mem_cons_of_mem _ hx) (hin _ hx)
          · exact hkept _ (List.mem_cons_of_mem _ hy) (hin _ hy)
    · have hle := a.size_le
      rw [Nat.sub_eq_zero_of_le (by omega), List.drop_zero, horder, List.append_assoc] at horder'
      have hin : ∀ y ∈ xs, y ∈ a'.memory.order := fun y hy => horder' ▸ List.mem_append_left _ hy
      have hpair := ih h' (hk.evict hnew hsa) horder' (by omega)
      exact hpair.imp_of_mem fun hx hy hold =>
        hold.congr (hkept _ hx (hin _ hx)) (hkept _ hy (hin _ hy))

theorem Alike.order_eq {a b : Store} {k : ℕ} (h : Alike k a b) (hk : a.Upto k) :
    b.memory.order = a.memory.order := by
  have hold : a.memory.order.Pairwise b.Older :=
    h.pairwise_older hk (List.append_nil _).symm
  have hindex : ∀ c ∈ a.memory.order, ∃ session, b.sessions[c]? = some session := fun c hc =>
    mem_order.mp ((h.mem_order_iff c).mp hc)
  -- The clients of the first store, with the indexes the second one holds for them.
  let l : List Candidate := a.memory.order.map fun c =>
    ⟨c, (b.sessions[c]?.map Session.lastIndex).getD 0⟩
  have hids : l.map (·.id) = a.memory.order := by
    rw [List.map_map]
    exact List.map_id _
  have hcand : candidates b.sessions = l := by
    refine candidates_eq ?_ (hids ▸ a.order_nodup) fun c => ?_
    · rw [List.pairwise_map]
      refine hold.imp_of_mem fun {x y} hx hy hxy => ?_
      obtain ⟨sx, hsx⟩ := hindex x hx
      obtain ⟨sy, hsy⟩ := hindex y hy
      simp only [hsx, hsy]
      exact hxy sx sy hsx hsy
    · rw [List.mem_map]
      constructor
      · rintro ⟨x, hx, rfl⟩
        obtain ⟨sx, hsx⟩ := hindex x hx
        exact ⟨sx, hsx, by simp [hsx]⟩
      · rintro ⟨session, hs, hi⟩
        refine ⟨c.id, (h.mem_order_iff _).mpr (mem_order.mpr ⟨session, hs⟩), ?_⟩
        simp [hs, hi]
  rw [memory, hcand]
  exact hids

theorem Alike.memory_eq {a b : Store} {k : ℕ} (h : Alike k a b) (hk : a.Upto k) :
    b.memory = a.memory :=
  Memory.ext h.limit_eq.symm (h.order_eq hk) (answer_eq_of_check h.checkSession_eq).symm

theorem apply_of_new {s s' : Store} {c q : UInt64} {i : ℕ} {result : Result} (hc : c ≠ 0)
    (hnew : s.checkSession c q = none) (happly : s.apply (probe c q i) = .ok (result, s')) :
    s'.maxSessions = s.maxSessions ∧
      s'.sessions = evictSessions s.maxSessions (s.sessions.insert c ⟨q, i, result⟩) := by
  rcases s.apply_ok (knownCommand_probe c q i) with ⟨r, hcheck, -⟩ | ⟨r, data, -, -, -, happly'⟩
  · exact nomatch hnew.symm.trans hcheck
  · cases happly.symm.trans happly'
    refine ⟨maxSessions_recordSession _ _ _ _ _, ?_⟩
    simp only [recordSession, hc, dif_neg, not_false_eq_true, probe]

theorem Alike.ages {a b : Store} {k : ℕ} (h : Alike k a b) (hk : a.Upto k) : b.Ages k := by
  intro c session hs id seq hne hid hnew
  obtain ⟨result, a', b', ha, hb, h'⟩ := h.step (e := probe id seq (k + 1)) (Nat.lt_succ_self k)
    (Option.isSome_iff_exists.mpr ⟨_, knownCommand_probe _ _ _⟩)
  obtain ⟨-, hsa⟩ := apply_of_new hid ((h.checkSession_eq id seq).trans hnew) ha
  obtain ⟨-, hsb⟩ := apply_of_new hid hnew hb
  have hindex : (⟨seq, k + 1, result⟩ : Session).lastIndex = k + 1 := rfl
  generalize (⟨seq, k + 1, result⟩ : Session) = new at hsa hsb hindex
  -- The client is the last one in the first store, hence in the second.
  have hlast : ∃ zs, a'.memory.order = zs ++ [id] := by
    have hcand : candidates (a.sessions.insert id new) =
        (candidates a.sessions).filter (·.id ≠ id) ++ [⟨id, new.lastIndex⟩] :=
      candidates_insert fun c s hs _ => .inl (hindex ▸ Nat.lt_succ_of_le (hk c s hs))
    have hlimit := a.limit_pos
    have hlength := candidates_length (a.sessions.insert id new)
    rw [hcand, List.length_append, List.length_singleton] at hlength
    rw [memory, hsa, candidates_evictSessions, hcand, List.drop_append_of_le_length (by omega),
      List.map_append]
    exact ⟨_, rfl⟩
  obtain ⟨zs, hzs⟩ := hlast
  rw [← h'.order_eq (hk.evict hindex hsa), memory, hsb, candidates_evictSessions] at hzs
  obtain ⟨ds, l, hdrop, -, hl⟩ := List.map_eq_append_iff.mp hzs
  obtain ⟨d, rfl, rfl⟩ := List.map_eq_singleton_iff.mp hl
  have hL : ∃ pre, candidates (b.sessions.insert d.id new) = pre ++ [d] := by
    have happend := List.take_append_drop ((b.sessions.insert d.id new).size - b.maxSessions)
      (candidates (b.sessions.insert d.id new))
    rw [hdrop, ← List.append_assoc] at happend
    exact ⟨_, happend.symm⟩
  obtain ⟨pre, hL⟩ := hL
  have hc : (⟨c, session.lastIndex⟩ : Candidate) ∈ candidates (b.sessions.insert d.id new) := by
    refine mem_candidates.mpr ⟨session, ?_, rfl⟩
    rwa [Std.ExtTreeMap.getElem?_insert, if_neg (by rwa [Std.LawfulEqCmp.compare_eq_iff_eq])]
  have hd : d.index = k + 1 := by
    obtain ⟨s, hs, hi⟩ := mem_candidates.mp (hL ▸ List.mem_append_right pre (List.mem_singleton_self d) :
      d ∈ candidates (b.sessions.insert d.id new))
    rw [Std.ExtTreeMap.getElem?_insert_self] at hs
    cases hs
    exact hi.symm.trans hindex
  have hsorted := candidates_pairwise (b.sessions.insert d.id new)
  rw [hL] at hc hsorted
  rcases List.mem_append.mp hc with hc | hc
  · rw [← hd]
    exact (List.pairwise_append.mp hsorted).2.2 _ hc d (List.mem_singleton_self d)
  · exact absurd (congrArg Candidate.id (List.mem_singleton.mp hc)).symm hne

/-! ### Restoring a snapshot -/

theorem Upto.mono {s : Store} {j k : ℕ} (h : s.Upto j) (hjk : j ≤ k) : s.Upto k :=
  fun c session hs => (h c session hs).trans hjk

theorem Upto.recordSession {s : Store} {k index : ℕ} {clientID seq : UInt64} {result : Result}
    (h : s.Upto k) (hk : k < index) : (s.recordSession clientID seq index result).Upto index := by
  by_cases hzero : clientID = 0
  · rw [Store.recordSession, dif_pos hzero]
    exact h.mono hk.le
  · intro c session hs
    rcases getElem?_recordSession hzero hs with ⟨-, hs⟩ | ⟨-, rfl⟩
    · exact (h c session hs).trans hk.le
    · exact le_rfl

/-- A map of at most `n` keys, whose keys and values have lengths that can be written. -/
def Fits (m : Map) (n : ℕ) : Prop :=
  m.size ≤ n ∧ ∀ k v : Bytes, m[k]? = some v → k.length < 2 ^ 64 ∧ v.length < 2 ^ 64

theorem Fits.execute {m m' : Map} {n : ℕ} {cmd : Command} {result : Result} (h : Fits m n)
    (hkey : cmd.key.length < 2 ^ 64) (hvalue : cmd.value.length < 2 ^ 64)
    (hexec : execute m cmd = some (result, m')) : Fits m' (n + 1) := by
  rw [Store.execute] at hexec
  split at hexec
  · cases hexec
    refine ⟨Std.ExtTreeMap.size_insert_le.trans (Nat.succ_le_succ h.1), fun k v hkv => ?_⟩
    rw [Std.ExtTreeMap.getElem?_insert] at hkv
    split at hkv
    · rename_i heq
      cases hkv
      rw [Std.LawfulEqCmp.compare_eq_iff_eq] at heq
      exact heq ▸ ⟨hkey, hvalue⟩
    · exact h.2 k v hkv
  · cases hexec
    refine ⟨(Std.ExtTreeMap.size_erase_le.trans h.1).trans (Nat.le_succ n), fun k v hkv => ?_⟩
    rw [Std.ExtTreeMap.getElem?_erase] at hkv
    split at hkv
    · cases hkv
    · exact h.2 k v hkv
  · cases hexec

theorem applyAll_ok {s : Store} {k n : ℕ} {P : List LogEntry} (hP : Commands k P) (hk : s.Upto k)
    (hn : Fits s.data n) :
    ∃ results s', s.applyAll P = .ok (results, s') ∧ s'.Upto (lastIndex k P) ∧
      Fits s'.data (n + P.length) := by
  induction P generalizing s k n with
  | nil => exact ⟨[], s, rfl, hk, hn⟩
  | cons e P ih =>
    obtain ⟨hlt, hknown, hP⟩ := hP
    obtain ⟨cmd, hcmd⟩ := Option.isSome_iff_exists.mp hknown
    obtain ⟨hkey, hvalue⟩ := decodeCommand_length (knownCommand_eq_some hcmd).1
    obtain ⟨result, s', happly, hupto, hfits⟩ : ∃ result s', s.apply e = .ok (result, s') ∧
        s'.Upto e.index ∧ Fits s'.data (n + 1) := by
      rcases s.apply_ok hcmd with ⟨result, -, happly⟩ | ⟨result, data, -, hexec, -, happly⟩
      · exact ⟨_, _, happly, hk.mono hlt.le, hn.1.trans (Nat.le_succ n), hn.2⟩
      · have hk' : { s with data }.Upto k := hk
        refine ⟨_, _, happly, hk'.recordSession hlt, ?_⟩
        have := hn.execute hkey hvalue hexec
        simpa using this
    obtain ⟨results, s'', hall, hupto, hfits'⟩ := ih hP hupto hfits
    refine ⟨result :: results, s'', ?_, hupto, ?_⟩
    · simp only [applyAll, happly, hall]
    · rw [List.length_cons, Nat.add_comm P.length 1, ← Nat.add_assoc]
      exact hfits'

end Store

open Store

theorem upto_empty (n : Int64) : (newWithSessionLimit n).Upto 0 := by
  intro c session hs
  rw [newWithSessionLimit, Std.ExtTreeMap.getElem?_empty] at hs
  cases hs

theorem fits_empty : Fits (∅ : Map) 0 := by
  refine ⟨Std.ExtTreeMap.size_empty.le, fun k v hkv => ?_⟩
  rw [Std.ExtTreeMap.getElem?_empty] at hkv
  cases hkv

/-- A store restored from a snapshot goes on like the store the snapshot was taken of exactly when it
remembers the same clients, in the same order and with the same answers, and would evict them before
any client that is heard of later. -/
theorem restore_alike_iff (n : Int64) {P : List LogEntry} (hP : Commands 0 P)
    (hlen : P.length < 2 ^ 64) (T : Store) :
    ∃ results A B, (newWithSessionLimit n).applyAll P = .ok (results, A) ∧
      T.restore A.snapshot (lastIndex 0 P) = .ok B ∧
      ((∀ S, Commands (lastIndex 0 P) S → ∃ results A' B', A.applyAll S = .ok (results, A') ∧
          B.applyAll S = .ok (results, B') ∧ A'.data = B'.data) ↔
        T.memory = A.memory ∧ T.Ages (lastIndex 0 P)) := by
  obtain ⟨results, A, hall, hupto, hfits⟩ := applyAll_ok hP (upto_empty n) fits_empty
  have hsized : Sized A.data := ⟨(hfits.1.trans (Nat.zero_add _).le).trans_lt hlen, hfits.2⟩
  have hrestore : T.restore A.snapshot (lastIndex 0 P) =
      .ok { T with data := A.data, applied := lastIndex 0 P } := by
    rw [restore, snapshot, decodeMap_encodeMap hsized]
  refine ⟨results, A, _, hall, hrestore, fun h => ?_, fun h => ?_⟩
  · have halike : Alike (lastIndex 0 P) A { T with data := A.data, applied := lastIndex 0 P } := h
    exact ⟨halike.memory_eq hupto, halike.ages hupto⟩
  · refine alike_of_machine (.of_lastIndex_le hupto) h.2 ?_
    exact Machine.ext rfl h.1.symm

/-- A write of client 7 and then one without a session, both to key 1. -/
def twoWrites : List LogEntry :=
  [{ index := 1, command := [0, 7, 1, 1, 1, 1, 10] }, { index := 2, command := [0, 0, 0, 1, 1, 1, 20] }]

/-- The first of them again. -/
def firstWriteAgain : List LogEntry := [{ index := 3, command := [0, 7, 1, 1, 1, 1, 10] }]

/-- A store that has applied the first of them only. -/
def onceWritten : Store :=
  match new.applyAll (twoWrites.take 1) with
  | .ok (_, s) => s
  | .error _ => new

/-- The write without a session leaves the clients, so the store that lags behind by it goes on like
the other once it has the snapshot. -/
theorem restore_alike_onceWritten :
    ∃ results A B, (newWithSessionLimit 4096).applyAll twoWrites = .ok (results, A) ∧
      onceWritten.restore A.snapshot (lastIndex 0 twoWrites) = .ok B ∧
      A.memory.order = [7] ∧
      ∀ S, Commands (lastIndex 0 twoWrites) S → ∃ results A' B',
        A.applyAll S = .ok (results, A') ∧ B.applyAll S = .ok (results, B') ∧
        A'.data = B'.data := by
  obtain ⟨results, A, B, hall, hrestore, hiff⟩ :=
    restore_alike_iff 4096 (P := twoWrites) (by decide) (by decide) onceWritten
  have hA : A.memory = onceWritten.memory := by
    cases hall
    rfl
  have hages : onceWritten.Ages (lastIndex 0 twoWrites) := by
    obtain ⟨_, s, hs, hupto, -⟩ :=
      applyAll_ok (P := twoWrites.take 1) (by decide) (upto_empty 4096) fits_empty
    cases hs
    exact .of_lastIndex_le fun c session hs => (hupto c session hs).trans (by decide)
  exact ⟨results, A, B, hall, hrestore, by rw [hA]; decide, hiff.mpr ⟨hA.symm, hages⟩⟩

/-- A replica that caught up by snapshot applies a retry that the others recognise. -/
theorem restore_repeats_write :
    ∃ results A B A' B', new.applyAll twoWrites = .ok (results, A) ∧
      new.restore A.snapshot 2 = .ok B ∧
      A.applyAll firstWriteAgain = .ok ([{ duplicate := true }], A') ∧ A'.get [1] = some [20] ∧
      B.applyAll firstWriteAgain = .ok ([{ duplicate := false }], B') ∧ B'.get [1] = some [10] :=
  ⟨_, _, _, _, _, rfl, rfl, rfl, by decide, rfl, by decide⟩

end RaftStore.Kvstore
