import RaftStore.Sim.Checker
import Mathlib.Data.List.Induction

/-! What the checker's watch over committed entries finds.  Each node is looked at from its mark on,
so an entry is compared once: when the node's commit index first reaches it. -/

namespace RaftStore.Sim

open Lib Raft

/-- The node is live and its commit index has reached `i`. -/
def Reached (s : Simulator) (id : NodeID) (i : ℕ) : Prop :=
  id ∈ s.ids ∧ ∃ rn, (s.nodes id).rn = some rn ∧ i ≤ rn.log.committed

/-- A live node retains `e` at an index that it has committed. -/
def Holds (s : Simulator) (id : NodeID) (i : ℕ) (e : LogEntry) : Prop :=
  Reached s id i ∧ (s.nodes id).storage.getEntry i = .ok e

/-- The checker has seen an entry like `e` committed at `i`. -/
def Recorded (sum256 : List UInt8 → List UInt8) (c : Checker) (i : ℕ) (e : LogEntry) : Prop :=
  ∃ ce, c.committed i = some ce ∧ ce.term = e.term ∧ ce.digest = sum256 e.command

/-- The checker after an observation, whether or not it reports a violation. -/
def observed (sum256 : List UInt8 → List UInt8) (c : Checker) (s : Simulator) : Checker :=
  match observe sum256 { checker := c, sim := s } with
  | .ok _ w => w.checker
  | .error _ w => w.checker

/-- The checker after a sequence of observations. -/
def watch (sum256 : List UInt8 → List UInt8) (c : Checker) (states : List Simulator) : Checker :=
  states.foldl (observed sum256) c

/-! ### One observation -/

/-- What was seen committed stays, and no violation is added. -/
structure Checker.Kept (c c' : Checker) : Prop where
  committed : ∀ i ce, c.committed i = some ce → c'.committed i = some ce
  violations : c'.violations = c.violations

theorem Checker.Kept.refl (c : Checker) : c.Kept c := ⟨fun _ _ h => h, rfl⟩

theorem Checker.Kept.trans {c₁ c₂ c₃ : Checker} (h : c₁.Kept c₂) (h' : c₂.Kept c₃) : c₁.Kept c₃ :=
  ⟨fun i ce hi => h'.committed i ce (h.committed i ce hi), h'.violations.trans h.violations⟩

/-- The clusters differ at most in who has restarted since the last check. -/
structure Simulator.Same (s s' : Simulator) : Prop where
  ids : s'.ids = s.ids
  storage : ∀ id, (s'.nodes id).storage = (s.nodes id).storage
  rn : ∀ id, (s'.nodes id).rn = (s.nodes id).rn

theorem Simulator.Same.refl (s : Simulator) : s.Same s := ⟨rfl, fun _ => rfl, fun _ => rfl⟩

theorem Simulator.Same.trans {s₁ s₂ s₃ : Simulator} (h : s₁.Same s₂) (h' : s₂.Same s₃) :
    s₁.Same s₃ :=
  ⟨h'.ids.trans h.ids, fun id => (h'.storage id).trans (h.storage id),
    fun id => (h'.rn id).trans (h.rn id)⟩

/-- The check has reported a violation. -/
def Alarmed (_ : Violation) (w : Watched) : Prop := w.checker.violations ≠ []

section

variable {sum256 : List UInt8 → List UInt8} {w : Watched} {id : NodeID} {rn : RawNode}

theorem Recorded.kept {c c' : Checker} {i : ℕ} {e : LogEntry} (h : Recorded sum256 c i e)
    (hk : c.Kept c') : Recorded sum256 c' i e := by
  obtain ⟨ce, hce, h⟩ := h
  exact ⟨ce, hk.committed i ce hce, h⟩

theorem meets_fail {property : Property} {detail : String} {Q : Unit → Watched → Prop} :
    Meets (fail property detail) w Q Alarmed := by
  change _ ++ [_] ≠ []
  simp

theorem meets_checkElectionSafety : Meets (checkElectionSafety id rn) w
    (fun _ w' => w'.sim = w.sim ∧ w.checker.Kept w'.checker ∧
      w'.checker.checkedTo = w.checker.checkedTo) Alarmed := by
  rw [checkElectionSafety]
  split
  · exact ⟨rfl, .refl _, rfl⟩
  · rw [meets_bind, meets_get]
    dsimp only
    split
    · split
      · exact meets_fail
      · exact ⟨rfl, ⟨fun _ _ h => h, rfl⟩, rfl⟩
    · exact ⟨rfl, ⟨fun _ _ h => h, rfl⟩, rfl⟩

theorem meets_checkCommitMonotonic : Meets (checkCommitMonotonic id rn) w
    (fun _ w' => w.sim.Same w'.sim ∧ w.checker.Kept w'.checker ∧
      w'.checker.checkedTo = w.checker.checkedTo) Alarmed := by
  let checked : Node := { w.sim.nodes id with restartedSinceCheck := false }
  have hsame : w.sim.Same { w.sim with nodes := Function.update w.sim.nodes id checked } := by
    refine ⟨rfl, fun v => ?_, fun v => ?_⟩ <;> by_cases hv : v = id
    · subst hv
      simp [checked]
    · simp [hv]
    · subst hv
      simp [checked]
    · simp [hv]
  rw [checkCommitMonotonic, meets_bind, meets_get, meets_bind]
  -- The first check changes nothing, so what the rest does is looked at from `w`.
  refine (?first : ∀ Q : Unit → Watched → Prop, Q () w → Meets _ w Q Alarmed) _ ?rest
  case first =>
    intro Q hQ
    split
    · split
      · exact meets_fail
      · exact hQ
    · exact hQ
  case rest =>
    rw [meets_bind, meets_set]
    split
    · exact meets_fail
    · exact ⟨hsame, ⟨fun _ _ h => h, rfl⟩, rfl⟩

theorem meets_checkCommittedEntry {i : ℕ} : Meets (checkCommittedEntry sum256 id i) w
    (fun _ w' => w'.sim = w.sim ∧ w.checker.Kept w'.checker ∧
      w'.checker.checkedTo = w.checker.checkedTo ∧
      ∀ e, (w.sim.nodes id).storage.getEntry i = .ok e → Recorded sum256 w'.checker i e) Alarmed := by
  rw [checkCommittedEntry, meets_bind, meets_get]
  split
  · rename_i err herr
    split
    · exact ⟨rfl, .refl _, rfl, fun e he => by rw [herr] at he; exact nomatch he⟩
    · exact meets_fail
  · rename_i entry hentry
    dsimp only
    split
    · rename_i prev hprev
      split
      · exact meets_fail
      · rename_i hsame
        simp only [ne_eq, not_or, not_not] at hsame
        refine ⟨rfl, .refl _, rfl, fun e he => ⟨prev, hprev, ?_⟩⟩
        rw [hentry] at he
        cases he
        exact hsame
    · rename_i hnone
      refine ⟨rfl, ⟨fun j ce hj => ?_, rfl⟩, rfl, fun e he => ⟨_, Function.update_self .., ?_⟩⟩
      · have hne : j ≠ i := by
          rintro rfl
          rw [hnone] at hj
          exact nomatch hj
        exact (Function.update_of_ne hne ..).trans hj
      · rw [hentry] at he
        cases he
        exact ⟨rfl, rfl⟩

theorem meets_checkCommittedFrom (i count : ℕ) : Meets (checkCommittedFrom sum256 id i count) w
    (fun _ w' => w'.sim = w.sim ∧ w.checker.Kept w'.checker ∧
      w'.checker.checkedTo = w.checker.checkedTo ∧
      ∀ j e, i ≤ j → j < i + count → (w.sim.nodes id).storage.getEntry j = .ok e →
        Recorded sum256 w'.checker j e) Alarmed := by
  induction count generalizing i w with
  | zero => exact ⟨rfl, .refl _, rfl, fun j e h1 h2 => by omega⟩
  | succ count ih =>
    rw [checkCommittedFrom, meets_bind]
    refine Meets.mono meets_checkCommittedEntry ?_ fun _ _ h => h
    rintro _ w₁ ⟨hs₁, hk₁, ht₁, hi⟩
    refine Meets.mono (ih (i + 1)) ?_ fun _ _ h => h
    rintro _ w₂ ⟨hs₂, hk₂, ht₂, hrest⟩
    refine ⟨hs₂.trans hs₁, hk₁.trans hk₂, ht₂.trans ht₁, fun j e h1 h2 he => ?_⟩
    rcases Nat.eq_or_lt_of_le h1 with rfl | hlt
    · exact (hi e he).kept hk₂
    · exact hrest j e (by omega) (by omega) (by rw [hs₁]; exact he)

theorem meets_checkCommittedEntries : Meets (checkCommittedEntries sum256 id rn) w
    (fun _ w' => w'.sim = w.sim ∧ w.checker.Kept w'.checker ∧
      (∀ a, w'.checker.checkedTo a = w.checker.checkedTo a ∨
        a = id ∧ w'.checker.checkedTo a = rn.log.committed) ∧
      ∀ j e, w.checker.checkedTo id < j → j ≤ rn.log.committed →
        (w.sim.nodes id).storage.getEntry j = .ok e → Recorded sum256 w'.checker j e) Alarmed := by
  rw [checkCommittedEntries, meets_bind, meets_get, meets_bind]
  refine Meets.mono (meets_checkCommittedFrom _ _) ?_ fun _ _ h => h
  rintro _ w₁ ⟨hs, hk, ht, hall⟩
  have hrec : ∀ j e, w.checker.checkedTo id < j → j ≤ rn.log.committed →
      (w.sim.nodes id).storage.getEntry j = .ok e → Recorded sum256 w₁.checker j e :=
    fun j e h1 h2 he => hall j e (by omega) (by omega) he
  rw [meets_bind, meets_get]
  split
  · refine ⟨hs, ⟨hk.committed, hk.violations⟩, fun a => ?_, hrec⟩
    by_cases ha : a = id
    · exact Or.inr ⟨ha, by subst ha; simp⟩
    · exact Or.inl (by simp [ha, ht])
  · exact ⟨hs, hk, fun a => Or.inl (congrFun ht a), hrec⟩

/-- What an observation of the nodes `ids` does, if it reports nothing: it records what lies between
the marks and the commit indexes, and moves marks to commit indexes. -/
structure Observes (sum256 : List UInt8 → List UInt8) (ids : List NodeID) (w w' : Watched) : Prop where
  same : w.sim.Same w'.sim
  kept : w.checker.Kept w'.checker
  marks : ∀ a, w'.checker.checkedTo a = w.checker.checkedTo a ∨ a ∈ ids ∧
    ∃ rn, (w.sim.nodes a).rn = some rn ∧ w'.checker.checkedTo a = rn.log.committed
  recorded : ∀ a ∈ ids, ∀ rn, (w.sim.nodes a).rn = some rn → ∀ j e, w.checker.checkedTo a < j →
    j ≤ rn.log.committed → (w.sim.nodes a).storage.getEntry j = .ok e →
    Recorded sum256 w'.checker j e

theorem meets_observeNode : Meets (observeNode sum256 id) w
    (fun _ w' => Observes sum256 [id] w w') Alarmed := by
  rw [observeNode, meets_bind, meets_get]
  split
  · rename_i hdown
    refine ⟨.refl _, .refl _, fun _ => Or.inl rfl, fun a ha rn hrn => ?_⟩
    rw [List.mem_singleton.mp ha, hdown] at hrn
    exact nomatch hrn
  · rename_i rn hrn
    rw [meets_bind]
    refine Meets.mono meets_checkElectionSafety ?_ fun _ _ h => h
    rintro _ w₁ ⟨hs₁, hk₁, ht₁⟩
    rw [meets_bind]
    refine Meets.mono meets_checkCommitMonotonic ?_ fun _ _ h => h
    rintro _ w₂ ⟨hs₂, hk₂, ht₂⟩
    refine Meets.mono meets_checkCommittedEntries ?_ fun _ _ h => h
    rintro _ w₃ ⟨hs₃, hk₃, ht₃, hrec⟩
    rw [hs₁] at hs₂
    refine ⟨hs₃ ▸ hs₂, (hk₁.trans hk₂).trans hk₃, fun a => ?_, fun a ha rn' hrn' j e h1 h2 he => ?_⟩
    · rcases ht₃ a with h | ⟨rfl, h⟩
      · exact Or.inl (h.trans (congrFun (ht₂.trans ht₁) a))
      · exact Or.inr ⟨List.mem_singleton_self a, rn, hrn, h⟩
    · obtain rfl := List.mem_singleton.mp ha
      rw [hrn] at hrn'
      cases hrn'
      refine hrec j e ?_ h2 ((hs₂.storage a).symm ▸ he)
      rw [ht₂, ht₁]
      exact h1

theorem meets_observeNodes (ids : List NodeID) : Meets (observeNodes sum256 ids) w
    (fun _ w' => Observes sum256 ids w w') Alarmed := by
  induction ids generalizing w with
  | nil => exact ⟨.refl _, .refl _, fun _ => Or.inl rfl, nofun⟩
  | cons id ids ih =>
    rw [observeNodes, meets_bind]
    refine Meets.mono meets_observeNode ?_ fun _ _ h => h
    intro _ w₁ h₁
    refine Meets.mono ih ?_ fun _ _ h => h
    intro _ w₂ h₂
    refine ⟨h₁.same.trans h₂.same, h₁.kept.trans h₂.kept, fun a => ?_,
      fun a ha rn hrn j e h1 h2 he => ?_⟩
    · rcases h₂.marks a with h | ⟨ha, rn, hrn, h⟩
      · rcases h₁.marks a with h' | ⟨ha, hrn⟩
        · exact Or.inl (h.trans h')
        · rw [List.mem_singleton.mp ha] at h hrn ⊢
          exact Or.inr ⟨List.mem_cons_self, by rw [h]; exact hrn⟩
      · exact Or.inr ⟨List.mem_cons_of_mem id ha, rn, (h₁.same.rn a).symm.trans hrn, h⟩
    · -- A node that comes again in the list was recorded the first time.
      by_cases haid : a = id
      · subst haid
        exact (h₁.recorded a (List.mem_singleton_self a) rn hrn j e h1 h2 he).kept h₂.kept
      · have hmark : w₁.checker.checkedTo a = w.checker.checkedTo a :=
          (h₁.marks a).resolve_right fun h => haid (List.mem_singleton.mp h.1)
        have hmem : a ∈ ids := (List.mem_cons.mp ha).resolve_left haid
        refine h₂.recorded a hmem rn ((h₁.same.rn a).trans hrn) j e (by omega) h2 ?_
        rw [h₁.same.storage a]
        exact he

end

/-! ### A sequence of observations -/

section

variable {sum256 : List UInt8 → List UInt8} {c : Checker} {s : Simulator} {states : List Simulator}

/-- An observation reports a violation, or records what the live nodes hold above their marks. -/
theorem observed_cases (sum256 : List UInt8 → List UInt8) (c : Checker) (s : Simulator) :
    (observed sum256 c s).violations ≠ [] ∨
      ∃ s', Observes sum256 s.ids ⟨c, s⟩ ⟨observed sum256 c s, s'⟩ := by
  have h : Meets (observeNodes sum256 s.ids) ⟨c, s⟩
      (fun _ w' => Observes sum256 s.ids ⟨c, s⟩ w') Alarmed := meets_observeNodes s.ids
  have hobs : observe sum256 ⟨c, s⟩ = observeNodes sum256 s.ids ⟨c, s⟩ := rfl
  rw [observed, hobs]
  unfold Meets at h
  split at h <;> rename_i heq <;> rw [heq]
  · exact Or.inr ⟨_, h⟩
  · exact Or.inl h

theorem violations_observed (h : c.violations ≠ []) : (observed sum256 c s).violations ≠ [] := by
  rcases observed_cases sum256 c s with h' | ⟨_, h'⟩
  · exact h'
  · rwa [h'.kept.violations]

/-- What a node holds committed it has held ever since its commit index was seen to reach it. -/
def Unchanged (states : List Simulator) : Prop :=
  states.Pairwise fun s s' => ∀ id i e, Holds s' id i e → Reached s id i →
    ∃ e', Holds s id i e' ∧ ¬ Differ e' e

/-- As long as nothing is reported, everything that was held is recorded, and every mark is a commit
index that was seen. -/
theorem watch_recorded {c₀ : Checker} (h₀ : ∀ a, c₀.checkedTo a = 0) (hst : Unchanged states)
    (hv : (watch sum256 c₀ states).violations = []) :
    (∀ s ∈ states, ∀ id i e, Holds s id i e → Recorded sum256 (watch sum256 c₀ states) i e) ∧
      ∀ a, (watch sum256 c₀ states).checkedTo a = 0 ∨
        ∃ s ∈ states, Reached s a ((watch sum256 c₀ states).checkedTo a) := by
  induction states using List.reverseRecOn with
  | nil => exact ⟨nofun, fun a => Or.inl (h₀ a)⟩
  | append_singleton states s ih =>
    have hwatch : watch sum256 c₀ (states ++ [s]) = observed sum256 (watch sum256 c₀ states) s := by
      rw [watch, List.foldl_append]
      rfl
    rw [Unchanged, List.pairwise_append] at hst
    obtain ⟨hst, -, hlast⟩ := hst
    have hv' : (watch sum256 c₀ states).violations = [] := by
      by_contra hne
      exact violations_observed hne (hwatch ▸ hv)
    obtain ⟨hrec, hmark⟩ := ih hst hv'
    rw [hwatch] at hv ⊢
    obtain ⟨s', hobs⟩ := (observed_cases sum256 _ s).resolve_left fun h => h hv
    refine ⟨fun s₁ hs₁ id i e hold => ?_, fun a => ?_⟩
    · rcases List.mem_append.mp hs₁ with hs₁ | hs₁
      · exact (hrec s₁ hs₁ id i e hold).kept hobs.kept
      · obtain rfl := List.mem_singleton.mp hs₁
        obtain ⟨⟨hmem, rn, hrn, hle⟩, hentry⟩ := hold
        by_cases hnew : (watch sum256 c₀ states).checkedTo id < i
        · exact hobs.recorded id hmem rn hrn i e hnew hle hentry
        · -- The mark has passed: the node held the entry then, and it was recorded.
          rcases hmark id with h0 | ⟨s₂, hs₂, hid, rn₂, hrn₂, hle₂⟩
          · have hpos := firstIndex_le_of_getEntry hentry
            rw [MemoryStorage.firstIndex] at hpos
            omega
          · obtain ⟨e', hold', hsame⟩ := hlast s₂ hs₂ s₁ (List.mem_singleton_self s₁) id i e
              ⟨⟨hmem, rn, hrn, hle⟩, hentry⟩ ⟨hid, rn₂, hrn₂, by omega⟩
            obtain ⟨ce, hce, ht, hd⟩ := (hrec s₂ hs₂ id i e' hold').kept hobs.kept
            simp only [Differ, not_or, not_not] at hsame
            exact ⟨ce, hce, ht.trans hsame.1, by rw [hd, hsame.2]⟩
    · rcases hobs.marks a with h | ⟨ha, rn, hrn, h⟩
      · rcases hmark a with h0 | ⟨s₁, hs₁, hreach⟩
        · exact Or.inl (h.trans h0)
        · exact Or.inr ⟨s₁, List.mem_append_left _ hs₁, by rw [h]; exact hreach⟩
      · exact Or.inr ⟨s, List.mem_append_right _ (List.mem_singleton_self s), ha, rn, hrn, h.le⟩

end

/-- As long as no node's committed entries change under it, two nodes that ever hold different
entries at a committed index are reported, at the latest when the second is observed.  The commands
that the nodes hold must have different digests. -/
theorem conflicting_commit_reported {sum256 : List UInt8 → List UInt8} (seed : ℤ)
    {earlier : List Simulator} {s s' : Simulator}
    (hsum : Set.InjOn sum256 {command | ∃ s₁ ∈ earlier ++ [s], command ∈ s₁.commands})
    (hst : Unchanged (earlier ++ [s])) (hs' : s' ∈ earlier ++ [s]) {a b : NodeID} {i : ℕ}
    {e e' : LogEntry} (he : Holds s a i e) (he' : Holds s' b i e') (hd : Differ e e') :
    (watch sum256 { seed } (earlier ++ [s])).violations ≠ [] := by
  intro hv
  obtain ⟨hrec, -⟩ := watch_recorded (fun _ => rfl) hst hv
  have hs : s ∈ earlier ++ [s] := List.mem_append_right _ (List.mem_singleton_self s)
  obtain ⟨ce, hce, ht, hdig⟩ := hrec s hs a i e he
  obtain ⟨ce', hce', ht', hdig'⟩ := hrec s' hs' b i e' he'
  obtain rfl := Option.some.inj (hce.symm.trans hce')
  rcases hd with hd | hd
  · exact hd (ht.symm.trans ht')
  · exact hd (hsum ⟨s, hs, a, i, e, he.2, rfl⟩ ⟨s', hs', b, i, e', he'.2, rfl⟩ (hdig.symm.trans hdig'))

/-- The logs of two nodes after `k` entries: the first is the same, the second is not.  Node 2 commits
each entry one observation after node 1. -/
def diverging (k : ℕ) : Simulator where
  ids := [1, 2]
  nodes v := liveNode (diskOf ([(1, [7]), (1, [if v = 1 then 8 else 9])].take k))
    (if v = 1 then min k 2 else k - 1)

theorem getEntry_diskOf_take {l : List (ℕ × List UInt8)} {i j k : ℕ} {e : LogEntry} (hi : i ≤ j)
    (hk : j ≤ k) (h : (diskOf (l.take k)).getEntry i = .ok e) :
    (diskOf (l.take j)).getEntry i = .ok e := by
  obtain ⟨n, rfl, hn⟩ := getElem_of_getEntry h
  have hbase : ∀ l, (diskOf l).base.index = 0 := fun _ => rfl
  rw [hbase] at hi
  refine getEntry_of_getElem (m := diskOf (l.take j)) ?_
  rw [diskOf, List.getElem?_mapIdx, List.getElem?_take_of_lt (by omega)] at hn ⊢
  exact hn

/-- A node keeps its log, and its commit index goes up. -/
theorem holds_diverging {j k : ℕ} (hk : j ≤ k) {v : NodeID} {i : ℕ} {e : LogEntry}
    (hold : Holds (diverging k) v i e) (hreach : Reached (diverging j) v i) :
    Holds (diverging j) v i e := by
  refine ⟨hreach, getEntry_diskOf_take ?_ hk hold.2⟩
  obtain ⟨-, rn, hrn, hle⟩ := hreach
  obtain rfl := Option.some.inj hrn
  change i ≤ if v = 1 then min j 2 else j - 1 at hle
  split at hle <;> omega

theorem unchanged_diverging : Unchanged [diverging 1, diverging 2, diverging 3] := by
  have hkept : ∀ j k, j ≤ k → ∀ v i e, Holds (diverging k) v i e → Reached (diverging j) v i →
      ∃ e', Holds (diverging j) v i e' ∧ ¬ Differ e' e := fun j k hk v i e hold hreach =>
    ⟨e, holds_diverging hk hold hreach, by simp [Differ]⟩
  simp only [Unchanged, List.pairwise_cons, List.mem_cons, List.not_mem_nil, or_false, forall_eq_or_imp,
    forall_eq]
  exact ⟨⟨hkept 1 2 (by decide), hkept 1 3 (by decide)⟩, hkept 2 3 (by decide), by simp⟩

theorem injOn_diverging :
    Set.InjOn padded {command | ∃ s ∈ [diverging 1, diverging 2] ++ [diverging 3],
      command ∈ s.commands} := by
  have hone : ∀ k, ∀ command ∈ (diverging k).commands, command.length = 1 := by
    rintro k _ ⟨v, i, e, he, rfl⟩
    obtain ⟨p, hp, hcommand⟩ := mem_of_getEntry_diskOf he
    have hall : ∀ p ∈ [(1, [7]), (1, [if v = 1 then (8 : UInt8) else 9])], p.2.length = 1 := by simp
    exact hcommand ▸ hall p (List.mem_of_mem_take hp)
  refine injOn_padded.mono ?_
  rintro command ⟨s, hs, hcommand⟩
  simp only [List.cons_append, List.nil_append, List.mem_cons, List.not_mem_nil, or_false] at hs
  rcases hs with rfl | rfl | rfl <;> exact hone _ command hcommand

/-- The marks move with the first two observations, which report nothing; the third finds what node 2
commits at index 2 against what was recorded of node 1. -/
theorem conflicting_commit_reported_diverging :
    (watch padded {} [diverging 1, diverging 2]).violations = [] ∧
      (watch padded {} [diverging 1, diverging 2]).checkedTo 1 = 2 ∧
      (watch padded {} [diverging 1, diverging 2]).checkedTo 2 = 1 ∧
      (watch padded {} ([diverging 1, diverging 2] ++ [diverging 3])).violations ≠ [] := by
  have hmem : diverging 2 ∈ [diverging 1, diverging 2] ++ [diverging 3] := by simp
  refine ⟨by decide, by decide, by decide, ?_⟩
  exact conflicting_commit_reported 0 injOn_diverging unchanged_diverging hmem
    (a := 2) (b := 1) (i := 2) ⟨⟨by decide, _, rfl, by decide⟩, rfl⟩
    ⟨⟨by decide, _, rfl, by decide⟩, rfl⟩ (Or.inr (by decide))

/-- One node with one committed entry. -/
def solo (command : UInt8) (restarted : Bool) : Simulator where
  ids := [1]
  nodes _ := { liveNode (diskOf [(1, [command])]) 1 with restartedSinceCheck := restarted }

/-- A committed entry that a node overwrites in place is never looked at again; nor is the log that a
node rebuilds after it lost its disk. -/
theorem overwritten_commit_unreported :
    (∃ e e', Holds (solo 7 false) 1 1 e ∧ Holds (solo 8 false) 1 1 e' ∧ Differ e e') ∧
      (watch id {} [solo 7 false, solo 8 false]).violations = [] ∧
      (watch id {} [solo 7 false, { solo 7 false with nodes := fun _ => {} },
        solo 8 true]).violations = [] := by
  refine ⟨⟨_, _, ⟨⟨by decide, _, rfl, by decide⟩, rfl⟩, ⟨⟨by decide, _, rfl, by decide⟩, rfl⟩,
    Or.inr (by decide)⟩, by decide, by decide⟩

end RaftStore.Sim
