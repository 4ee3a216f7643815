import RaftStore.Sim.Committed
import RaftStore.Sim.Safe

/-! The checker finds nothing.  What it remembers of leaders, commits and commit indexes is what the
protocol has decided, so nothing that a node shows later contradicts it. -/

namespace RaftStore.Sim

open Lib Consensus Raft

/-- What a running node shows is what the protocol has decided. -/
structure Backed (w : World NodeID LogEntry) (id : NodeID) (st : MemoryStorage) (r : RawNode) : Prop where
  leader : r.state = .leader → w.hist.leader r.term = some id
  applied : r.log.applied ≤ r.log.committed
  entry : ∀ k e, k + 1 ≤ r.log.committed → st.getEntry (k + 1) = .ok e →
    ∃ t p l, w.hist.commit t p l ∧ p[k]? = some e
  readable : ∀ i e, i ≤ r.log.committed → st.getEntry i = .error e → e.is .compacted = true

/-- Every running node of the cluster is backed. -/
def AllBacked (w : World NodeID LogEntry) (sim : Simulator) : Prop :=
  ∀ id r, (sim.nodes id).rn = some r → Backed w id (sim.nodes id).storage r

/-- What the checker remembers is what the protocol has decided. -/
structure Watchful (sum256 : List UInt8 → List UInt8) (w : World NodeID LogEntry) (v : Watched) : Prop where
  leaders : ∀ t id, v.checker.leaderPerTerm t = some id → w.hist.leader t = some id
  commits : ∀ k ce, v.checker.committed (k + 1) = some ce → ∃ t p l e, w.hist.commit t p l ∧
    p[k]? = some e ∧ ce.term = e.term ∧ ce.digest = sum256 e.command
  marks : ∀ id k r, v.checker.lastCommit id = some k → (v.sim.nodes id).rn = some r →
    (v.sim.nodes id).restartedSinceCheck = false → k ≤ r.log.committed

/-- The check passes, and what the checker remembers is still true. -/
def Passes (sum256 : List UInt8 → List UInt8) (w : World NodeID LogEntry) (x : Watch Unit) (v : Watched) : Prop :=
  Meets x v (fun _ v' => v.sim.Same v'.sim ∧ Watchful sum256 w v') fun _ _ => False

variable {sum256 : List UInt8 → List UInt8} {w w' : World NodeID LogEntry} {v v' : Watched} {id : NodeID}
  {r : RawNode} {M : Membership}

theorem AllBacked.same {sim sim' : Simulator} (h : AllBacked w sim) (hs : sim.Same sim') : AllBacked w sim' := by
  intro id r hr
  rw [hs.storage]
  exact h id r (hs.rn id ▸ hr)

theorem Passes.pure (h : Watchful sum256 w v) : Passes sum256 w (pure ()) v := ⟨.refl _, h⟩

theorem Passes.andThen {x y : Watch Unit} (hx : Passes sum256 w x v)
    (hy : ∀ v', v.sim.Same v'.sim → Watchful sum256 w v' → Passes sum256 w y v') :
    Passes sum256 w (x >>= fun _ => y) v := by
  refine Meets.bind (Meets.mono hx (fun _ v' h => ?_) fun _ _ h => h)
  exact Meets.mono (hy v' h.1 h.2) (fun _ v'' h' => ⟨h.1.trans h'.1, h'.2⟩) fun _ _ h => h

theorem passes_checkElectionSafety (h : Watchful sum256 w v) (hb : Backed w id (v.sim.nodes id).storage r) :
    Passes sum256 w (checkElectionSafety id r) v := by
  rw [checkElectionSafety]
  split
  · exact .pure h
  · rename_i hlead
    have hleader := hb.leader (not_not.mp hlead)
    have hrecord : Watchful sum256 w { v with checker := { v.checker with
        leaderPerTerm := Function.update v.checker.leaderPerTerm r.term (some id) } } := by
      refine ⟨fun t id' ht => ?_, h.commits, h.marks⟩
      change Function.update v.checker.leaderPerTerm r.term (some id) t = some id' at ht
      rw [Function.update_apply] at ht
      split at ht
      · rename_i heq
        rw [heq, hleader]
        exact ht
      · exact h.leaders t id' ht
    refine Meets.bind ?_
    rw [meets_get]
    dsimp only
    split
    · rename_i prev hprev
      have hsame : prev = id := Option.some.inj ((h.leaders _ _ hprev).symm.trans hleader)
      rw [if_neg (not_not.mpr hsame)]
      exact ⟨.refl _, hrecord⟩
    · exact ⟨.refl _, hrecord⟩

theorem passes_checkCommitMonotonic (h : Watchful sum256 w v) (hr : (v.sim.nodes id).rn = some r)
    (hb : Backed w id (v.sim.nodes id).storage r) :
    Passes sum256 w (checkCommitMonotonic id r) v := by
  refine Meets.bind ?_
  rw [meets_get, meets_bind]
  refine (?first : ∀ Q : Unit → Watched → Prop, Q () v → Meets _ v Q fun _ _ => False) _ ?rest
  case first =>
    intro Q hQ
    split
    · rename_i prev hprev
      have hge : (decide (r.log.committed < prev) && !(v.sim.nodes id).restartedSinceCheck) = false := by
        cases hf : (v.sim.nodes id).restartedSinceCheck with
        | true => rw [Bool.not_true, Bool.and_false]
        | false => rw [decide_eq_false (not_lt.mpr (h.marks id prev r hprev hr hf)), Bool.false_and]
      rw [hge, if_neg Bool.false_ne_true]
      exact hQ
    · exact hQ
  case rest =>
    rw [meets_bind, meets_set, if_neg (not_lt.mpr hb.applied)]
    refine ⟨⟨rfl, fun u => ?_, fun u => ?_⟩, h.leaders, h.commits, fun u k r' hk hr' hf => ?_⟩
    · dsimp only
      rw [Function.update_apply]
      split
      · rename_i hu
        rw [hu]
      · rfl
    · dsimp only
      rw [Function.update_apply]
      split
      · rename_i hu
        rw [hu]
      · rfl
    · dsimp only at hk hr' hf
      by_cases hu : u = id
      · subst hu
        rw [Function.update_self] at hk hr'
        rw [← Option.some.inj hk, ← Option.some.inj (hr.symm.trans hr')]
      · rw [Function.update_of_ne hu] at hk hr' hf
        exact h.marks u k r' hk hr' hf

theorem passes_checkCommittedEntry {k : ℕ} (hw : Inv M.rules w) (h : Watchful sum256 w v)
    (hb : Backed w id (v.sim.nodes id).storage r) (hk : k + 1 ≤ r.log.committed) :
    Passes sum256 w (checkCommittedEntry sum256 id (k + 1)) v := by
  refine Meets.bind ?_
  rw [meets_get]
  split
  · rename_i e he
    rw [if_pos (hb.readable _ e hk he)]
    exact Passes.pure h
  · rename_i entry hentry
    obtain ⟨t, p, l, hc, hp⟩ := hb.entry k entry hk hentry
    dsimp only
    split
    · rename_i prev hprev
      obtain ⟨t', p', l', e', hc', hp', hterm, hdigest⟩ := h.commits k prev hprev
      have heq : entry = e' := by
        have hlt := (List.getElem?_eq_some_iff.mp hp).1
        have hlt' := (List.getElem?_eq_some_iff.mp hp').1
        rcases hw.hist.commit_total hc hc' with ⟨rest, rfl⟩ | ⟨rest, rfl⟩
        · rw [List.getElem?_append_left hlt, hp] at hp'
          exact Option.some.inj hp'
        · rw [List.getElem?_append_left hlt', hp'] at hp
          exact (Option.some.inj hp).symm
      subst heq
      rw [if_neg]
      · exact Passes.pure h
      · rintro (hne | hne)
        · exact hne hterm
        · exact hne hdigest
    · refine ⟨.refl _, h.leaders, fun k' ce hce => ?_, h.marks⟩
      change Function.update v.checker.committed (k + 1) _ (k' + 1) = some ce at hce
      rw [Function.update_apply] at hce
      split at hce
      · rename_i hkk
        obtain rfl : k' = k := by omega
        rw [← Option.some.inj hce]
        exact ⟨t, p, l, entry, hc, hp, rfl, rfl⟩
      · exact h.commits k' ce hce

theorem passes_checkCommittedFrom {k count : ℕ} (hw : Inv M.rules w) (h : Watchful sum256 w v)
    (hb : Backed w id (v.sim.nodes id).storage r) (hk : k + count ≤ r.log.committed) :
    Passes sum256 w (checkCommittedFrom sum256 id (k + 1) count) v := by
  induction count generalizing k v with
  | zero => exact .pure h
  | succ count ih =>
    refine (passes_checkCommittedEntry hw h hb (by omega)).andThen fun v' hs h' => ?_
    exact ih h' (hs.storage id ▸ hb) (by omega)

theorem passes_checkCommittedEntries (hw : Inv M.rules w) (h : Watchful sum256 w v)
    (hb : Backed w id (v.sim.nodes id).storage r) :
    Passes sum256 w (checkCommittedEntries sum256 id r) v := by
  refine Meets.bind ?_
  rw [meets_get]
  have hfrom : Passes sum256 w (checkCommittedFrom sum256 id (v.checker.checkedTo id + 1)
      (r.log.committed + 1 - (v.checker.checkedTo id + 1))) v := by
    rcases Nat.le_total (v.checker.checkedTo id) r.log.committed with hle | hle
    · exact passes_checkCommittedFrom hw h hb (by omega)
    · rw [Nat.sub_eq_zero_of_le (by omega)]
      exact .pure h
  refine hfrom.andThen fun v' _ h' => ?_
  refine Meets.bind ?_
  rw [meets_get]
  split
  · exact ⟨.refl _, h'.leaders, h'.commits, h'.marks⟩
  · exact Passes.pure h'

theorem passes_observeNode (hw : Inv M.rules w) (h : Watchful sum256 w v) (hb : AllBacked w v.sim) :
    Passes sum256 w (observeNode sum256 id) v := by
  refine Meets.bind ?_
  rw [meets_get]
  split
  · exact Passes.pure h
  · rename_i r hr
    have hr' := hb id r hr
    refine (passes_checkElectionSafety h hr').andThen fun v₁ hs₁ h₁ => ?_
    rw [← hs₁.storage id] at hr'
    rw [← hs₁.rn id] at hr
    refine (passes_checkCommitMonotonic h₁ hr hr').andThen fun v₂ hs₂ h₂ => ?_
    rw [← hs₂.storage id] at hr'
    exact passes_checkCommittedEntries hw h₂ hr'

theorem passes_observeNodes {ids : List NodeID} (hw : Inv M.rules w) (h : Watchful sum256 w v)
    (hb : AllBacked w v.sim) : Passes sum256 w (observeNodes sum256 ids) v := by
  induction ids generalizing v with
  | nil => exact .pure h
  | cons id ids ih =>
    exact (passes_observeNode hw h hb).andThen fun v' hs h' => ih h' (hb.same hs)

/-- The checks after an event pass. -/
theorem passes_observe (hw : Inv M.rules w) (h : Watchful sum256 w v) (hb : AllBacked w v.sim) :
    Passes sum256 w (observe sum256) v := by
  refine Meets.bind ?_
  rw [meets_get]
  exact passes_observeNodes hw h hb

/-! ### The comparison of logs -/

/-- Two nodes that hold the same term at an index hold the same entries below it. -/
def Matching (sim : Simulator) : Prop :=
  ∀ a b i j t ea eb, (sim.nodes a).storage.term (i + 1) = .ok t →
    (sim.nodes b).storage.term (i + 1) = .ok t → j ≤ i + 1 →
    (sim.nodes a).storage.getEntry j = .ok ea → (sim.nodes b).storage.getEntry j = .ok eb → ea = eb

/-- The check passes and changes nothing. -/
def Clears (x : Watch Unit) (v : Watched) : Prop := Meets x v (fun _ v' => v' = v) fun _ _ => False

theorem Clears.andThen {x y : Watch Unit} (hx : Clears x v) (hy : Clears y v) :
    Clears (x >>= fun _ => y) v := by
  refine Meets.bind (Meets.mono hx ?_ fun _ _ h => h)
  rintro _ _ rfl
  exact hy

section

variable {a b : NodeID}

theorem clears_compareFrom {upto i count : ℕ}
    (h : ∀ j ea eb, i ≤ j → j < i + count → (v.sim.nodes a).storage.getEntry j = .ok ea →
      (v.sim.nodes b).storage.getEntry j = .ok eb → ea = eb) :
    Clears (compareFrom sum256 a b upto i count) v := by
  induction count generalizing i with
  | zero => exact rfl
  | succ count ih =>
    have hrest : Clears (compareFrom sum256 a b upto (i + 1) count) v :=
      ih fun j ea eb hi hj => h j ea eb (by omega) (by omega)
    refine Meets.bind ?_
    rw [meets_get]
    split
    · rename_i ea eb ha hb
      obtain rfl := h i ea eb le_rfl (by omega) ha hb
      rw [if_neg (by simp)]
      exact hrest
    · exact hrest

theorem clears_walkDown (h : Matching v.sim) (n : ℕ) : Clears (walkDown sum256 a b n) v := by
  induction n with
  | zero => exact rfl
  | succ i ih =>
    refine Meets.bind ?_
    rw [meets_get]
    split
    · rename_i ta tb ha hb
      split
      · exact ih
      · rename_i heq
        obtain rfl := not_not.mp heq
        refine Meets.bind ?_
        rw [meets_get]
        exact clears_compareFrom fun j ea eb hlo hj => h a b i j ta ea eb ha hb (by omega)
    · exact rfl

theorem clears_checkPair (h : Matching v.sim) : Clears (checkPair sum256 a b) v := by
  refine Meets.bind ?_
  rw [meets_get]
  split
  · exact rfl
  · exact clears_walkDown h _

theorem clears_checkAgainst (h : Matching v.sim) (rest : List NodeID) :
    Clears (checkAgainst sum256 a rest) v := by
  induction rest with
  | nil => exact rfl
  | cons b rest ih => exact (clears_checkPair h).andThen ih

theorem clears_checkPairs (h : Matching v.sim) (ids : List NodeID) :
    Clears (checkPairs sum256 ids) v := by
  induction ids with
  | nil => exact rfl
  | cons a rest ih => exact (clears_checkAgainst h rest).andThen ih

theorem clears_checkLogMatching (h : Matching v.sim) : Clears (checkLogMatching sum256) v := by
  refine Meets.bind ?_
  rw [meets_get]
  exact clears_checkPairs h _

end

/-! ### The comparison of state machines -/

section

variable {es es' rest : List LogEntry} {a b : NodeID} {applied : NodeID → List LogEntry}

theorem Settled.agree_index (hw : Inv M.rules w) (h : Settled w es) (h' : Settled w es') {e e' : LogEntry}
    (he : e ∈ es) (he' : e' ∈ es') (hi : e.index = e'.index) : strip e = strip e' := by
  obtain ⟨k, hk⟩ := List.getElem?_of_mem he
  obtain ⟨k', hk'⟩ := List.getElem?_of_mem he'
  have hidx := (h k e hk).1
  have hidx' := (h' k' e' hk').1
  obtain rfl : k = k' := by omega
  exact h.agree hw h' hk hk'

theorem compareApplied_eq_none (hw : Inv M.rules w) (h : Settled w es) (h' : Settled w es')
    (hrest : rest ⊆ es') : compareApplied sum256 a b es rest = none := by
  induction rest with
  | nil => rfl
  | cons eb rest ih =>
    have hmem := hrest List.mem_cons_self
    have ih' := ih fun e he => hrest (List.mem_cons_of_mem eb he)
    rw [compareApplied]
    split
    · exact ih'
    · rename_i ea hea
      have hfound := List.find?_some hea
      have heq := h.agree_index hw h' (List.mem_reverse.mp (List.mem_of_find?_eq_some hea)) hmem
        (of_decide_eq_true hfound)
      have hterm : (strip ea).term = (strip eb).term := by rw [heq]
      have hcommand : sum256 (strip ea).command = sum256 (strip eb).command := by rw [heq]
      rw [if_neg]
      · exact ih'
      · rintro (hne | hne)
        · exact hne hterm
        · exact hne hcommand

theorem compareAppliedWith_eq_none (hw : Inv M.rules w) (h : ∀ id, Settled w (applied id))
    (ids : List NodeID) : compareAppliedWith sum256 applied a ids = none := by
  induction ids with
  | nil => rfl
  | cons b ids ih =>
    rw [compareAppliedWith, compareApplied_eq_none hw (h a) (h b) (List.Subset.refl _)]
    exact ih

/-- State machines that hold what was committed agree. -/
theorem checkStateMachinesAgree_eq_none (hw : Inv M.rules w) (h : ∀ id, Settled w (applied id))
    (ids : List NodeID) : checkStateMachinesAgree sum256 applied ids = none := by
  induction ids with
  | nil => rfl
  | cons a ids ih =>
    rw [checkStateMachinesAgree, compareAppliedWith_eq_none hw h]
    exact ih

end

/-! ### A good state -/

section

variable {boot : Configuration} {hn : boot.Normalized} {hs : boot.Sized} {s s' : Simulation}
  {net : List Message}

theorem Good.settled (h : Good boot hn hs s net w) (id : NodeID) : Settled w (s.members id).applied := by
  cases hr : (s.nodes id).rn with
  | none =>
    rw [((h.kept id).down hr).1]
    exact .nil w
  | some r => exact ((h.kept id).up r hr).2.settled

theorem Good.allBacked (h : Good boot hn hs s net w) : AllBacked w s.toSimulator := by
  intro id r hr
  obtain ⟨-, hwf, -⟩ := h.hosted.up (Node.slot_up hr)
  have hnode := Cluster.node?_eq_some (c := { slot := fun id => (s.nodes id).slot, net }).mpr
    (Node.slot_up hr)
  rw [((h.kept id).up r hr).1]
  refine ⟨fun hl => (h.hosted.refines.leader hnode hl).1, hwf.log.applied_le, fun k e hk he => ?_,
    fun i e hi he => ?_⟩
  · obtain ⟨t, p, l, -, hc, hp⟩ := h.hosted.refines.committed hnode hk he
    exact ⟨t, p, l, hc, hp⟩
  · have hle : r.log.committed ≤ r.log.mem.lastIndex := hwf.log.committed_le
    rw [MemoryStorage.getEntry] at he
    split at he
    · cases he
      rfl
    · rw [if_neg (not_lt.mpr (hi.trans hle))] at he
      cases he

theorem Good.storage (h : Good boot hn hs s net w) (id : NodeID) :
    (s.nodes id).slot.log.mem = (s.nodes id).storage := by
  cases hr : (s.nodes id).rn with
  | none =>
    rw [Node.slot_down hr]
    rfl
  | some r =>
    rw [Node.slot_up hr, ((h.kept id).up r hr).1]
    rfl

theorem Good.matching (h : Good boot hn hs s net w) : Matching s.toSimulator := by
  intro a b i j t ea eb ha hb hj hea heb
  rw [← h.storage] at ha hb hea heb
  exact h.hosted.refines.log_match (c := { slot := fun id => (s.nodes id).slot, net }) (i := i + 1)
    (by rw [RaftLog.term, if_neg (Nat.succ_ne_zero i)]; exact ha)
    (by rw [RaftLog.term, if_neg (Nat.succ_ne_zero i)]; exact hb) hj hea heb

/-- The checker looks at the nodes, and changes nothing but their marks. -/
theorem Good.same (h : Good boot hn hs s net w) (hsame : s.toSimulator.Same s'.toSimulator)
    (hmembers : s'.members = s.members) (hconf : s'.conf = s.conf) (hcfg : s'.cfg = s.cfg)
    (hqueue : s'.queue = s.queue) : Good boot hn hs s' net w where
  hosted := by
    have hslot : (fun id => (s'.nodes id).slot) = fun id => (s.nodes id).slot := by
      funext id
      rw [Node.slot, Node.slot, hsame.rn, hsame.storage]
    rw [hslot]
    exact h.hosted
  kept id := by
    rw [hmembers]
    refine ⟨fun hr => ?_, fun r hr => ?_⟩
    · rw [hsame.storage]
      exact (h.kept id).down (hsame.rn id ▸ hr)
    · rw [hsame.storage]
      exact (h.kept id).up r (hsame.rn id ▸ hr)
  images := h.images
  conf := hconf.trans h.conf
  ids := by rw [hsame.ids]; exact h.ids
  nonempty := by rw [hsame.ids]; exact h.nonempty
  valid := hcfg ▸ h.valid
  named := h.named
  events := by rw [hsame.ids, hqueue]; exact h.events
  stable := hcfg ▸ h.stable
  durable := hcfg ▸ h.durable

/-- What the checker remembers stays true as the run goes on. -/
theorem Watchful.goes (h : Watchful sum256 w { checker := s.checker, sim := s.toSimulator })
    (hg : Goes s w s' w') (hchecker : s'.checker = s.checker) :
    Watchful sum256 w' { checker := s'.checker, sim := s'.toSimulator } := by
  refine ⟨fun t id ht => ?_, fun k ce hce => ?_, fun id k r' hk hr' hf => ?_⟩
  · rw [hchecker] at ht
    exact hg.later.leader (h.leaders t id ht)
  · rw [hchecker] at hce
    obtain ⟨t, p, l, e, hc, hrest⟩ := h.commits k ce hce
    exact ⟨t, p, l, e, hg.later.commit hc, hrest⟩
  · rw [hchecker] at hk
    obtain ⟨r, hr, hf', hle⟩ := hg.commits id r' hr' hf
    exact (h.marks id k r hk hr hf').trans hle

end

end RaftStore.Sim
