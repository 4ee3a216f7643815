import RaftStore.Raft.Acknowledged
import RaftStore.Raft.Office

/-! The configurations that a leader takes up, over runs with crashes, failed writes and snapshots.
While a node leads on after it has appended a configuration entry, the configuration in force is the
one that an entry of its own established, and that entry is committed exactly when a quorum of the
configuration has confirmed it. -/

namespace RaftStore.Raft

open Lib RawNode

variable {c : Call} {r r' : RawNode} {L T : ℕ}

/-! ### The entry that established a configuration -/

/-- The entry at index `i` established the configuration: it is the last configuration entry. -/
structure Establishes (l : RaftLog) (conf : Configuration) (i : ℕ) (e : LogEntry) : Prop where
  entry : l.mem.getEntry i = .ok e
  type : e.type = .confChange
  conf : ∃ cc, ConfChange.decode e.command = .ok cc ∧ cc.config = conf
  last : ∀ j e', i < j → l.mem.getEntry j = .ok e' → e'.type ≠ .confChange

section

variable {l l' : RaftLog} {conf : Configuration} {i : ℕ} {e : LogEntry}

theorem establishes_of_lastConf {a : List LogEntry} (h : LastConf l.mem.ents a conf) :
    ∃ e, Establishes l conf (l.mem.base.index + a.length + 1) e := by
  obtain ⟨e, b, cc, hents, hty, hdec, hcc, hb⟩ := h.split
  refine ⟨e, getEntry_of_getElem (by simp [hents]), hty, ⟨cc, hdec, hcc⟩, fun j e' hj he' => ?_⟩
  obtain ⟨k, hk, hget⟩ := getElem_of_getEntry he'
  -- An entry above the last configuration entry is one of those that follow it.
  have hmem : e' ∈ b := by
    rw [hents, List.getElem?_append_right (by omega),
      show k - a.length = (k - a.length - 1) + 1 by omega, List.getElem?_cons_succ] at hget
    exact List.mem_of_getElem? hget
  exact hb e' hmem

/-- The entry still establishes the configuration in a log that holds it and has no new configuration
entries. -/
theorem Establishes.moved (h : Establishes l conf i e) (hget : l'.mem.getEntry i = .ok e)
    (hback : ∀ j e', l'.mem.getEntry j = .ok e' →
      l.mem.getEntry j = .ok e' ∨ e'.type ≠ .confChange) : Establishes l' conf i e :=
  ⟨hget, h.type, h.conf, fun j e' hj he' => (hback j e' he').elim (h.last j e' hj) id⟩

end

/-! ### Taking up a configuration -/

/-- The configuration in force comes from an entry above `L`, which the log still holds or has
compacted away; if that entry is committed, a quorum of the configuration has confirmed it. -/
structure RawNode.TookUp (L : ℕ) (r : RawNode) : Prop where
  above : L < r.confIndex
  entry : r.confIndex ≤ r.log.mem.base.index ∨ ∃ e, Establishes r.log r.conf r.confIndex e
  quorum : r.confIndex ≤ r.log.committed →
    r.conf.hasQuorum (fun v => r.confIndex ≤ r.matchOf v) = true

/-- A leader of term `T` that has taken up a configuration since its log ended at `L`; the entries
above `L` are its own. -/
structure RawNode.Reigns (L T : ℕ) (r : RawNode) : Prop where
  leads : r.state = .leader
  term : r.term = T
  last : L ≤ r.log.lastIndex
  own : ∀ j e, L < j → r.log.mem.getEntry j = .ok e → e.term = T
  tookUp : r.TookUp L

/-- The configuration stays, confirmations only grow, and the log keeps the entry. -/
theorem RawNode.TookUp.later (h : r.TookUp L) (hconf : r'.conf = r.conf)
    (hidx : r'.confIndex = r.confIndex) (hbase : r.log.mem.base.index ≤ r'.log.mem.base.index)
    (hentry : ∀ e, Establishes r.log r.conf r.confIndex e →
      r.confIndex ≤ r'.log.mem.base.index ∨ Establishes r'.log r.conf r.confIndex e)
    (hmatch : ∀ v, r.matchOf v ≤ r'.matchOf v)
    (hcom : r.confIndex ≤ r'.log.committed → r.log.committed < r.confIndex →
      r.conf.hasQuorum (fun v => r.confIndex ≤ r.matchOf v) = true) : r'.TookUp L := by
  refine ⟨hidx ▸ h.above, ?_, fun hle => ?_⟩
  · rw [hconf, hidx]
    rcases h.entry with hb | ⟨e, he⟩
    · exact .inl (hb.trans hbase)
    · exact (hentry e he).imp_right fun he => ⟨e, he⟩
  · rw [hidx] at hle
    have hq : r.conf.hasQuorum (fun v => r.confIndex ≤ r.matchOf v) = true := by
      rcases le_or_gt r.confIndex r.log.committed with hc | hc
      · exact h.quorum hc
      · exact hcom hle hc
    rw [hconf, hidx]
    refine Configuration.hasQuorum_mono (fun v _ hv => ?_) hq
    rw [decide_eq_true_eq] at hv ⊢
    exact hv.trans (hmatch v)

/-- The same for effects that leave the entries and the commit index alone. -/
theorem RawNode.TookUp.confirmed (h : r.TookUp L) (hconf : r'.conf = r.conf)
    (hidx : r'.confIndex = r.confIndex) (hbase : r'.log.mem.base = r.log.mem.base)
    (hents : r'.log.mem.ents = r.log.mem.ents) (hcom : r'.log.committed = r.log.committed)
    (hmatch : ∀ v, r.matchOf v ≤ r'.matchOf v) : r'.TookUp L := by
  refine h.later hconf hidx (by rw [hbase]) (fun e he => .inr ?_) hmatch fun hle hlt => ?_
  · exact he.moved (getEntry_congr hbase hents he.entry) fun j e' he' =>
      .inl (getEntry_congr hbase.symm hents.symm he')
  · rw [hcom] at hle
    exact absurd hle (not_le.mpr hlt)

theorem le_matchOf_setPeer {id : NodeID} {p q : Progress} (hp : r.peer id = some p)
    (h : p.matched ≤ q.matched) (v : NodeID) : r.matchOf v ≤ (r.setPeer id q).matchOf v := by
  rw [matchOf_setPeer hp]
  split
  · rename_i hv
    rw [hv, matchOf_of_peer hp]
    exact h
  · exact le_rfl

/-- A leader takes up the configuration of the entry that it appends. -/
theorem tookUp_extended {e : LogEntry} (hr : r.Wf) (hg : Grounded (r.extended e))
    (hty : e.type = .confChange) (hL : L ≤ r.log.lastIndex) : (r.extended e).TookUp L := by
  let mem : MemoryStorage := { r.log.mem with ents := r.log.mem.ents ++ [e] }
  have hlog : (r.extended e).log = (r.withMem mem).log := extended_log r e
  have hdisk : GroundedDisk mem := by
    have hd := hg.disk
    rw [hlog] at hd
    exact hd
  obtain ⟨r₁, hr₁⟩ := refreshConfiguration_isOk (r := r.withMem mem) fun x hx hxt =>
    (hdisk.ents x hx hxt).imp fun _ h => h.1
  have heq : r.extended e = r₁ := by rw [extended, if_pos hty, refreshed, hr₁]
  have hfrom : ConfFrom mem r.bootstrap r₁.conf r₁.confIndex := refreshConfiguration_ok hr₁
  have hlast : r₁.confIndex = r.log.lastIndex + 1 ∧
      ∃ e', Establishes (r.withMem mem).log r₁.conf r₁.confIndex e' := by
    have hno : ¬NoConf mem.ents := fun h => h e (by simp [mem]) hty
    generalize r₁.conf = conf at hfrom ⊢
    generalize r₁.confIndex = i at hfrom ⊢
    cases hfrom with
    | snapshot h => exact absurd h hno
    | bootstrap h => exact absurd h hno
    | entry a conf hl =>
      refine ⟨?_, establishes_of_lastConf hl⟩
      obtain ⟨e', b, cc, hents, -, -, -, hb⟩ := hl.split
      -- Nothing follows the last entry, so that it is the configuration entry.
      have hb : b = [] := by
        rcases List.eq_nil_or_concat' b with h | ⟨b', x, h⟩
        · exact h
        · rw [h, ← List.cons_append, ← List.append_assoc] at hents
          have hx := (List.append_inj' hents rfl).2
          cases hx
          exact absurd hty (hb e (by simp [h]))
      have hlen := congrArg List.length hents
      simp only [mem, List.length_append, List.length_cons, hb, List.length_nil] at hlen
      change r.log.mem.base.index + a.length + 1 = r.log.mem.base.index + r.log.mem.ents.length + 1
      omega
  obtain ⟨hidx, hent⟩ := hlast
  have hcom : r₁.log.committed = r.log.committed := by
    rw [← heq, hlog]
    rfl
  have hle := hr.log.committed_le
  rw [heq] at hlog ⊢
  refine ⟨by omega, .inr ?_, fun h => ?_⟩
  · rw [hlog]
    exact hent
  · omega

/-- What a leader appends is its own. -/
theorem reigns_extended {e : LogEntry} (hs : r.state = .leader) (ht : r.term = T)
    (hL : L ≤ r.log.lastIndex)
    (hown : ∀ j x, L < j → r.log.mem.getEntry j = .ok x → x.term = T) (het : e.term = r.term)
    (htook : (r.extended e).TookUp L) : (r.extended e).Reigns L T := by
  have hrec := extended_reconf r e
  refine ⟨?_, ?_, ?_, fun j x hj hx => ?_, htook⟩
  · rw [hrec.eq]
    exact hs
  · rw [hrec.eq]
    exact ht
  · rw [extended_lastIndex]
    exact hL.trans (Nat.le_succ _)
  · rw [extended_log] at hx
    rcases getEntry_of_concat hx with hx | ⟨-, rfl⟩
    · exact hown j x hj hx
    · exact het.trans ht

theorem RawNode.Reigns.extended {e : LogEntry} (h : r.Reigns L T) (hr : r.Wf)
    (hg : Grounded (r.extended e)) (het : e.term = r.term) : (r.extended e).Reigns L T := by
  refine reigns_extended h.leads h.term h.last h.own het ?_
  by_cases hty : e.type = .confChange
  · exact tookUp_extended hr hg hty h.last
  · rw [RawNode.extended, if_neg hty]
    refine h.tookUp.later rfl rfl le_rfl (fun x hx => .inr ?_) (fun _ => le_rfl)
      fun h1 h2 => absurd h1 (not_le.mpr h2)
    refine hx.moved (getEntry_concat hx.entry) fun j y hy => ?_
    rcases getEntry_of_concat hy with hy | ⟨-, rfl⟩
    · exact .inl hy
    · exact .inr hty

/-- Compaction may take away the entry, but not the index. -/
theorem RawNode.Reigns.compacted {upto : ℕ} {mem : MemoryStorage} (h : r.Reigns L T) (hr : r.Wf)
    (hcm : r.log.mem.compact upto = .ok mem) : (r.withMem mem).Reigns L T := by
  have hin := hr.log.inOrder
  refine ⟨h.leads, h.term, ?_, fun j e hj hget => ?_, ?_⟩
  · exact h.last.trans (MemoryStorage.compact_lastIndex hin hcm).ge
  · exact h.own j e hj (getEntry_of_compact hin hcm hget)
  · have hbase : r.log.mem.base.index ≤ mem.base.index := by
      rcases MemoryStorage.compact_ok hin hcm with ⟨-, rfl⟩ | ⟨hlt, -, -, -, hbase, -, -⟩
      · exact le_rfl
      · rw [hbase]
        exact hlt.le
    refine h.tookUp.later rfl rfl hbase (fun x hx => ?_) (fun _ => le_rfl)
      fun h1 h2 => absurd h1 (not_le.mpr h2)
    exact (getEntry_compact hin hcm hx.entry).imp_right fun hget =>
      hx.moved hget fun j y hy => .inl (getEntry_of_compact hin hcm hy)

theorem RawNode.Reigns.effect (h : r.Reigns L T) (hr : r.Wf) (hl : Ledger r) (hg : Grounded r')
    (hs : r'.state = .leader) (ht : r'.term = r.term) (he : Effect c r r') : r'.Reigns L T := by
  have hlast := h.last.trans (he.lastIndex_le hr h.leads hs)
  have hne : r.state ≠ .follower := by
    rw [h.leads]
    rintro ⟨⟩
  have hterm := ht.trans h.term
  cases he with
  | adopt m lead =>
    rw [becomeFollower, reset_eq] at hs
    cases hs
  | resign lead =>
    rw [becomeFollower, reset_eq] at hs
    cases hs
  | poll => cases hs
  | stand =>
    rw [RawNode.standing, reset_eq] at hs
    cases hs
  | lead hst => cases h.leads.symm.trans hst
  | follow m l committed _ _ _ hst => exact absurd hst hne
  | restore m snap mem _ _ _ hst => exact absurd hst hne
  | extend e _ _ het => exact h.extended hr hg het
  | ownMatch p hp =>
    refine ⟨hs, hterm, hlast, h.own, h.tookUp.confirmed rfl rfl rfl rfl rfl ?_⟩
    have hb := hl.bounds r.id p hp
    refine le_matchOf_setPeer hp ?_
    change p.matched ≤ r.log.lastIndex
    omega
  | setMatch m p _ _ _ _ hp hlt =>
    exact ⟨hs, hterm, hlast, h.own,
      h.tookUp.confirmed rfl rfl rfl rfl rfl (le_matchOf_setPeer hp hlt.le)⟩
  | setNext id p p' hp hm =>
    exact ⟨hs, hterm, hlast, h.own,
      h.tookUp.confirmed rfl rfl rfl rfl rfl (le_matchOf_setPeer hp hm.ge)⟩
  | commit i _ hi =>
    refine ⟨hs, hterm, hlast, h.own, h.tookUp.later rfl rfl le_rfl
      (fun _ hx => .inr (hx.moved hx.entry fun _ _ h => .inl h)) (fun _ => le_rfl) fun h1 _ => ?_⟩
    exact (Configuration.le_committedIndex_iff (Nat.zero_lt_of_lt h.tookUp.above)).mp (hi ▸ h1)
  | saveSnapshot data term mem _ hst h0 hsave =>
    obtain ⟨hb, hents⟩ := RaftLog.saveSnapshot_own h0 hst hsave
    refine ⟨hs, hterm, hlast, fun j e hj hget => ?_, ?_⟩
    · exact h.own j e hj (getEntry_congr hb.symm hents.symm hget)
    · exact h.tookUp.confirmed rfl rfl hb hents rfl fun _ => le_rfl
  | compact upto mem data _ _ _ hcm => exact h.compacted hr hcm
  | _ =>
    exact ⟨hs, hterm, hlast, h.own, h.tookUp.confirmed rfl rfl rfl rfl rfl fun _ => le_rfl⟩

/-! ### The rest of the term -/

/-- The rest of a leader's term: it leads on, or it neither leads nor stands in that term again. -/
def RawNode.Afterwards (L T : ℕ) (r : RawNode) : Prop :=
  T < r.term ∨ r.term = T ∧ (r.Reigns L T ∨ r.state ≠ .leader ∧ r.state ≠ .candidate)

theorem Reach.out_of_office (h : Reach c r r') (hs : r.state ≠ .leader ∧ r.state ≠ .candidate) :
    r.term < r'.term ∨ r'.term = r.term ∧ r'.state ≠ .leader ∧ r'.state ≠ .candidate := by
  induction h with
  | refl => exact .inr ⟨rfl, hs⟩
  | tail _ he ih =>
    rcases ih with hlt | ⟨ht, hs⟩
    · exact .inl (hlt.trans_le he.term_le)
    · rw [← ht]
      exact he.out_of_office hs

theorem RawNode.Afterwards.effect (h : r.Afterwards L T) (hr : r.Wf) (hl : Ledger r)
    (hg : Grounded r') (he : Effect c r r') : r'.Afterwards L T :=
  he.rest_of_term Reigns.leads (fun hreign hs ht => hreign.effect hr hl hg hs ht he) h

/-! ### Along a run -/

/-- No peer confirms to the leader of its term what that leader does not have. -/
def confirmable : Slot → Act → Bool
  | .up r, .call (.step m) _ =>
    decide (m.type = .appendResp ∨ m.type = .snapshotResp → m.success = true →
      r.state = .leader → m.term = r.term → m.matchIndex ≤ r.log.lastIndex)
  | _, _ => true

/-- What happens to a node fits its log, and what its peers confirm is in it. -/
def Orderly (s : Slot) (a : Act) : Prop := Fitting s a ∧ confirmable s a = true

/-- Who leads in a call that elects nobody has led since it began, and its log has only grown. -/
theorem Reach.led (h : Reach c r r') (hc : c.elects = false) (hr : r.Wf) (hs : r'.state = .leader) :
    r.state = .leader ∧ r.term = r'.term ∧ r.log.lastIndex ≤ r'.log.lastIndex := by
  induction h with
  | refl => exact ⟨hs, rfl, le_rfl⟩
  | tail hb he ih =>
    cases he.casting with
    | same ht' hs' =>
      have hsb := hs'.symm.trans hs
      obtain ⟨hs₀, ht, hle⟩ := ih hsb
      exact ⟨hs₀, ht.trans ht'.symm, hle.trans (he.lastIndex_le (Reach.wf hb hr) hsb hs)⟩
    | adopted _ hs' => cases hs'.symm.trans hs
    | resigned _ hs' => cases hs'.symm.trans hs
    | polled _ _ _ hs' => cases hs'.symm.trans hs
    | stood _ _ _ hs' => cases hs'.symm.trans hs
    | elected _ _ _ hel => cases hc.symm.trans hel

theorem Reach.term_le (h : Reach c r r') : r.term ≤ r'.term := by
  induction h with
  | refl => exact le_rfl
  | tail _ he ih => exact ih.trans he.term_le

section

variable {r₀ : RawNode} {faults : List Bool}

theorem Ledger.orderly (hc : Orderly (.up r₀) (.call c faults)) (hw₀ : r₀.Wf)
    (hreach : Reach c r₀ r) (h : Ledger r) (he : Effect c r r') : Ledger r' := by
  have hw := hreach.wf hw₀
  refine h.kept hw ?_ he
  rintro m p rfl hty hsu ht hp
  have hel : (Call.step m).elects = false := by
    rcases hty with hty | hty <;> simp [Call.elects, hty]
  obtain ⟨hs₀, ht₀, hlast⟩ := hreach.led hel hw₀ (hw.leader_of_peer hp)
  exact (of_decide_eq_true hc.2 hty hsu hs₀ (ht.trans ht₀.symm)).trans hlast

/-- The book of a leader and its configuration are in order throughout an orderly call. -/
theorem Orderly.reach (hc : Orderly (.up r₀) (.call c faults)) (hw : r₀.Wf) (hg : Grounded r₀)
    (hl : Ledger r₀) (h : Reach c r₀ r) : Grounded r ∧ Ledger r := by
  induction h with
  | refl => exact ⟨hg, hl⟩
  | tail hb he ih =>
    exact ⟨ih.1.fitting hc.1 hb (Reach.wf hb hw) he, ih.2.orderly hc hw hb he⟩

theorem RawNode.Afterwards.reach (h₀ : r₀.Afterwards L T) (hw : r₀.Wf)
    (hkept : ∀ r, Reach c r₀ r → Grounded r ∧ Ledger r) (h : Reach c r₀ r) : r.Afterwards L T := by
  induction h with
  | refl => exact h₀
  | tail hb he ih =>
    exact ih.effect (Reach.wf hb hw) (hkept _ hb).2 (hkept _ (hb.tail he)).1 he

end

/-- What an orderly run leaves. -/
theorem Orderly.run {acts : List Act} (hp : (Slot.down {}).Allows Orderly acts)
    (hr : (Slot.down {}).run acts = .up r) : Grounded r ∧ Ledger r := by
  have h : ((Slot.down {}).run acts).Sat (fun r => r.Wf ∧ Grounded r ∧ Ledger r) GroundedDisk := by
    refine Slot.Sat.run (s := .down {}) groundedDisk_empty MemoryStorage.OK.empty hp ?_
      (fun _ _ h => h.2.1.disk) fun _ _ _ hc hst hd hnew =>
        ⟨(started_of_new hnew).wf hst, grounded_of_new hd hc.1 hnew, ledger_of_new hnew⟩
    intro r₀ c faults hc h₀ r r' hreach hw h he
    exact ⟨he.wf hw, h.2.1.fitting hc.1 hreach hw he, h.2.2.orderly hc h₀.1 hreach he⟩
  rw [hr] at h
  exact h.2

/-! ### In a cluster -/

section

open Consensus

variable {boot : Configuration} {hn : boot.Normalized} {hs : boot.Sized} {cl : Cluster}

/-- In a cluster without snapshots whatever happens to a node is orderly: messages carry what
leaders appended, and a peer confirms to the leader of its term what it has from that leader. -/
theorem Refines.orderly {w : World NodeID LogEntry} (h : Refines (joint boot hn hs) cl w)
    {n : NodeID} {a : Act} (hp : cl.Permits boot Cluster.jointCalls n a) :
    Orderly (cl.slot n) a := by
  have hslot := h.slot n
  generalize cl.slot n = s at hslot ⊢
  cases a with
  | start cfg => exact ⟨(hp.2 ▸ hs : cfg.bootstrap.Sized), by cases s <;> rfl⟩
  | crash => exact ⟨trivial, by cases s <;> rfl⟩
  | call k faults =>
    cases k with
    | step m =>
      obtain ⟨hvalid, hmsg⟩ := h.net m hp
      refine ⟨⟨fun e he => (hmsg.entries e he).meaningful, fun _ _ _ _ _ hsn => ?_⟩, ?_⟩
      · cases hmsg.snapshot.symm.trans hsn
      · cases s with
        | down st => rfl
        | up r =>
          obtain ⟨rfl, -, -, hsim⟩ := hslot
          refine decide_eq_true fun hty hsu hl ht => ?_
          have hack := hvalid.response hty hsu
          rw [ht] at hack
          exact hack.le_lastIndex h.inv hsim hl
    | proposeConfChange target => exact ⟨hp, by cases s <;> rfl⟩
    | _ => exact ⟨trivial, by cases s <;> rfl⟩

/-- What a node goes through between two moments of such a run is an orderly run of its own. -/
theorem orderly_of_run (hn : boot.Normalized) (hs : boot.Sized) {cl' : Cluster}
    (h : Cluster.Run boot Cluster.jointCalls {} cl) (h' : Cluster.Run boot Cluster.jointCalls cl cl')
    (n : NodeID) :
    ∃ acts, (cl.slot n).Allows Orderly acts ∧ (cl.slot n).run acts = cl'.slot n := by
  induction h' with
  | refl => exact ⟨[], trivial, rfl⟩
  | @tail b cl' hb hstep ih =>
    obtain ⟨acts, hacts, hrun⟩ := ih
    obtain ⟨w, -, hw⟩ := (Refines.start (joint boot hn hs)).run (h.trans hb)
    obtain ⟨u, a, hp, rfl⟩ := hstep
    by_cases hu : n = u
    · subst hu
      refine ⟨acts ++ [a], hacts.concat (hrun ▸ hw.orderly hp), ?_⟩
      rw [Slot.run, List.foldl_append]
      change ((cl.slot n).run acts).act a = _
      rw [hrun]
      simp [Cluster.act]
    · exact ⟨acts, hacts, by simpa [Cluster.act, hu] using hrun⟩

end

/-! ### Through the term -/

/-- Between calls: everything is in order, the term of the leader goes on or is over, and as long as
it goes on the leader has caught up with what was confirmed. -/
structure RawNode.Watched (L T : ℕ) (r : RawNode) : Prop where
  grounded : Grounded r
  ledger : Ledger r
  afterwards : r.Afterwards L T
  caughtUp : r.term = T → r.CaughtUp L

theorem RawNode.Watched.call {faults : List Bool} (h : r.Watched L T) (hr : r.Wf)
    (hc : Orderly (.up r) (.call c faults)) :
    Meets c.run (r.withFaults faults) (fun _ r' => r'.Watched L T) fun e r' =>
      if c.stops e then GroundedDisk r'.log.mem ∧ T ≤ r'.log.mem.hardState.term
      else r'.Watched L T := by
  have hw := (reach_withFaults (c := c) r faults).wf hr
  have hboth : ∀ r', Reach c r r' → Grounded r' ∧ Ledger r' := fun _ =>
    hc.reach hr h.grounded h.ledger
  have hkept : ∀ r', Reach c r r' → Grounded r' ∧ Ledger r' ∧ r'.Afterwards L T := fun r' h' =>
    ⟨(hboth r' h').1, (hboth r' h').2, h.afterwards.reach hr hboth h'⟩
  have hfrom : ∀ r', Reach c (r.withFaults faults) r' → Reach c r r' := fun r' h' =>
    (reach_withFaults r faults).trans h'
  -- The leader catches up; nobody else comes to lead in its term.
  have hup : Meets c.run (r.withFaults faults) (fun _ r' => r'.term = T → r'.CaughtUp L)
      fun e r' => c.stops e = false → r'.term = T → r'.CaughtUp L := by
    by_cases hs : r.term = T ∧ r.state = .leader
    · have hl : ∀ r', Reach c (r.withFaults faults) r' → Ledger r' := fun r' h' =>
        (hboth r' (hfrom r' h')).2
      exact Meets.mono (caughtUp_call hw hs.2 hl (h.caughtUp hs.1)) (fun _ _ h _ => h)
        fun _ _ h hst _ => h hst
    · have hidle : ∀ r', Reach c r r' → r'.term = T → r'.CaughtUp L := by
        intro r' h' ht
        rcases h.afterwards with hlt | ⟨hterm, hreign | hs'⟩
        · have := Reach.term_le h'
          omega
        · exact absurd ⟨hterm, hreign.leads⟩ hs
        · rcases Reach.out_of_office h' hs' with hlt | ⟨-, hne, -⟩
          · omega
          · exact caughtUp_of_state hne
      refine Meets.mono (c.meets_run hw) (fun _ r' h' => hidle r' (hfrom r' h'))
        fun e r' h' hst => ?_
      rw [hst, if_neg Bool.false_ne_true] at h'
      exact hidle r' (hfrom r' h')
  refine Meets.mono (Meets.and (c.meets_run hw) hup) (fun _ r' h' => ?_) fun e r' h' => ?_
  · obtain ⟨hg, hl, ha⟩ := hkept r' (hfrom r' h'.1)
    exact ⟨hg, hl, ha, h'.2⟩
  · cases hst : c.stops e with
    | true =>
      rw [if_pos rfl]
      have hcrash := h'.1
      rw [hst, if_pos rfl] at hcrash
      obtain ⟨r₁, hr₁, hmem, -⟩ := hcrash
      obtain ⟨hg, -, ha⟩ := hkept r₁ (hfrom r₁ hr₁)
      rw [← hmem, (hr₁.wf hw).term_eq]
      exact ⟨hg.disk, ha.elim (fun h => h.le) fun h => h.1.ge⟩
    | false =>
      rw [if_neg Bool.false_ne_true]
      have hreach := h'.1
      rw [hst, if_neg Bool.false_ne_true] at hreach
      obtain ⟨hg, hl, ha⟩ := hkept r' (hfrom r' hreach)
      exact ⟨hg, hl, ha, h'.2 hst⟩

theorem RawNode.Watched.run {acts : List Act} (h : r.Watched L T) (hr : r.Wf)
    (hp : (Slot.up r).Allows Orderly acts) (hr' : (Slot.up r).run acts = .up r') :
    r'.Watched L T := by
  have hsat : ((Slot.up r).run acts).Sat (RawNode.Watched L T)
      fun st => GroundedDisk st ∧ T ≤ st.hardState.term := by
    refine Slot.Sat.run_calls (s := .up r) h hr hp (fun r c faults hc hw h => h.call hw hc) ?_ ?_
    · intro r hw h
      rw [hw.term_eq]
      exact ⟨h.grounded.disk, h.afterwards.elim (fun h => h.le) fun h => h.1.ge⟩
    · intro cfg st r hc _ hd hnew
      have hst := started_of_new hnew
      have hne : r.state ≠ .leader ∧ r.state ≠ .candidate := by
        rw [hst.state]
        constructor <;> rintro ⟨⟩
      refine ⟨grounded_of_new hd.1 hc.1 hnew, ledger_of_new hnew, ?_, fun _ =>
        caughtUp_of_state hne.1⟩
      rcases hd.2.lt_or_eq with hlt | heq
      · exact .inl (hst.term ▸ hlt)
      · exact .inr ⟨hst.term.trans heq.symm, .inr hne⟩
  rw [hr'] at hsat
  exact hsat

/-! ### The change itself -/

theorem meets_appendOwn_reigns {e : LogEntry} (ha : c.appends = true) (hr : r.Wf)
    (hs : r.state = .leader) (hty : e.type = .confChange)
    (hcc : ∃ cc, r.Proposes c cc ∧ e.command = cc.encode)
    (hkept : ∀ r', Reach c r r' → Grounded r' ∧ Ledger r') :
    Meets (appendOwn e) r (fun i r' => i = r.log.lastIndex + 1 ∧
      ∃ r₁, Reach c r r₁ ∧ r₁.Reigns r.log.lastIndex r.term ∧ Reach c r₁ r') fun _ _ => True := by
  rw [appendOwn, meets_bind, meets_get, meets_bind]
  refine meets_appendNext hr rfl (fun faults => ?_) fun _ _ => trivial
  let e' : LogEntry := { e with term := r.term, index := r.log.lastIndex + 1 }
  let r₁ := (r.withFaults faults).extended e'
  have hw := (reach_withFaults (c := c) r faults).wf hr
  have hext : Reach c r r₁ := by
    refine (reach_withFaults r faults).tail (.extend e' ha hs rfl rfl fun _ => ?_)
    obtain ⟨cc, ⟨h1, h2, h3⟩, h4⟩ := hcc
    exact ⟨cc, ⟨h1, h2, h3⟩, h4⟩
  have hreign : r₁.Reigns r.log.lastIndex r.term := by
    refine reigns_extended hs rfl le_rfl (fun j x hj hx => ?_) rfl
      (tookUp_extended hw (hkept r₁ hext).1 hty le_rfl)
    -- Nothing is above the end of the log before.
    obtain ⟨k, rfl, hk⟩ := getElem_of_getEntry hx
    have hlt := (List.getElem?_eq_some_iff.mp hk).1
    have hj : r.log.mem.base.index + r.log.mem.ents.length < r.log.mem.base.index + k + 1 := hj
    have hlt : k < r.log.mem.ents.length := hlt
    omega
  have hown := reach_ownMatch ha (extended_lastIndex (r.withFaults faults) e').symm
  have heq : r₁ = ((r.withFaults faults).withMem
      { r.log.mem with ents := r.log.mem.ents ++ [e'] }).refreshed := if_pos hty
  rw [meets_bind, if_pos hty]
  refine meets_refresh ?_ fun _ => trivial
  rw [← heq]
  exact ⟨rfl, r₁, hext, hreign, hown⟩

/-- A change that is accepted is appended, and the leader counts with its configuration from then
on. -/
theorem meets_proposeConfChange_reigns {target : Configuration} (hr : r.Wf)
    (hkept : ∀ r', Reach (.proposeConfChange target) r r' → Grounded r' ∧ Ledger r') :
    Meets (proposeConfChange target) r (fun i r' => i = r.log.lastIndex + 1 ∧
      r'.Afterwards r.log.lastIndex r.term) fun _ _ => True := by
  refine meets_proposeConfChange (fun _ => trivial) fun cc hs hprop => ?_
  rw [propose, proposeWith, meets_bind, meets_get, if_neg (not_not.mpr hs)]
  refine Meets.bind (Meets.mono (meets_appendOwn_reigns (c := .proposeConfChange target) rfl hr hs
    rfl ⟨cc, hprop, rfl⟩ hkept) (fun i r₂ h => ?_) fun _ _ _ => trivial)
  obtain ⟨hi, r₁, h₁, hreign, h₂⟩ := h
  have hw₁ := h₁.wf hr
  have hw₂ := h₂.wf hw₁
  refine Meets.bind (Meets.mono (exact_maybeAdvanceCommit (c := .proposeConfChange target) rfl hw₂)
    (fun _ r₃ h₃ => ?_) fun _ _ _ => trivial)
  have h₄ := (reach_broadcastAppend (c := .proposeConfChange target) (h₃.wf hw₂)).1
  have hstart : r₁.Afterwards r.log.lastIndex r.term := .inr ⟨hreign.term, .inl hreign⟩
  exact ⟨hi, hstart.reach hw₁ (fun r' h' => hkept r' (h₁.trans h')) ((h₂.trans h₃).trans h₄)⟩

theorem watched_of_proposeConfChange {target : Configuration} {faults : List Bool} {i : ℕ}
    (hr : r.Wf) (hg : Grounded r) (hl : Ledger r) (hsized : target.Sized)
    (h : proposeConfChange target (r.withFaults faults) = .ok i r') :
    i = r.log.lastIndex + 1 ∧ r'.Wf ∧ r'.Watched r.log.lastIndex r.term := by
  have hw := (reach_withFaults (c := .proposeConfChange target) r faults).wf hr
  have hc : Orderly (.up r) (.call (.proposeConfChange target) faults) := ⟨hsized, rfl⟩
  have hkept : ∀ r', Reach (.proposeConfChange target) (r.withFaults faults) r' →
      Grounded r' ∧ Ledger r' := fun _ h' => hc.reach hr hg hl ((reach_withFaults r faults).trans h')
  have hreach : Reach (.proposeConfChange target) (r.withFaults faults) r' :=
    (exact_proposeConfChange hw rfl).ok h
  obtain ⟨hi, hafter⟩ := (meets_proposeConfChange_reigns hw hkept).ok h
  -- Nothing above the end of the log has been confirmed before the change.
  have hup : (r.withFaults faults).CaughtUp r.log.lastIndex := by
    intro _ _ hlt _ _
    have hle := hl.committedIndex_le (Nat.zero_lt_of_lt hlt)
    change r.log.lastIndex < r.conf.committedIndex r.matchOf at hlt
    omega
  have hcaught : r'.CaughtUp r.log.lastIndex :=
    (catchesUp_proposeConfChange rfl (fun r' h' => (hkept r' h').2) hw hup).ok h
  obtain ⟨hg', hl'⟩ := hkept r' hreach
  exact ⟨hi, hreach.wf hw, hg', hl', hafter, fun _ => hcaught⟩

/-- While the leader leads on, the entry of its configuration is committed exactly when a quorum of
the configuration has confirmed it. -/
theorem RawNode.Watched.committed_iff (h : r.Watched L T) (hr : r.Wf) (hs : r.state = .leader)
    (ht : r.term = T) :
    L < r.confIndex ∧
      (r.confIndex ≤ r.log.mem.base.index ∨ ∃ e, Establishes r.log r.conf r.confIndex e) ∧
      (r.confIndex ≤ r.log.committed ↔
        r.conf.hasQuorum (fun v => r.confIndex ≤ r.matchOf v) = true) := by
  have hreign : r.Reigns L T := by
    rcases h.afterwards with hlt | ⟨-, h | h⟩
    · omega
    · exact h
    · exact absurd hs h.1
  have htook := hreign.tookUp
  have hpos := Nat.zero_lt_of_lt htook.above
  refine ⟨htook.above, htook.entry, htook.quorum, fun hq => ?_⟩
  have hle := (Configuration.le_committedIndex_iff hpos).mpr hq
  have hlast := h.ledger.committedIndex_le (hpos.trans_le hle)
  refine hle.trans ?_
  -- The index that a quorum has confirmed is that of an entry of the leader's own, or compacted away.
  rcases le_or_gt (r.conf.committedIndex r.matchOf) r.log.mem.base.index with hb | hb
  · exact hb.trans hr.log.base_le_committed
  · obtain ⟨e, he⟩ : ∃ e, r.log.mem.getEntry (r.conf.committedIndex r.matchOf) = .ok e := by
      obtain ⟨k, hk⟩ := Nat.exists_eq_add_of_lt hb
      have hlen : k < r.log.mem.ents.length := by
        change _ ≤ r.log.mem.base.index + r.log.mem.ents.length at hlast
        omega
      rw [hk]
      exact ⟨_, getEntry_of_getElem (List.getElem?_eq_getElem hlen)⟩
    have habove := htook.above.trans_le hle
    exact h.caughtUp ht hs e habove he ((hreign.own _ e habove he).trans ht.symm)

end RaftStore.Raft
