import Mathlib.Data.List.Pairwise
import RaftStore.Node.Turn
import RaftStore.Raft.Indexes

/-! What the state machine is told.  Its calls are compared with the entries that the core has
committed at one moment or another; in the life of a process these never change. -/

namespace RaftStore.Loop

open Lib Raft RawNode

variable {σ ρ : Type}

/-- At one of the moments the log holds the entry, at or below the commit index. -/
def Committed (trace : List RawNode) (e : LogEntry) : Prop :=
  ∃ r ∈ trace, e ∈ r.log.mem.ents ∧ e.index ≤ r.log.committed

def AppCall.heard : ℕ × List LogEntry → AppCall ρ → ℕ × List LogEntry
  | (k, es), .apply e _ => (k, es ++ [e])
  | _, .restore _ i => (i, [])
  | s, _ => s

/-- The index of the last restore, zero if there was none, and the entries applied since. -/
def heard (calls : List (AppCall ρ)) : ℕ × List LogEntry := calls.foldl AppCall.heard (0, [])

/-- After these calls the state machine reflects exactly the entries up to index `i`: since the last
restore it was told the normal ones among the committed entries from there to `i`, each once and in
their order. -/
def Reflects (trace : List RawNode) (calls : List (AppCall ρ)) (i : ℕ) : Prop :=
  ∃ es : List LogEntry, (heard calls).1 + es.length = i ∧ Contiguous ((heard calls).1 + 1) es ∧
    (∀ e ∈ es, Committed trace e) ∧ (heard calls).2 = es.filter (·.type = .normal)

/-- Every state that was handed over for a snapshot at index `i` had been captured just before, from
a state machine that reflected exactly the entries up to `i`. -/
def Captured (trace : List RawNode) (calls : List (AppCall ρ)) : Prop :=
  ∀ k i data, calls[k]? = some (.createSnapshot i data) →
    ∃ j, k = j + 1 ∧ calls[j]? = some (.snapshot data) ∧ Reflects trace (calls.take j) i

section

variable {trace trace' : List RawNode} {calls : List (AppCall ρ)} {i : ℕ}

theorem heard_append (calls ext : List (AppCall ρ)) :
    heard (calls ++ ext) = ext.foldl AppCall.heard (heard calls) :=
  List.foldl_append

theorem Committed.mono {e : LogEntry} (h : Committed trace e) (hsub : trace ⊆ trace') :
    Committed trace' e := by
  obtain ⟨r, hr, he⟩ := h
  exact ⟨r, hsub hr, he⟩

theorem Reflects.mono (h : Reflects trace calls i) (hsub : trace ⊆ trace') :
    Reflects trace' calls i := by
  obtain ⟨es, hi, hc, hes, heq⟩ := h
  exact ⟨es, hi, hc, fun e he => (hes e he).mono hsub, heq⟩

theorem Captured.mono (h : Captured trace calls) (hsub : trace ⊆ trace') :
    Captured trace' calls := by
  intro k i data hk
  obtain ⟨j, hj, hcall, href⟩ := h k i data hk
  exact ⟨j, hj, hcall, href.mono hsub⟩

/-- A restored state machine reflects what the snapshot covers. -/
theorem reflects_restore (trace : List RawNode) (calls : List (AppCall ρ)) (data : List UInt8)
    (i : ℕ) : Reflects trace (calls ++ [.restore data i]) i := by
  refine ⟨[], ?_, .nil _, nofun, ?_⟩ <;> rw [heard_append] <;> rfl

/-- Capturing the state tells it nothing. -/
theorem Reflects.capture (h : Reflects trace calls i) (data : List UInt8) (k : ℕ) :
    Reflects trace (calls ++ [.snapshot data, .createSnapshot k data]) i := by
  rw [Reflects, heard_append]
  exact h

theorem Captured.append (h : Captured trace calls) {ext : List (AppCall ρ)}
    (hext : ∀ k i data, ext[k]? = some (.createSnapshot i data) →
      ∃ j, k = j + 1 ∧ ext[j]? = some (.snapshot data) ∧ Reflects trace (calls ++ ext.take j) i) :
    Captured trace (calls ++ ext) := by
  intro k i data hk
  rcases lt_or_ge k calls.length with hlt | hge
  · rw [List.getElem?_append_left hlt] at hk
    obtain ⟨j, rfl, hcall, href⟩ := h k i data hk
    refine ⟨j, rfl, ?_, ?_⟩
    · rw [List.getElem?_append_left (by omega), hcall]
    · rwa [List.take_append_of_le_length (by omega)]
  · rw [List.getElem?_append_right hge] at hk
    obtain ⟨j, hj, hcall, href⟩ := hext _ i data hk
    refine ⟨calls.length + j, by omega, ?_, ?_⟩
    · rw [List.getElem?_append_right (by omega), Nat.add_sub_cancel_left, hcall]
    · rwa [List.take_length_add_append]

end

/-! ### The core over the life of a process -/

/-- The log of the core is the last that was seen of it, and nothing committed was ever replaced. -/
structure Logged (n : Node σ ρ) : Prop where
  wf : n.rn.Wf
  order : n.trace.Pairwise Retains
  past : ∀ r ∈ n.trace, r.Wf ∧ r.Retains n.rn
  last : ∃ r ∈ n.trace, r.log.mem = n.rn.log.mem ∧ r.log.committed = n.rn.log.committed

section

variable {n n' : Node σ ρ}

theorem Logged.committed (h : Logged n) {e : LogEntry} (he : e ∈ n.rn.log.mem.ents)
    (hi : e.index ≤ n.rn.log.committed) : Committed n.trace e := by
  obtain ⟨r, hr, hmem, hc⟩ := h.last
  exact ⟨r, hr, hmem ▸ he, hc ▸ hi⟩

theorem Logged.withFaults (h : Logged n) (faults : List Bool) : Logged (n.withFaults faults) where
  wf := (reach_withFaults (c := .tick) n.rn faults).wf h.wf
  order := h.order
  past r hr := ⟨(h.past r hr).1, ⟨(h.past r hr).2.committed, (h.past r hr).2.mem⟩⟩
  last := h.last

theorem Ran.logged {calls : Call → Prop} (hran : Ran calls n n') (h : Logged n) : Logged n' := by
  rcases hran with ⟨hrn, htrace⟩ | ⟨c, -, hg, htrace⟩
  · exact ⟨hrn ▸ h.wf, htrace ▸ h.order, by rw [htrace, hrn]; exact h.past,
      by rw [htrace, hrn]; exact h.last⟩
  · have hreach := hg.reach h.wf
    have hret := hreach.retains h.wf
    have hpast : ∀ r ∈ n.trace, r.Wf ∧ r.Retains n'.rn := fun r hr =>
      ⟨(h.past r hr).1, (h.past r hr).2.trans hret⟩
    refine ⟨hreach.wf h.wf, ?_, ?_, ?_⟩
    · rw [htrace, List.pairwise_append]
      refine ⟨h.order, List.pairwise_singleton _ _, fun r hr r' hr' => ?_⟩
      rw [List.mem_singleton.mp hr']
      exact (hpast r hr).2
    · intro r hr
      rw [htrace] at hr
      rcases List.mem_append.mp hr with hr | hr
      · exact hpast r hr
      · rw [List.mem_singleton.mp hr]
        exact ⟨hreach.wf h.wf, .refl _⟩
    · exact ⟨n'.rn, by rw [htrace]; exact List.mem_append_right _ List.mem_cons_self, rfl, rfl⟩

/-- Two entries that were committed at one index are one entry. -/
theorem Logged.committed_unique (h : Logged n) {e e' : LogEntry} (he : Committed n.trace e)
    (he' : Committed n.trace e') (hi : e.index = e'.index) : e = e' := by
  obtain ⟨r, hr, hmem, hle⟩ := he
  obtain ⟨r', hr', hmem', hle'⟩ := he'
  -- the earlier log holds both entries
  have hone : ∀ {r r' : RawNode} {e e' : LogEntry}, r ∈ n.trace → r.Retains r' →
      e ∈ r.log.mem.ents → e.index ≤ r.log.committed → e' ∈ r'.log.mem.ents → e.index = e'.index →
      e = e' := by
    intro r r' e e' hr hret hmem hle hmem' hi
    have := hret.mem e' hmem' (hi ▸ hle)
    exact (h.past r hr).1.log.inOrder.eq_of_index hmem this hi
  have hsymm : Std.Symm fun r r' : RawNode => r.Retains r' ∨ r'.Retains r := ⟨fun _ _ => Or.symm⟩
  have horder : r.Retains r' ∨ r'.Retains r :=
    List.Pairwise.forall_of_forall (R := fun r r' : RawNode => r.Retains r' ∨ r'.Retains r)
      (fun r _ => Or.inl (.refl r)) (h.order.imp Or.inl) hr hr'
  rcases horder with hret | hret
  · exact hone hr hret hmem hle hmem' hi
  · exact (hone hr' hret hmem' hle' hmem hi.symm).symm

end

/-! ### What the application is told -/

/-- The application is told nothing, or a snapshot waits for it. -/
def Told (r r' : RawNode) : Prop :=
  r'.log.applied = r.log.applied ∧ r'.appliedSnapshot = r.appliedSnapshot ∨ Handed r'

section

variable {sm : StateMachine σ ρ} {e : Event} {n n' : Node σ ρ}

theorem Reports.told {α : Type} {x : Core α} {r r' : RawNode} (h : Reports x r) :
    (∀ a, x r = .ok a r' → Told r r') ∧ ∀ f, x r = .error f r' → Told r r' :=
  ⟨fun _ hx => Or.inl ⟨(h.ok hx).applied, (h.ok hx).snapshot⟩,
    fun _ hx => Or.inl ⟨(h.error hx).1, (h.error hx).2.1⟩⟩

/-- Unless it fails with an error that wraps no sentinel. -/
theorem Hands.told {α : Type} {x : Core α} {r r' : RawNode} (h : Hands x r) :
    (∀ a, x r = .ok a r' → Told r r') ∧ ∀ f, x r = .error f r' → f.Bare ∨ Told r r' := by
  have htold : Steady r r' ∨ Handed r' ∧ r'.faultsLeft = r.faultsLeft → Told r r' := fun h =>
    h.imp (fun h => ⟨h.applied, h.snapshot⟩) And.left
  rw [Hands] at h
  exact ⟨fun _ hx => htold (h.ok hx), fun _ hx => (h.error hx).imp_right htold⟩

theorem Taken.told (h : Taken n e n') : n'.calls = n.calls ∧ Told n.rn n'.rn := by
  cases h with
  | tick r hr => exact ⟨rfl, (Reports.told reports_tick).1 _ hr⟩
  | step m r hr => exact ⟨rfl, (Hands.told hands_step).1 _ hr⟩
  | ignore m err r hr hi =>
    rcases (Hands.told hands_step).2 _ hr with ⟨err', heq, hw⟩ | h
    · cases heq
      rw [Error.is_of_bare hw] at hi
      exact nomatch hi
    · exact ⟨rfl, h⟩
  | propose cmd i r hr => exact ⟨rfl, (Reports.told reports_propose).1 _ hr⟩
  | refuse cmd err r hr => exact ⟨rfl, (Reports.told reports_propose).2 _ hr⟩
  | read r hr => exact ⟨rfl, (Reports.told reports_readIndex).1 _ hr⟩
  | unread err r hr => exact ⟨rfl, (Reports.told reports_readIndex).2 _ hr⟩
  | change target i r hr => exact ⟨rfl, (Reports.told reports_proposeConfChange).1 _ hr⟩
  | unchanged target err r hr => exact ⟨rfl, (Reports.told reports_proposeConfChange).2 _ hr⟩
  | status => exact ⟨rfl, Or.inl ⟨rfl, rfl⟩⟩

theorem Applies.heard {entries : List LogEntry} (h : Applies sm n entries n') :
    ∃ ext : List (AppCall ρ), n'.calls = n.calls ++ ext ∧
      (∀ c ∈ ext, ∃ e response, c = .apply e response) ∧
      heard n'.calls =
        ((heard n.calls).1, (heard n.calls).2 ++ entries.filter (·.type = .normal)) := by
  induction h with
  | nil n => exact ⟨[], by simp, nofun, by simp⟩
  | @normal n n' e rest response app hty _ _ ih =>
    obtain ⟨ext, hcalls, hext, hheard⟩ := ih
    rw [Node.resolve_eq] at hcalls hheard
    refine ⟨.apply e response :: ext, ?_, ?_, ?_⟩
    · rw [hcalls]
      simp [Node.told]
    · intro c hc
      rcases List.mem_cons.mp hc with rfl | hc
      · exact ⟨e, response, rfl⟩
      · exact hext c hc
    · rw [hheard]
      simp [Node.told, heard_append, AppCall.heard, hty]
  | @other n n' e rest hty _ ih =>
    rw [Node.resolve_eq] at ih
    rw [List.filter_cons_of_neg (by simpa using hty)]
    exact ih

/-- What holds of a process at every moment of its life.  Only while a snapshot waits to be restored
does the state machine reflect less than what is applied. -/
structure Applying (n : Node σ ρ) : Prop extends Logged n where
  reflects : ∃ i ≤ n.rn.log.applied, Reflects n.trace n.calls i ∧
    (n.rn.appliedSnapshot = none → i = n.rn.log.applied)
  handed : ∀ snap, n.rn.appliedSnapshot = some snap → n.rn.log.applied = snap.lastIncludedIndex
  captured : Captured n.trace n.calls

theorem Ran.subset {calls : Call → Prop} (h : Ran calls n n') : n.trace ⊆ n'.trace := by
  rcases h with ⟨-, htrace⟩ | ⟨c, -, -, htrace⟩
  · exact htrace ▸ List.Subset.refl _
  · rw [htrace]
    exact List.subset_append_left _ _

theorem Ran.applied_le {calls : Call → Prop} (h : Ran calls n n') (hr : n.rn.Wf) :
    n.rn.log.applied ≤ n'.rn.log.applied := by
  rcases h with ⟨hrn, -⟩ | ⟨c, -, hg, -⟩
  · rw [hrn]
  · exact ((hg.reach hr).advanced hr).applied

theorem Applying.withFaults (h : Applying n) (faults : List Bool) :
    Applying (n.withFaults faults) :=
  ⟨h.toLogged.withFaults faults, h.reflects, h.handed, h.captured⟩

/-- A call after which the application has been told nothing, or a snapshot waits for it. -/
theorem Applying.told {calls : Call → Prop} (h : Applying n) (hran : Ran calls n n')
    (hcalls : n'.calls = n.calls) (htold : Told n.rn n'.rn) : Applying n' := by
  obtain ⟨i, hi, href, hall⟩ := h.reflects
  have hsub := hran.subset
  refine ⟨hran.logged h.toLogged, ⟨i, hi.trans (hran.applied_le h.wf), ?_, ?_⟩, ?_, ?_⟩
  · rw [hcalls]
    exact href.mono hsub
  · intro hnone
    rcases htold with ⟨ha, hs⟩ | ⟨snap, hs, -⟩
    · rw [ha, hall (hs ▸ hnone)]
    · rw [hs] at hnone
      exact nomatch hnone
  · intro snap hsnap
    rcases htold with ⟨ha, hs⟩ | ⟨snap', hs, ha⟩
    · rw [ha, h.handed snap (hs ▸ hsnap)]
    · rw [hs] at hsnap
      cases hsnap
      exact ha
  · rw [hcalls]
    exact h.captured.mono hsub

theorem Applying.taken (h : Applying n) (ht : Taken n e n') : Applying n' :=
  h.told ht.ran ht.told.1 ht.told.2

/-- The state machine has been told some of the entries that follow those it reflects. -/
theorem Applying.applies {entries : List LogEntry} (h : Applying n)
    (hs : n.rn.appliedSnapshot = none) (ha : Applies sm n entries n')
    (hc : Contiguous (n.rn.log.applied + 1) entries) (hes : ∀ e ∈ entries, Committed n.trace e) :
    Reflects n.trace n'.calls (n.rn.log.applied + entries.length) ∧ Captured n.trace n'.calls := by
  obtain ⟨i, hi, ⟨es, hlen, hcon, hcom, hheard'⟩, hall⟩ := h.reflects
  obtain ⟨ext, hcalls, hext, hheard⟩ := ha.heard
  have hi' := hall hs
  refine ⟨⟨es ++ entries, ?_, ?_, ?_, ?_⟩, ?_⟩
  · rw [hheard, List.length_append]
    dsimp only
    omega
  · rw [hheard]
    refine hcon.append ?_
    rwa [show (heard n.calls).1 + 1 + es.length = n.rn.log.applied + 1 by omega]
  · intro e he
    exact (List.mem_append.mp he).elim (hcom e) (hes e)
  · rw [hheard, List.filter_append, hheard']
  · rw [hcalls]
    refine h.captured.append fun k i data hk => ?_
    obtain ⟨e, response, heq⟩ := hext _ (List.mem_of_getElem? hk)
    exact nomatch heq

/-- The entries of a batch follow what is applied, and are committed. -/
theorem Logged.batch (h : Logged n) {entries : List LogEntry}
    (hes : n.rn.committedEntries = .ok entries) :
    Contiguous (n.rn.log.applied + 1) entries ∧ (∀ e ∈ entries, Committed n.trace e) ∧
      n.rn.log.applied + entries.length ≤ n.rn.log.committed := by
  obtain ⟨es, hes', hlen, -, hat⟩ := RaftLog.entriesToApply_ok h.wf.log n.rn.cfg.maxApplyEntries
  cases hes.symm.trans hes'
  refine ⟨fun k e hk => (hat k e hk).1, fun e he => ?_, hlen⟩
  obtain ⟨k, hk⟩ := List.mem_iff_getElem?.mp he
  obtain ⟨hidx, hget⟩ := hat k e hk
  obtain ⟨j, -, hj⟩ := getElem_of_getEntry hget
  have := (List.getElem?_eq_some_iff.mp hk).1
  exact h.committed (List.mem_of_getElem? hj) (by omega)

/-- The state has been captured and handed to the core. -/
theorem Applying.capture {data : List UInt8} {r : RawNode} (h : Applying n)
    (hs : n.rn.appliedSnapshot = none) (hsame : SameButStorage n.rn r)
    (hlog : Logged (n.captured data r)) : Applying (n.captured data r) := by
  obtain ⟨i, -, href, hall⟩ := h.reflects
  cases hall hs
  rw [SameButStorage] at hsame
  have hsub : n.trace ⊆ (n.captured data r).trace := List.subset_append_left _ _
  have href := href.mono hsub
  refine ⟨hlog, ⟨n.rn.log.applied, ?_, href.capture data _, fun _ => ?_⟩, fun snap hsnap => ?_, ?_⟩
  · show n.rn.log.applied ≤ r.log.applied
    rw [hsame]
  · show n.rn.log.applied = r.log.applied
    rw [hsame]
  · change r.appliedSnapshot = some snap at hsnap
    rw [hsame, hs] at hsnap
    cases hsnap
  · refine (h.captured.mono hsub).append fun k i data' hk => ?_
    rcases k with _ | _ | k
    · cases hk
    · cases hk
      exact ⟨0, rfl, rfl, by rw [List.take_zero, List.append_nil]; exact href⟩
    · cases hk

theorem Applying.move (h : Applying n) (hm : Move sm n n') : Applying n' := by
  have hran := hm.ran
  cases hm with
  | release => exact h.told hran rfl (Or.inl ⟨rfl, rfl⟩)
  | answer =>
    refine h.told hran ?_ ?_
    · rw [Node.answered, Node.foldl_resolveRead_eq]
      rfl
    · rw [Node.answered, Node.foldl_resolveRead_eq]
      exact Or.inl ⟨rfl, rfl⟩
  | look hs => exact h.told hran rfl (Or.inl ⟨rfl, hs.symm⟩)
  | note =>
    refine h.told hran ?_ ?_
    · rw [Node.noteRole_eq]
    · rw [Node.noteRole_eq]
      exact Or.inl ⟨rfl, rfl⟩
  | restore s snap app hs _ _ =>
    refine ⟨hran.logged h.toLogged, ⟨snap.lastIncludedIndex, ?_, ?_, ?_⟩, (by rintro _ ⟨⟩), ?_⟩
    · exact (h.handed snap hs).ge
    · exact reflects_restore _ _ _ _
    · exact fun _ => (h.handed snap hs).symm
    · refine (h.captured.mono hran.subset).append fun k i data hk => ?_
      cases List.mem_singleton.mp (List.mem_of_getElem? hk)
  | batch entries last n₁ r hs hes hlast ha hto =>
    obtain ⟨hc, hcom, hlen⟩ := h.toLogged.batch hes
    obtain ⟨href, hcap⟩ := h.applies hs ha hc hcom
    obtain ⟨hrn, -, -⟩ := ha.frame
    have hidx : last.index = n.rn.log.applied + 1 + (entries.length - 1) :=
      hc _ last (by rw [← List.getLast?_eq_getElem?, hlast])
    have hpos : entries.length ≠ 0 := by
      intro h0
      rw [List.length_eq_zero_iff.mp h0] at hlast
      cases hlast
    obtain ⟨r', hto', -, hr'⟩ := applyTo_ok (r := n₁.rn) (i := last.index) (by rw [hrn]; omega)
      (by rw [hrn]; omega)
    cases hto.symm.trans hto'
    have happlied : r.log.applied = last.index := by rw [hr']
    refine ⟨hran.logged h.toLogged, ⟨last.index, happlied.ge, ?_, fun _ => happlied.symm⟩, ?_, ?_⟩
    · rw [show last.index = n.rn.log.applied + entries.length by omega]
      exact href.mono hran.subset
    · intro snap hsnap
      change r.appliedSnapshot = some snap at hsnap
      rw [hr', hrn, hs] at hsnap
      cases hsnap
    · exact hcap.mono hran.subset
  | capture s data snap r hs _ _ hr =>
    exact h.capture hs ((createSnapshot_same data n.rn).ok hr).1 (hran.logged h.toLogged)
  | uncaptured s data err r hs _ _ hr =>
    exact h.capture hs ((createSnapshot_same data n.rn).error hr) (hran.logged h.toLogged)

theorem Applying.moves (h : Applying n) (hm : Moves sm n n') : Applying n' := by
  induction hm with
  | refl => exact h
  | tail _ hm ih => exact ih.move hm

theorem start_applying {app : σ} {cfg : Config} {st : MemoryStorage} (hst : st.OK)
    (h : start sm app cfg st = .ok n) : Applying n ∧ n.rn.appliedSnapshot = none := by
  obtain ⟨cfg', rn, app', calls, -, hnew, rfl, hcalls⟩ := start_ok h
  have hstarted := started_of_new hnew
  have hwf := hstarted.wf hst
  have hnone := appliedSnapshot_of_new hnew
  have happlied : rn.log.applied = st.snapshot.lastIncludedIndex := by rw [hstarted.log]; rfl
  refine ⟨⟨⟨hwf, List.pairwise_singleton _ _, fun r hr => ?_, rn, List.mem_cons_self, rfl, rfl⟩,
    ⟨st.snapshot.lastIncludedIndex, happlied.ge, ?_, fun _ => happlied.symm⟩, fun snap hsnap => ?_,
    fun k i data hk => ?_⟩, hnone⟩
  · rw [List.mem_singleton.mp hr]
    exact ⟨hwf, .refl rn⟩
  · rcases hcalls with ⟨h0, rfl⟩ | rfl
    · exact ⟨[], h0.symm, .nil _, nofun, rfl⟩
    · exact reflects_restore _ [] _ _
  · rw [hnone] at hsnap
    exact nomatch hsnap
  · rcases hcalls with ⟨-, rfl⟩ | rfl
    · exact nomatch hk
    · cases List.mem_singleton.mp (List.mem_of_getElem? hk)

theorem Applying.underway (h : Applying n) (hu : Underway sm e n n') : Applying n' := by
  rcases hu with rfl | ⟨n₀, ht, hm⟩
  · exact h
  · exact (h.taken ht).moves hm

/-- Also a turn that fails has told the state machine committed entries only, each once and in their
order. -/
theorem Applying.failing {err : Error} (h : Applying n) (hf : Failing sm e n (.error err) n') :
    (∃ i ≤ n'.rn.log.committed, Reflects n'.trace n'.calls i) ∧ Captured n'.trace n'.calls := by
  obtain ⟨i, hi, href, hall⟩ := h.reflects
  have hic := hi.trans h.wf.log.applied_le
  have hcall : ∀ {c : Call} {err : Error} {r : RawNode}, c.run n.rn = .error (.error err) r →
      (∃ i ≤ r.log.committed, Reflects (n.called r).trace (n.called r).calls i) ∧
        Captured (n.called r).trace (n.called r).calls := by
    intro c err r hr
    have hadv := (outcome_ordered h.wf c n.rn.log.storage.faults).2.1.committed
    rw [Call.outcome, show n.rn.withFaults n.rn.log.storage.faults = n.rn from rfl, hr] at hadv
    have hsub : n.trace ⊆ (n.called r).trace := List.subset_append_left _ _
    exact ⟨⟨i, hic.trans hadv, href.mono hsub⟩, h.captured.mono hsub⟩
  cases hf with
  | idle _ => exact ⟨⟨i, hic, href⟩, h.captured⟩
  | tick err₀ _ r _ hr => exact hcall (c := .tick) hr
  | step m err₀ _ r _ hr _ => exact hcall (c := .step m) hr
  | restore snap _ _ =>
    have hsub : n.trace ⊆ n.looked.trace := List.subset_append_left _ _
    exact ⟨⟨i, hic, href.mono hsub⟩, h.captured.mono hsub⟩
  | batch done rest _ _ hs hes ha =>
    obtain ⟨hc, hcom, hlen⟩ := h.toLogged.batch hes
    have hdone : Contiguous (n.rn.log.applied + 1) done := by
      simpa using hc.take done.length
    obtain ⟨href, hcap⟩ := h.applies hs ha hdone fun e he => hcom e (List.mem_append_left _ he)
    obtain ⟨hrn, -, htrace⟩ := ha.frame
    rw [List.length_append] at hlen
    rw [hrn, htrace]
    exact ⟨⟨_, by omega, href⟩, hcap⟩
  | capture s data err₀ _ r hs _ _ hr =>
    have hran : Ran (fun c => flushing c = true) n (n.captured data r) :=
      Or.inr ⟨.createSnapshot data, rfl, goes_of_error (run_error hr) rfl, rfl⟩
    have h' := h.capture hs ((createSnapshot_same data n.rn).error hr) (hran.logged h.toLogged)
    obtain ⟨j, hj, href', -⟩ := h'.reflects
    exact ⟨⟨j, hj.trans h'.wf.log.applied_le, href'⟩, h'.captured⟩
  | panic _ _ _ _ _ _ hf => cases hf

end

/-! ### The state machine and the record of its calls -/

/-- Makes a call again, and records what the state machine answers now. -/
def StateMachine.perform (sm : StateMachine σ ρ) (s : σ × List (AppCall ρ)) :
    AppCall ρ → Option (σ × List (AppCall ρ))
  | .apply e _ =>
    (sm.apply s.1 e).toOption.map fun x => (x.2, s.2 ++ [.apply e x.1])
  | .restore data i =>
    sm.snapshotter.bind fun snapshotter =>
      (snapshotter.restore s.1 data i).toOption.map fun app => (app, s.2 ++ [.restore data i])
  | .snapshot _ =>
    sm.snapshotter.bind fun snapshotter =>
      (snapshotter.snapshot s.1).toOption.map fun data => (s.1, s.2 ++ [.snapshot data])
  | .createSnapshot i data => some (s.1, s.2 ++ [.createSnapshot i data])

/-- Makes the calls again on a state machine in the state `app`. -/
def StateMachine.performAll (sm : StateMachine σ ρ) (app : σ) (calls : List (AppCall ρ)) :
    Option (σ × List (AppCall ρ)) :=
  calls.foldlM sm.perform (app, [])

/-- The state machine is in the state that the recorded calls lead to, and has answered them as
recorded. -/
def Replayed (sm : StateMachine σ ρ) (app : σ) (n : Node σ ρ) : Prop :=
  sm.performAll app n.calls = some (n.app, n.calls)

section

variable {sm : StateMachine σ ρ} {app : σ} {e : Event} {n n' : Node σ ρ}

theorem Replayed.same (h : Replayed sm app n) (happ : n'.app = n.app)
    (hcalls : n'.calls = n.calls) : Replayed sm app n' := by
  rw [Replayed, happ, hcalls]
  exact h

theorem Replayed.call (h : Replayed sm app n) (call : AppCall ρ)
    (hcalls : n'.calls = n.calls ++ [call])
    (hcall : sm.perform (n.app, n.calls) call = some (n'.app, n.calls ++ [call])) :
    Replayed sm app n' := by
  rw [Replayed, StateMachine.performAll] at h ⊢
  rw [hcalls, List.foldlM_append, h]
  change (sm.perform (n.app, n.calls) call).bind _ = _
  rw [hcall]
  rfl

theorem Replayed.taken (h : Replayed sm app n) (ht : Taken n e n') : Replayed sm app n' := by
  cases ht <;> exact h.same rfl rfl

theorem Replayed.applies {es : List LogEntry} (h : Replayed sm app n) (ha : Applies sm n es n') :
    Replayed sm app n' := by
  induction ha with
  | nil => exact h
  | @normal n _ e _ response app' _ happly _ ih =>
    have htold : Replayed sm app (n.told app' e response) := by
      refine h.call (.apply e response) rfl ?_
      rw [StateMachine.perform, happly]
      rfl
    refine ih (htold.same ?_ ?_) <;> rw [Node.resolve_eq]
  | other _ _ ih => refine ih (h.same ?_ ?_) <;> rw [Node.resolve_eq]

theorem Replayed.captured (h : Replayed sm app n) {s : Snapshotter σ} {data : List UInt8}
    (hs : sm.snapshotter = some s) (hdata : s.snapshot n.app = .ok data) (r : RawNode) :
    Replayed sm app (n.captured data r) := by
  have hsnap : Replayed sm app { n with calls := n.calls ++ [.snapshot data] } := by
    refine h.call (.snapshot data) rfl ?_
    rw [StateMachine.perform, hs, Option.bind_some, hdata]
    rfl
  refine hsnap.call (.createSnapshot n.rn.log.applied data) ?_ rfl
  exact (List.append_assoc n.calls [.snapshot data] _).symm

theorem Replayed.move (h : Replayed sm app n) (hm : Move sm n n') : Replayed sm app n' := by
  cases hm with
  | release => exact h.same rfl rfl
  | answer => refine h.same ?_ ?_ <;> rw [Node.answered, Node.foldl_resolveRead_eq] <;> rfl
  | look => exact h.same rfl rfl
  | restore s snap app' _ hs hrestore =>
    refine h.call (.restore snap.data snap.lastIncludedIndex) rfl ?_
    rw [StateMachine.perform, hs, Option.bind_some, hrestore]
    rfl
  | batch entries last n₁ r _ _ _ ha => exact (h.applies ha).same rfl rfl
  | capture s data snap r _ hs hdata => exact h.captured hs hdata r
  | uncaptured s data err r _ hs hdata => exact h.captured hs hdata r
  | note => refine h.same ?_ ?_ <;> rw [Node.noteRole_eq]

theorem Replayed.moves (h : Replayed sm app n) (hm : Moves sm n n') : Replayed sm app n' := by
  induction hm with
  | refl => exact h
  | tail _ hm ih => exact ih.move hm

theorem Replayed.underway (h : Replayed sm app n) (hu : Underway sm e n n') :
    Replayed sm app n' := by
  rcases hu with rfl | ⟨n₀, ht, hm⟩
  · exact h
  · exact (h.taken ht).moves hm

theorem Replayed.failing {err : Error} (h : Replayed sm app n) (hf : Failing sm e n (.error err) n') :
    Replayed sm app n' := by
  cases hf with
  | idle => exact h
  | tick => exact h.same rfl rfl
  | step => exact h.same rfl rfl
  | restore => exact h.same rfl rfl
  | batch done rest _ _ _ _ ha => exact h.applies ha
  | capture s data _ _ r _ hs hdata => exact h.captured hs hdata r
  | panic _ _ _ _ _ _ hf => cases hf

theorem start_replayed {cfg : Config} {st : MemoryStorage} (h : start sm app cfg st = .ok n) :
    Replayed sm app n := by
  rw [start] at h
  split at h
  · cases h
  · split at h
    · cases h
    · rw [restoreFromDisk] at h
      split at h
      · cases h
        rfl
      · split at h
        · cases h
        · rename_i snapshotter hs
          split at h
          · cases h
          · rename_i app' hrestore
            cases h
            rw [Replayed, StateMachine.performAll]
            change (sm.perform (app, []) _).bind some = _
            rw [StateMachine.perform, hs, Option.bind_some, hrestore]
            rfl

end

/-- A process that runs has no snapshot waiting. -/
theorem Proc.applying {sm : StateMachine σ ρ} {app : σ} {hs : List Happening} {n : Node σ ρ}
    (h : (Proc.down {}).run sm app hs = .up n) : Applying n ∧ n.rn.appliedSnapshot = none := by
  refine Proc.invariant (I := fun n => Applying n ∧ n.rn.appliedSnapshot = none)
    (fun n hn => hn.1.wf) (fun cfg st n hst hn => start_applying hst hn) ?_ h
  intro n e faults n₁ n' hn ht hm hs
  exact ⟨((hn.1.withFaults faults).taken ht).moves hm, hs.snapshot⟩

theorem Proc.replayed {sm : StateMachine σ ρ} {app : σ} {hs : List Happening} {n : Node σ ρ}
    (h : (Proc.down {}).run sm app hs = .up n) : Replayed sm app n := by
  have hinv : n.rn.Wf ∧ Replayed sm app n := by
    refine Proc.invariant (I := fun n => n.rn.Wf ∧ Replayed sm app n) (fun n hn => hn.1)
      (fun cfg st n hst hn => ⟨(start_applying hst hn).1.wf, start_replayed hn⟩) ?_ h
    intro n e faults n₁ n' hn ht hm _
    have hwf := (reach_withFaults (c := .tick) n.rn faults).wf hn.1
    have hplayed : Replayed sm app (n.withFaults faults) := hn.2.same rfl rfl
    exact ⟨hm.wf (ht.ran.wf hwf), (hplayed.taken ht).moves hm⟩
  exact hinv.2

/-- In every run of a process, with whatever events, settings, storage failures, crashes and
restarts, the state machine reflects exactly the entries up to the applied index, of which there is
one for each index; and every snapshot, whose index is the applied one, was captured when the state
machine reflected exactly the entries up to there.  The state of the state machine is the one that
its recorded calls lead to from the initial state.  The turn that ends the loop may break off between
two entries, but it too has told the state machine nothing else. -/
theorem entries_reach_state_machine_once (sm : StateMachine σ ρ) (app : σ) {hs : List Happening}
    {n : Node σ ρ} (h : (Proc.down {}).run sm app hs = .up n) :
    Reflects n.trace n.calls n.rn.log.applied ∧ Captured n.trace n.calls ∧
      (∀ e e', Committed n.trace e → Committed n.trace e' → e.index = e'.index → e = e') ∧
      (∀ data snap r, createSnapshot data n.rn = .ok snap r →
        snap.lastIncludedIndex = n.rn.log.applied ∧ snap.data = data) ∧
      sm.performAll app n.calls = some (n.app, n.calls) ∧
      ∀ event faults n', n.run sm event faults = .exited n' →
        (∃ i ≤ n'.rn.log.committed, Reflects n'.trace n'.calls i) ∧ Captured n'.trace n'.calls ∧
          sm.performAll app n'.calls = some (n'.app, n'.calls) := by
  obtain ⟨hn, hnone⟩ := Proc.applying h
  have hreplayed := Proc.replayed h
  refine ⟨?_, hn.captured, fun e e' => hn.toLogged.committed_unique,
    fun data snap r hr => ((createSnapshot_same data n.rn).ok hr).2, hreplayed, ?_⟩
  · obtain ⟨i, -, href, hall⟩ := hn.reflects
    exact hall hnone ▸ href
  · intro event faults n' hrun
    rcases run_cases sm event hn.wf faults with ⟨n₁, n₂, hrun', -⟩ | ⟨n₁, n₂, err, hrun', hu, hf⟩ |
      ⟨n₁, n₂, f, hrun', -⟩ <;> rw [hrun'] at hrun <;> cases hrun
    obtain ⟨href, hcap⟩ := ((hn.withFaults faults).underway hu).failing hf
    have hplayed : Replayed sm app (n.withFaults faults) := hreplayed.same rfl rfl
    have hend : Replayed sm app n₂ := (hplayed.underway hu).failing hf
    exact ⟨href, hcap, hend⟩

/-- A node that is its own cluster takes a snapshot, crashes, restores it, and goes on. -/
def soloLives : List Happening :=
  let cfg := { soloConfig with snapshotThreshold := 2 }
  [.start cfg, .event .tick [], .event .tick [], .event (.propose [7]) [], .crash,
   .start cfg, .event .tick [], .event .tick [], .event (.propose [8]) []]

theorem entries_reach_state_machine_once_soloLives :
    ∃ n : Node (List (List UInt8)) ℕ, (Proc.down {}).run scribe [] soloLives = .up n ∧
      heard n.calls = (2, [⟨2, 4, .normal, [8]⟩]) ∧ n.rn.log.applied = 4 ∧
      Reflects n.trace n.calls 4 ∧ Captured n.trace n.calls ∧ n.app = [[], [8]] ∧
      scribe.performAll [] n.calls = some ([[], [8]], n.calls) := by
  obtain ⟨n, hn, ht⟩ := Proc.exists_up (p := (Proc.down {}).run scribe [] soloLives)
    (fun n => heard n.calls = (2, [⟨2, 4, .normal, [8]⟩]) ∧ n.rn.log.applied = 4 ∧
      n.app = [[], [8]]) (by decide +kernel)
  obtain ⟨hheard, happlied, happ⟩ := of_decide_eq_true ht
  obtain ⟨href, hcap, -, -, hplayed, -⟩ := entries_reach_state_machine_once scribe [] hn
  exact ⟨n, hn, hheard, happlied, happlied ▸ href, hcap, happ, happ ▸ hplayed⟩

end RaftStore.Loop
