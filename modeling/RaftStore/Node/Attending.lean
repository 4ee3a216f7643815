import RaftStore.Node.Agreement

/-! A process of a service in its cluster.  Its core runs in its place; its state machine shows the
state at its applied index; every write that it holds or has answered is known by the entry that it
became, and every read by the query that its core follows. -/

namespace RaftStore.Loop

open Lib Raft RawNode Consensus

variable {σ ρ ν : Type}

namespace Design

variable (D : Design σ ρ ν) (B : Register)

/-! ### Writes -/

/-- A write that waits is an entry of the log, with the index and term under which it waits; a write
that was answered is a decided one. -/
structure Writes (w : World NodeID LogEntry) (k : NodeID) (life : ℕ) (n : Node σ ρ) : Prop where
  waiting : ∀ i a, n.pending[i]? = some a → a.p.ticket < n.proposed.length ∧
    B.place ⟨k, life, a.p.ticket, false⟩ = some (i, a.term) ∧
    ∃ cmd, Entered w ⟨a.term, i, .normal, cmd⟩
  told : ∀ t i response, (t, .ok (i, response)) ∈ n.replies → t < n.proposed.length ∧
    D.Fulfilled B w ⟨k, life, t, false⟩ i response

section

variable {D B} {w w' : World NodeID LogEntry} {k : NodeID} {life : ℕ} {n n' : Node σ ρ}

theorem Writes.mono {B' : Register} (h : D.Writes B w k life n) (hB : B.Grows B') (hl : Later w w') :
    D.Writes B' w' k life n where
  waiting i a ha := by
    obtain ⟨hlt, hplace, cmd, hcmd⟩ := h.waiting i a ha
    exact ⟨hlt, hB.place _ _ hplace, cmd, hcmd.later hl⟩
  told t i response ht := ⟨(h.told t i response ht).1, (h.told t i response ht).2.mono hB hl⟩

/-- Neither the writes that wait nor the answers have changed. -/
theorem Writes.of_eq (h : D.Writes B w k life n) (hp : n'.pending = n.pending)
    (hr : n'.replies = n.replies) (hlen : n.proposed.length ≤ n'.proposed.length) :
    D.Writes B w k life n' where
  waiting i a ha := by
    rw [hp] at ha
    exact ⟨(h.waiting i a ha).1.trans_le hlen, (h.waiting i a ha).2⟩
  told t i response ht := by
    rw [hr] at ht
    exact ⟨(h.told t i response ht).1.trans_le hlen, (h.told t i response ht).2⟩

/-- Some of the waiting writes have been told of an error. -/
theorem Writes.failed (h : D.Writes B w k life n) (hp : ∀ (i : ℕ) a, n'.pending[i]? = some a →
      n.pending[i]? = some a) (hlen : n.proposed.length ≤ n'.proposed.length)
    (hr : ∀ t x, (t, .ok x) ∈ n'.replies → (t, .ok x) ∈ n.replies) : D.Writes B w k life n' where
  waiting i a ha := by
    obtain ⟨hlt, hrest⟩ := h.waiting i a (hp i a ha)
    exact ⟨hlt.trans_le hlen, hrest⟩
  told t i response ht := by
    obtain ⟨hlt, hful⟩ := h.told t i response (hr _ _ ht)
    exact ⟨hlt.trans_le hlen, hful⟩

theorem Writes.failPending (h : D.Writes B w k life n) (err : Error) :
    D.Writes B w k life (n.failPending err) := by
  refine h.failed (fun i a ha => ?_) le_rfl fun t x hx => ?_
  · rw [show (n.failPending err).pending = ∅ from rfl] at ha
    simp at ha
  · rcases List.mem_append.mp hx with hx | hx
    · exact hx
    · obtain ⟨_, -, heq⟩ := List.mem_map.mp hx
      cases heq

theorem Writes.noteRole (h : D.Writes B w k life n) : D.Writes B w k life n.noteRole := by
  rw [Node.noteRole]
  split
  · dsimp only
    split
    · exact (h.failPending errProposalDropped).of_eq rfl rfl le_rfl
    · exact h.of_eq rfl rfl le_rfl
  · exact h

/-- The write that has become the entry, if it waits for it, is answered as the object answers it. -/
theorem Writes.resolve {M : Membership} (h : D.Writes B w k life n) (hw : Inv M.rules w)
    {p : List LogEntry} {e : LogEntry} {response : Option ρ} (hp : Agreed B.entry w (p ++ [e]))
    (hful : e.type = .normal → ∃ v x, D.M.replay p = some v ∧ D.M.step v e.command = some x ∧
      response = some x.1) : D.Writes B w k life (n.resolve e response) := by
  rw [Node.resolve]
  split
  · exact h
  · rename_i a ha
    have hwaiting : ∀ (i : ℕ) b, (n.pending.erase e.index)[i]? = some b → n.pending[i]? = some b := by
      intro i b hb
      rw [Std.ExtTreeMap.getElem?_erase] at hb
      split at hb
      · cases hb
      · exact hb
    dsimp only
    split
    · refine h.failed hwaiting le_rfl fun t x hx => ?_
      rcases List.mem_append.mp hx with hx | hx
      · exact hx
      · cases List.mem_singleton.mp hx
    · rename_i hterm
      refine ⟨fun i b hb => h.waiting i b (hwaiting i b hb), fun t i response' ht => ?_⟩
      rcases List.mem_append.mp ht with ht | ht
      · exact h.told t i response' ht
      · cases List.mem_singleton.mp ht
        obtain ⟨hlt, hplace, cmd, hcmd⟩ := h.waiting _ a ha
        have hterm : a.term = e.term := not_not.mp hterm
        have heq := hp.decided.eq_of_entered hw hcmd hp.index_eq hterm
        obtain ⟨v, x, hv, hx, hresp⟩ := hful (by rw [← heq])
        refine ⟨hlt, p, e, v, x, hp.index_eq.symm, hp, by rw [← heq], ?_, hv, hx, hresp⟩
        rw [hplace, hterm]

/-- Entries that follow what the state machine shows. -/
theorem Writes.applies {M : Membership} {entries : List LogEntry} (h : D.Writes B w k life n)
    (hw : Inv M.rules w) (hB : B.Regular D.P) (ha : Applies D.sm n entries n') {p : List LogEntry}
    (hp : Agreed B.entry w (p ++ entries)) (hv : D.M.replay p = some (D.view n.app)) :
    D.Writes B w k life n' ∧ D.M.replay (p ++ entries) = some (D.view n'.app) := by
  induction ha generalizing p with
  | nil n => exact ⟨h, by rwa [List.append_nil]⟩
  | @normal n n' e rest response app hty happ _ ih =>
    have hsplit : p ++ e :: rest = (p ++ [e]) ++ rest := by simp
    rw [hsplit] at hp ⊢
    have hpe : Agreed B.entry w (p ++ [e]) := hp.shorter (List.prefix_append _ _)
    have hcmd := hB.cmd e (hp.all e (by simp)) hty
    have hstep := D.implements.apply n.app e response app hcmd happ
    refine ih ?_ hp ?_
    · refine Writes.resolve (n := n.told app e response) ?_ hw hpe fun _ => ⟨_, _, hv, hstep, rfl⟩
      exact h.of_eq rfl rfl le_rfl
    · rw [Machine.replay_normal hty, hv, Node.resolve_eq]
      change (D.M.step (D.view n.app) e.command).map Prod.snd = _
      rw [hstep]
      rfl
  | @other n n' e rest hty _ ih =>
    have hsplit : p ++ e :: rest = (p ++ [e]) ++ rest := by simp
    rw [hsplit] at hp ⊢
    have hpe : Agreed B.entry w (p ++ [e]) := hp.shorter (List.prefix_append _ _)
    refine ih (h.resolve hw hpe fun h => absurd h hty) hp ?_
    rw [Machine.replay_other hty, hv, Node.resolve_eq]

end

/-! ### Reads -/

/-- The core follows the read; an index that it will confirm is at least `floor`. -/
def Awaits (cl : Cluster) (w : World NodeID LogEntry) (k : NodeID) (id : UInt64) (floor : ℕ) : Prop :=
  ∃ q : Query, q.node = k ∧ q.id = id ∧ Tracking q D.boot (cl.starts k) cl ∧
    (∀ u, q.terms u ≤ (w.node u).term) ∧
    ∀ conf g, q.accepted → Among D.boot conf → conf.hasQuorum g = true →
      (∀ v, g v = true → q.terms v ≤ q.term) → floor ≤ q.index

structure Reads (cl : Cluster) (w : World NodeID LogEntry) (k : NodeID) (life : ℕ) (n : Node σ ρ) :
    Prop where
  waiting : ∀ id t, n.pendingReads[id]? = some t → t < n.asked ∧
    D.Awaits cl w k id (B.floor ⟨k, life, t, true⟩)
  told : ∀ t i, (t, .ok i) ∈ n.readReplies → t < n.asked ∧ B.floor ⟨k, life, t, true⟩ ≤ i

section

variable {D B} {cl : Cluster} {w : World NodeID LogEntry} {k : NodeID} {life : ℕ} {n n' : Node σ ρ}

/-- Some of the waiting reads have been told of an error, and more may have been taken. -/
theorem Reads.failed (h : D.Reads B cl w k life n)
    (hp : ∀ (id : UInt64) t, n'.pendingReads[id]? = some t → n.pendingReads[id]? = some t)
    (hlen : n.asked ≤ n'.asked)
    (hr : ∀ t i, (t, .ok i) ∈ n'.readReplies → (t, .ok i) ∈ n.readReplies) :
    D.Reads B cl w k life n' where
  waiting id t ht := by
    obtain ⟨hlt, hrest⟩ := h.waiting id t (hp id t ht)
    exact ⟨hlt.trans_le hlen, hrest⟩
  told t i ht := by
    obtain ⟨hlt, hle⟩ := h.told t i (hr t i ht)
    exact ⟨hlt.trans_le hlen, hle⟩

theorem Reads.of_eq (h : D.Reads B cl w k life n) (hp : n'.pendingReads = n.pendingReads)
    (hr : n'.readReplies = n.readReplies) (hlen : n.asked ≤ n'.asked) : D.Reads B cl w k life n' :=
  h.failed (fun _ _ ht => hp ▸ ht) hlen fun _ _ ht => hr ▸ ht

theorem Reads.noteRole (h : D.Reads B cl w k life n) : D.Reads B cl w k life n.noteRole := by
  rw [Node.noteRole]
  split
  · dsimp only
    split
    · refine h.failed (fun id t ht => ?_) le_rfl fun t x hx => ?_
      · rw [show ((n.failPending errProposalDropped).failReads errNotLeader).pendingReads = ∅
          from rfl] at ht
        simp at ht
      · rcases List.mem_append.mp hx with hx | hx
        · exact hx
        · obtain ⟨_, -, heq⟩ := List.mem_map.mp hx
          cases heq
    · exact h.of_eq rfl rfl le_rfl
  · exact h

/-- A read that the core has confirmed. -/
theorem Reads.resolveRead (h : D.Reads B cl w k life n) {r : RawNode} (hr : cl.node? k = some r)
    {rs : ReadState} (hrs : rs ∈ r.readStates) : D.Reads B cl w k life (n.resolveRead rs) := by
  rw [Node.resolveRead]
  split
  · exact h
  · rename_i t ht
    have hwaiting : ∀ (id : UInt64) t', (n.pendingReads.erase rs.id)[id]? = some t' →
        n.pendingReads[id]? = some t' := by
      intro id t' ht'
      rw [Std.ExtTreeMap.getElem?_erase] at ht'
      split at ht'
      · cases ht'
      · exact ht'
    refine ⟨fun id t' ht' => h.waiting id t' (hwaiting id t' ht'), fun t' i ht' => ?_⟩
    rcases List.mem_append.mp ht' with ht' | ht'
    · exact h.told t' i ht'
    · cases List.mem_singleton.mp ht'
      obtain ⟨hlt, q, rfl, hid, htrack, -, hfloor⟩ := h.waiting rs.id t ht
      obtain ⟨-, hnode⟩ := htrack.node rfl
      obtain ⟨hacc, -, hidx, conf, g, ha, hq, hg⟩ := (hnode r hr).states rs hrs hid.symm
      exact ⟨hlt, hidx ▸ hfloor conf g hacc ha hq hg⟩

theorem Reads.resolveReads (h : D.Reads B cl w k life n) {r : RawNode} (hr : cl.node? k = some r)
    {states : List ReadState} (hs : ∀ rs ∈ states, rs ∈ r.readStates) :
    D.Reads B cl w k life (states.foldl Node.resolveRead n) := by
  induction states generalizing n with
  | nil => exact h
  | cons rs states ih =>
    exact ih (h.resolveRead hr (hs rs List.mem_cons_self)) fun rs' h' =>
      hs rs' (List.mem_cons_of_mem _ h')

end

/-! ### The cluster of cores -/

/-- A moment of the cluster: it is a state of the protocol, the reads that it follows have ids of
their own, and what is on the network is what requests have led to. -/
structure Stage (cl : Cluster) (w : World NodeID LogEntry) : Prop where
  refines : Refines (reading D.boot D.normalized D.sized) cl w
  known : ReadsKnown cl w
  net : ∀ m ∈ cl.net, m.Clean B.entry (D.IsImage B w)

/-- The cluster goes on by what happens in one place. -/
structure Course (k : NodeID) (cl : Cluster) (w : World NodeID LogEntry) (cl' : Cluster)
    (w' : World NodeID LogEntry) : Prop where
  stage : D.Stage B cl' w'
  later : Later w w'
  slot : ∀ u ≠ k, cl'.slot u = cl.slot u
  reads : ∀ u ≠ k, cl'.reads u = cl.reads u
  starts : ∀ u ≠ k, cl'.starts u = cl.starts u
  net : ∀ m ∈ cl.net, m ∈ cl'.net
  tracking : ∀ q life, Tracking q D.boot life cl → (∀ u, q.terms u ≤ (w.node u).term) →
    Tracking q D.boot life cl'

section

variable {D B} {B' : Register} {cl cl' cl'' : Cluster} {w w' w'' : World NodeID LogEntry} {k u : NodeID}

theorem Stage.mono (h : D.Stage B cl w) (hB : B.Grows B') : D.Stage B' cl w :=
  ⟨h.refines, h.known, fun m hm => (h.net m hm).imp hB.entry fun _ hs => hs.mono hB (.refl w)⟩

theorem Course.refl (h : D.Stage B cl w) : D.Course B k cl w cl w :=
  ⟨h, .refl w, fun _ _ => rfl, fun _ _ => rfl, fun _ _ => rfl, fun _ h => h, fun _ _ h _ => h⟩

theorem Course.trans (h : D.Course B k cl w cl' w') (h' : D.Course B k cl' w' cl'' w'') :
    D.Course B k cl w cl'' w'' where
  stage := h'.stage
  later := h.later.trans h'.later
  slot u hu := (h'.slot u hu).trans (h.slot u hu)
  reads u hu := (h'.reads u hu).trans (h.reads u hu)
  starts u hu := (h'.starts u hu).trans (h.starts u hu)
  net m hm := h'.net m (h.net m hm)
  tracking q life hq hterm :=
    h'.tracking q life (h.tracking q life hq hterm) fun u => (hterm u).trans (h.later.term_le u)

theorem Stage.act (h : D.Stage B cl w) {a : Act} (hp : cl.Permits D.boot Cluster.readCalls k a)
    (hmsgs : ∀ r, cl.node? k = some r → ∀ m ∈ r.msgs, m.Clean B.entry (D.IsImage B w)) :
    ∃ w', D.Course B k cl w (cl.act k a) w' := by
  obtain ⟨w', hl, hw'⟩ := h.refines.step ⟨k, a, hp, rfl⟩
  have hclean : ∀ m : Message, m.Clean B.entry (D.IsImage B w) → m.Clean B.entry (D.IsImage B w') :=
    fun m hm => hm.imp (fun _ h => h) fun _ hs => hs.mono (.refl B) hl
  refine ⟨w', ⟨hw', h.known.step h.refines hl hw' hp, fun m hm => hclean m ?_⟩, hl, fun u hu => ?_,
    fun u hu => Cluster.reads_act_ne hu, fun u hu => ?_, fun m hm => List.mem_append_left _ hm,
    fun q life hq hterm => hq.step h.refines hterm hp⟩
  · rcases List.mem_append.mp hm with hm | hm
    · exact h.net m hm
    · obtain ⟨r, faults, hslot, -, hm⟩ := Cluster.mem_released hm
      exact hmsgs r (Cluster.node?_eq_some.mpr hslot) m hm
  · simp [Cluster.act, hu]
  · simp [Cluster.act, hu]

theorem Awaits.course {id : UInt64} {floor : ℕ} (h : D.Awaits cl w u id floor)
    (hc : D.Course B k cl w cl' w') (hstarts : cl'.starts u = cl.starts u) :
    D.Awaits cl' w' u id floor := by
  obtain ⟨q, hq, hid, htrack, hterm, hfloor⟩ := h
  refine ⟨q, hq, hid, ?_, fun v => (hterm v).trans (hc.later.term_le v), hfloor⟩
  rw [hstarts]
  exact hc.tracking q _ htrack hterm

theorem Reads.course {life : ℕ} {n : Node σ ρ} (h : D.Reads B cl w u life n)
    (hc : D.Course B k cl w cl' w') (hstarts : cl'.starts u = cl.starts u) :
    D.Reads B cl' w' u life n :=
  ⟨fun id t ht => ⟨(h.waiting id t ht).1, (h.waiting id t ht).2.course hc hstarts⟩, h.told⟩

end

/-! ### Processes -/

/-- What holds of a running process. -/
structure Attended (cl : Cluster) (w : World NodeID LogEntry) (k : NodeID) (life : ℕ) (n : Node σ ρ) :
    Prop where
  slot : ∃ faults, cl.slot k = .up (n.rn.withFaults faults)
  ids : ∀ id ∈ cl.reads k, id.toNat ≤ n.asked
  seq : n.readSeq.toNat = n.asked
  sent : ∀ m ∈ n.sent, m ∈ cl.net
  applying : Applying n
  clean : n.rn.Clean B.entry (D.IsImage B w)
  app : n.rn.appliedSnapshot = none → D.Shows B w n.rn.log.applied (D.view n.app)
  writes : D.Writes B w k life n
  reads : D.Reads B cl w k life n

/-- What holds of the storage that a process has left behind. -/
structure Left (cl : Cluster) (w : World NodeID LogEntry) (k : NodeID) (st : MemoryStorage) : Prop where
  slot : cl.slot k = .down st
  clean : st.Clean B.entry (D.IsImage B w)

section

variable {D B} {B' : Register} {cl cl' : Cluster} {w w' : World NodeID LogEntry} {k u : NodeID}
  {life : ℕ} {n n' : Node σ ρ} {st : MemoryStorage}

theorem clean_later {r : RawNode} (h : r.Clean B.entry (D.IsImage B w)) (hB : B.Grows B')
    (hl : Later w w') : r.Clean B'.entry (D.IsImage B' w') :=
  h.imp hB.entry fun _ hs => hs.mono hB hl

theorem Left.mono (h : D.Left B cl w k st) (hB : B.Grows B') : D.Left B' cl w k st :=
  ⟨h.slot, h.clean.imp hB.entry fun _ hs => hs.mono hB (.refl w)⟩

theorem Left.other (h : D.Left B cl w u st) (hc : D.Course B k cl w cl' w') (hu : u ≠ k) :
    D.Left B cl' w' u st :=
  ⟨(hc.slot u hu).trans h.slot, h.clean.imp (fun _ h => h) fun _ hs => hs.mono (.refl B) hc.later⟩

/-- More requests come in, none of which is an earlier one of this process. -/
theorem Attended.mono (h : D.Attended B cl w k life n) (hB : B.Grows B')
    (hfloor : ∀ t < n.asked, B'.floor ⟨k, life, t, true⟩ = B.floor ⟨k, life, t, true⟩) :
    D.Attended B' cl w k life n where
  slot := h.slot
  ids := h.ids
  seq := h.seq
  sent := h.sent
  applying := h.applying
  clean := clean_later h.clean hB (.refl w)
  app hnone := (h.app hnone).mono hB (.refl w)
  writes := h.writes.mono hB (.refl w)
  reads := by
    refine ⟨fun id t ht => ?_, fun t i ht => ?_⟩
    · obtain ⟨hlt, hawait⟩ := h.reads.waiting id t ht
      exact ⟨hlt, (hfloor t hlt).symm ▸ hawait⟩
    · obtain ⟨hlt, hle⟩ := h.reads.told t i ht
      exact ⟨hlt, (hfloor t hlt).symm ▸ hle⟩

theorem Attended.other (h : D.Attended B cl w u life n) (hc : D.Course B k cl w cl' w') (hu : u ≠ k) :
    D.Attended B cl' w' u life n where
  slot := by
    rw [hc.slot u hu]
    exact h.slot
  ids := by
    rw [hc.reads u hu]
    exact h.ids
  seq := h.seq
  sent m hm := hc.net m (h.sent m hm)
  applying := h.applying
  clean := clean_later h.clean (.refl B) hc.later
  app hnone := (h.app hnone).mono (.refl B) hc.later
  writes := h.writes.mono (.refl B) hc.later
  reads := h.reads.course hc (hc.starts u hu)

theorem Attended.withFaults (h : D.Attended B cl w k life n) (faults : List Bool) :
    D.Attended B cl w k life (n.withFaults faults) where
  slot := by
    obtain ⟨f, hf⟩ := h.slot
    exact ⟨f, hf⟩
  ids := h.ids
  seq := h.seq
  sent := h.sent
  applying := h.applying.withFaults faults
  clean := ⟨h.clean.ents, h.clean.entries, h.clean.carries.disk, h.clean.carries.msgs,
    h.clean.carries.pending⟩
  app := h.app
  writes := h.writes.of_eq rfl rfl le_rfl
  reads := h.reads.of_eq rfl rfl le_rfl

end

end Design

end RaftStore.Loop
