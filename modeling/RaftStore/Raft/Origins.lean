import RaftStore.Raft.Office
import RaftStore.Raft.Posting

/-! Where the contents of a node come from.  Entries that satisfy `E` and snapshots that satisfy `P` are
all that a node stores and sends, as long as it is given no others. -/

namespace RaftStore.Raft

open Lib RawNode

section

variable (E : LogEntry → Prop) (P : Snapshot → Prop)

structure Message.Clean (m : Message) : Prop where
  entries : ∀ e ∈ m.entries, E e
  snapshot : ∀ s, m.snapshot = some s → P s

structure MemoryStorage.Clean (st : MemoryStorage) : Prop where
  ents : ∀ e ∈ st.ents, E e
  snapshot : st.snapshot.isEmpty = false → P st.snapshot

structure RawNode.Clean (r : RawNode) : Prop where
  ents : ∀ e ∈ r.log.mem.ents, E e
  entries : ∀ m ∈ r.msgs, ∀ e ∈ m.entries, E e
  carries : r.Carries P

end

variable {E E' : LogEntry → Prop} {P P' : Snapshot → Prop} {c : Call} {r : RawNode}

theorem Message.Clean.imp {m : Message} (h : m.Clean E P) (hE : ∀ e, E e → E' e)
    (hP : ∀ s, P s → P' s) : m.Clean E' P' :=
  ⟨fun e he => hE e (h.entries e he), fun s hs => hP s (h.snapshot s hs)⟩

theorem MemoryStorage.Clean.imp {st : MemoryStorage} (h : st.Clean E P) (hE : ∀ e, E e → E' e)
    (hP : ∀ s, P s → P' s) : st.Clean E' P' :=
  ⟨fun e he => hE e (h.ents e he), fun hne => hP _ (h.snapshot hne)⟩

/-! ### Proposals -/

/-- The entry that a leader makes of a command. -/
def RawNode.ownOf (r : RawNode) (cmd : List UInt8) : LogEntry := r.own { type := .normal, command := cmd }

/-- The call ends in the state, with or without an error. -/
def EndsIn (x : EStateM.Result Fail RawNode Unit) (r' : RawNode) : Prop :=
  x = .ok () r' ∨ ∃ f, x = .error f r'

/-- The entry of the command has been appended to a leader's log, or nothing has changed. -/
def Wrote (cmd : List UInt8) (r r' : RawNode) : Prop :=
  r.state = .leader ∧ r.ownOf cmd ∈ r'.log.mem.ents ∨ ∃ faults, r' = r.withFaults faults

theorem propose_ends {cmd : List UInt8} {r' : RawNode} (hr : r.Wf)
    (h : EndsIn ((Call.propose cmd).run r) r') : Wrote cmd r r' := by
  have hmeets : Along (Wrote cmd) (propose { type := .normal, command := cmd }) r := by
    rw [Along, propose, proposeWith, meets_bind, meets_get]
    split
    · exact Or.inr ⟨r.log.storage.faults, rfl⟩
    · rename_i hs
      have hs : r.state = .leader := not_not.mp hs
      have happend := exact_appendOwn (c := .propose cmd) (e := { type := .normal, command := cmd })
        rfl hr hs (by rintro ⟨⟩)
      rw [meets_bind]
      refine Meets.mono (Meets.and happend (appendOwn_normal hr)) (fun i r₁ h₁ => ?_)
        fun _ _ h₁ => Or.inr h₁.2
      obtain ⟨hreach, rfl, -, hstate, hmem⟩ := h₁
      have hw₁ := Reach.wf hreach hr
      -- nothing that follows takes the entry away
      have hkept : ∀ {r₂}, Reach (.propose cmd) r₁ r₂ → r.ownOf cmd ∈ r₂.log.mem.ents := fun h₂ =>
        (h₂.of_propose hw₁ (hstate.trans hs)).2 hmem
      rw [meets_bind]
      refine Meets.mono (exact_maybeAdvanceCommit (c := .propose cmd) rfl hw₁) (fun _ r₂ h₂ => ?_)
        fun _ _ h₂ => Or.inl ⟨hs, hkept h₂⟩
      exact Or.inl ⟨hs, hkept
        (Relation.ReflTransGen.trans h₂ (reach_broadcastAppend (Reach.wf h₂ hw₁)).1)⟩
  have hrun : Along (Wrote cmd) (Call.propose cmd).run r :=
    Meets.bind (Meets.mono hmeets (fun _ _ h => h) fun _ _ h => h)
  rcases h with h | ⟨f, h⟩
  · exact hrun.ok h
  · exact hrun.error h

namespace RawNode.Clean

theorem imp (h : r.Clean E P) (hE : ∀ e, E e → E' e) (hP : ∀ s, P s → P' s) : r.Clean E' P' :=
  ⟨fun e he => hE e (h.ents e he), fun m hm e he => hE e (h.entries m hm e he), h.carries.imp hP⟩

theorem mem (h : r.Clean E P) : r.log.mem.Clean E P := ⟨h.ents, h.carries.disk⟩

theorem msgs (h : r.Clean E P) {m : Message} (hm : m ∈ r.msgs) : m.Clean E P :=
  ⟨h.entries m hm, h.carries.msgs m hm⟩

/-- A node that is created from a clean storage. -/
theorem of_new {cfg : Config} {st : MemoryStorage} (hst : st.Clean E P)
    (hnew : RawNode.new cfg { mem := st } = .ok r) : r.Clean E P := by
  have hr := started_of_new hnew
  have hmem : r.log.mem = st := by rw [hr.log]; rfl
  refine ⟨hmem ▸ hst.ents, ?_, hmem ▸ hst.snapshot, ?_, ?_⟩
  · rw [hr.msgs]
    rintro _ ⟨⟩
  · rw [hr.msgs]
    rintro _ ⟨⟩
  · rw [appliedSnapshot_of_new hnew]
    rintro _ ⟨⟩

/-- The snapshot that a call leaves on disk, also when it ends the process. -/
theorem disk_of_error (h : r.Clean E P) (hr : r.Wf)
    (hstep : ∀ m s, c = .step m → m.snapshot = some s → P s)
    (htake : ∀ data term, c = .createSnapshot data → P ⟨r.log.applied, term, r.conf, data⟩)
    {f : Fail} {r' : RawNode} (hx : c.run r = .error f r')
    (hne : r'.log.mem.snapshot.isEmpty = false) : P r'.log.mem.snapshot := by
  by_cases hc : ∃ data, c = .createSnapshot data
  · obtain ⟨data, rfl⟩ := hc
    have htakes : Meets (Call.createSnapshot data).run r (fun _ _ => True) fun _ r' => Takes data r r' :=
      Meets.bind (Meets.mono (meets_createSnapshot data r) (fun _ _ _ => trivial) fun _ _ h => h)
    exact ((htakes.error hx).carries h.carries fun term => htake data term rfl).disk hne
  · have hc' : ∀ data, c ≠ .createSnapshot data := fun data h => hc ⟨data, h⟩
    have hrun := (c.meets_run hr).error hx
    split at hrun
    · obtain ⟨r'', hreach, hmem, -⟩ := hrun
      rw [← hmem] at hne ⊢
      exact (hreach.stores hc' hstep h.carries.disk h.carries.msgs).1 hne
    · exact (hrun.stores hc' hstep h.carries.disk h.carries.msgs).1 hne

theorem call_of (h : r.Clean E P) (hr : r.Wf) (hE : ∀ e : LogEntry, e.type ≠ .normal → E e)
    (hstep : ∀ m, c = .step m → m.Clean E P)
    (hcmd : ∀ cmd, c = .propose cmd → E (r.ownOf cmd))
    (htake : ∀ data term, c = .createSnapshot data → P ⟨r.log.applied, term, r.conf, data⟩) :
    Meets c.run r (fun _ r' => r'.Clean E P)
      fun f r' => (c.stops f = false → r'.Clean E P) ∧ r'.log.mem.Clean E P := by
  have hposts : Along (Posts (fun _ => True) E) c.run r :=
    c.posts hE (fun _ _ _ => trivial) (fun _ _ _ => trivial) (fun m hm => (hstep m hm).entries) hcmd
  have hsnap : ∀ m s, c = .step m → m.snapshot = some s → P s := fun m s hm =>
    (hstep m hm).snapshot s
  have hents : ∀ r', Posts (fun _ => True) E r r' → (∀ e ∈ r'.log.mem.ents, E e) ∧
      ∀ m ∈ r'.msgs, ∀ e ∈ m.entries, E e := by
    refine fun r' hp => ⟨fun e he => (hp.log e he).elim (h.ents e) (fun h => h), fun m hm e he => ?_⟩
    rcases hp.msgs m hm with hm | ⟨-, hes⟩
    · exact h.entries m hm e he
    · exact (hes e he).elim (h.ents e) fun h => h
  refine meets_iff.mpr ⟨fun _ r' hx => ?_, fun f r' hx => ?_⟩
  · obtain ⟨h1, h2⟩ := hents r' (hposts.ok hx)
    exact ⟨h1, h2, (h.carries.call hr hsnap htake).ok hx⟩
  · obtain ⟨h1, h2⟩ := hents r' (hposts.error hx)
    exact ⟨fun hf => ⟨h1, h2, (h.carries.call hr hsnap htake).error hx hf⟩,
      h1, h.disk_of_error hr hsnap htake hx⟩

/-- A call on a clean node, with nothing that is not clean.  What it leaves on disk is clean also when
it ends the process. -/
theorem call (h : r.Clean E P) (hr : r.Wf) (hE : ∀ e : LogEntry, e.type ≠ .normal → E e)
    (hstep : ∀ m, c = .step m → m.Clean E P)
    (hcmd : ∀ cmd r', c = .propose cmd → EndsIn (c.run r) r' → r.ownOf cmd ∈ r'.log.mem.ents →
      E (r.ownOf cmd))
    (htake : ∀ data term, c = .createSnapshot data → P ⟨r.log.applied, term, r.conf, data⟩) :
    Meets c.run r (fun _ r' => r'.Clean E P)
      fun f r' => (c.stops f = false → r'.Clean E P) ∧ r'.log.mem.Clean E P := by
  -- a proposal that has appended nothing leaves a clean node alone
  by_cases hown : ∃ cmd, c = .propose cmd ∧ ¬ E (r.ownOf cmd)
  · obtain ⟨cmd, rfl, hnot⟩ := hown
    have hsame : ∀ r', EndsIn ((Call.propose cmd).run r) r' → r'.Clean E P := by
      intro r' hend
      rcases propose_ends hr hend with ⟨-, hmem⟩ | ⟨faults, rfl⟩
      · exact absurd (hcmd cmd r' rfl hend hmem) hnot
      · exact ⟨h.ents, h.entries, h.carries.disk, h.carries.msgs, h.carries.pending⟩
    exact meets_iff.mpr ⟨fun _ r' hx => hsame r' (Or.inl hx),
      fun f r' hx => ⟨fun _ => hsame r' (Or.inr ⟨f, hx⟩), (hsame r' (Or.inr ⟨f, hx⟩)).mem⟩⟩
  · refine h.call_of hr hE hstep (fun cmd hc => ?_) htake
    by_contra hnot
    exact hown ⟨cmd, hc, hnot⟩

end RawNode.Clean

end RaftStore.Raft
