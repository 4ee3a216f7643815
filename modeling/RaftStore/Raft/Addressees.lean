import RaftStore.Raft.Posting

/-! To whom a node writes: never to itself, and only to members of its configuration or to the sender
of the message that it answers. -/

namespace RaftStore.Raft

open Lib Consensus RawNode

variable {S : NodeID → Prop} {r r' : RawNode}

/-! ### The peers that a leader tracks -/

/-- Every peer that the node tracks is in `S`. -/
def Tracks (S : NodeID → Prop) (r : RawNode) : Prop := ∀ v p, r.peer v = some p → S v

variable {c : Call}

theorem Tracks.of_none (h : r.progress = none) : Tracks S r := by
  intro v p hp
  rw [peer, h] at hp
  cases hp

theorem Tracks.setPeer (h : Tracks S r) {id : NodeID} {p q : Progress} (hp : r.peer id = some p) :
    Tracks S (r.setPeer id q) := by
  intro v p' hp'
  rcases peer_of_setPeer hp' with ⟨rfl, -⟩ | hp'
  · exact h v p hp
  · exact h v p' hp'

theorem Tracks.setConfiguration (h : Tracks S r) {conf : Configuration} (hS : ∀ v ∈ conf.members, S v)
    (i : ℕ) : Tracks S (r.setConfiguration conf i) := by
  intro v p hp
  simp only [RawNode.setConfiguration] at hp
  split at hp
  · exact h v p hp
  · split at hp
    · simp only [refreshProgress] at hp
      split at hp
      · exact h v p hp
      · rename_i prs hprs
        simp only [peer, Option.bind_some] at hp
        split at hp
        · rename_i hv
          exact hS v hv
        · split at hp
          · exact h v p (by rw [peer, show r.progress = some prs from hprs]; exact hp)
          · cases hp
    · exact h v p hp

theorem Tracks.refreshed (h : Tracks S r) (hS : ∀ v ∈ r.refreshed.conf.members, S v) :
    Tracks S r.refreshed := by
  rcases refreshed_cases r with heq | ⟨conf, i, heq⟩
  · rwa [heq]
  · rw [heq] at hS ⊢
    rw [(setConfiguration_conf r conf i).1] at hS
    exact h.setConfiguration hS i

/-- A node that follows tracks nobody, also under another configuration. -/
theorem tracks_of_follower {r₁ : RawNode} (hr : r.Wf) (hst : r.state = .follower)
    (hrec : r₁.Reconf r') (hp : r₁.progress = r.progress) : Tracks S r' := by
  refine .of_none (Option.not_isSome_iff_eq_none.mp fun h => ?_)
  rw [hrec.isSome, hp] at h
  have hlead := hr.tracked h
  rw [hst] at hlead
  cases hlead

theorem Tracks.effect (h : Tracks S r) (hr : r.Wf) (hS : ∀ v ∈ r.conf.members, S v)
    (hS' : ∀ v ∈ r'.conf.members, S v) (he : Effect c r r') : Tracks S r' := by
  cases he with
  | adopt =>
    rw [becomeFollower, reset_eq]
    exact .of_none rfl
  | resign =>
    rw [becomeFollower, reset_eq]
    exact .of_none rfl
  | stand =>
    rw [standing, reset_eq]
    exact .of_none rfl
  | lead =>
    rw [leading, reset_eq]
    intro v p hp
    simp only [peer, Option.bind_some] at hp
    split at hp
    · rename_i hv
      exact hS v hv
    · cases hp
  | extend e =>
    rw [RawNode.extended] at hS' ⊢
    split at hS'
    · rename_i hty
      rw [if_pos hty]
      exact Tracks.refreshed h hS'
    · rename_i hty
      rw [if_neg hty]
      exact h
  | ownMatch p hp => exact h.setPeer hp
  | setMatch m p _ _ _ _ hp => exact h.setPeer hp
  | setNext id p p' hp => exact h.setPeer hp
  | follow m l committed _ _ _ hst => exact tracks_of_follower hr hst (refreshedIfNeeded_reconf _ _) rfl
  | restore m snap mem _ _ _ hst => exact tracks_of_follower hr hst (restored_reconf ..) rfl
  | _ => exact h

theorem Sendable.tracked {m : Message} (hm : Sendable c r m) (h : Tracks S r)
    (hty : m.type = .appendReq ∨ m.type = .snapshotReq) : S m.dest := by
  cases hm with
  | append dest pr _ _ _ hp => exact h dest pr hp
  | snapshot dest pr hp => exact h dest pr hp
  | _ => simp at hty

/-- The outbox holds messages of the node, and those to peers that it tracks go to nodes in `S`. -/
structure Mailing (S : NodeID → Prop) (r : RawNode) : Prop where
  tracks : Tracks S r
  sender : ∀ m ∈ r.msgs, m.sender = r.id
  requests : ∀ m ∈ r.msgs, m.type = .appendReq ∨ m.type = .snapshotReq → S m.dest

theorem Mailing.effect (h : Mailing S r) (hr : r.Wf) (hS : ∀ v ∈ r.conf.members, S v)
    (hS' : ∀ v ∈ r'.conf.members, S v) (he : Effect c r r') : Mailing S r' := by
  refine ⟨h.tracks.effect hr hS hS' he, ?_, ?_⟩
  · rw [he.frame.1.id]
    exact he.outbox.msgs h.sender fun _ _ => rfl
  · exact he.outbox.msgs h.requests fun m hm hty => hm.tracked h.tracks hty

/-! ### A node that is not a member -/

/-- The node has not begun to campaign, and has nothing to send. -/
structure Idle (r : RawNode) : Prop where
  state : r.state = .follower
  msgs : r.msgs = []

/-- Unless a message is addressed to it, a node that is no voter stays idle. -/
theorem Idle.call (h : Idle r) (hp : r.promotable = false)
    (hm : ∀ m, c = .step m → m.dest ≠ r.id ∧ m.dest ≠ None) :
    Meets c.run r (fun _ r' => Idle r') fun _ r' => Idle r' := by
  have hstate : r.state ≠ .leader := by rw [h.state]; nofun
  have hsame : ∀ r' : RawNode, r'.state = r.state → r'.msgs = r.msgs → Idle r' :=
    fun r' h1 h2 => ⟨h1.trans h.state, h2.trans h.msgs⟩
  cases c with
  | tick =>
    rw [Call.run, Raft.tick, meets_bind, meets_get, if_neg hstate, tickElection, meets_bind,
      meets_modify, meets_bind, meets_get, if_pos]
    · exact hsame _ rfl rfl
    · rw [promotable] at hp
      simp [promotable, hp]
  | step m =>
    obtain ⟨h1, h2⟩ := hm m rfl
    rw [Call.run, Raft.step, meets_bind, meets_get, if_pos (by simp [h1, h2])]
    exact h
  | propose cmd =>
    rw [Call.run, Raft.propose, proposeWith, meets_bind, meets_bind, meets_get, if_pos hstate]
    exact h
  | proposeConfChange target =>
    rw [Call.run, Raft.proposeConfChange, meets_bind, meets_bind, meets_get, if_pos hstate]
    exact h
  | readIndex id =>
    rw [Call.run, Raft.readIndex, meets_bind, meets_get, if_pos hstate]
    exact h
  | readStates => exact hsame _ rfl rfl
  | messages => exact ⟨h.state, rfl⟩
  | applyTo i =>
    rw [Call.run, Raft.applyTo, onLog, meets_onPart, meets_iff]
    exact ⟨fun _ _ _ => hsame _ rfl rfl, fun _ _ _ => hsame _ rfl rfl⟩
  | createSnapshot data =>
    have htakes : ∀ r', Takes data r r' → Idle r' := by
      rintro _ ⟨d, rfl, -⟩
      exact hsame _ rfl rfl
    exact Meets.bind (Meets.mono (meets_createSnapshot data r) (fun _ => htakes) fun _ => htakes)
  | snapshotToApply => exact hsame _ rfl rfl
  | campaign =>
    rw [Call.run, meets_bind, meets_get, Raft.campaign, campaignN, campaignWith, meets_bind, meets_get,
      if_pos (by rw [hp]; rfl)]
    exact h

/-! ### Runs -/

section

variable {boot : Configuration} {hn : boot.Normalized} {hs : boot.Sized} {n : NodeID}

theorem fixed_keeps_mailing (hn : boot.Normalized) (hs : boot.Sized) (n : NodeID) :
    (fixed boot hn hs).Keeps n (Mailing (· ∈ boot.members)) fun _ => True where
  effect hc _ _ hr hfix _ hmsg h he := by
    have hfix' := (fixed boot hn hs).effect hc hr hfix (fun m hm => (hmsg m hm).2) he
    exact h.effect hr (fun _ => (FixedNode.conf hfix).members_subset)
      (fun _ => (FixedNode.conf hfix').members_subset) he
  stop _ _ := trivial
  start _ _ _ h := by
    have hr := started_of_new h
    refine ⟨.of_none hr.progress, ?_, ?_⟩
    · rw [hr.msgs]
      exact nofun
    · rw [hr.msgs]
      exact nofun

/-- The message goes from one member to another. -/
structure Message.Between (boot : Configuration) (m : Message) : Prop where
  sender : m.sender ∈ boot.members
  dest : m.dest ∈ boot.members
  ne : m.dest ≠ m.sender

/-- What a node is going to send goes from one member to another.  A node that is no member is
idle. -/
structure Mannered (boot : Configuration) (r : RawNode) : Prop where
  mailing : Mailing (· ∈ boot.members) r
  between : ∀ m ∈ r.msgs, m.Between boot
  idle : r.id ∉ boot.members → Idle r

/-- What a call establishes holds of a node that still runs after it. -/
theorem Slot.sat_call {I : RawNode → Prop} {faults : List Bool}
    (h : Meets c.run (r.withFaults faults) (fun _ r' => I r') fun e r' => c.stops e = false → I r') :
    ((Slot.up r).act (.call c faults)).Sat I fun _ => True := by
  change (Slot.after c (c.run (r.withFaults faults))).Sat I fun _ => True
  unfold Meets at h
  split at h <;> rename_i hrun <;> rw [hrun, Slot.after]
  · exact h
  · split
    · trivial
    · rename_i hstop
      exact h (Bool.not_eq_true _ ▸ hstop)

theorem Mannered.call (hnone : None ∉ boot.members) (hfix : FixedNode boot r)
    (hm : ∀ m, c = .step m → m.Between boot) (h : Mannered boot r) (faults : List Bool)
    (hmailing : ((Slot.up r).act (.call c faults)).Sat (Mailing (· ∈ boot.members)) fun _ => True) :
    ((Slot.up r).act (.call c faults)).Sat (Mannered boot) fun _ => True := by
  have hdest : ∀ m, c = .step m → m.dest ≠ None := fun m hc h0 => hnone (h0 ▸ (hm m hc).dest)
  by_cases hid : r.id ∈ boot.members
  · have hposts : ((Slot.up r).act (.call c faults)).Sat
        (Posts (fun v => v ≠ r.id ∧ v ∈ boot.members) (fun _ => True) (r.withFaults faults))
        fun _ => True := by
      refine Slot.sat_call (Meets.mono (Call.posts (fun _ _ => trivial) c ?_ ?_ (fun _ _ _ _ => trivial)
        fun _ _ => trivial) (fun _ _ h => h) fun _ _ h _ => h)
      · exact fun v hv hne => ⟨hne, hfix.conf.members_subset hv⟩
      · rintro m hc hd
        have hself : m.dest = r.id := hd.resolve_right (hdest m hc)
        exact ⟨hself ▸ (hm m hc).ne.symm, (hm m hc).sender⟩
    cases hout : (Slot.up r).act (.call c faults) with
    | down st => trivial
    | up r' =>
      rw [hout] at hposts hmailing
      have hid' : r'.id ∈ boot.members := by
        rw [hposts.id]
        exact hid
      refine ⟨hmailing, fun m hm' => ?_, fun h => absurd hid' h⟩
      rcases hposts.msgs m hm' with hold | ⟨hto, -⟩
      · exact h.between m hold
      · have hsender := hmailing.sender m hm'
        have hself : m.sender = r.id := hsender.trans hposts.id
        refine ⟨hsender ▸ hid', ?_, ?_⟩
        · exact hto.elim (fun h => hmailing.requests m hm' h.1) And.right
        · rw [hself]
          exact hto.elim And.right And.left
  · have hidle : ((Slot.up r).act (.call c faults)).Sat Idle fun _ => True := by
      refine Slot.sat_call (Meets.mono (Idle.call ?_ ?_ ?_) (fun _ _ h => h) fun _ _ h _ => h)
      · exact ⟨(h.idle hid).state, (h.idle hid).msgs⟩
      · refine Bool.eq_false_iff.mpr fun hp => hid ?_
        exact hfix.conf.members_subset (Configuration.mem_members_of_isVoter hp)
      · exact fun m hc => ⟨fun hself => hid (hself ▸ (hm m hc).dest), hdest m hc⟩
    cases hout : (Slot.up r).act (.call c faults) with
    | down st => trivial
    | up r' =>
      rw [hout] at hidle hmailing
      refine ⟨hmailing, ?_, fun _ => hidle⟩
      rw [hidle.msgs]
      exact nofun

theorem Mannered.act {cl : Cluster} {a : Act} {w : World NodeID LogEntry} (hnone : None ∉ boot.members)
    (hw : Refines (fixed boot hn hs) cl w) (hp : cl.Permits boot Cluster.fixedCalls n a)
    (hnet : ∀ m ∈ cl.net, m.Between boot) (h : (cl.slot n).Sat (Mannered boot) fun _ => True) :
    ((cl.slot n).act a).Sat (Mannered boot) fun _ => True := by
  cases hslot : cl.slot n with
  | down st =>
    cases a with
    | start cfg =>
      rw [Slot.act]
      split
      · rename_i r hnew
        have hr := started_of_new hnew
        have hmsgs : ∀ m, m ∉ r.msgs := by simp [hr.msgs]
        exact ⟨⟨.of_none hr.progress, fun m h => absurd h (hmsgs m), fun m h => absurd h (hmsgs m)⟩,
          fun m h => absurd h (hmsgs m), fun _ => ⟨hr.state, hr.msgs⟩⟩
      · trivial
    | crash => trivial
    | call c faults => trivial
  | up r =>
    rw [hslot] at h
    cases a with
    | start cfg => exact h
    | crash => trivial
    | call c faults =>
      have hup := hw.slot n
      rw [hslot] at hup
      have hmailing := (fixed_keeps_mailing hn hs n).act hw hp (by rw [hslot]; exact h.mailing)
      rw [hslot] at hmailing
      refine h.call hnone hup.2.2.1 ?_ faults hmailing
      rintro m rfl
      exact hnet m hp

theorem Mannered.released {s : Slot} {a : Act} (h : s.Sat (Mannered boot) fun _ => True) :
    ∀ m ∈ Cluster.released s a, m.Between boot := by
  intro m hm
  obtain ⟨r, faults, rfl, -, hm⟩ := Cluster.mem_released hm
  exact h.between m hm

/-- Every node minds its manners, and so did everyone before. -/
structure Cluster.Mannerly (boot : Configuration) (cl : Cluster) : Prop where
  slot : ∀ n, (cl.slot n).Sat (Mannered boot) fun _ => True
  net : ∀ m ∈ cl.net, m.Between boot

theorem Cluster.Mannerly.act {cl : Cluster} {a : Act} {w : World NodeID LogEntry}
    (h : cl.Mannerly boot) (hnone : None ∉ boot.members) (hw : Refines (fixed boot hn hs) cl w)
    (hp : cl.Permits boot Cluster.fixedCalls n a) : (cl.act n a).Mannerly boot := by
  refine ⟨Cluster.forall_slot_act.mpr ⟨?_, fun u _ => h.slot u⟩, fun m hm => ?_⟩
  · exact Mannered.act hnone hw hp h.net (h.slot n)
  · rcases List.mem_append.mp hm with hm | hm
    · exact h.net m hm
    · exact Mannered.released (h.slot n) m hm

theorem Cluster.Mannerly.run (hn : boot.Normalized) (hs : boot.Sized) (hnone : None ∉ boot.members)
    {cl : Cluster} (hrun : Cluster.Run boot Cluster.fixedCalls {} cl) : cl.Mannerly boot := by
  induction hrun with
  | refl => exact ⟨fun _ => trivial, nofun⟩
  | tail hb hstep ih =>
    obtain ⟨w, -, hw⟩ := (Refines.start (fixed boot hn hs)).run hb
    obtain ⟨n, a, hp, rfl⟩ := hstep
    exact ih.act hnone hw hp

end

/-- In a cluster whose membership nobody changes, whoever is started and whatever is called, every
message that is ever sent goes from one member to another. -/
theorem messages_between_members {boot : Configuration} (hn : boot.Normalized) (hs : boot.Sized)
    (hnone : None ∉ boot.members) {cl : Cluster}
    (hrun : Cluster.Run boot Cluster.fixedCalls {} cl) :
    ∀ m ∈ cl.net, m.sender ∈ boot.members ∧ m.dest ∈ boot.members ∧ m.dest ≠ m.sender :=
  fun m hm => have h := (Cluster.Mannerly.run hn hs hnone hrun).net m hm; ⟨h.sender, h.dest, h.ne⟩

/-- The messages of an election among three. -/
theorem messages_between_members_trio :
    (({} : Cluster).plays Cluster.election).net ≠ [] ∧
      ∀ m ∈ (({} : Cluster).plays Cluster.election).net,
        m.sender ∈ Cluster.trio.members ∧ m.dest ∈ Cluster.trio.members ∧ m.dest ≠ m.sender :=
  ⟨by decide +kernel, messages_between_members Cluster.trio_normalized Cluster.trio_sized
    (by decide +kernel) (Cluster.run_plays (by decide +kernel))⟩

end RaftStore.Raft
