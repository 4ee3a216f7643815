import RaftStore.Consensus.Completeness
import Mathlib.Logic.Function.Basic
import Mathlib.Logic.Relation

/-! The protocol that builds a history, one atomic action of one node at a time, and the invariant
that every action keeps.  A node here has its whole log and the prefix it knows to be committed; a
step that relies on what another node said is guarded by what the history records of it, so that a
message may be lost, delayed or repeated at will. -/

namespace RaftStore.Consensus

variable {N E : Type}

/-- The part a node plays in its term. -/
inductive Role
  | follower
  | candidate
  | leader

/-- One node: its term, its log, the prefix it knows to be committed, and its role. -/
structure Node (E : Type) where
  term : ℕ
  log : List E
  done : List E
  role : Role

/-- A node that has never run. -/
def Node.fresh : Node E := ⟨0, [], [], .follower⟩

/-- The nodes of a cluster and what has happened so far. -/
structure World (N E : Type) where
  node : N → Node E
  hist : History N E

def World.start : World N E := ⟨fun _ => .fresh, .empty⟩

open Classical in
/-- The world after node `v` became `x` and the history became `H`. -/
noncomputable def World.put (w : World N E) (v : N) (x : Node E) (H : History N E) : World N E :=
  ⟨Function.update w.node v x, H⟩

@[simp] theorem World.put_self (w : World N E) (v : N) (x : Node E) (H : History N E) :
    (w.put v x H).node v = x := by
  simp [World.put]

theorem World.put_ne (w : World N E) {u v : N} (h : u ≠ v) (x : Node E) (H : History N E) :
    (w.put v x H).node u = w.node u := by
  simp [World.put, h]

@[simp] theorem World.put_hist (w : World N E) (v : N) (x : Node E) (H : History N E) :
    (w.put v x H).hist = H := rfl

namespace History

open Classical

variable (H : History N E)

/-- Node `v` stands in term `t` with log `l`, and votes for itself. -/
noncomputable def stand (t : ℕ) (v : N) (l : List E) : History N E :=
  { H with
    cand := fun t' n => if t' = t ∧ n = v then some l else H.cand t' n
    vote := fun n t' => if t' = t ∧ n = v then some (v, l) else H.vote n t' }

/-- Node `v`, with log `l`, votes for `n` in term `t`. -/
noncomputable def grant (t : ℕ) (v n : N) (l : List E) : History N E :=
  { H with vote := fun u t' => if t' = t ∧ u = v then some (n, l) else H.vote u t' }

/-- Node `n` leads term `t` with log `l`. -/
noncomputable def elect (t : ℕ) (n : N) (l : List E) : History N E :=
  { H with
    leader := fun t' => if t' = t then some n else H.leader t'
    log := fun t' => if t' = t then l else H.log t' }

/-- The log of term `t`'s leader is now `l`. -/
noncomputable def extend (t : ℕ) (l : List E) : History N E :=
  { H with log := fun t' => if t' = t then l else H.log t' }

/-- Node `v` acknowledges `p`, and so every shorter prefix, in term `t`. -/
def acknowledge (t : ℕ) (v : N) (p : List E) : History N E :=
  { H with ack := fun u t' q => H.ack u t' q ∨ u = v ∧ t' = t ∧ q <+: p }

/-- The leader of term `t` commits `p` while its log is `l`. -/
def record (t : ℕ) (p l : List E) : History N E :=
  { H with commit := fun t' q l' => H.commit t' q l' ∨ t' = t ∧ q = p ∧ l' = l }

end History

open Classical in
/-- The actions of node `v`. -/
inductive Step (R : Rules N E) (v : N) (w : World N E) : World N E → Prop
  /-- The node hears of a later term. -/
  | adopt (t : ℕ) : (w.node v).term < t →
      Step R v w (w.put v { w.node v with term := t, role := .follower } w.hist)
  /-- The node gives up its role, or crashes. -/
  | resign : Step R v w (w.put v { w.node v with role := .follower } w.hist)
  | stand :
      Step R v w (w.put v { w.node v with term := (w.node v).term + 1, role := .candidate }
        (w.hist.stand ((w.node v).term + 1) v (w.node v).log))
  | grant (n : N) (cl : List E) : w.hist.cand (w.node v).term n = some cl →
      UpToDate R.term cl (w.node v).log → w.hist.vote v (w.node v).term = none →
      Step R v w (w.put v (w.node v) (w.hist.grant (w.node v).term v n (w.node v).log))
  | elect (Q : Set N) : (w.node v).role = .candidate → R.Quorum (w.node v).log Q →
      (∀ u ∈ Q, ∃ vl, w.hist.vote u (w.node v).term = some (v, vl)) →
      Step R v w (w.put v { w.node v with role := .leader }
        (w.hist.elect (w.node v).term v (w.node v).log))
  /-- A leader appends an entry of its term.  An entry that changes the configuration needs a
  commit of the term, and the configuration entries before it committed. -/
  | extend (e : E) : (w.node v).role = .leader → R.term e = (w.node v).term →
      R.admits (w.node v).log e →
      (R.isConf e → (w.node v).done ≠ [] ∧ lastTerm R.term (w.node v).done = (w.node v).term ∧
        Covers R.isConf (w.node v).done (w.node v).log) →
      Step R v w (w.put v { w.node v with log := (w.node v).log ++ [e] }
        (w.hist.extend (w.node v).term ((w.node v).log ++ [e])))
  /-- The node takes over a prefix of the leader's log, by entries or by a snapshot.  What it holds
  beyond the prefix stays when it agrees with it. -/
  | accept (m : N) (p : List E) : w.hist.leader (w.node v).term = some m →
      p <+: w.hist.log (w.node v).term → (w.node v).done <+: p → (w.node v).role ≠ .leader →
      Step R v w (w.put v
        { w.node v with log := if p <+: (w.node v).log then (w.node v).log else p,
                        role := .follower } w.hist)
  | ack (m : N) (p : List E) : w.hist.leader (w.node v).term = some m →
      p <+: w.hist.log (w.node v).term → p <+: (w.node v).log →
      Step R v w (w.put v (w.node v) (w.hist.acknowledge (w.node v).term v p))
  | commit (p : List E) (Q : Set N) : (w.node v).role = .leader → p <+: (w.node v).log →
      (w.node v).done.length < p.length → lastTerm R.term p = (w.node v).term →
      R.Quorum (w.node v).log Q → (∀ u ∈ Q, w.hist.ack u (w.node v).term p) →
      Step R v w (w.put v { w.node v with done := p }
        (w.hist.record (w.node v).term p (w.node v).log))
  /-- The node learns that a prefix is committed; after a restart it may know less. -/
  | learn (t : ℕ) (p q l : List E) : p <+: (w.node v).log → t ≤ (w.node v).term →
      w.hist.commit t q l → p <+: q → ((w.node v).role = .leader → (w.node v).done <+: p) →
      Step R v w (w.put v { w.node v with done := p } w.hist)
  /-- The node restarts without knowing of any commit. -/
  | forget : Step R v w (w.put v { w.node v with done := [], role := .follower } w.hist)

/-- What holds of node `v` with state `x`. -/
structure NodeOK (R : Rules N E) (H : History N E) (v : N) (x : Node E) : Prop where
  mono : Mono R.term x.log
  path : H.Path R x.log
  term_le : ∀ e ∈ x.log, R.term e ≤ x.term
  vote_le : ∀ {t y}, H.vote v t = some y → t ≤ x.term
  cand_le : ∀ {t l}, H.cand t v = some l → t ≤ x.term
  ack_le : ∀ {t p}, H.ack v t p → t ≤ x.term
  keeps : H.Keeps v (x.term + 1) (· ≤ x.term) x.log
  lead : x.role = .leader → H.leader x.term = some v ∧ x.log = H.log x.term
  cand : x.role = .candidate → H.cand x.term v = some x.log ∧ H.leader x.term ≠ some v
  done_le : x.done <+: x.log
  done_ok : x.done ≠ [] → ∃ t p l, t ≤ x.term ∧ H.commit t p l ∧ x.done <+: p
  lead_commit : x.role = .leader → ∀ p l, H.commit x.term p l → p <+: x.done

/-- The invariant of the protocol. -/
structure Inv (R : Rules N E) (w : World N E) : Prop where
  hist : w.hist.OK R
  node : ∀ v, NodeOK R w.hist v (w.node v)

/-! ### How the history grows -/

/-- `H'` extends `H` by what node `v` did. -/
structure Grows (v : N) (H H' : History N E) : Prop where
  cand : ∀ {t n l}, H.cand t n = some l → H'.cand t n = some l
  cand_other : ∀ {t n l}, n ≠ v → H'.cand t n = some l → H.cand t n = some l
  vote : ∀ {n t y}, H.vote n t = some y → H'.vote n t = some y
  vote_other : ∀ {n t y}, n ≠ v → H'.vote n t = some y → H.vote n t = some y
  leader : ∀ {t n}, H.leader t = some n → H'.leader t = some n
  leader_other : ∀ {t n}, n ≠ v → H'.leader t = some n → H.leader t = some n
  log : ∀ {t n}, H.leader t = some n → H.log t <+: H'.log t
  log_other : ∀ {t n}, n ≠ v → H.leader t = some n → H'.log t = H.log t
  ack : ∀ {n t p}, H.ack n t p → H'.ack n t p
  ack_other : ∀ {n t p}, n ≠ v → H'.ack n t p → H.ack n t p
  commit : ∀ {t p l}, H.commit t p l → H'.commit t p l
  commit_other : ∀ {t n p l}, n ≠ v → H.leader t = some n → H'.commit t p l → H.commit t p l

namespace Grows

variable {R : Rules N E} {v : N} {H H' : History N E}

theorem refl (v : N) (H : History N E) : Grows v H H := by
  constructor <;> intros <;> first | assumption | rfl

theorem trans {H'' : History N E} (h : Grows v H H') (h' : Grows v H' H'') : Grows v H H'' where
  cand hc := h'.cand (h.cand hc)
  cand_other hn hc := h.cand_other hn (h'.cand_other hn hc)
  vote hv := h'.vote (h.vote hv)
  vote_other hn hv := h.vote_other hn (h'.vote_other hn hv)
  leader hl := h'.leader (h.leader hl)
  leader_other hn hl := h.leader_other hn (h'.leader_other hn hl)
  log hl := (h.log hl).trans (h'.log (h.leader hl))
  log_other hn hl := (h'.log_other hn (h.leader hl)).trans (h.log_other hn hl)
  ack ha := h'.ack (h.ack ha)
  ack_other hn ha := h.ack_other hn (h'.ack_other hn ha)
  commit hc := h'.commit (h.commit hc)
  commit_other hn hl hc := h.commit_other hn hl (h'.commit_other hn (h.leader hl) hc)

theorem elected (h : Grows v H H') {t : ℕ} {el : List E} (he : H.Elected t el) :
    H'.Elected t el := by
  obtain ⟨n, hn, hc⟩ := he
  exact ⟨n, h.leader hn, h.cand hc⟩

theorem path (h : Grows v H H') {l : List E} (hl : H.Path R l) : H'.Path R l := by
  intro q e hq
  obtain ⟨hs, hlog⟩ := hl q e hq
  obtain ⟨n, hn⟩ := Option.isSome_iff_exists.mp hs
  exact ⟨Option.isSome_iff_exists.mpr ⟨n, h.leader hn⟩, hlog.trans (h.log hn)⟩

/-- A node keeps what it acknowledged when others act. -/
theorem vote_none (h : Grows v H H') {u : N} {t : ℕ} (hu : u ≠ v) (hn : H.vote u t = none) :
    H'.vote u t = none := by
  by_contra hne
  obtain ⟨y, hy⟩ := Option.ne_none_iff_exists'.mp hne
  rw [h.vote_other hu hy] at hn
  cases hn

theorem keeps (h : Grows v H H') {u : N} {t : ℕ} {upto : ℕ → Prop} {l : List E}
    (hack : ∀ t0 p, t0 < t → H'.ack u t0 p → H.ack u t0 p) (hk : H.Keeps u t upto l) :
    H'.Keeps u t upto l :=
  fun t0 p h0 ha hup => hk t0 p h0 (hack t0 p h0 ha) fun t1 el h1 h2 he => hup t1 el h1 h2
    (h.elected he)

/-- What holds of a node holds after another has acted. -/
theorem node_other (h : Grows v H H') {u : N} {x : Node E} (hu : u ≠ v) (hx : NodeOK R H u x) :
    NodeOK R H' u x where
  mono := hx.mono
  path := h.path hx.path
  term_le := hx.term_le
  vote_le hy := hx.vote_le (h.vote_other hu hy)
  cand_le hl := hx.cand_le (h.cand_other hu hl)
  ack_le hp := hx.ack_le (h.ack_other hu hp)
  keeps := h.keeps (fun _ _ _ ha => h.ack_other hu ha) hx.keeps
  lead hr := ⟨h.leader (hx.lead hr).1, by rw [h.log_other hu (hx.lead hr).1]; exact (hx.lead hr).2⟩
  cand hr := ⟨h.cand (hx.cand hr).1, fun hl => (hx.cand hr).2 (h.leader_other hu hl)⟩
  done_le := hx.done_le
  done_ok hne := by
    obtain ⟨t, p, l, ht, hc, hp⟩ := hx.done_ok hne
    exact ⟨t, p, l, ht, h.commit hc, hp⟩
  lead_commit hr p l hc := hx.lead_commit hr p l (h.commit_other hu (hx.lead hr).1 hc)

end Grows

end RaftStore.Consensus
