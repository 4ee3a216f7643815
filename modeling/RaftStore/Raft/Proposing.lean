import RaftStore.Raft.JointMembership
import RaftStore.Raft.Reliable

/-! Proposals that fail.  A proposal is refused before anything is written, or appends its entry and
then goes on to commit, to persist the commit index, and perhaps to leave a joint configuration.  When
it is the append that fails, an error means that nothing was appended; when a later write fails, the
caller is told of an error although the entry is durable. -/

namespace RaftStore.Raft

open Lib RawNode

variable {c : Call} {r r' : RawNode}

/-! ### Nodes that can append -/

/-- The node and its storage agree, it keeps its ledger, and its configuration can be written. -/
structure RawNode.Sound (r : RawNode) : Prop where
  wf : r.Wf
  ledger : Ledger r
  sized : r.conf.Sized

/-- A proposal, of a command or of a configuration that can be written. -/
def Call.Proposal : Call → Prop
  | .propose _ => True
  | .proposeConfChange target => target.Sized
  | _ => False

theorem Call.Proposal.target (h : c.Proposal) :
    ∀ target, c = .proposeConfChange target → target.Sized := by
  rintro target rfl
  exact h

/-- The configuration that an appended entry puts in force was written by the node itself. -/
theorem sized_extended (h : r.Sound) (hc : c.Proposal) {e : LogEntry}
    (hcc : e.type = .confChange → ∃ cc, r.Proposes c cc ∧ e.command = cc.encode) :
    (r.extended e).conf.Sized := by
  rw [extended]
  split
  · rename_i hty
    obtain ⟨cc, hprop, hcmd⟩ := hcc hty
    have hdec := cc.decode_encode (hprop.sized h.sized hc.target)
    rw [← hcmd] at hdec
    have hlast := lastConf_concat (l := r.log.mem.ents) hty hdec
    let r₁ := r.withMem { r.log.mem with ents := r.log.mem.ents ++ [e] }
    have hconf : r₁.refreshConfiguration = _ :=
      refreshConfiguration_of_confFrom (.entry _ _ hlast)
    rw [refreshed, hconf]
    dsimp only
    rw [(setConfiguration_conf r₁ _ _).1]
    exact ConfChange.sized_of_decode hdec
  · exact h.sized

theorem RawNode.Sound.effect (h : r.Sound) (hc : c.Proposal) (he : Effect c r r') : r'.Sound := by
  have hstep : ∀ m, c ≠ .step m := by
    rintro m rfl
    exact hc
  refine ⟨he.wf h.wf, h.ledger.kept h.wf (fun m _ hm => absurd hm (hstep m)) he, ?_⟩
  cases he.logChange with
  | same _ hs => rw [hs.conf]; exact h.sized
  | extended e _ _ _ hcc => exact sized_extended h hc hcc
  | followed m _ _ hm => exact absurd hm (hstep m)
  | restored m _ _ hm => exact absurd hm (hstep m)
  | saved => exact h.sized
  | compacted => exact h.sized

theorem RawNode.Sound.reliant (hc : c.Proposal) : Reliant c Sound where
  reach h hr := by
    induction hr with
    | refl => exact h
    | tail _ he ih => exact ih.effect hc he
  wf h := h.wf
  matched h := h.ledger.committedIndex_le
  sized h hprop := hprop.sized h.sized hc.target

/-- The same while the membership changes and nobody takes a snapshot. -/
theorem sound_of_joint_run {boot : Configuration} (hn : boot.Normalized) (hs : boot.Sized)
    {cl : Cluster} (hrun : Cluster.Run boot Cluster.jointCalls {} cl) {n : NodeID}
    (hr : cl.node? n = some r) : r.Sound := by
  obtain ⟨w, -, hw⟩ := (Refines.start (joint boot hn hs)).run hrun
  obtain ⟨-, hwf, hnode, -⟩ := hw.up hr
  have hjoint : JointNode boot r := hnode
  exact ⟨hwf, (joint boot hn hs).ledger hrun hr, (hjoint.conf.normalized hjoint.disk hn hs).2⟩

/-! ### Proposals that are refused -/

/-- Before it proposes its entry, a membership change only looks. -/
theorem meets_proposeConfChange {target : Configuration} {Q : ℕ → RawNode → Prop}
    {F : Fail → RawNode → Prop} (hrefuse : ∀ e, F e r)
    (hpropose : ∀ cc, r.state = .leader → r.Proposes (.proposeConfChange target) cc →
      Meets (propose { type := .confChange, command := cc.encode }) r Q F) :
    Meets (proposeConfChange target) r Q F := by
  rw [proposeConfChange, meets_bind, meets_get]
  split
  · exact hrefuse _
  · rename_i hst
    split
    · exact hrefuse _
    · split
      · exact hrefuse _
      · rename_i hi
        split
        · exact hrefuse _
        · rename_i hcommitted
          split
          · exact hrefuse _
          · rename_i cc hcc
            exact hpropose cc (not_not.mp hst) ⟨by simpa using hcommitted, not_lt.mp hi,
              Or.inl ⟨target, rfl, hcc⟩⟩

theorem Call.Proposal.appends {k : Call} (hk : k.Proposal) : k.appends = true := by
  cases k with
  | propose cmd => rfl
  | proposeConfChange target => rfl
  | _ => exact hk.elim

/-- A write fails while the call runs. -/
def Call.WriteFails (k : Call) (r : RawNode) : Prop := (k.outcome r).faultsLeft < r.faultsLeft

theorem Call.Proposal.reports {k : Call} (hk : k.Proposal) : Reports k.run r := by
  cases k with
  | propose cmd => exact Reports.bind reports_propose fun _ _ => Reports.pure _
  | proposeConfChange target => exact Reports.bind reports_proposeConfChange fun _ _ => Reports.pure _
  | _ => exact hk.elim

end RaftStore.Raft
