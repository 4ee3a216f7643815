import Mathlib.Order.Bounds.Basic
import RaftStore.Raft.Configuration

/-! The arithmetic of quorums, and the two halves of a membership change: what they make of a
configuration, and which quorums meet. -/

namespace RaftStore.Raft

open RaftStore.Raft.Configuration

/-! ### Entering and leaving -/

theorem enterJoint_ok {conf target : Configuration} {cc : ConfChange}
    (h : conf.enterJoint target = .ok cc) :
    cc.config = { voters := target.voters, oldVoters := conf.voters,
                  learners := target.learners : Configuration }.normalize := by
  unfold Configuration.enterJoint at h
  split at h
  · exact nomatch h
  · split at h
    · exact nomatch h
    · cases h
      rfl

theorem leaveJoint_ok {conf : Configuration} {cc : ConfChange} (h : conf.leaveJoint = .ok cc) :
    conf.isJoint = true ∧ cc.kind = confChangeLeaveJoint ∧
      cc.config = { voters := conf.voters, learners := conf.learners : Configuration }.normalize := by
  unfold Configuration.leaveJoint at h
  split at h
  · exact nomatch h
  · rename_i hj
    dsimp only at h
    split at h
    · exact nomatch h
    · cases h
      exact ⟨by simpa using hj, rfl, rfl⟩

theorem leaveJoint_not_joint {conf : Configuration} {cc : ConfChange}
    (h : conf.leaveJoint = .ok cc) : cc.config.isJoint = false := by
  rw [(leaveJoint_ok h).2.2]
  rfl

/-- Leaving a joint configuration in normal form keeps its voters. -/
theorem leaveJoint_voters {conf : Configuration} (hn : conf.Normalized) {cc : ConfChange}
    (h : conf.leaveJoint = .ok cc) : cc.config.voters = conf.voters := by
  rw [(leaveJoint_ok h).2.2]
  exact sortedUnique_of_lt hn.voters

theorem enterJoint_of_valid {conf target : Configuration} (hj : conf.isJoint = false)
    (ht : target.voters ≠ []) :
    conf.enterJoint target =
      .ok ⟨confChangeEnterJoint, { voters := target.voters, oldVoters := conf.voters,
                                   learners := target.learners : Configuration }.normalize⟩ := by
  rw [enterJoint, validate, if_neg (by simpa using ht)]
  simp only [hj, Bool.false_eq_true, if_false]

theorem sortedUnique_eq_nil {l : List NodeID} : sortedUnique l = [] ↔ l = [] := by
  simp only [List.eq_nil_iff_forall_not_mem, mem_sortedUnique]

@[simp] theorem sortedUnique_sortedUnique (l : List NodeID) :
    sortedUnique (sortedUnique l) = sortedUnique l :=
  sortedUnique_of_lt (sortedUnique_lt l)

/-- Where a membership change ends: at the voters of the target, and at those of its learners that
did not vote at either end of it. -/
theorem leaveJoint_enterJoint {conf target : Configuration} (hj : conf.isJoint = false)
    (hv : conf.voters ≠ []) (ht : target.voters ≠ []) :
    ∃ joint final, conf.enterJoint target = .ok joint ∧ joint.config.leaveJoint = .ok final ∧
      final.config.voters = sortedUnique target.voters ∧ final.config.oldVoters = [] ∧
      final.config.learners =
        (sortedUnique target.learners).filter fun id => !(id ∈ target.voters || id ∈ conf.voters) := by
  have hjoint : (sortedUnique conf.voters).length > 0 :=
    List.length_pos_iff.mpr (mt sortedUnique_eq_nil.mp hv)
  have hvalid : (sortedUnique (sortedUnique target.voters)).length ≠ 0 := by
    simpa [sortedUnique_eq_nil] using ht
  have hleave : { voters := target.voters, oldVoters := conf.voters,
                  learners := target.learners : Configuration }.normalize.leaveJoint =
      .ok ⟨confChangeLeaveJoint,
        { voters := sortedUnique target.voters,
          learners := (sortedUnique target.learners).filter fun id =>
            !(id ∈ sortedUnique target.voters || id ∈ sortedUnique conf.voters) :
            Configuration }.normalize⟩ := by
    simp only [leaveJoint, isJoint, Configuration.normalize, hjoint, decide_true, Bool.not_true,
      Bool.false_eq_true, if_false, validate, hvalid]
    rfl
  refine ⟨_, _, enterJoint_of_valid hj ht, hleave, by simp [Configuration.normalize], rfl, ?_⟩
  have hlt := (sortedUnique_lt target.learners).filter
    fun id => !(id ∈ target.voters || id ∈ conf.voters)
  simp only [Configuration.normalize, mem_sortedUnique, sortedUnique_of_lt hlt, List.filter_filter]
  refine List.filter_congr fun id _ => ?_
  cases decide (id ∈ target.voters) <;> cases decide (id ∈ conf.voters) <;> rfl

/-- A membership change ends at its target exactly when it demotes no voter: a learner of the target
that votes now is dropped on the way. -/
theorem change_ends_at_target_iff {conf target : Configuration} (hj : conf.isJoint = false)
    (hv : conf.voters ≠ []) (ht : target.voters ≠ []) :
    ∃ joint final, conf.enterJoint target = .ok joint ∧ joint.config.leaveJoint = .ok final ∧
      final.config.isJoint = false ∧
      (final.config = .new target.voters target.learners ↔
        ∀ id ∈ target.learners, id ∈ conf.voters → id ∈ target.voters) := by
  obtain ⟨joint, final, hjoint, hfinal, hvoters, hold, hlearners⟩ := leaveJoint_enterJoint hj hv ht
  refine ⟨joint, final, hjoint, hfinal, leaveJoint_not_joint hfinal, ?_⟩
  have hnew : (new target.voters target.learners).learners =
      (sortedUnique target.learners).filter fun id => !(id ∈ target.voters) := by
    simp [new, Configuration.normalize, sortedUnique_eq_nil.mpr]
  constructor
  · intro heq id hid hvote
    by_contra hno
    have hmem : id ∈ (new target.voters target.learners).learners := by
      rw [hnew, List.mem_filter, mem_sortedUnique]
      exact ⟨hid, by simpa using hno⟩
    rw [← heq, hlearners, List.mem_filter] at hmem
    simp [hvote] at hmem
  · intro hall
    have hsame : final.config.learners = (new target.voters target.learners).learners := by
      rw [hlearners, hnew]
      refine List.filter_congr fun id hid => ?_
      rw [mem_sortedUnique] at hid
      by_cases hvote : id ∈ conf.voters
      · simp [hall id hid hvote]
      · simp [hvote]
    calc final.config
        = ⟨final.config.voters, final.config.oldVoters, final.config.learners⟩ := rfl
      _ = new target.voters target.learners := by rw [hvoters, hold, hsame]; rfl

/-- One voter is replaced by a new one, and another voter is added as a learner first. -/
theorem change_ends_at_target_replacing :
    ∃ joint final, (Configuration.mk [1, 2, 3] [] []).enterJoint ⟨[4, 2, 1, 1], [], [5]⟩ = .ok joint ∧
      joint.config.leaveJoint = .ok final ∧ final.config.isJoint = false ∧
      final.config = ⟨[1, 2, 4], [], [5]⟩ := by
  obtain ⟨joint, final, hjoint, hfinal, hnot, hiff⟩ :=
    @change_ends_at_target_iff ⟨[1, 2, 3], [], []⟩ ⟨[4, 2, 1, 1], [], [5]⟩ rfl nofun nofun
  have hkept := hiff.mpr (List.forall_mem_singleton.mpr (by decide))
  exact ⟨joint, final, hjoint, hfinal, hnot, hkept.trans (by decide)⟩

/-- A voter that is to become a learner leaves the cluster instead. -/
theorem demoted_voter_dropped :
    ∃ joint final, (Configuration.mk [1, 2, 3] [] []).enterJoint ⟨[1, 2], [], [3]⟩ = .ok joint ∧
      joint.config.leaveJoint = .ok final ∧
      Configuration.new [1, 2] [3] = ⟨[1, 2], [], [3]⟩ ∧ final.config = ⟨[1, 2], [], []⟩ :=
  ⟨_, _, rfl, rfl, by decide, by decide⟩

/-! ### Quorums that meet -/

theorem voters_ne_nil_of_hasQuorum {conf : Configuration} {granted : NodeID → Bool}
    (h : conf.hasQuorum granted = true) : conf.voters ≠ [] := by
  intro h0
  have := ((hasQuorum_iff _ _).mp h).1
  simp [hasMajority, h0] at this

/-- Entering a joint configuration keeps the voters as the old ones. -/
theorem enterJoint_common {conf target : Configuration} (hn : conf.Normalized) {cc : ConfChange}
    (h : conf.enterJoint target = .ok cc) {p q : NodeID → Bool} (hp : conf.hasQuorum p = true)
    (hq : cc.config.hasQuorum q = true) :
    ∃ v ∈ conf.voters, v ∈ cc.config.oldVoters ∧ p v = true ∧ q v = true := by
  have hold : cc.config.oldVoters = conf.voters := by
    rw [enterJoint_ok h]
    exact sortedUnique_of_lt hn.voters
  have hj : cc.config.isJoint = true := by
    rw [isJoint, hold, decide_eq_true_eq]
    exact List.length_pos_iff.mpr (voters_ne_nil_of_hasQuorum hp)
  have hq' := ((hasQuorum_iff _ _).mp hq).2 hj
  rw [hold] at hq' ⊢
  obtain ⟨v, hv, hpq⟩ := hasMajority_common ((hasQuorum_iff _ _).mp hp).1 hq'
  exact ⟨v, hv, hv, hpq⟩

theorem enterJoint_overlaps {conf target : Configuration} (hn : conf.Normalized) {cc : ConfChange}
    (h : conf.enterJoint target = .ok cc) : conf.Overlaps cc.config := by
  intro p q hp hq
  obtain ⟨v, -, -, hpq⟩ := enterJoint_common hn h hp hq
  exact ⟨v, hpq⟩

theorem leaveJoint_overlaps {conf : Configuration} (hn : conf.Normalized) {cc : ConfChange}
    (h : conf.leaveJoint = .ok cc) : conf.Overlaps cc.config :=
  overlaps_of_voters (leaveJoint_voters hn h).symm

/-- Two quorums of a configuration share a voter, and so do a quorum of a joint configuration and
one of the configuration before it or after it. -/
theorem quorums_share_voter {conf : Configuration} (hn : conf.Normalized) :
    (∀ p q, conf.hasQuorum p = true → conf.hasQuorum q = true →
      ∃ v, conf.isVoter v = true ∧ p v = true ∧ q v = true) ∧
    (conf.isJoint = false → ∀ target : Configuration, target.validate = .ok () →
      ∃ joint, conf.enterJoint target = .ok joint ∧
        (∀ p q, joint.config.hasQuorum p = true → conf.hasQuorum q = true →
          ∃ v, joint.config.isVoter v = true ∧ conf.isVoter v = true ∧ p v = true ∧ q v = true) ∧
        ∀ final, joint.config.leaveJoint = .ok final →
          ∀ p q, joint.config.hasQuorum p = true → final.config.hasQuorum q = true →
            ∃ v, joint.config.isVoter v = true ∧ final.config.isVoter v = true ∧
              p v = true ∧ q v = true) := by
  refine ⟨fun p q hp hq => ?_, fun hj target ht => ?_⟩
  · obtain ⟨v, hv, hpq⟩ := hasMajority_common ((hasQuorum_iff _ _).mp hp).1
      ((hasQuorum_iff _ _).mp hq).1
    exact ⟨v, by simp [isVoter, hv], hpq⟩
  · have hvoters : target.voters ≠ [] := by
      intro h0
      simp [validate, h0] at ht
    have hjoint := enterJoint_of_valid hj hvoters
    refine ⟨_, hjoint, fun p q hp hq => ?_, fun final hfinal p q hp hq => ?_⟩
    · obtain ⟨v, hv, hold, hqv, hpv⟩ := enterJoint_common hn hjoint hq hp
      exact ⟨v, by simp [isVoter, hold], by simp [isVoter, hv], hpv, hqv⟩
    · have hsame := leaveJoint_voters (normalize_normalized _) hfinal
      have hq' := ((hasQuorum_iff _ _).mp hq).1
      rw [hsame] at hq'
      obtain ⟨v, hv, hpq⟩ := hasMajority_common ((hasQuorum_iff _ _).mp hp).1 hq'
      exact ⟨v, by simp [isVoter, hv], by simp [isVoter, hsame, hv], hpq⟩

/-- The quorums of three voters. -/
theorem quorums_share_voter_three :
    (Configuration.mk [1, 2, 3] [] []).Normalized ∧
      ∀ p q, (Configuration.mk [1, 2, 3] [] []).hasQuorum p = true →
        (Configuration.mk [1, 2, 3] [] []).hasQuorum q = true →
        ∃ v, (Configuration.mk [1, 2, 3] [] []).isVoter v = true ∧ p v = true ∧ q v = true := by
  have hn : (Configuration.mk [1, 2, 3] [] []).Normalized :=
    ⟨by decide, by decide, by decide, fun _ h => nomatch h⟩
  exact ⟨hn, (quorums_share_voter hn).1⟩

/-! ### Committed indexes -/

/-- The committed index is the largest index that a quorum has matched, and it grows with what is
matched. -/
theorem committedIndex_agrees (conf : Configuration) :
    (∀ matched i, 1 ≤ i →
      (i ≤ conf.committedIndex matched ↔ conf.hasQuorum (fun id => i ≤ matched id) = true)) ∧
    (conf.voters ≠ [] → ∀ matched,
      IsGreatest {i | conf.hasQuorum (fun id => i ≤ matched id) = true}
        (conf.committedIndex matched)) ∧
    ∀ matched matched', (∀ id, matched id ≤ matched' id) →
      conf.committedIndex matched ≤ conf.committedIndex matched' := by
  refine ⟨fun matched i hi => le_committedIndex_iff hi, fun hv matched => ⟨?_, fun i hi => ?_⟩,
    fun matched matched' hle => ?_⟩
  · rcases Nat.eq_zero_or_pos (conf.committedIndex matched) with h0 | hpos
    · -- everybody has matched index 0
      have hall : ∀ l : List NodeID, l ≠ [] → hasMajority l (fun _ => true) = true := by
        intro l hl
        have := List.length_pos_iff.mpr hl
        rw [hasMajority_iff, List.countP_true]
        omega
      show conf.hasQuorum (fun id => conf.committedIndex matched ≤ matched id) = true
      simp only [h0, Nat.zero_le, decide_true]
      rw [hasQuorum_iff]
      refine ⟨hall _ hv, fun hj => hall _ ?_⟩
      rw [isJoint, decide_eq_true_eq] at hj
      exact List.length_pos_iff.mp hj
    · exact hasQuorum_committedIndex hpos
  · rcases Nat.eq_zero_or_pos i with rfl | hpos
    · exact Nat.zero_le _
    · exact (le_committedIndex_iff hpos).mpr hi
  · rcases Nat.eq_zero_or_pos (conf.committedIndex matched) with h0 | hpos
    · rw [h0]
      exact Nat.zero_le _
    · rw [le_committedIndex_iff hpos]
      refine hasQuorum_mono (fun v _ hv => ?_) (hasQuorum_committedIndex hpos)
      rw [decide_eq_true_eq] at hv ⊢
      exact hv.trans (hle v)

/-! ### Campaigns that are lost -/

/-- The sets of voters of which each has to give a majority. -/
def Configuration.electorates (c : Configuration) : List (List NodeID) :=
  if c.isJoint then [c.voters, c.oldVoters] else [c.voters]

theorem Configuration.mem_electorates {conf : Configuration} {voters : List NodeID} :
    voters ∈ conf.electorates ↔
      voters = conf.voters ∨ conf.isJoint = true ∧ voters = conf.oldVoters := by
  rw [electorates]
  cases conf.isJoint <;> simp

theorem Configuration.ne_nil_of_mem_electorates {conf : Configuration} (hv : conf.voters ≠ [])
    {voters : List NodeID} (h : voters ∈ conf.electorates) : voters ≠ [] := by
  rcases mem_electorates.mp h with rfl | ⟨hj, rfl⟩
  · exact hv
  · rw [isJoint, decide_eq_true_eq] at hj
    exact List.length_pos_iff.mp hj

/-- Those who have not refused are a majority unless half of the voters have. -/
theorem hasMajority_not_iff (voters : List NodeID) (rejected : NodeID → Bool) (hne : voters ≠ []) :
    hasMajority voters (fun id => !rejected id) = true ↔
      2 * voters.countP rejected < voters.length := by
  have hlen := List.length_eq_countP_add_countP rejected (l := voters)
  have hnot : voters.countP (fun a => decide ¬rejected a = true) =
      voters.countP fun id => !rejected id := by
    refine List.countP_congr fun a _ => ?_
    simp
  rw [hnot] at hlen
  have hpos := List.length_pos_iff.mpr hne
  rw [hasMajority_iff]
  omega

/-- The campaign can still be won when those who have not refused are a quorum. -/
theorem exists_quorum_iff (conf : Configuration) (rejected : NodeID → Bool) :
    (∃ granted, (∀ id, granted id = true → rejected id = false) ∧ conf.hasQuorum granted = true) ↔
      conf.hasQuorum (fun id => !rejected id) = true := by
  constructor
  · rintro ⟨granted, hdis, hq⟩
    refine hasQuorum_mono (fun v _ hv => ?_) hq
    rw [hdis v hv]
    rfl
  · intro hq
    exact ⟨_, fun id hid => by simpa using hid, hq⟩

theorem quorumImpossible_iff {conf : Configuration} (hv : conf.voters ≠ [])
    (rejected : NodeID → Bool) : conf.quorumImpossible rejected = true ↔
      ∃ voters ∈ conf.electorates, voters.length < 2 * voters.countP rejected := by
  have key : ∀ voters ∈ conf.electorates,
      (hasMajority voters rejected = true ↔ voters.length < 2 * voters.countP rejected) := by
    intro voters hmem
    have := List.length_pos_iff.mpr (conf.ne_nil_of_mem_electorates hv hmem)
    rw [hasMajority_iff]
    omega
  unfold quorumImpossible electorates at *
  cases hj : conf.isJoint <;> simp [hj] at key ⊢
  · exact key
  · rw [key.1, key.2]

/-- The campaign can still be won exactly when less than half has refused, of each set of voters. -/
theorem hasQuorum_not_iff {conf : Configuration} (hv : conf.voters ≠ []) (rejected : NodeID → Bool) :
    conf.hasQuorum (fun id => !rejected id) = true ↔
      ∀ voters ∈ conf.electorates, 2 * voters.countP rejected < voters.length := by
  have key : ∀ voters ∈ conf.electorates, (hasMajority voters (fun id => !rejected id) = true ↔
      2 * voters.countP rejected < voters.length) := fun voters hmem =>
    hasMajority_not_iff voters rejected (conf.ne_nil_of_mem_electorates hv hmem)
  rw [hasQuorum_iff]
  unfold electorates at *
  cases hj : conf.isJoint <;> simp [hj] at key ⊢
  · exact key
  · rw [key.1, key.2]

/-- A lost campaign is recognised exactly when more than half of some set of voters has refused, or of
none exactly half. -/
theorem quorumImpossible_exact_iff {conf : Configuration} (hv : conf.voters ≠ [])
    (rejected : NodeID → Bool) :
    (conf.quorumImpossible rejected = true ↔
      ¬∃ granted, (∀ id, granted id = true → rejected id = false) ∧
        conf.hasQuorum granted = true) ↔
    (∃ voters ∈ conf.electorates, voters.length < 2 * voters.countP rejected) ∨
      ∀ voters ∈ conf.electorates, voters.length ≠ 2 * voters.countP rejected := by
  rw [exists_quorum_iff, hasQuorum_not_iff hv, quorumImpossible_iff hv]
  constructor
  · intro h
    by_cases hmaj : ∃ voters ∈ conf.electorates, voters.length < 2 * voters.countP rejected
    · exact .inl hmaj
    · have hwon := not_not.mp (mt h.mpr hmaj)
      exact .inr fun voters hmem => (hwon voters hmem).ne'
  · rintro (⟨voters, hmem, hlt⟩ | hne)
    · refine iff_of_true ⟨voters, hmem, hlt⟩ fun hwon => ?_
      exact absurd (hwon voters hmem) hlt.le.not_gt
    · constructor
      · rintro ⟨voters, hmem, hlt⟩ hwon
        exact absurd (hwon voters hmem) hlt.le.not_gt
      · intro hlost
        push Not at hlost
        obtain ⟨voters, hmem, hle⟩ := hlost
        exact ⟨voters, hmem, hle.lt_of_ne (hne voters hmem)⟩

/-- In a joint configuration two refusals of three new voters are recognised, although of the four old
voters exactly half refuse. -/
theorem quorumImpossible_exact_joint :
    ¬∃ granted : NodeID → Bool, (∀ id, granted id = true → decide (id = 2 ∨ id = 3) = false) ∧
      (Configuration.mk [1, 2, 3] [1, 2, 3, 4] []).hasQuorum granted = true :=
  ((@quorumImpossible_exact_iff ⟨[1, 2, 3], [1, 2, 3, 4], []⟩ (List.cons_ne_nil _ _)
    fun id => decide (id = 2 ∨ id = 3)).mpr (.inl ⟨[1, 2, 3], by decide, by decide⟩)).mp (by decide)

/-- With four voters, two refusals lose the campaign and are not recognised. -/
theorem lost_campaign_unrecognised :
    (Configuration.mk [1, 2, 3, 4] [] []).Normalized ∧
    (Configuration.mk [1, 2, 3, 4] [] []).quorumImpossible (fun id => id = 3 ∨ id = 4) = false ∧
    ¬∃ granted : NodeID → Bool, (∀ id, granted id = true → decide (id = 3 ∨ id = 4) = false) ∧
      (Configuration.mk [1, 2, 3, 4] [] []).hasQuorum granted = true := by
  refine ⟨⟨by decide, by decide, by decide, fun _ h => nomatch h⟩, by decide, ?_⟩
  rw [exists_quorum_iff]
  decide

end RaftStore.Raft
