import RaftStore.Raft.Types
import RaftStore.Lib.Majority

/-! Cluster configurations: how they are kept sorted, what counts as a quorum, and the two halves of
a membership change. -/

namespace RaftStore.Raft

/-- The list without an element that equals the one after it. -/
def compact : List NodeID → List NodeID
  | [] => []
  | [a] => [a]
  | a :: b :: l => if a = b then compact (b :: l) else a :: compact (b :: l)

def sortedUnique (ids : List NodeID) : List NodeID := compact (ids.insertionSort (· ≤ ·))

def hasMajority (voters : List NodeID) (granted : NodeID → Bool) : Bool :=
  if voters.length = 0 then false else voters.countP granted * 2 > voters.length

/-- The largest index that a majority of the voters have matched. -/
def quorumIndex (voters : List NodeID) (matched : NodeID → ℕ) : ℕ :=
  if voters.length = 0 then 0
  else ((voters.map matched).insertionSort (· ≤ ·)).getD ((voters.length - 1) / 2) 0

namespace Configuration

def normalize (c : Configuration) : Configuration :=
  let voters := sortedUnique c.voters
  let oldVoters := sortedUnique c.oldVoters
  { voters, oldVoters,
    learners := (sortedUnique c.learners).filter fun id => !(id ∈ voters || id ∈ oldVoters) }

def new (voters : List NodeID) (learners : List NodeID := []) : Configuration :=
  { voters, learners : Configuration }.normalize

def isJoint (c : Configuration) : Bool := c.oldVoters.length > 0

def isEmpty (c : Configuration) : Bool :=
  c.voters.length = 0 && c.oldVoters.length = 0 && c.learners.length = 0

def validate (c : Configuration) : Except Error Unit :=
  if c.voters.length = 0 then .error Sentinel.emptyConfiguration.error else .ok ()

def isVoter (c : Configuration) (id : NodeID) : Bool := id ∈ c.voters || id ∈ c.oldVoters

def members (c : Configuration) : List NodeID :=
  sortedUnique (c.voters ++ c.oldVoters ++ c.learners)

def peers (c : Configuration) (self : NodeID) : List NodeID := c.members.filter (· != self)

def hasQuorum (c : Configuration) (granted : NodeID → Bool) : Bool :=
  if !hasMajority c.voters granted then false
  else if c.isJoint && !hasMajority c.oldVoters granted then false
  else true

def quorumImpossible (c : Configuration) (rejected : NodeID → Bool) : Bool :=
  if hasMajority c.voters rejected then true
  else if c.isJoint && hasMajority c.oldVoters rejected then true
  else false

/-- The highest index replicated to a quorum; whether it may be committed is the caller's
question. -/
def committedIndex (c : Configuration) (matched : NodeID → ℕ) : ℕ :=
  let idx := quorumIndex c.voters matched
  if c.isJoint then
    let old := quorumIndex c.oldVoters matched
    if old < idx then old else idx
  else idx

end Configuration

/-- Which half of a membership change an entry performs. -/
abbrev ConfChangeKind := UInt8

def confChangeEnterJoint : ConfChangeKind := 0
def confChangeLeaveJoint : ConfChangeKind := 1

/-- The payload of a configuration entry: the configuration that results. -/
structure ConfChange where
  kind : ConfChangeKind := 0
  config : Configuration := {}
  deriving DecidableEq, Repr

namespace Configuration

def enterJoint (c target : Configuration) : Except Error ConfChange :=
  match target.validate with
  | .error e => .error e
  | .ok () =>
    if c.isJoint then .error ⟨"raft: membership change already in progress", []⟩
    else
      .ok { kind := confChangeEnterJoint
            config := { voters := target.voters, oldVoters := c.voters,
                        learners := target.learners : Configuration }.normalize }

def leaveJoint (c : Configuration) : Except Error ConfChange :=
  if !c.isJoint then .error ⟨"raft: not in a joint configuration", []⟩
  else
    let final := { voters := c.voters, learners := c.learners : Configuration }.normalize
    match final.validate with
    | .error e => .error e
    | .ok () => .ok { kind := confChangeLeaveJoint, config := final }

end Configuration

/-! ### Sorted lists -/

theorem mem_compact (l : List NodeID) (x : NodeID) : x ∈ compact l ↔ x ∈ l := by
  induction l using compact.induct with
  | case1 => rfl
  | case2 => rfl
  | case3 b l ih => simp [compact, ih]
  | case4 a b l hab ih => simp [compact, hab, ih]

theorem compact_length_le (l : List NodeID) : (compact l).length ≤ l.length := by
  induction l using compact.induct with
  | case1 => exact le_rfl
  | case2 => exact le_rfl
  | case3 b l ih =>
    rw [compact, if_pos rfl]
    exact ih.trans (by simp)
  | case4 a b l hab ih =>
    rw [compact, if_neg hab]
    simpa using ih

theorem compact_lt {l : List NodeID} (h : l.Pairwise (· ≤ ·)) : (compact l).Pairwise (· < ·) := by
  induction l using compact.induct with
  | case1 => exact .nil
  | case2 => exact List.pairwise_singleton _ _
  | case3 b l ih =>
    rw [compact, if_pos rfl]
    exact ih h.of_cons
  | case4 a b l hab ih =>
    rw [compact, if_neg hab]
    refine List.pairwise_cons.mpr ⟨fun x hx => ?_, ih h.of_cons⟩
    rw [mem_compact] at hx
    have hle : a ≤ b := List.rel_of_pairwise_cons h List.mem_cons_self
    have hbx : b ≤ x := by
      rcases List.mem_cons.mp hx with rfl | hx
      · exact UInt64.le_refl _
      · exact List.rel_of_pairwise_cons h.of_cons hx
    exact UInt64.lt_of_lt_of_le (UInt64.lt_of_le_of_ne hle hab) hbx

theorem compact_of_lt {l : List NodeID} (h : l.Pairwise (· < ·)) : compact l = l := by
  induction l using compact.induct with
  | case1 => rfl
  | case2 => rfl
  | case3 b l ih => exact absurd (List.rel_of_pairwise_cons h List.mem_cons_self) (UInt64.lt_irrefl b)
  | case4 a b l hab ih => rw [compact, if_neg hab, ih h.of_cons]

instance : Std.Total (α := NodeID) (· ≤ ·) := ⟨UInt64.le_total⟩
instance : IsTrans NodeID (· ≤ ·) := ⟨fun _ _ _ => UInt64.le_trans⟩

theorem sortedUnique_lt (l : List NodeID) : (sortedUnique l).Pairwise (· < ·) :=
  compact_lt (List.pairwise_insertionSort (· ≤ ·) l)

@[simp] theorem mem_sortedUnique (l : List NodeID) (x : NodeID) : x ∈ sortedUnique l ↔ x ∈ l := by
  rw [sortedUnique, mem_compact, (List.perm_insertionSort _ l).mem_iff]

theorem sortedUnique_of_lt {l : List NodeID} (h : l.Pairwise (· < ·)) : sortedUnique l = l := by
  have hle : l.Pairwise (· ≤ ·) := h.imp UInt64.le_of_lt
  rw [sortedUnique, hle.insertionSort_eq, compact_of_lt h]

theorem sortedUnique_length_le (l : List NodeID) : (sortedUnique l).length ≤ l.length :=
  (compact_length_le _).trans (by simp)

namespace Configuration

/-- The form that `normalize` gives: every list sorted without repetition, and no learner that also
votes. -/
structure Normalized (c : Configuration) : Prop where
  voters : c.voters.Pairwise (· < ·)
  oldVoters : c.oldVoters.Pairwise (· < ·)
  learners : c.learners.Pairwise (· < ·)
  disjoint : ∀ id ∈ c.learners, c.isVoter id = false

theorem normalize_normalized (c : Configuration) : c.normalize.Normalized where
  voters := sortedUnique_lt _
  oldVoters := sortedUnique_lt _
  learners := (sortedUnique_lt c.learners).filter _
  disjoint id h := by
    simpa [normalize, isVoter] using (List.mem_filter.mp h).2

theorem Normalized.normalize_eq {c : Configuration} (h : c.Normalized) : c.normalize = c := by
  have hl : c.learners.filter (fun id => !(id ∈ c.voters || id ∈ c.oldVoters)) = c.learners := by
    rw [List.filter_eq_self]
    intro id hid
    simpa [isVoter] using h.disjoint id hid
  simp only [normalize, sortedUnique_of_lt h.voters, sortedUnique_of_lt h.oldVoters,
    sortedUnique_of_lt h.learners, hl]

@[simp] theorem mem_members (c : Configuration) (id : NodeID) :
    id ∈ c.members ↔ id ∈ c.voters ∨ id ∈ c.oldVoters ∨ id ∈ c.learners := by
  simp [members]

theorem mem_members_of_isVoter {c : Configuration} {id : NodeID} (h : c.isVoter id = true) :
    id ∈ c.members := by
  simp only [isVoter, Bool.or_eq_true, decide_eq_true_eq] at h
  rw [mem_members]
  tauto

end Configuration

/-! ### Quorums -/

theorem hasMajority_iff (voters : List NodeID) (granted : NodeID → Bool) :
    hasMajority voters granted = true ↔ voters.length < voters.countP granted * 2 := by
  unfold hasMajority
  split
  · rename_i h
    have hle := List.countP_le_length (p := granted) (l := voters)
    simp only [Bool.false_eq_true, false_iff]
    omega
  · simp

theorem hasMajority_mono {voters : List NodeID} {p q : NodeID → Bool}
    (h : ∀ v ∈ voters, p v = true → q v = true) (hp : hasMajority voters p = true) :
    hasMajority voters q = true := by
  rw [hasMajority_iff] at hp ⊢
  have := List.countP_mono_left h
  omega

/-- A quorum index of at least `i` is what a majority that has matched `i` gives. -/
theorem le_quorumIndex_iff {voters : List NodeID} {matched : NodeID → ℕ} {i : ℕ} (hi : 0 < i) :
    i ≤ quorumIndex voters matched ↔ hasMajority voters (fun v => i ≤ matched v) = true := by
  rw [hasMajority_iff]
  by_cases hne : voters = []
  · subst hne
    simp only [quorumIndex, List.length_nil, if_true, List.countP_nil]
    omega
  · have hpos : voters.length ≠ 0 := by simpa using hne
    simp only [quorumIndex, hpos, if_false]
    exact Lib.le_middle_iff matched hne i

namespace Configuration

theorem hasQuorum_iff (c : Configuration) (granted : NodeID → Bool) :
    c.hasQuorum granted = true ↔ hasMajority c.voters granted = true ∧
      (c.isJoint = true → hasMajority c.oldVoters granted = true) := by
  unfold hasQuorum
  cases hasMajority c.voters granted <;> cases c.isJoint <;>
    cases hasMajority c.oldVoters granted <;> simp

theorem hasQuorum_mono {c : Configuration} {p q : NodeID → Bool}
    (h : ∀ v, c.isVoter v = true → p v = true → q v = true) (hp : c.hasQuorum p = true) :
    c.hasQuorum q = true := by
  rw [hasQuorum_iff] at hp ⊢
  refine ⟨hasMajority_mono (fun v hv => h v ?_) hp.1,
    fun hj => hasMajority_mono (fun v hv => h v ?_) (hp.2 hj)⟩ <;> simp [isVoter, hv]

/-- The two arithmetics agree: an index is below the committed one when a quorum has matched it. -/
theorem le_committedIndex_iff {c : Configuration} {matched : NodeID → ℕ} {i : ℕ} (hi : 0 < i) :
    i ≤ c.committedIndex matched ↔ c.hasQuorum (fun v => i ≤ matched v) = true := by
  rw [hasQuorum_iff, ← le_quorumIndex_iff hi, ← le_quorumIndex_iff hi]
  simp only [committedIndex]
  cases c.isJoint with
  | false => simp
  | true =>
    simp only [if_true, true_implies]
    split <;> omega

/-- A positive committed index has been matched by a quorum. -/
theorem hasQuorum_committedIndex {c : Configuration} {matched : NodeID → ℕ}
    (h : 0 < c.committedIndex matched) :
    c.hasQuorum (fun v => c.committedIndex matched ≤ matched v) = true :=
  (le_committedIndex_iff h).mp le_rfl

/-- Two configurations of which every two quorums share a voter. -/
def Overlaps (c c' : Configuration) : Prop :=
  ∀ p q, c.hasQuorum p = true → c'.hasQuorum q = true → ∃ v, p v = true ∧ q v = true

theorem Overlaps.symm {c c' : Configuration} (h : c.Overlaps c') : c'.Overlaps c := by
  intro p q hp hq
  obtain ⟨v, hv, hv'⟩ := h q p hq hp
  exact ⟨v, hv', hv⟩

/-- Two majorities of one list of voters share one of them. -/
theorem hasMajority_common {voters : List NodeID} {p q : NodeID → Bool}
    (hp : hasMajority voters p = true) (hq : hasMajority voters q = true) :
    ∃ v ∈ voters, p v = true ∧ q v = true :=
  Lib.exists_mem_of_majorities ((hasMajority_iff _ _).mp hp) ((hasMajority_iff _ _).mp hq)

theorem overlaps_of_voters {c c' : Configuration} (h : c.voters = c'.voters) : c.Overlaps c' := by
  intro p q hp hq
  rw [hasQuorum_iff, ← h] at hq
  obtain ⟨v, -, hv⟩ := hasMajority_common ((hasQuorum_iff _ _).mp hp).1 hq.1
  exact ⟨v, hv⟩

theorem overlaps_self (c : Configuration) : c.Overlaps c := overlaps_of_voters rfl

end Configuration

end RaftStore.Raft
