import RaftStore.Raft.Configuration
import RaftStore.Lib.Prog
import RaftStore.Lib.Uvarint
import Mathlib.Data.Finset.Card

/-! The outside form of entries, configurations, snapshots and the hard state.  What the protobuf
library makes of a message is left out: a stored message stands for its bytes. -/

namespace RaftStore.Codec

open Lib Raft

/-- The wire's entry types.  The library keeps numbers it has no name for. -/
inductive PbEntryType
  | unspecified
  | normal
  | noOp
  | confChange
  | unnamed (number : Int32)
  deriving DecidableEq, Repr

structure PbLogEntry where
  term : UInt64 := 0
  index : UInt64 := 0
  type : PbEntryType := .unspecified
  command : List UInt8 := []
  deriving DecidableEq, Repr

structure PbConfiguration where
  voters : List UInt64 := []
  oldVoters : List UInt64 := []
  learners : List UInt64 := []
  deriving DecidableEq, Repr

structure PbSnapshot where
  lastIncludedIndex : UInt64 := 0
  lastIncludedTerm : UInt64 := 0
  config : Option PbConfiguration := none
  data : List UInt8 := []
  deriving DecidableEq, Repr

def entryTypeToProto : EntryType → PbEntryType
  | .normal => .normal
  | .noOp => .noOp
  | .confChange => .confChange

def entryTypeFromProto : PbEntryType → EntryType
  | .noOp => .noOp
  | .confChange => .confChange
  | _ => .normal

def entryToProto (e : LogEntry) : PbLogEntry where
  term := UInt64.ofNat e.term
  index := UInt64.ofNat e.index
  type := entryTypeToProto e.type
  command := e.command

def entryFromProto (p : PbLogEntry) : LogEntry where
  term := p.term.toNat
  index := p.index.toNat
  type := entryTypeFromProto p.type
  command := p.command

def configurationToProto (c : Configuration) : PbConfiguration where
  voters := c.voters
  oldVoters := c.oldVoters
  learners := c.learners

def configurationFromProto : Option PbConfiguration → Configuration
  | none => {}
  | some p => { Configuration.new p.voters p.learners with oldVoters := p.oldVoters }

def snapshotToProto (s : Snapshot) : PbSnapshot where
  lastIncludedIndex := UInt64.ofNat s.lastIncludedIndex
  lastIncludedTerm := UInt64.ofNat s.lastIncludedTerm
  config := some (configurationToProto s.config)
  data := s.data

def snapshotFromProto (p : PbSnapshot) : Snapshot where
  lastIncludedIndex := p.lastIncludedIndex.toNat
  lastIncludedTerm := p.lastIncludedTerm.toNat
  config := configurationFromProto p.config
  data := p.data

def marshalHardState (hs : HardState) : List UInt8 :=
  appendUvarint (appendUvarint (appendUvarint [] (UInt64.ofNat hs.term)) hs.vote)
    (UInt64.ofNat hs.commit)

def readUvarint (b : List UInt8) (field : String) : Except Error (UInt64 × List UInt8) :=
  match uvarint b with
  | none => .error ⟨s!"codec: truncated hard state reading {field}", []⟩
  | some (v, rest) => .ok (v, rest)

def unmarshalHardState (b : List UInt8) : Except Error HardState :=
  match readUvarint b "term" with
  | .error e => .error e
  | .ok (term, b) =>
    match readUvarint b "vote" with
    | .error e => .error e
    | .ok (vote, b) =>
      match readUvarint b "commit" with
      | .error e => .error e
      | .ok (commit, _) => .ok { term := term.toNat, vote, commit := commit.toNat }

/-! ### Round trips -/

/-- The numbers of an entry fit into a word. -/
structure EntryWords (e : LogEntry) : Prop where
  term : e.term < 2 ^ 64
  index : e.index < 2 ^ 64

theorem entryTypeFromProto_toProto (t : EntryType) : entryTypeFromProto (entryTypeToProto t) = t := by
  cases t <;> rfl

theorem entryFromProto_toProto {e : LogEntry} (h : EntryWords e) :
    entryFromProto (entryToProto e) = e := by
  cases e
  simp only [entryFromProto, entryToProto, entryTypeFromProto_toProto,
    UInt64.toNat_ofNat_of_lt' h.term, UInt64.toNat_ofNat_of_lt' h.index]

theorem configurationFromProto_toProto {c : Configuration} (h : c.Normalized) :
    configurationFromProto (some (configurationToProto c)) = c := by
  have hlearners : c.learners.filter (fun id => !(id ∈ c.voters || id ∈ ([] : List NodeID))) =
      c.learners := by
    rw [List.filter_eq_self]
    intro id hid
    have := h.disjoint id hid
    simp only [Configuration.isVoter, Bool.or_eq_false_iff] at this
    simp [this.1]
  have hnil : sortedUnique [] = [] := rfl
  cases c
  simp only [configurationFromProto, configurationToProto, Configuration.new,
    Configuration.normalize, sortedUnique_of_lt h.voters, sortedUnique_of_lt h.learners, hnil] at *
  rw [hlearners]

/-- The numbers of a snapshot fit into words and its configuration is normalized. -/
structure SnapshotWords (s : Snapshot) : Prop where
  index : s.lastIncludedIndex < 2 ^ 64
  term : s.lastIncludedTerm < 2 ^ 64
  config : s.config.Normalized

theorem snapshotFromProto_toProto {s : Snapshot} (h : SnapshotWords s) :
    snapshotFromProto (snapshotToProto s) = s := by
  cases s
  simp only [snapshotFromProto, snapshotToProto, UInt64.toNat_ofNat_of_lt' h.index,
    UInt64.toNat_ofNat_of_lt' h.term, configurationFromProto_toProto h.config]

structure HardStateWords (hs : HardState) : Prop where
  term : hs.term < 2 ^ 64
  commit : hs.commit < 2 ^ 64

theorem readUvarint_delimited (x : UInt64) (field : String) :
    Delimited (fun b => (readUvarint b field).toOption) (appendUvarint [] x)
      fun rest => (x, rest) := by
  refine (uvarint_delimited x).congr fun b => ?_
  rw [readUvarint]
  cases uvarint b <;> rfl

theorem toOption_unmarshalHardState (b : List UInt8) : (unmarshalHardState b).toOption =
    (readUvarint b "term").toOption.bind fun x => (readUvarint x.2 "vote").toOption.bind fun y =>
      (readUvarint y.2 "commit").toOption.map fun z => ⟨x.1.toNat, y.1, z.1.toNat⟩ := by
  rw [unmarshalHardState]
  cases readUvarint b "term" with
  | error e => rfl
  | ok x =>
    obtain ⟨term, b⟩ := x
    dsimp only [Except.toOption, Option.bind_some]
    cases readUvarint b "vote" with
    | error e => rfl
    | ok y =>
      obtain ⟨vote, b⟩ := y
      dsimp only [Except.toOption, Option.bind_some]
      cases readUvarint b "commit" <;> rfl

/-- The bytes of a hard state say where it ends. -/
theorem hardState_delimited {hs : HardState} (h : HardStateWords hs) :
    Delimited (fun b => (unmarshalHardState b).toOption) (marshalHardState hs) fun _ => hs := by
  have hterm := UInt64.toNat_ofNat_of_lt' h.term
  have hcommit := UInt64.toNat_ofNat_of_lt' h.commit
  rw [marshalHardState, appendUvarint_eq _ (UInt64.ofNat hs.commit), appendUvarint_eq _ hs.vote,
    List.append_assoc]
  refine Delimited.congr ?_ toOption_unmarshalHardState
  refine (readUvarint_delimited (UInt64.ofNat hs.term) "term").bind (fun t b =>
    (readUvarint b "vote").toOption.bind fun y =>
      (readUvarint y.2 "commit").toOption.map fun z => HardState.mk t.toNat y.1 z.1.toNat) ?_
  refine (readUvarint_delimited hs.vote "vote").bind (fun v b =>
    (readUvarint b "commit").toOption.map fun z =>
      HardState.mk (UInt64.ofNat hs.term).toNat v z.1.toNat) ?_
  have hlast := (readUvarint_delimited (UInt64.ofNat hs.commit) "commit").map fun z =>
    HardState.mk (UInt64.ofNat hs.term).toNat hs.vote z.1.toNat
  simp only [hterm, hcommit] at hlast ⊢
  exact hlast

theorem unmarshalHardState_marshal {hs : HardState} (h : HardStateWords hs) :
    unmarshalHardState (marshalHardState hs) = .ok hs :=
  eq_ok_of_toOption (hardState_delimited h).exact

/-! ### What arrives

The decoder normalizes the voters and the learners, and takes the old voters as they come. -/

/-- The lists of a wire configuration as they are decoded, before anything is done to them. -/
def PbConfiguration.decoded (p : PbConfiguration) : Configuration where
  voters := p.voters
  oldVoters := p.oldVoters
  learners := p.learners

/-- More than half of the nodes, each counted once. -/
def MajorityOf (nodes : Finset NodeID) (granted : NodeID → Bool) : Prop :=
  nodes.card < (nodes.filter fun v => granted v = true).card * 2

instance (nodes : Finset NodeID) (granted : NodeID → Bool) : Decidable (MajorityOf nodes granted) :=
  inferInstanceAs (Decidable (_ < _))

/-- The configuration's arithmetic counts each node once in each half. -/
structure CountsOnce (c : Configuration) : Prop where
  quorum : ∀ granted, c.hasQuorum granted = true ↔ MajorityOf c.voters.toFinset granted ∧
    (c.oldVoters ≠ [] → MajorityOf c.oldVoters.toFinset granted)
  committed : ∀ matched i, 0 < i → (i ≤ c.committedIndex matched ↔
    MajorityOf c.voters.toFinset (fun v => i ≤ matched v) ∧
      (c.oldVoters ≠ [] → MajorityOf c.oldVoters.toFinset fun v => i ≤ matched v))

theorem hasMajority_iff_majorityOf {voters : List NodeID} (h : voters.Nodup)
    (granted : NodeID → Bool) :
    hasMajority voters granted = true ↔ MajorityOf voters.toFinset granted := by
  have hfilter : voters.toFinset.filter (fun v => granted v = true) =
      (voters.filter granted).toFinset := by
    ext v
    simp
  rw [hasMajority_iff, MajorityOf, hfilter, List.toFinset_card_of_nodup h,
    List.toFinset_card_of_nodup (h.filter _), List.countP_eq_length_filter]

theorem nodup_of_lt {ids : List NodeID} (h : ids.Pairwise (· < ·)) : ids.Nodup := by
  refine h.imp fun {a b} hab heq => ?_
  rw [heq] at hab
  exact UInt64.lt_irrefl b hab

theorem countsOnce_of_normalized {c : Configuration} (h : c.Normalized) : CountsOnce c := by
  have hquorum : ∀ granted, c.hasQuorum granted = true ↔ MajorityOf c.voters.toFinset granted ∧
      (c.oldVoters ≠ [] → MajorityOf c.oldVoters.toFinset granted) := by
    intro granted
    have hjoint : c.isJoint = true ↔ c.oldVoters ≠ [] := by
      simp [Configuration.isJoint, List.length_pos_iff]
    rw [Configuration.hasQuorum_iff, hjoint, hasMajority_iff_majorityOf (nodup_of_lt h.voters),
      hasMajority_iff_majorityOf (nodup_of_lt h.oldVoters)]
  refine ⟨hquorum, fun matched i hi => ?_⟩
  rw [Configuration.le_committedIndex_iff hi, hquorum]

/-- A learner that arrives survives unless it is one of the voters. -/
theorem mem_learners_fromProto (p : PbConfiguration) (id : NodeID) :
    id ∈ (configurationFromProto (some p)).learners ↔ id ∈ p.learners ∧ id ∉ p.voters := by
  simp [configurationFromProto, Configuration.new, Configuration.normalize,
    show sortedUnique [] = [] from rfl]

theorem fromProto_eq_normalize {p : PbConfiguration} (hold : p.oldVoters.Pairwise (· < ·))
    (hlearn : ∀ id ∈ p.learners, id ∈ p.oldVoters → id ∈ p.voters) :
    configurationFromProto (some p) = p.decoded.normalize := by
  have hlearners : (sortedUnique p.learners).filter
      (fun id => !(id ∈ sortedUnique p.voters || id ∈ sortedUnique [])) =
      (sortedUnique p.learners).filter
        (fun id => !(id ∈ sortedUnique p.voters || id ∈ sortedUnique p.oldVoters)) := by
    refine List.filter_congr fun id hid => ?_
    have := hlearn id ((mem_sortedUnique _ _).mp hid)
    by_cases hv : id ∈ p.voters <;> by_cases ho : id ∈ p.oldVoters <;> simp_all
  have hleft : configurationFromProto (some p) =
      { voters := sortedUnique p.voters, oldVoters := p.oldVoters,
        learners := (sortedUnique p.learners).filter
          fun id => !(id ∈ sortedUnique p.voters || id ∈ sortedUnique []) } := rfl
  rw [hleft, hlearners]
  exact congrArg (fun old => { p.decoded.normalize with oldVoters := old })
    (sortedUnique_of_lt hold).symm

/-- What arrives is normalized exactly when its old voters come sorted and without repetition, and
no learner is among them that is not also a voter.  Then the result is what normalizing the lists
gives, and its arithmetic counts each node once in each half. -/
theorem arrived_normalized_iff (p : PbConfiguration) :
    ((configurationFromProto (some p)).Normalized ↔
        p.oldVoters.Pairwise (· < ·) ∧ ∀ id ∈ p.learners, id ∈ p.oldVoters → id ∈ p.voters) ∧
      ((configurationFromProto (some p)).Normalized →
        configurationFromProto (some p) = p.decoded.normalize ∧
          CountsOnce (configurationFromProto (some p))) := by
  have hiff : (configurationFromProto (some p)).Normalized ↔
      p.oldVoters.Pairwise (· < ·) ∧ ∀ id ∈ p.learners, id ∈ p.oldVoters → id ∈ p.voters := by
    refine ⟨fun h => ⟨h.oldVoters, fun id hid hold => ?_⟩, fun ⟨hold, hlearn⟩ => ?_⟩
    · by_contra hv
      have hdis := h.disjoint id ((mem_learners_fromProto p id).mpr ⟨hid, hv⟩)
      simp only [Configuration.isVoter, Bool.or_eq_false_iff, decide_eq_false_iff_not] at hdis
      exact hdis.2 hold
    · rw [fromProto_eq_normalize hold hlearn]
      exact Configuration.normalize_normalized _
  refine ⟨hiff, fun h => ⟨?_, countsOnce_of_normalized h⟩⟩
  obtain ⟨hold, hlearn⟩ := hiff.mp h
  exact fromProto_eq_normalize hold hlearn

/-- An old voter that arrives twice is counted twice: with 4, 4 and 5 as the old voters, node 4 is a
majority of the old half by itself. -/
theorem repeated_old_voter_counted_twice :
    let p : PbConfiguration := { voters := [1, 2, 3], oldVoters := [4, 4, 5] }
    let granted : NodeID → Bool := fun v => v = 1 || v = 2 || v = 4
    ¬ (configurationFromProto (some p)).Normalized ∧
      configurationFromProto (some p) ≠ p.decoded.normalize ∧
      (configurationFromProto (some p)).hasQuorum granted = true ∧
      ¬ MajorityOf p.oldVoters.toFinset granted ∧
      p.decoded.normalize.hasQuorum granted = false ∧
      (configurationFromProto (some p)).committedIndex (fun v => if granted v then 7 else 0) = 7 ∧
      p.decoded.normalize.committedIndex (fun v => if granted v then 7 else 0) = 0 := by
  refine ⟨fun h => ?_, by decide, by decide, by decide, by decide, by decide, by decide⟩
  exact absurd h.oldVoters (by decide)

end RaftStore.Codec
