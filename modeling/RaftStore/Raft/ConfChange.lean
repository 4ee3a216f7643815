import RaftStore.Raft.Configuration
import RaftStore.Lib.Uvarint
import RaftStore.Lib.Prog

/-! The bytes of a configuration change, as a log entry carries it. -/

namespace RaftStore.Raft

open Lib

def appendIDs (dst : List UInt8) (ids : List NodeID) : List UInt8 :=
  ids.foldl (fun dst id => appendUvarint dst id) (appendUvarint dst (UInt64.ofNat ids.length))

/-- Reads `count` ids. -/
def readList (what : String) : ℕ → List UInt8 → Except Error (List NodeID × List UInt8)
  | 0, b => .ok ([], b)
  | count + 1, b =>
    match uvarint b with
    | none => .error ⟨s!"raft: truncated {what} list", []⟩
    | some (id, b) =>
      match readList what count b with
      | .error e => .error e
      | .ok (ids, b) => .ok (id :: ids, b)

def readIDs (b : List UInt8) (what : String) : Except Error (List NodeID × List UInt8) :=
  match uvarint b with
  | none => .error ⟨s!"raft: truncated {what} count", []⟩
  | some (count, b) => readList what count.toNat b

namespace ConfChange

def encode (cc : ConfChange) : List UInt8 :=
  appendIDs (appendIDs (appendIDs [cc.kind] cc.config.voters) cc.config.oldVoters)
    cc.config.learners

def decode (b : List UInt8) : Except Error ConfChange :=
  match b with
  | [] => .error ⟨"raft: empty configuration change", []⟩
  | kind :: rest =>
    match readIDs rest "voters" with
    | .error e => .error e
    | .ok (voters, rest) =>
      match readIDs rest "old voters" with
      | .error e => .error e
      | .ok (oldVoters, rest) =>
        match readIDs rest "learners" with
        | .error e => .error e
        | .ok (learners, _) =>
          .ok { kind, config := { voters, oldVoters, learners : Configuration }.normalize }

end ConfChange

/-! ### Round trip -/

theorem foldl_appendUvarint (ids : List NodeID) (b : List UInt8) :
    ids.foldl (fun dst id => appendUvarint dst id) b = b ++ ids.flatMap (appendUvarint []) := by
  induction ids generalizing b with
  | nil => simp
  | cons id ids ih =>
    rw [List.foldl_cons, ih, appendUvarint_eq, List.flatMap_cons, List.append_assoc]

theorem appendIDs_nil (ids : List NodeID) : appendIDs [] ids =
    appendUvarint [] (UInt64.ofNat ids.length) ++ ids.flatMap (appendUvarint []) := by
  rw [appendIDs, foldl_appendUvarint]

theorem appendIDs_eq (dst : List UInt8) (ids : List NodeID) :
    appendIDs dst ids = dst ++ appendIDs [] ids := by
  rw [appendIDs_nil, appendIDs, foldl_appendUvarint, appendUvarint_eq dst, List.append_assoc]

theorem toOption_readList_succ (what : String) (count : ℕ) (b : List UInt8) :
    (readList what (count + 1) b).toOption = (uvarint b).bind fun x =>
      (readList what count x.2).toOption.map fun y => (x.1 :: y.1, y.2) := by
  rw [readList]
  cases uvarint b with
  | none => rfl
  | some x =>
    obtain ⟨id, b⟩ := x
    dsimp only [Option.bind_some]
    cases readList what count b <;> rfl

theorem readList_delimited (what : String) (ids : List NodeID) :
    Delimited (fun b => (readList what ids.length b).toOption) (ids.flatMap (appendUvarint []))
      fun rest => (ids, rest) := by
  induction ids with
  | nil => exact .nil fun rest => ([], rest)
  | cons id ids ih =>
    rw [List.flatMap_cons]
    refine ((uvarint_delimited id).bind (fun id b =>
      (readList what ids.length b).toOption.map fun y => (id :: y.1, y.2)) ?_).congr
        (toOption_readList_succ what ids.length)
    exact ih.map fun y => (id :: y.1, y.2)

theorem readIDs_delimited (what : String) {ids : List NodeID} (h : ids.length < 2 ^ 64) :
    Delimited (fun b => (readIDs b what).toOption) (appendIDs [] ids) fun rest => (ids, rest) := by
  have hlen : (UInt64.ofNat ids.length).toNat = ids.length := UInt64.toNat_ofNat_of_lt' h
  rw [appendIDs_nil]
  refine ((uvarint_delimited _).bind (fun count b => (readList what count.toNat b).toOption)
    ?_).congr fun b => ?_
  · rw [hlen]
    exact readList_delimited what ids
  · rw [readIDs]
    cases uvarint b with
    | none => rfl
    | some x => rfl

/-- Every list of members can be counted in a word. -/
structure Configuration.Sized (c : Configuration) : Prop where
  voters : c.voters.length < 2 ^ 64
  oldVoters : c.oldVoters.length < 2 ^ 64
  learners : c.learners.length < 2 ^ 64

instance (c : Configuration) : Decidable c.Sized :=
  decidable_of_iff (c.voters.length < 2 ^ 64 ∧ c.oldVoters.length < 2 ^ 64 ∧
    c.learners.length < 2 ^ 64) ⟨fun h => ⟨h.1, h.2.1, h.2.2⟩, fun h => ⟨h.1, h.2, h.3⟩⟩

theorem Configuration.Sized.normalize {c : Configuration} (h : c.Sized) : c.normalize.Sized where
  voters := (sortedUnique_length_le _).trans_lt h.voters
  oldVoters := (sortedUnique_length_le _).trans_lt h.oldVoters
  learners := (List.length_filter_le _ _).trans_lt
    ((sortedUnique_length_le _).trans_lt h.learners)

theorem ConfChange.encode_eq (cc : ConfChange) : cc.encode = cc.kind ::
    (appendIDs [] cc.config.voters ++
      (appendIDs [] cc.config.oldVoters ++ appendIDs [] cc.config.learners)) := by
  rw [encode, appendIDs_eq _ cc.config.learners, appendIDs_eq _ cc.config.oldVoters,
    appendIDs_eq _ cc.config.voters]
  simp only [List.cons_append, List.nil_append, List.append_assoc]

theorem ConfChange.toOption_decode_cons (kind : UInt8) (b : List UInt8) :
    (decode (kind :: b)).toOption = (readIDs b "voters").toOption.bind fun x =>
      (readIDs x.2 "old voters").toOption.bind fun y =>
        (readIDs y.2 "learners").toOption.map fun z =>
          ⟨kind, (Configuration.mk x.1 y.1 z.1).normalize⟩ := by
  simp only [decode]
  cases readIDs b "voters" with
  | error e => rfl
  | ok x =>
    obtain ⟨voters, b⟩ := x
    dsimp only [Except.toOption, Option.bind_some]
    cases readIDs b "old voters" with
    | error e => rfl
    | ok y =>
      obtain ⟨oldVoters, b⟩ := y
      dsimp only [Except.toOption, Option.bind_some]
      cases readIDs b "learners" <;> rfl

/-- The bytes of a change say where it ends. -/
theorem ConfChange.delimited (cc : ConfChange) (h : cc.config.Sized) :
    Delimited (fun b => (decode b).toOption) cc.encode
      fun _ => { cc with config := cc.config.normalize } := by
  rw [encode_eq]
  refine Delimited.cons ?_ rfl (toOption_decode_cons cc.kind)
  refine (readIDs_delimited "voters" h.voters).bind (fun voters b =>
    (readIDs b "old voters").toOption.bind fun y => (readIDs y.2 "learners").toOption.map fun z =>
      ConfChange.mk cc.kind (Configuration.mk voters y.1 z.1).normalize) ?_
  refine (readIDs_delimited "old voters" h.oldVoters).bind (fun oldVoters b =>
    (readIDs b "learners").toOption.map fun z =>
      ConfChange.mk cc.kind (Configuration.mk cc.config.voters oldVoters z.1).normalize) ?_
  exact (readIDs_delimited "learners" h.learners).map fun z =>
    ConfChange.mk cc.kind (Configuration.mk cc.config.voters cc.config.oldVoters z.1).normalize

/-- A change reads back as what was written, with its configuration in normal form. -/
theorem ConfChange.decode_encode (cc : ConfChange) (h : cc.config.Sized) :
    decode cc.encode = .ok { cc with config := cc.config.normalize } :=
  eq_ok_of_toOption (cc.delimited h).exact

/-- A membership that goes through the log comes out normalized, and whole or not at all.  A list of
the source has a length that an int holds, so its count is a word. -/
theorem confChange_survives_log (cc : ConfChange) (h : cc.config.Sized) :
    ConfChange.decode cc.encode = .ok { cc with config := cc.config.normalize } ∧
      (cc.config.Normalized → ConfChange.decode cc.encode = .ok cc) ∧
      ∀ start, start <+: cc.encode → start ≠ cc.encode →
        ∃ e, ConfChange.decode start = .error e := by
  refine ⟨cc.decode_encode h, fun hn => ?_, fun start hs hne => ?_⟩
  · rw [cc.decode_encode h, hn.normalize_eq]
  · exact exists_error_of_toOption ((cc.delimited h).cut start hs hne)

/-- A joint change with a learner, cut inside the three bytes of its last id. -/
theorem confChange_survives_log_joint :
    let cc : ConfChange := { kind := 1, config := ⟨[1, 2, 4], [1, 2, 3], [70000]⟩ }
    ConfChange.decode cc.encode = .ok cc ∧ ∃ e, ConfChange.decode (cc.encode.take 12) = .error e := by
  intro cc
  obtain ⟨-, hsame, hcut⟩ := confChange_survives_log cc (by decide)
  refine ⟨hsame ⟨by decide, by decide, by decide, List.forall_mem_singleton.mpr (by decide)⟩, ?_⟩
  exact hcut _ ⟨_, List.take_append_drop 12 _⟩ (by decide)

theorem readList_length {what : String} {count : ℕ} {b rest : List UInt8} {ids : List NodeID}
    (h : readList what count b = .ok (ids, rest)) : ids.length = count := by
  induction count generalizing b ids with
  | zero =>
    cases h
    rfl
  | succ count ih =>
    rw [readList] at h
    split at h
    · exact nomatch h
    · split at h
      · exact nomatch h
      · rename_i hrest
        cases h
        rw [List.length_cons, ih hrest]

theorem readIDs_length {what : String} {b rest : List UInt8} {ids : List NodeID}
    (h : readIDs b what = .ok (ids, rest)) : ids.length < 2 ^ 64 := by
  rw [readIDs] at h
  split at h
  · exact nomatch h
  · rename_i count _ _
    rw [readList_length h]
    exact count.toNat_lt

/-- What can be read was counted in words. -/
theorem ConfChange.sized_of_decode {b : List UInt8} {cc : ConfChange} (h : decode b = .ok cc) :
    cc.config.Sized := by
  unfold decode at h
  split at h
  · exact nomatch h
  · split at h
    · exact nomatch h
    · rename_i h1
      split at h
      · exact nomatch h
      · rename_i h2
        split at h
        · exact nomatch h
        · rename_i h3
          cases h
          exact Configuration.Sized.normalize
            ⟨readIDs_length h1, readIDs_length h2, readIDs_length h3⟩

/-- What a decoded change carries is in normal form. -/
theorem ConfChange.normalized_of_decode {b : List UInt8} {cc : ConfChange}
    (h : decode b = .ok cc) : cc.config.Normalized := by
  unfold decode at h
  split at h
  · exact nomatch h
  · split at h
    · exact nomatch h
    · split at h
      · exact nomatch h
      · split at h
        · exact nomatch h
        · cases h
          exact Configuration.normalize_normalized _

end RaftStore.Raft
