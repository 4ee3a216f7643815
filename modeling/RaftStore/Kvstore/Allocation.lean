import RaftStore.Raft.ConfChange
import RaftStore.Kvstore.Store

/-! What the decoders ask the runtime for.  A decoder that reads a count makes room for that many
elements before it has read the first of them.  The decoders are given again here with the requests
that they make and with the panic of the runtime; apart from that they do what the decoders without
memory do. -/

namespace RaftStore.Allocation

open Lib Raft Kvstore

/-- Room that is asked for up front, and the number of bytes of the input that are unread by then.
-/
structure Request where
  capacity : ℕ
  unread : ℕ
  deriving DecidableEq, Repr

/-- The input may still hold as many elements as room was asked for. -/
def Request.Covered (r : Request) : Prop := r.capacity ≤ r.unread

/-- How a decoder ends without a value.  Where memory is wanting the whole process ends. -/
inductive Stop
  | error (e : Error)
  | panic (text : String)
  | outOfMemory

/-- A decoder, with the requests that it has made as its state. -/
abbrev Decoder := EStateM Stop (List Request)

/-- What the runtime has to give.  A slice of more than `maxAlloc` bytes is refused.  `mapRoom` is the
number of bytes that it sets aside for a map of so many pairs, none where it drops the hint. -/
structure Runtime where
  maxAlloc : ℕ
  memory : ℕ
  mapRoom : ℕ → ℕ
  memory_le : memory ≤ maxAlloc
  mapRoom_le : ∀ n, mapRoom n ≤ 94 * n

def request (capacity : UInt64) (unread : List UInt8) : Decoder Unit :=
  modify (· ++ [⟨capacity.toNat, unread.length⟩])

def ofExcept {α : Type} : Except Error α → Decoder α
  | .ok a => pure a
  | .error e => throw (.error e)

section

variable (R : Runtime)

/-- The source's `make([]NodeID, 0, count)`.  An id takes eight bytes. -/
def makeIDs (count : UInt64) (unread : List UInt8) : Decoder Unit := do
  request count unread
  if R.maxAlloc < 8 * count.toNat then throw (.panic "runtime error: makeslice: cap out of range")
  else if R.memory < 8 * count.toNat then throw .outOfMemory

def readIDs (b : List UInt8) (what : String) : Decoder (List NodeID × List UInt8) :=
  match uvarint b with
  | none => throw (.error ⟨s!"raft: truncated {what} count", []⟩)
  | some (count, b) =>
    if count = 0 then pure ([], b)
    else do
      makeIDs R count b
      ofExcept (readList what count.toNat b)

def decodeConfChange (b : List UInt8) : Decoder ConfChange :=
  match b with
  | [] => throw (.error ⟨"raft: empty configuration change", []⟩)
  | kind :: rest => do
    let voters ← readIDs R rest "voters"
    let oldVoters ← readIDs R voters.2 "old voters"
    let learners ← readIDs R oldVoters.2 "learners"
    pure ⟨kind, (Configuration.mk voters.1 oldVoters.1 learners.1).normalize⟩

/-- The source's `make(map[string][]byte, count)`.  The count is a hint: it does not make the runtime
panic, but what it sets aside has to be there. -/
def makeMap (count : UInt64) (unread : List UInt8) : Decoder Unit := do
  request count unread
  if R.memory < R.mapRoom count.toNat then throw .outOfMemory

def decodeMap (b : Bytes) : Decoder Map :=
  match uvarint b with
  | none => throw (.error ⟨"kvstore: truncated snapshot header", []⟩)
  | some (count, rest) => do
    makeMap R count rest
    ofExcept (readPairs ∅ count.toNat rest)

def restore (s : Store) (data : Bytes) (appliedIndex : ℕ) : Decoder Store := do
  let m ← decodeMap R data
  pure { s with data := m, applied := appliedIndex }

end

/-! ### What is read was there -/

/-- Every id takes at least a byte. -/
theorem readList_covered {what : String} {count : ℕ} {b rest : List UInt8} {ids : List NodeID}
    (h : readList what count b = .ok (ids, rest)) : count + rest.length ≤ b.length := by
  induction count generalizing b ids with
  | zero =>
    cases h
    exact (Nat.zero_add _).le
  | succ count ih =>
    rw [readList] at h
    split at h
    · cases h
    · rename_i hid
      split at h
      · cases h
      · rename_i hrest
        cases h
        have := ih hrest
        have := uvarint_length hid
        omega

theorem readBytes_shorter {b value rest : Bytes} {what : String}
    (h : readBytes b what = .ok (value, rest)) : rest.length < b.length := by
  rw [readBytes] at h
  split at h
  · cases h
  · rename_i hlen
    dsimp only at h
    split at h
    · cases h
    · cases h
      have := uvarint_length hlen
      rw [List.length_drop]
      omega

/-- Every pair takes at least two bytes. -/
theorem readPairs_covered {m m' : Map} {count : ℕ} {b : Bytes} (h : readPairs m count b = .ok m') :
    count ≤ b.length := by
  induction count generalizing m b with
  | zero => exact Nat.zero_le _
  | succ count ih =>
    rw [readPairs] at h
    split at h
    · cases h
    · rename_i hkey
      split at h
      · cases h
      · rename_i hvalue
        have := ih h
        have := readBytes_shorter hkey
        have := readBytes_shorter hvalue
        omega

/-! ### Counts -/

/-- The count at the head of the bytes claims no more elements than there are bytes behind it. -/
def Honest (b : List UInt8) : Prop := ∀ x ∈ uvarint b, x.1.toNat ≤ x.2.length

instance : DecidablePred Honest := fun b =>
  inferInstanceAs (Decidable (∀ x ∈ uvarint b, x.1.toNat ≤ x.2.length))

theorem honest_of_none {b : List UInt8} (h : uvarint b = none) : Honest b ↔ True := by
  simp [Honest, h]

theorem honest_of_some {b rest : List UInt8} {count : UInt64} (h : uvarint b = some (count, rest)) :
    Honest b ↔ count.toNat ≤ rest.length := by
  simp [Honest, h]

/-- The number of voters is honest; so is the number of old voters if the voters can be read, and the
number of learners if both can. -/
def HonestChange : List UInt8 → Prop
  | [] => True
  | _ :: rest => Honest rest ∧ ∀ x, Raft.readIDs rest "voters" = .ok x →
      Honest x.2 ∧ ∀ y, Raft.readIDs x.2 "old voters" = .ok y → Honest y.2

/-- The decoder returns the value or the error of `result`, and everything that it asked for is
covered. -/
def Sound {α : Type} (x : Decoder α) (reqs : List Request) (result : Except Error α) : Prop :=
  Meets x reqs (fun a reqs' => result = .ok a ∧ ∀ r ∈ reqs', r.Covered)
    fun f reqs' => (∃ e, f = .error e ∧ result = .error e) ∧ ∀ r ∈ reqs', r.Covered

/-- The decoder has no value to return, and has asked for something that is not covered. -/
def Unsound {α : Type} (x : Decoder α) (reqs : List Request) : Prop :=
  Meets x reqs (fun _ _ => False) fun _ reqs' => ∃ r ∈ reqs', ¬r.Covered

/-- The decoder does what `result` says if the counts are `honest`, and asks for too much if not. -/
def Decodes {α : Type} (x : Decoder α) (result : Except Error α) (honest : Prop) : Prop :=
  ∀ reqs, (∀ r ∈ reqs, r.Covered) → (honest → Sound x reqs result) ∧ (¬honest → Unsound x reqs)

theorem Unsound.not_sound {α : Type} {x : Decoder α} {reqs : List Request} {result : Except Error α}
    (h : Unsound x reqs) : ¬Sound x reqs result := by
  intro hsound
  cases hx : x reqs with
  | ok a reqs' => exact h.ok hx
  | error f reqs' =>
    obtain ⟨r, hr, hover⟩ := h.error hx
    exact hover ((hsound.error hx).2 r hr)

namespace Decodes

variable {α β : Type} {honest : Prop} {result : Except Error α}

theorem sound_iff {x : Decoder α} (h : Decodes x result honest) : Sound x [] result ↔ honest := by
  obtain ⟨hs, hu⟩ := h [] (List.forall_mem_nil _)
  exact ⟨fun hsound => by_contra fun hno => (hu hno).not_sound hsound, hs⟩

theorem pure (a : α) : Decodes (pure a) (.ok a) True := by
  refine fun reqs hreqs => ⟨fun _ => ?_, fun h => (h trivial).elim⟩
  rw [Sound, meets_pure]
  exact ⟨rfl, hreqs⟩

theorem throw (e : Error) : Decodes (throw (.error e) : Decoder α) (.error e) True := by
  refine fun reqs hreqs => ⟨fun _ => ?_, fun h => (h trivial).elim⟩
  rw [Sound, meets_throw]
  exact ⟨⟨e, rfl, rfl⟩, hreqs⟩

/-- A second count is met only if what precedes it can be read. -/
theorem bind {x : Decoder α} {f : α → Decoder β} {next : α → Except Error β} {honest' : α → Prop}
    (hx : Decodes x result honest) (hf : ∀ a, result = .ok a → Decodes (f a) (next a) (honest' a)) :
    Decodes (x >>= f) (result.bind next) (honest ∧ ∀ a, result = .ok a → honest' a) := by
  intro reqs hreqs
  obtain ⟨hs, hu⟩ := hx reqs hreqs
  constructor
  · rintro ⟨hh, hh'⟩
    refine Meets.bind (Meets.mono (hs hh) (fun a reqs' h => ?_) fun g reqs' h => ?_)
    · rw [h.1]
      exact (hf a h.1 reqs' h.2).1 (hh' a h.1)
    · obtain ⟨⟨e, hg, he⟩, hcov⟩ := h
      exact ⟨⟨e, hg, by rw [he]; rfl⟩, hcov⟩
  · intro hno
    by_cases hh : honest
    · have hno' : ¬∀ a, result = .ok a → honest' a := fun h => hno ⟨hh, h⟩
      push Not at hno'
      obtain ⟨a, ha, hdis⟩ := hno'
      refine Meets.bind (Meets.mono (hs hh) (fun a' reqs' h => ?_) fun g reqs' h => ?_)
      · obtain rfl : a = a' := Except.ok.inj (ha.symm.trans h.1)
        exact (hf a ha reqs' h.2).2 hdis
      · obtain ⟨⟨e, -, he⟩, -⟩ := h
        rw [ha] at he
        cases he
    · exact Meets.bind (Meets.mono (hu hh) (fun _ _ h => h.elim) fun _ _ h => h)

/-- Elements are read after a request for as many as the count claims.  Where the count is honest the
runtime has what is asked for; where it is not, the elements cannot all be there. -/
theorem requested {count : UInt64} {rest : List UInt8} {room : Decoder Unit}
    (hroom : ∀ reqs, count.toNat ≤ rest.length → room reqs = .ok () reqs)
    (hkeep : ∀ reqs, Meets room reqs (fun _ reqs' => reqs' = reqs) fun _ reqs' => reqs' = reqs)
    (hread : ∀ a, result = .ok a → count.toNat ≤ rest.length) :
    Decodes (do request count rest; room; ofExcept result) result (count.toNat ≤ rest.length) := by
  intro reqs hreqs
  constructor
  · intro hle
    have hcov : ∀ r ∈ reqs ++ [⟨count.toNat, rest.length⟩], Request.Covered r := by
      intro r hr
      rcases List.mem_append.mp hr with hr | hr
      · exact hreqs r hr
      · rw [List.mem_singleton.mp hr]
        exact hle
    rw [Sound, meets_bind, request, meets_modify, meets_bind]
    refine meets_of_ok (hroom _ hle) ?_
    cases result with
    | error e => exact ⟨⟨e, rfl, rfl⟩, hcov⟩
    | ok a => exact ⟨rfl, hcov⟩
  · intro hover
    have huncov : ∃ r ∈ reqs ++ [⟨count.toNat, rest.length⟩], ¬Request.Covered r :=
      ⟨_, List.mem_append_right _ List.mem_cons_self, hover⟩
    rw [Unsound, meets_bind, request, meets_modify, meets_bind]
    refine Meets.mono (hkeep _) (fun _ reqs' h => ?_) fun _ reqs' h => ?_
    · subst h
      cases result with
      | error e => exact huncov
      | ok a => exact (hover (hread a rfl)).elim
    · subst h
      exact huncov

end Decodes

/-! ### Configuration changes -/

section

variable {R : Runtime}

theorem decodes_readIDs {b : List UInt8} (hb : 8 * b.length ≤ R.memory) (what : String) :
    Decodes (readIDs R b what) (Raft.readIDs b what) (Honest b) := by
  rw [readIDs, Raft.readIDs]
  cases hcount : uvarint b with
  | none =>
    rw [honest_of_none hcount]
    exact .throw _
  | some x =>
    obtain ⟨count, rest⟩ := x
    rw [honest_of_some hcount]
    have hshort := uvarint_length hcount
    have hmem := R.memory_le
    dsimp only
    by_cases hzero : count = 0
    · rw [if_pos hzero, hzero]
      refine fun reqs hreqs => ⟨fun _ => ((Decodes.pure _) reqs hreqs).1 trivial, fun h => ?_⟩
      exact (h (Nat.zero_le _)).elim
    · rw [if_neg hzero]
      simp only [makeIDs, bind_assoc]
      refine .requested (fun reqs hle => ?_) (fun reqs => ?_)
        fun y hy => (Nat.le_add_right _ _).trans (readList_covered hy)
      · rw [if_neg (by omega), if_neg (by omega)]
        rfl
      · split
        · exact rfl
        · split
          · exact rfl
          · exact rfl

theorem readIDs_shorter {b rest : List UInt8} {what : String} {ids : List NodeID}
    (h : Raft.readIDs b what = .ok (ids, rest)) : rest.length ≤ b.length := by
  rw [Raft.readIDs] at h
  split at h
  · cases h
  · rename_i hcount
    have := uvarint_length hcount
    have := readList_covered h
    omega

theorem decodes_confChange {b : List UInt8} (hb : 8 * b.length ≤ R.memory) :
    Decodes (decodeConfChange R b) (ConfChange.decode b) (HonestChange b) := by
  cases b with
  | nil => exact .throw _
  | cons kind rest =>
    have hsplit : ConfChange.decode (kind :: rest) =
        (Raft.readIDs rest "voters").bind fun x => (Raft.readIDs x.2 "old voters").bind fun y =>
          (Raft.readIDs y.2 "learners").bind fun z =>
            .ok ⟨kind, (Configuration.mk x.1 y.1 z.1).normalize⟩ := by
      simp only [ConfChange.decode]
      cases Raft.readIDs rest "voters" with
      | error e => rfl
      | ok x =>
        dsimp only [Except.bind]
        cases Raft.readIDs x.2 "old voters" with
        | error e => rfl
        | ok y =>
          dsimp only
          cases Raft.readIDs y.2 "learners" <;> rfl
    have hhonest : HonestChange (kind :: rest) ↔ Honest rest ∧
        ∀ x, Raft.readIDs rest "voters" = .ok x → Honest x.2 ∧
          ∀ y, Raft.readIDs x.2 "old voters" = .ok y → Honest y.2 ∧
            ∀ z, Raft.readIDs y.2 "learners" = .ok z → True := by
      simp [HonestChange]
    rw [hsplit, hhonest]
    rw [List.length_cons] at hb
    have hrest : 8 * rest.length ≤ R.memory := by omega
    refine (decodes_readIDs hrest "voters").bind fun x hx => ?_
    have hx := (Nat.mul_le_mul_left 8 (readIDs_shorter hx)).trans hrest
    refine (decodes_readIDs hx "old voters").bind fun y hy => ?_
    have hy := (Nat.mul_le_mul_left 8 (readIDs_shorter hy)).trans hx
    exact (decodes_readIDs hy "learners").bind fun z _ => .pure _

/-! ### Snapshots -/

theorem decodes_map {b : Bytes} (hb : 94 * b.length ≤ R.memory) :
    Decodes (decodeMap R b) (Kvstore.decodeMap b) (Honest b) := by
  rw [decodeMap, Kvstore.decodeMap]
  cases hcount : uvarint b with
  | none =>
    rw [honest_of_none hcount]
    exact .throw _
  | some x =>
    obtain ⟨count, rest⟩ := x
    rw [honest_of_some hcount]
    have hshort := uvarint_length hcount
    have hroom := R.mapRoom_le count.toNat
    simp only [makeMap, bind_assoc]
    refine .requested (fun reqs hle => ?_) (fun reqs => ?_) fun m hm => readPairs_covered hm
    · rw [if_neg (by omega)]
      rfl
    · split
      · exact rfl
      · exact rfl

theorem decodes_restore {b : Bytes} (hb : 94 * b.length ≤ R.memory) (s : Store) (appliedIndex : ℕ) :
    Decodes (restore R s b appliedIndex) (s.restore b appliedIndex) (Honest b) := by
  have hsplit : s.restore b appliedIndex = (Kvstore.decodeMap b).bind fun m =>
      .ok { s with data := m, applied := appliedIndex } := by
    rw [Store.restore]
    cases Kvstore.decodeMap b <;> rfl
  have hhonest : Honest b ↔ Honest b ∧ ∀ m, Kvstore.decodeMap b = .ok m → True := by simp
  rw [hsplit, hhonest]
  exact (decodes_map hb).bind fun m _ => .pure _

end

/-- For an input that is small against the memory, a decoder returns what it should and asks for no
more than the bytes that are left, exactly when no count that it meets claims more elements than
there are bytes behind it. -/
theorem decoders_sound_iff (R : Runtime) (b : List UInt8) (hb : 94 * b.length ≤ R.memory) :
    (Sound (decodeConfChange R b) [] (ConfChange.decode b) ↔ HonestChange b) ∧
      (Sound (decodeMap R b) [] (Kvstore.decodeMap b) ↔ Honest b) ∧
      ∀ (s : Store) (appliedIndex : ℕ),
        Sound (restore R s b appliedIndex) [] (s.restore b appliedIndex) ↔ Honest b :=
  ⟨(decodes_confChange (by omega)).sound_iff, (decodes_map hb).sound_iff,
    fun s i => (decodes_restore hb s i).sound_iff⟩

/-- The room for a map of `n` pairs in Go 1.25: slots to a power of two, eight sevenths of the pairs at
least, in groups of eight that take 328 bytes.  A hint is dropped where 328 bytes for each slot
would be beyond 2 ^ 48. -/
def mapRoom (n : ℕ) : ℕ :=
  let slots := 2 ^ ((8 * n / 7 - 1).log2 + 1)
  if n ≤ 8 ∨ 2 ^ 48 < 328 * slots then 0 else 41 * slots

theorem mapRoom_le (n : ℕ) : mapRoom n ≤ 94 * n := by
  rw [mapRoom]
  split
  · exact Nat.zero_le _
  · rename_i h
    have hlog : 2 ^ (8 * n / 7 - 1).log2 ≤ 8 * n / 7 - 1 := Nat.log2_self_le (by omega)
    rw [Nat.pow_succ]
    omega

/-- A 64-bit machine with a tebibyte of memory. -/
def machine : Runtime where
  maxAlloc := 2 ^ 48
  memory := 2 ^ 40
  mapRoom
  memory_le := by decide
  mapRoom_le

/-- A change from two voters to three, and a map of two keys; both decoders return them. -/
theorem decoders_sound_honest :
    Sound (decodeConfChange machine [1, 3, 1, 2, 3, 2, 1, 2, 0]) []
        (.ok ⟨1, ⟨[1, 2, 3], [1, 2], []⟩⟩) ∧
      Sound (decodeMap machine [2, 1, 97, 1, 120, 1, 98, 2, 121, 122]) []
        (.ok ((∅ : Map).insert [97] [120] |>.insert [98] [121, 122])) := by
  have hchange : HonestChange [1, 3, 1, 2, 3, 2, 1, 2, 0] := by
    refine ⟨by decide, fun x hx => ?_⟩
    cases hx
    refine ⟨by decide, fun y hy => ?_⟩
    cases hy
    decide
  have hmap : Honest [2, 1, 97, 1, 120, 1, 98, 2, 121, 122] := by decide
  exact ⟨(decoders_sound_iff machine _ (by decide)).1.mpr hchange,
    (decoders_sound_iff machine _ (by decide)).2.1.mpr hmap⟩

/-- Counts that no input could meet are believed.  Eleven bytes that claim 2 ^ 63 voters make the
runtime panic, and six bytes of a snapshot that claim 2 ^ 36 keys end the process. -/
theorem hostile_counts_believed :
    decodeConfChange machine [0, 128, 128, 128, 128, 128, 128, 128, 128, 128, 1] [] =
      .error (.panic "runtime error: makeslice: cap out of range") [⟨2 ^ 63, 0⟩] ∧
    ∀ s appliedIndex, restore machine s [128, 128, 128, 128, 128, 2] appliedIndex [] =
      .error .outOfMemory [⟨2 ^ 36, 0⟩] :=
  ⟨by rfl, fun _ _ => by rfl⟩

end RaftStore.Allocation
