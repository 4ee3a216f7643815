import RaftStore.Raft.Types
import RaftStore.Lib.Cursor
import RaftStore.Lib.Prog
import RaftStore.Lib.Uvarint

/-! The bytes of commands and of snapshots of the key/value map. -/

namespace RaftStore.Kvstore

open Lib Raft

abbrev Bytes := List UInt8

/-- What a command does.  Every byte is an operation; only two of them are known. -/
inductive Op
  | set
  | delete
  | unknown (byte : UInt8)
  deriving DecidableEq, Repr

def Op.ofByte (b : UInt8) : Op := if b = 0 then .set else if b = 1 then .delete else .unknown b

def Op.toByte : Op → UInt8
  | .set => 0
  | .delete => 1
  | .unknown b => b

/-- One mutation, as it travels through the log. -/
structure Command where
  op : Op
  key : Bytes
  value : Bytes := []
  clientID : UInt64 := 0
  sequence : UInt64 := 0
  deriving DecidableEq, Repr

def maxKeyLen : ℕ := 2 ^ 20

def maxValueLen : ℕ := 16 * 2 ^ 20

def appendBytes (dst b : Bytes) : Bytes := appendUvarint dst (UInt64.ofNat b.length) ++ b

def readBytes (b : Bytes) (what : String) : Except Error (Bytes × Bytes) :=
  match uvarint b with
  | none => .error ⟨s!"kvstore: truncated length reading {what}", []⟩
  | some (n, b) =>
    let remain := b.length
    if remain < n.toNat then .error ⟨s!"kvstore: {what} claims {n} bytes, {remain} remain", []⟩
    else .ok (b.take n.toNat, b.drop n.toNat)

def encodeCommand (cmd : Command) : Except Error Bytes :=
  let keyLen := cmd.key.length
  let valueLen := cmd.value.length
  if keyLen = 0 then .error ⟨"kvstore: key must not be empty", []⟩
  else if maxKeyLen < keyLen then
    .error ⟨s!"kvstore: key is {keyLen} bytes, limit is {maxKeyLen}", []⟩
  else if maxValueLen < valueLen then
    .error ⟨s!"kvstore: value is {valueLen} bytes, limit is {maxValueLen}", []⟩
  else
    let buf := appendUvarint [cmd.op.toByte] cmd.clientID
    let buf := appendUvarint buf cmd.sequence
    let buf := appendBytes buf cmd.key
    .ok (if cmd.op = .set then appendBytes buf cmd.value else buf)

def decodeCommand (b : Bytes) : Except Error Command :=
  match b with
  | [] => .error ⟨"kvstore: empty command", []⟩
  | op :: rest =>
    match uvarint rest with
    | none => .error ⟨"kvstore: truncated client id", []⟩
    | some (clientID, rest) =>
      match uvarint rest with
      | none => .error ⟨"kvstore: truncated sequence number", []⟩
      | some (sequence, rest) =>
        match readBytes rest "key" with
        | .error e => .error e
        | .ok (key, rest) =>
          if Op.ofByte op = .set then
            match readBytes rest "value" with
            | .error e => .error e
            | .ok (value, _) => .ok { op := .set, key, value, clientID, sequence }
          else .ok { op := Op.ofByte op, key, clientID, sequence }

/-- The key/value map, with its keys in the byte order that snapshots write them in. -/
abbrev Map := Std.ExtTreeMap Bytes Bytes

def appendPairs (dst : Bytes) (pairs : List (Bytes × Bytes)) : Bytes :=
  pairs.foldl (fun buf p => appendBytes (appendBytes buf p.1) p.2) dst

def encodeMap (m : Map) : Bytes := appendPairs (appendUvarint [] (UInt64.ofNat m.size)) m.toList

/-- The same image made as the source makes it, from the keys in the order in which the iteration of
the map happens to give them. -/
def encodeMapFrom (order : List Bytes) (m : Map) : Bytes :=
  let keys := order.insertionSort fun a b => (compare a b).isLE = true
  keys.foldl (fun buf k => appendBytes (appendBytes buf k) (m[k]?.getD []))
    (appendUvarint [] (UInt64.ofNat keys.length))

/-- Reads `count` pairs into the map. -/
def readPairs (m : Map) : ℕ → Bytes → Except Error Map
  | 0, _ => .ok m
  | count + 1, rest =>
    match readBytes rest "snapshot key" with
    | .error e => .error e
    | .ok (key, rest) =>
      match readBytes rest "snapshot value" with
      | .error e => .error e
      | .ok (value, rest) => readPairs (m.insert key value) count rest

def decodeMap (b : Bytes) : Except Error Map :=
  match uvarint b with
  | none => .error ⟨"kvstore: truncated snapshot header", []⟩
  | some (count, rest) => readPairs ∅ count.toNat rest

/-! ### Round trips -/

theorem Op.ofByte_toByte {op : Op} (h : ∀ b, op ≠ .unknown b) : ofByte op.toByte = op := by
  cases op with
  | set => rfl
  | delete => rfl
  | unknown b => exact absurd rfl (h b)

theorem appendBytes_eq (dst b : Bytes) : appendBytes dst b = dst ++ appendBytes [] b := by
  rw [appendBytes, appendUvarint_eq, List.append_assoc, appendBytes]

theorem readBytes_delimited {b : Bytes} (h : b.length < 2 ^ 64) (what : String) :
    Delimited (fun b => (readBytes b what).toOption) (appendBytes [] b) fun rest => (b, rest) := by
  have hlen : (UInt64.ofNat b.length).toNat = b.length := UInt64.toNat_ofNat_of_lt' h
  refine ((uvarint_delimited (UInt64.ofNat b.length)).bind (fun n b =>
    if b.length < n.toNat then none else some (b.take n.toNat, b.drop n.toNat)) ?_).congr fun b => ?_
  · exact .take hlen.symm
  · rw [readBytes]
    cases uvarint b with
    | none => rfl
    | some x =>
      obtain ⟨n, b⟩ := x
      dsimp only [Option.bind_some]
      split <;> rfl

theorem readBytes_append {b : Bytes} (h : b.length < 2 ^ 64) (rest : Bytes) (what : String) :
    readBytes (appendBytes [] b ++ rest) what = .ok (b, rest) :=
  eq_ok_of_toOption ((readBytes_delimited h what).whole rest)

/-- What was read is no longer than the 64-bit length before it can say. -/
theorem readBytes_length {b value rest : Bytes} {what : String}
    (h : readBytes b what = .ok (value, rest)) : value.length < 2 ^ 64 := by
  rw [readBytes] at h
  split at h
  · exact nomatch h
  · rename_i n b _
    dsimp only at h
    split at h
    · exact nomatch h
    · cases h
      exact (List.length_take_le _ _).trans_lt n.toNat_lt

/-- The limits that a command has to keep. -/
structure Command.Fits (cmd : Command) : Prop where
  key_pos : cmd.key ≠ []
  key_le : cmd.key.length ≤ maxKeyLen
  value_le : cmd.value.length ≤ maxValueLen

namespace Command.Fits

variable {cmd : Command}

theorem key_lt (h : cmd.Fits) : cmd.key.length < 2 ^ 64 := by
  have := h.key_le
  simp only [maxKeyLen] at this
  omega

theorem value_lt (h : cmd.Fits) : cmd.value.length < 2 ^ 64 := by
  have := h.value_le
  simp only [maxValueLen] at this
  omega

end Command.Fits

/-- What a command that keeps the limits is written as. -/
theorem encodeCommand_eq_ok_iff {cmd : Command} {b : Bytes} : encodeCommand cmd = .ok b ↔
    cmd.Fits ∧ b = cmd.op.toByte :: (appendUvarint [] cmd.clientID ++
      (appendUvarint [] cmd.sequence ++ (appendBytes [] cmd.key ++
        if cmd.op = .set then appendBytes [] cmd.value else []))) := by
  have hbytes : (if cmd.op = .set then
        appendBytes (appendBytes (appendUvarint (appendUvarint [cmd.op.toByte] cmd.clientID)
          cmd.sequence) cmd.key) cmd.value
      else appendBytes (appendUvarint (appendUvarint [cmd.op.toByte] cmd.clientID) cmd.sequence)
        cmd.key) =
      cmd.op.toByte :: (appendUvarint [] cmd.clientID ++ (appendUvarint [] cmd.sequence ++
        (appendBytes [] cmd.key ++ if cmd.op = .set then appendBytes [] cmd.value else []))) := by
    rw [appendUvarint_eq _ cmd.sequence, appendUvarint_eq _ cmd.clientID, appendBytes_eq _ cmd.key]
    split
    · rw [appendBytes_eq _ cmd.value]
      simp only [List.cons_append, List.nil_append, List.append_assoc]
    · simp only [List.cons_append, List.nil_append, List.append_assoc, List.append_nil]
  rw [← hbytes, encodeCommand]
  dsimp only
  split
  · rename_i hkey
    exact ⟨fun h => (by cases h), fun h => absurd (List.length_eq_zero_iff.mp hkey) h.1.key_pos⟩
  · rename_i hpos
    split
    · rename_i hkey
      exact ⟨fun h => (by cases h), fun h => absurd h.1.key_le (Nat.not_le.mpr hkey)⟩
    · rename_i hkey
      split
      · rename_i hvalue
        exact ⟨fun h => (by cases h), fun h => absurd h.1.value_le (Nat.not_le.mpr hvalue)⟩
      · rename_i hvalue
        have hfits : cmd.Fits := ⟨fun h => hpos (List.length_eq_zero_iff.mpr h),
          Nat.not_lt.mp hkey, Nat.not_lt.mp hvalue⟩
        constructor
        · rintro ⟨⟩
          exact ⟨hfits, rfl⟩
        · rintro ⟨-, rfl⟩
          rfl

theorem toOption_decodeCommand_cons (op : UInt8) (b : Bytes) :
    (decodeCommand (op :: b)).toOption = (uvarint b).bind fun x => (uvarint x.2).bind fun y =>
      (readBytes y.2 "key").toOption.bind fun z =>
        if Op.ofByte op = .set then
          (readBytes z.2 "value").toOption.map fun v => Command.mk .set z.1 v.1 x.1 y.1
        else some (Command.mk (Op.ofByte op) z.1 [] x.1 y.1) := by
  simp only [decodeCommand]
  cases uvarint b with
  | none => rfl
  | some x =>
    obtain ⟨clientID, b⟩ := x
    dsimp only [Option.bind_some]
    cases uvarint b with
    | none => rfl
    | some y =>
      obtain ⟨sequence, b⟩ := y
      dsimp only [Option.bind_some]
      cases readBytes b "key" with
      | error e => rfl
      | ok z =>
        obtain ⟨key, b⟩ := z
        have hkey : (Except.ok (key, b) : Except Error (Bytes × Bytes)).toOption = some (key, b) := rfl
        rw [hkey, Option.bind_some]
        dsimp only
        by_cases hset : Op.ofByte op = .set
        · rw [if_pos hset, if_pos hset]
          cases readBytes b "value" <;> rfl
        · rw [if_neg hset, if_neg hset]
          rfl

/-- A command as it comes out of the log: a deletion has no value. -/
def Command.logged (cmd : Command) : Command :=
  { cmd with value := if cmd.op = .set then cmd.value else [] }

/-- The bytes of a known command say where it ends. -/
theorem command_delimited {cmd : Command} {b : Bytes} (hop : ∀ byte, cmd.op ≠ .unknown byte)
    (h : encodeCommand cmd = .ok b) :
    Delimited (fun b => (decodeCommand b).toOption) b fun _ => cmd.logged := by
  obtain ⟨hfits, rfl⟩ := encodeCommand_eq_ok_iff.mp h
  have hbyte := Op.ofByte_toByte hop
  refine Delimited.cons ?_ rfl (toOption_decodeCommand_cons cmd.op.toByte)
  refine (uvarint_delimited cmd.clientID).bind (fun c b => (uvarint b).bind fun y =>
    (readBytes y.2 "key").toOption.bind fun z =>
      if Op.ofByte cmd.op.toByte = .set then
        (readBytes z.2 "value").toOption.map fun v => Command.mk .set z.1 v.1 c y.1
      else some (Command.mk (Op.ofByte cmd.op.toByte) z.1 [] c y.1)) ?_
  refine (uvarint_delimited cmd.sequence).bind (fun q b =>
    (readBytes b "key").toOption.bind fun z =>
      if Op.ofByte cmd.op.toByte = .set then
        (readBytes z.2 "value").toOption.map fun v => Command.mk .set z.1 v.1 cmd.clientID q
      else some (Command.mk (Op.ofByte cmd.op.toByte) z.1 [] cmd.clientID q)) ?_
  refine (readBytes_delimited hfits.key_lt "key").bind (fun k b =>
    if Op.ofByte cmd.op.toByte = .set then
      (readBytes b "value").toOption.map fun v => Command.mk .set k v.1 cmd.clientID cmd.sequence
    else some (Command.mk (Op.ofByte cmd.op.toByte) k [] cmd.clientID cmd.sequence)) ?_
  simp only [hbyte, Command.logged]
  -- A write has its value at the end, a deletion ends with its key.
  by_cases hset : cmd.op = .set
  · simp only [hset, if_true]
    exact (readBytes_delimited hfits.value_lt "value").map fun v =>
      Command.mk .set cmd.key v.1 cmd.clientID cmd.sequence
  · simp only [hset, if_false]
    exact .nil fun _ => Command.mk cmd.op cmd.key [] cmd.clientID cmd.sequence

/-- A known command reads back as it was written. -/
theorem decodeCommand_encodeCommand {cmd : Command} {b : Bytes}
    (hop : ∀ byte, cmd.op ≠ .unknown byte) (h : encodeCommand cmd = .ok b) :
    decodeCommand b = .ok cmd.logged :=
  eq_ok_of_toOption (command_delimited hop h).exact

/-- Two commands that do the same: they may differ in the value of a deletion. -/
structure Command.Same (a b : Command) : Prop where
  op : a.op = b.op
  clientID : a.clientID = b.clientID
  sequence : a.sequence = b.sequence
  key : a.key = b.key
  value : a.op = .set → a.value = b.value

theorem Command.same_logged (cmd : Command) : cmd.Same cmd.logged := by
  refine ⟨rfl, rfl, rfl, rfl, fun hset => ?_⟩
  rw [logged, if_pos hset]

theorem Command.same_of_logged_eq {a b : Command} (h : a.logged = b.logged) : a.Same b := by
  simp only [logged, Command.mk.injEq] at h
  obtain ⟨hop, hkey, hvalue, hclient, hseq⟩ := h
  refine ⟨hop, hclient, hseq, hkey, fun hset => ?_⟩
  rwa [if_pos hset, if_pos (hop ▸ hset)] at hvalue

/-- Commands go through the log unchanged: every write and every deletion within the limits has an
encoding, it reads back as the command, it does not read at all when it is cut, and it is not the
beginning of the encoding of anything else. -/
theorem commands_survive_log (cmd : Command) (hop : ∀ byte, cmd.op ≠ .unknown byte)
    (hfits : cmd.Fits) :
    ∃ b, encodeCommand cmd = .ok b ∧
      (∃ cmd', decodeCommand b = .ok cmd' ∧ cmd.Same cmd') ∧
      (∀ start, start <+: b → start ≠ b → ∃ e, decodeCommand start = .error e) ∧
      ∀ other b', (∀ byte, other.op ≠ .unknown byte) → encodeCommand other = .ok b' → b <+: b' →
        cmd.Same other := by
  have henc := encodeCommand_eq_ok_iff.mpr ⟨hfits, rfl⟩
  refine ⟨_, henc, ⟨_, decodeCommand_encodeCommand hop henc, cmd.same_logged⟩,
    fun start hs hne => ?_, fun other b' hop' henc' hp => ?_⟩
  · exact exists_error_of_toOption ((command_delimited hop henc).cut start hs hne)
  · obtain ⟨-, hsame⟩ := (command_delimited hop henc).eq_of_begins (command_delimited hop' henc') hp
    exact Command.same_of_logged_eq hsame

/-- A write of an empty value by client 300. -/
theorem commands_survive_log_empty :
    ∃ b, encodeCommand { op := .set, key := [107], clientID := 300, sequence := 1 } = .ok b ∧
      ∃ e, decodeCommand (b.take 4) = .error e := by
  obtain ⟨b, henc, -, hcut, -⟩ :=
    commands_survive_log { op := .set, key := [107], clientID := 300, sequence := 1 }
      (by rintro _ ⟨⟩) ⟨by decide, by decide, by decide⟩
  refine ⟨b, henc, hcut _ ⟨_, List.take_append_drop 4 b⟩ fun heq => ?_⟩
  obtain ⟨-, rfl⟩ := encodeCommand_eq_ok_iff.mp henc
  exact absurd heq (by decide)

/-- A command that was read has a key and a value that can be written again. -/
theorem decodeCommand_length {b : Bytes} {cmd : Command} (h : decodeCommand b = .ok cmd) :
    cmd.key.length < 2 ^ 64 ∧ cmd.value.length < 2 ^ 64 := by
  unfold decodeCommand at h
  split at h
  · exact nomatch h
  · split at h
    · exact nomatch h
    · split at h
      · exact nomatch h
      · split at h
        · exact nomatch h
        · rename_i hkey
          split at h
          · split at h
            · exact nomatch h
            · rename_i hvalue
              cases h
              exact ⟨readBytes_length hkey, readBytes_length hvalue⟩
          · cases h
            exact ⟨readBytes_length hkey, Nat.two_pow_pos 64⟩

theorem appendPairs_eq (dst : Bytes) (pairs : List (Bytes × Bytes)) :
    appendPairs dst pairs =
      dst ++ pairs.flatMap fun p => appendBytes [] p.1 ++ appendBytes [] p.2 := by
  induction pairs generalizing dst with
  | nil => simp [appendPairs]
  | cons p pairs ih =>
    rw [appendPairs, List.foldl_cons, ← appendPairs, ih, appendBytes_eq _ p.2, appendBytes_eq _ p.1,
      List.flatMap_cons]
    simp only [List.append_assoc]

theorem toOption_readPairs_succ (m : Map) (count : ℕ) (b : Bytes) :
    (readPairs m (count + 1) b).toOption = (readBytes b "snapshot key").toOption.bind fun x =>
      (readBytes x.2 "snapshot value").toOption.bind fun y =>
        (readPairs (m.insert x.1 y.1) count y.2).toOption := by
  rw [readPairs]
  cases readBytes b "snapshot key" with
  | error e => rfl
  | ok x =>
    obtain ⟨key, b⟩ := x
    dsimp only [Except.toOption, Option.bind_some]
    cases readBytes b "snapshot value" <;> rfl

theorem readPairs_delimited (m : Map) {pairs : List (Bytes × Bytes)}
    (h : ∀ p ∈ pairs, p.1.length < 2 ^ 64 ∧ p.2.length < 2 ^ 64) :
    Delimited (fun b => (readPairs m pairs.length b).toOption)
      (pairs.flatMap fun p => appendBytes [] p.1 ++ appendBytes [] p.2)
      fun _ => pairs.foldl (fun m p => m.insert p.1 p.2) m := by
  induction pairs generalizing m with
  | nil => exact .nil fun _ => m
  | cons p pairs ih =>
    obtain ⟨hkey, hvalue⟩ := h p List.mem_cons_self
    rw [List.flatMap_cons, List.append_assoc]
    refine ((readBytes_delimited hkey "snapshot key").bind (fun k b =>
      (readBytes b "snapshot value").toOption.bind fun y =>
        (readPairs (m.insert k y.1) pairs.length y.2).toOption) ?_).congr
          (toOption_readPairs_succ m pairs.length)
    refine (readBytes_delimited hvalue "snapshot value").bind (fun v b =>
      (readPairs (m.insert p.1 v) pairs.length b).toOption) ?_
    exact ih _ fun q hq => h q (List.mem_cons_of_mem _ hq)

/-- Every length in the map, and the number of its keys, can be written in a word. -/
structure Sized (m : Map) : Prop where
  size : m.size < 2 ^ 64
  bytes : ∀ k v : Bytes, m[k]? = some v → k.length < 2 ^ 64 ∧ v.length < 2 ^ 64

theorem foldl_insert_toList (m : Map) :
    m.toList.foldl (fun m p => m.insert p.1 p.2) (∅ : Map) = m := by
  rw [← Std.ExtTreeMap.insertMany_list_eq_foldl, ← Std.ExtTreeMap.ofList_eq_insertMany_empty]
  refine Std.ExtTreeMap.ext_getElem? fun k => ?_
  cases hk : m[k]? with
  | some v =>
    exact Std.ExtTreeMap.getElem?_ofList_of_mem Std.ReflCmp.compare_self
      Std.ExtTreeMap.distinct_keys_toList (Std.ExtTreeMap.mem_toList_iff_getElem?_eq_some.mpr hk)
  | none =>
    refine Std.ExtTreeMap.getElem?_ofList_of_contains_eq_false ?_
    rw [← Bool.not_eq_true, List.contains_iff_mem, List.mem_map]
    rintro ⟨p, hp, rfl⟩
    exact nomatch hk.symm.trans (Std.ExtTreeMap.mem_toList_iff_getElem?_eq_some.mp hp)

/-- The image of a map says where it ends. -/
theorem map_delimited {m : Map} (h : Sized m) :
    Delimited (fun b => (decodeMap b).toOption) (encodeMap m) fun _ => m := by
  have hsize : (UInt64.ofNat m.size).toNat = m.toList.length := by
    rw [UInt64.toNat_ofNat_of_lt' h.size, Std.ExtTreeMap.length_toList]
  have hbytes : ∀ p ∈ m.toList, p.1.length < 2 ^ 64 ∧ p.2.length < 2 ^ 64 := fun p hp =>
    h.bytes p.1 p.2 (Std.ExtTreeMap.mem_toList_iff_getElem?_eq_some.mp hp)
  rw [encodeMap, appendPairs_eq]
  refine ((uvarint_delimited _).bind (fun count b => (readPairs ∅ count.toNat b).toOption)
    ?_).congr fun b => ?_
  · rw [hsize]
    have := readPairs_delimited ∅ hbytes
    rwa [foldl_insert_toList] at this
  · rw [decodeMap]
    cases uvarint b with
    | none => rfl
    | some x => rfl

/-- An image reads back as the map it was made of. -/
theorem decodeMap_encodeMap {m : Map} (h : Sized m) : decodeMap (encodeMap m) = .ok m :=
  eq_ok_of_toOption (map_delimited h).exact

/-- The sorted keys with their values are the pairs of the map. -/
theorem foldl_keys (m : Map) (dst : Bytes) :
    m.keys.foldl (fun buf k => appendBytes (appendBytes buf k) (m[k]?.getD [])) dst =
      appendPairs dst m.toList := by
  have hpairs : ∀ pairs : List (Bytes × Bytes), (∀ p ∈ pairs, m[p.1]? = some p.2) → ∀ dst,
      (pairs.map Prod.fst).foldl (fun buf k => appendBytes (appendBytes buf k) (m[k]?.getD [])) dst =
        appendPairs dst pairs := by
    intro pairs
    induction pairs with
    | nil => exact fun _ _ => rfl
    | cons p pairs ih =>
      intro h dst
      rw [List.map_cons, List.foldl_cons, h p List.mem_cons_self, Option.getD_some,
        ih fun q hq => h q (List.mem_cons_of_mem _ hq)]
      rfl
  rw [← Std.ExtTreeMap.map_fst_toList_eq_keys]
  exact hpairs _ (fun p hp => Std.ExtTreeMap.mem_toList_iff_getElem?_eq_some.mp hp) dst

/-- The image does not depend on the order in which the keys come. -/
theorem encodeMapFrom_eq {m : Map} {order : List Bytes} (h : order.Perm m.keys) :
    encodeMapFrom order m = encodeMap m := by
  rw [encodeMapFrom, encodeMap, insertionSort_eq_keys h, Std.ExtTreeMap.length_keys]
  exact foldl_keys m _

/-- Images are canonical: an image reads back as its map, every map with the same contents has the
same image in whatever order it was built or its keys come, no other map has it, and an image that is
cut does not read. -/
theorem images_canonical (m : Map) (h : Sized m) :
    decodeMap (encodeMap m) = .ok m ∧
      (∀ (m' : Map) (order : List Bytes), (∀ k : Bytes, m'[k]? = m[k]?) → order.Perm m'.keys →
        encodeMapFrom order m' = encodeMap m) ∧
      (∀ m' : Map, Sized m' → encodeMap m' = encodeMap m → m' = m) ∧
      ∀ start, start <+: encodeMap m → start ≠ encodeMap m → ∃ e, decodeMap start = .error e := by
  refine ⟨decodeMap_encodeMap h, fun m' order hsame horder => ?_, fun m' h' heq => ?_,
    fun start hs hne => ?_⟩
  · obtain rfl : m' = m := Std.ExtTreeMap.ext_getElem? hsame
    exact encodeMapFrom_eq horder
  · have hread := decodeMap_encodeMap h'
    rw [heq, decodeMap_encodeMap h] at hread
    exact (Except.ok.inj hread).symm
  · exact exists_error_of_toOption ((map_delimited h).cut start hs hne)

/-- Two keys, written and iterated in both orders. -/
theorem images_canonical_pair :
    let m : Map := ((∅ : Map).insert [1] [7]).insert [2] []
    let m' : Map := ((∅ : Map).insert [2] []).insert [1] [7]
    encodeMapFrom [[2], [1]] m' = encodeMap m ∧ encodeMapFrom [[1], [2]] m' = encodeMap m := by
  intro m m'
  have hsized : Sized m := by
    refine ⟨by decide, fun k v hv => ?_⟩
    have hmem : (k, v) ∈ m.toList := Std.ExtTreeMap.mem_toList_iff_getElem?_eq_some.mpr hv
    have hlist : m.toList = [([1], [7]), ([2], [])] := by decide
    rw [hlist] at hmem
    simp only [List.mem_cons, Prod.mk.injEq, List.not_mem_nil, or_false] at hmem
    rcases hmem with ⟨rfl, rfl⟩ | ⟨rfl, rfl⟩ <;> exact ⟨by decide, by decide⟩
  have hsame : ∀ k : Bytes, m'[k]? = m[k]? := by
    have : m' = m := by decide
    intro k
    rw [this]
  have hkeys : m'.keys = [[1], [2]] := by decide
  obtain ⟨-, hcanon, -, -⟩ := images_canonical m hsized
  refine ⟨hcanon m' _ hsame ?_, hcanon m' _ hsame ?_⟩
  · rw [hkeys]
    exact List.Perm.swap _ _ _
  · rw [hkeys]

end RaftStore.Kvstore
