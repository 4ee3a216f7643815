import RaftStore.Lib.Delimited
import Mathlib.Tactic.Ring

/-! Unsigned variable-length integers of 64 bits: seven bits a byte, lowest first, with the high bit
set on every byte but the last, in at most ten bytes. -/

namespace RaftStore.Lib

/-- The bytes of `n`, at most `k + 1` of them. -/
def putUvarint : Nat → Nat → List UInt8
  | 0, n => [UInt8.ofNat n]
  | k + 1, n =>
    if n < 128 then [UInt8.ofNat n] else UInt8.ofNat (n % 128 + 128) :: putUvarint k (n / 128)

/-- The value at the start of the bytes and the bytes after it, read from at most `k` bytes; `none`
when they end inside the value or the value needs more than 64 bits. -/
def getUvarint : Nat → List UInt8 → Option (Nat × List UInt8)
  | 0, _ => none
  | _ + 1, [] => none
  | k + 1, b :: rest =>
    if b.toNat < 128 then
      if k = 0 ∧ 1 < b.toNat then none else some (b.toNat, rest)
    else
      match getUvarint k rest with
      | some (n, rest) => some (b.toNat % 128 + 128 * n, rest)
      | none => none

def appendUvarint (dst : List UInt8) (x : UInt64) : List UInt8 := dst ++ putUvarint 9 x.toNat

def uvarint (b : List UInt8) : Option (UInt64 × List UInt8) :=
  (getUvarint 10 b).map fun p => (UInt64.ofNat p.1, p.2)

theorem toNat_ofNat_lt {n : Nat} (h : n < 256) : (UInt8.ofNat n).toNat = n :=
  UInt8.toNat_ofNat_of_lt' h

theorem getUvarint_put (k n : Nat) (rest : List UInt8) (h : n < 2 ^ (7 * k + 1)) :
    getUvarint (k + 1) (putUvarint k n ++ rest) = some (n, rest) := by
  induction k generalizing n with
  | zero =>
    have hn : n < 2 := by simpa using h
    simp [putUvarint, getUvarint, toNat_ofNat_lt (show n < 256 by omega)]
    omega
  | succ k ih =>
    rw [putUvarint]
    split
    · rename_i hlt
      simp [getUvarint, toNat_ofNat_lt (show n < 256 by omega), hlt]
    · have hn : n / 128 < 2 ^ (7 * k + 1) := by
        rw [Nat.div_lt_iff_lt_mul (by decide)]
        calc n < 2 ^ (7 * (k + 1) + 1) := h
          _ = 2 ^ (7 * k + 1) * 128 := by ring
      have hb : (UInt8.ofNat (n % 128 + 128)).toNat = n % 128 + 128 := toNat_ofNat_lt (by omega)
      simp only [List.cons_append, getUvarint, hb, ih _ hn]
      rw [if_neg (by omega)]
      simp
      omega

/-- Every byte but the last says that there are more. -/
theorem getUvarint_cut (k n : Nat) {start : List UInt8} (hs : start <+: putUvarint k n)
    (hne : start ≠ putUvarint k n) : getUvarint (k + 1) start = none := by
  -- A beginning that is not empty shares its first byte with the whole, so only the rest is looked at.
  induction k generalizing n start with
  | zero =>
    cases start with
    | nil => rfl
    | cons b start =>
      obtain ⟨rfl, hs'⟩ := List.cons_prefix_cons.mp hs
      rw [List.prefix_nil.mp hs'] at hne
      exact absurd rfl hne
  | succ k ih =>
    cases start with
    | nil => rfl
    | cons b start =>
      rw [putUvarint] at hs hne
      split at hs <;> rename_i hlt
      · rw [if_pos hlt] at hne
        obtain ⟨rfl, hs'⟩ := List.cons_prefix_cons.mp hs
        rw [List.prefix_nil.mp hs'] at hne
        exact absurd rfl hne
      · rw [if_neg hlt] at hne
        obtain ⟨rfl, hs'⟩ := List.cons_prefix_cons.mp hs
        have hb : (UInt8.ofNat (n % 128 + 128)).toNat = n % 128 + 128 := toNat_ofNat_lt (by omega)
        have hrest := ih (n / 128) hs' fun heq => hne (by rw [heq])
        rw [getUvarint, hb, if_neg (by omega), hrest]

/-- The bytes of a number say where it ends. -/
theorem uvarint_delimited (x : UInt64) :
    Delimited uvarint (appendUvarint [] x) fun rest => (x, rest) where
  whole rest := by
    have hx : x.toNat < 2 ^ (7 * 9 + 1) := x.toNat_lt
    rw [uvarint, appendUvarint, List.nil_append, getUvarint_put 9 _ _ hx]
    simp
  cut start hs hne := by
    rw [appendUvarint, List.nil_append] at hs hne
    rw [uvarint, getUvarint_cut 9 _ hs hne, Option.map_none]

/-- Reading back what was written gives the value and leaves the bytes after it. -/
theorem uvarint_append (x : UInt64) (rest : List UInt8) :
    uvarint (appendUvarint [] x ++ rest) = some (x, rest) :=
  (uvarint_delimited x).whole rest

theorem appendUvarint_eq (dst : List UInt8) (x : UInt64) :
    appendUvarint dst x = dst ++ appendUvarint [] x := by
  simp [appendUvarint]

/-- A number takes at least a byte. -/
theorem getUvarint_length {k n : Nat} {b rest : List UInt8} (h : getUvarint k b = some (n, rest)) :
    rest.length < b.length := by
  induction k generalizing b n with
  | zero => cases h
  | succ k ih =>
    cases b with
    | nil => cases h
    | cons x b =>
      rw [getUvarint] at h
      split at h
      · split at h
        · cases h
        · cases h
          exact Nat.lt_succ_self _
      · split at h
        · rename_i hrest
          cases h
          exact (ih hrest).trans (Nat.lt_succ_self _)
        · cases h

theorem uvarint_length {b rest : List UInt8} {x : UInt64} (h : uvarint b = some (x, rest)) :
    rest.length < b.length := by
  rw [uvarint, Option.map_eq_some_iff] at h
  obtain ⟨p, hp, heq⟩ := h
  cases heq
  exact getUvarint_length hp

end RaftStore.Lib
