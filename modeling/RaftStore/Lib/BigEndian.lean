import Mathlib.Data.List.Sort
import Mathlib.Tactic.Ring

/-! Numbers as a fixed number of bytes, highest first, so that the order of the bytes is the order of
the numbers. -/

namespace RaftStore.Lib

/-- The lowest `w` bytes of `n`. -/
def putBigEndian : ℕ → ℕ → List UInt8
  | 0, _ => []
  | w + 1, n => UInt8.ofNat (n / 256 ^ w) :: putBigEndian w (n % 256 ^ w)

def bigEndian : List UInt8 → ℕ
  | [] => 0
  | b :: bs => b.toNat * 256 ^ bs.length + bigEndian bs

theorem putBigEndian_length (w n : ℕ) : (putBigEndian w n).length = w := by
  induction w generalizing n with
  | zero => rfl
  | succ w ih => rw [putBigEndian, List.length_cons, ih]

theorem toNat_highByte {w n : ℕ} (h : n < 256 ^ (w + 1)) :
    (UInt8.ofNat (n / 256 ^ w)).toNat = n / 256 ^ w := by
  have : n / 256 ^ w < 256 := by
    rw [Nat.div_lt_iff_lt_mul (Nat.pow_pos (by decide)), Nat.mul_comm, ← Nat.pow_succ]
    exact h
  exact UInt8.toNat_ofNat_of_lt' this

theorem bigEndian_put {w n : ℕ} (h : n < 256 ^ w) : bigEndian (putBigEndian w n) = n := by
  induction w generalizing n with
  | zero =>
    rw [Nat.pow_zero, Nat.lt_one_iff] at h
    rw [h]
    rfl
  | succ w ih =>
    have hlow : n % 256 ^ w < 256 ^ w := Nat.mod_lt _ (Nat.pow_pos (by decide))
    rw [putBigEndian, bigEndian, putBigEndian_length, toNat_highByte h, ih hlow, Nat.mul_comm]
    exact Nat.div_add_mod n (256 ^ w)

theorem compare_toNat (a b : UInt8) : compare a b = compare a.toNat b.toNat := by
  simp only [compare, compareOfLessAndEq, UInt8.lt_iff_toNat_lt, ← UInt8.toNat_inj]

/-- The order of the bytes is the order of the numbers. -/
theorem compare_putBigEndian {w m n : ℕ} (hm : m < 256 ^ w) (hn : n < 256 ^ w) :
    compare (putBigEndian w m) (putBigEndian w n) = compare m n := by
  induction w generalizing m n with
  | zero =>
    rw [Nat.pow_zero, Nat.lt_one_iff] at hm hn
    rw [hm, hn]
    rfl
  | succ w ih =>
    have hpos : 0 < 256 ^ w := Nat.pow_pos (by decide)
    have hcons : compare (putBigEndian (w + 1) m) (putBigEndian (w + 1) n) =
        (compare (m / 256 ^ w) (n / 256 ^ w)).then (compare (m % 256 ^ w) (n % 256 ^ w)) := by
      rw [← ih (Nat.mod_lt m hpos) (Nat.mod_lt n hpos), ← toNat_highByte hm, ← toNat_highByte hn,
        ← compare_toNat]
      simp only [putBigEndian, List.compare_eq_compareLex, List.compareLex_cons_cons]
    have hm' := Nat.div_add_mod m (256 ^ w)
    have hn' := Nat.div_add_mod n (256 ^ w)
    rw [hcons]
    rcases Nat.lt_trichotomy (m / 256 ^ w) (n / 256 ^ w) with hlt | heq | hgt
    · have hmn : m < n := by
        by_contra hle
        exact Nat.not_le.mpr hlt (Nat.div_le_div_right (Nat.not_lt.mp hle))
      rw [Nat.compare_eq_lt.mpr hlt, Nat.compare_eq_lt.mpr hmn]
      rfl
    · rw [heq] at hm'
      have hlt : m % 256 ^ w < n % 256 ^ w ↔ m < n := by omega
      have heq' : m % 256 ^ w = n % 256 ^ w ↔ m = n := by omega
      rw [Nat.compare_eq_eq.mpr heq, Ordering.eq_then]
      simp only [compare, compareOfLessAndEq, hlt, heq']
    · have hmn : n < m := by
        by_contra hle
        exact Nat.not_le.mpr hgt (Nat.div_le_div_right (Nat.not_lt.mp hle))
      rw [Nat.compare_eq_gt.mpr hgt, Nat.compare_eq_gt.mpr hmn]
      rfl

end RaftStore.Lib
