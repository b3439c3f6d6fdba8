import Mathlib.Algebra.GroupWithZero.Nat
import Mathlib.Tactic.Common

/-! # Little-endian byte images of natural numbers -/

namespace Polar.Bytes

/-- The `k` low bytes of `v`, least significant first. -/
def ofNat : Nat → Nat → List UInt8
  | 0, _ => []
  | k + 1, v => UInt8.ofNat v :: ofNat k (v / 256)

/-- The number whose little-endian image is the given list. -/
def toNat : List UInt8 → Nat
  | [] => 0
  | b :: bs => b.toNat + 256 * toNat bs

@[simp] theorem length_ofNat (k v : Nat) : (ofNat k v).length = k := by
  induction k generalizing v with
  | zero => rfl
  | succ k ih => rw [ofNat, List.length_cons, ih]

/-- Storing the `k` low bytes keeps the number modulo `256 ^ k`. -/
theorem toNat_ofNat (k v : Nat) : toNat (ofNat k v) = v % 256 ^ k := by
  induction k generalizing v with
  | zero => rw [ofNat, toNat, Nat.pow_zero, Nat.mod_one]
  | succ k ih =>
    have byte : (UInt8.ofNat v).toNat = v % 256 := UInt8.toNat_ofNat'
    rw [ofNat, toNat, ih, byte, Nat.pow_succ, mul_comm (256 ^ k), Nat.mod_mul]

theorem toNat_ofNat_of_lt {k v : Nat} (h : v < 256 ^ k) : toNat (ofNat k v) = v := by
  rw [toNat_ofNat, Nat.mod_eq_of_lt h]

@[simp] theorem toNat_ofNat_uint32 (v : UInt32) : toNat (ofNat 4 v.toNat) = v.toNat :=
  toNat_ofNat_of_lt (by simpa using v.toNat_lt)

end Polar.Bytes
