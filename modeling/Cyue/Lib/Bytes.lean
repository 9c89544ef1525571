import Mathlib.Algebra.Ring.Int.Defs
import Mathlib.Algebra.Ring.Nat
import Mathlib.Algebra.Order.Group.Nat
import Mathlib.Tactic.Common

/-!
# Fixed-width integers as byte strings

Big-endian and little-endian images of a natural number in a given number of
bytes, and their inverses.  A width that is too small keeps the low-order part
of the number, as a store of a machine word does.
-/

namespace Cyue.Bytes

/-- The `width` low-order bytes of a number, most significant byte first. -/
def beBytes : Nat → Nat → List UInt8
  | 0, _ => []
  | width + 1, n => UInt8.ofNat (n / 256 ^ width) :: beBytes width n

/-- The number whose big-endian image is the given byte string. -/
def beNat : List UInt8 → Nat
  | [] => 0
  | byte :: rest => byte.toNat * 256 ^ rest.length + beNat rest

/-- The `width` low-order bytes of a number, least significant byte first. -/
def leBytes (width n : Nat) : List UInt8 := (beBytes width n).reverse

/-- The number whose little-endian image is the given byte string. -/
def leNat (bytes : List UInt8) : Nat := beNat bytes.reverse

@[simp]
theorem beBytes_length (width n : Nat) : (beBytes width n).length = width := by
  induction width with
  | zero => rfl
  | succ width ih => simp [beBytes, ih]

@[simp]
theorem leBytes_length (width n : Nat) : (leBytes width n).length = width := by
  simp [leBytes]

theorem beNat_beBytes_mod (width n : Nat) :
    beNat (beBytes width n) = n % 256 ^ width := by
  induction width with
  | zero => simp [beBytes, beNat, Nat.mod_one]
  | succ width ih =>
      have high : (UInt8.ofNat (n / 256 ^ width)).toNat = n / 256 ^ width % 256 := by
        simp
      rw [beBytes, beNat, ih, beBytes_length, high, Nat.pow_succ, Nat.mod_mul]
      rw [Nat.mul_comm, Nat.add_comm]

/-- A number that fits the width is read back exactly. -/
theorem beNat_beBytes {width n : Nat} (fits : n < 256 ^ width) :
    beNat (beBytes width n) = n := by
  rw [beNat_beBytes_mod, Nat.mod_eq_of_lt fits]

theorem leNat_leBytes {width n : Nat} (fits : n < 256 ^ width) :
    leNat (leBytes width n) = n := by
  rw [leNat, leBytes, List.reverse_reverse, beNat_beBytes fits]

theorem beNat_lt (bytes : List UInt8) : beNat bytes < 256 ^ bytes.length := by
  induction bytes with
  | nil => simp [beNat]
  | cons byte rest ih =>
      have small : byte.toNat < 256 := byte.toNat_lt
      have top : byte.toNat * 256 ^ rest.length + 256 ^ rest.length ≤
          256 * 256 ^ rest.length := by
        rw [← Nat.succ_mul]
        exact Nat.mul_le_mul_right _ small
      rw [beNat, List.length_cons, Nat.pow_succ]
      omega

/-- The image depends on the low-order bytes of the number alone. -/
theorem beBytes_congr {width n n' : Nat} (same : n % 256 ^ width = n' % 256 ^ width) :
    beBytes width n = beBytes width n' := by
  induction width generalizing n n' with
  | zero => rfl
  | succ width ih =>
      have pos : 0 < 256 ^ width := Nat.pow_pos (by decide)
      have low : n % 256 ^ width = n' % 256 ^ width := by
        rw [← Nat.mod_mul_right_mod n (256 ^ width) 256, ← Nat.mod_mul_right_mod n' (256 ^ width) 256,
          ← Nat.pow_succ, same]
      have top : n / 256 ^ width % 256 = n' / 256 ^ width % 256 := by
        rw [← Nat.mod_mul_right_div_self, ← Nat.mod_mul_right_div_self, ← Nat.pow_succ, same]
      have byte : UInt8.ofNat (n / 256 ^ width) = UInt8.ofNat (n' / 256 ^ width) :=
        UInt8.toNat.inj (by simpa using top)
      rw [beBytes, beBytes, byte, ih low]

/-- A byte string is the image of its number. -/
theorem beBytes_beNat (bytes : List UInt8) : beBytes bytes.length (beNat bytes) = bytes := by
  induction bytes with
  | nil => rfl
  | cons byte rest ih =>
      have small := beNat_lt rest
      have pos : 0 < 256 ^ rest.length := Nat.pow_pos (by decide)
      have top : (byte.toNat * 256 ^ rest.length + beNat rest) / 256 ^ rest.length = byte.toNat := by
        rw [Nat.mul_comm, Nat.mul_add_div pos, Nat.div_eq_of_lt small, Nat.add_zero]
      have low : beBytes rest.length (byte.toNat * 256 ^ rest.length + beNat rest) =
          beBytes rest.length (beNat rest) := by
        refine beBytes_congr ?_
        rw [Nat.mul_comm, Nat.mul_add_mod]
      rw [List.length_cons, beBytes, beNat, top, low, ih, UInt8.ofNat_toNat]

theorem leBytes_leNat (bytes : List UInt8) : leBytes bytes.length (leNat bytes) = bytes := by
  have image := beBytes_beNat bytes.reverse
  rw [List.length_reverse] at image
  rw [leBytes, leNat, image, List.reverse_reverse]

theorem leNat_lt (bytes : List UInt8) : leNat bytes < 256 ^ bytes.length := by
  simpa [leNat] using beNat_lt bytes.reverse

end Cyue.Bytes
