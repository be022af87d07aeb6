import Mathlib

/-!
# Little-endian integers

Results:
1. `fromLe_toLe`, `toLe_fromLe`: writing and reading a number of a given width are
   inverse.
2. `fromLe_lt`: what `w` bytes can say.
-/

namespace Lib

/-- The number that the bytes say, the low byte first. -/
def fromLe : List UInt8 → Nat
  | [] => 0
  | byte :: bytes => byte.toNat + 256 * fromLe bytes

/-- The low `width` bytes of a number, the low byte first. -/
def toLe : Nat → Nat → List UInt8
  | 0, _ => []
  | width + 1, n => UInt8.ofNat n :: toLe width (n / 256)

@[simp] theorem length_toLe (width n : Nat) : (toLe width n).length = width := by
  induction width generalizing n with
  | zero => rfl
  | succ width ih => rw [toLe, List.length_cons, ih]

theorem fromLe_lt (bytes : List UInt8) : fromLe bytes < 256 ^ bytes.length := by
  induction bytes with
  | nil => exact Nat.one_pos
  | cons byte bytes ih =>
    have hbyte := byte.toNat_lt
    rw [fromLe, List.length_cons, Nat.pow_succ]
    omega

/-- A number that fits its width is read back. -/
theorem fromLe_toLe {width n : Nat} (h : n < 256 ^ width) : fromLe (toLe width n) = n := by
  induction width generalizing n with
  | zero => exact (Nat.lt_one_iff.mp h).symm
  | succ width ih =>
    have hrest : n / 256 < 256 ^ width := Nat.div_lt_of_lt_mul (by rwa [Nat.mul_comm])
    rw [toLe, fromLe, ih hrest, UInt8.toNat_ofNat']
    exact Nat.mod_add_div n 256

/-- The bytes of a number are the bytes it was read from. -/
theorem toLe_fromLe (bytes : List UInt8) : toLe bytes.length (fromLe bytes) = bytes := by
  induction bytes with
  | nil => rfl
  | cons byte bytes ih =>
    have hbyte := byte.toNat_lt
    have hdiv : (byte.toNat + 256 * fromLe bytes) / 256 = fromLe bytes := by omega
    have hbyte' : UInt8.ofNat (byte.toNat + 256 * fromLe bytes) = byte := by
      apply UInt8.toNat_inj.mp
      rw [UInt8.toNat_ofNat']
      omega
    rw [List.length_cons, fromLe, toLe, hdiv, ih, hbyte']

end Lib
