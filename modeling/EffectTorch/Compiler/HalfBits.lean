import EffectTorch.Lib.Rounding
import EffectTorch.Runtime.Storage
import Mathlib.Data.Nat.Bitwise
import Mathlib.Tactic.Ring

/-!
# Rounding to half precision

`f64_to_half_bits` of `compiler/src/ir.rs` on machine words, and what it computes. Magnitudes
are natural numbers, in units of the least subnormal `f64`: `2 ^ -1074`. The encodings of a
half format, without their sign, list increasing magnitudes; that of infinity stands for the
value behind the largest finite one.

Results:
1. `halfMagnitude_increasing`: a larger encoding has a larger magnitude.
2. `f64ToHalfBits_nearest`: the sign is kept, a NaN stays one, and any other value is rounded
   to the nearest encoding, ties to even.
-/

namespace EffectTorch
open Lib

/-! ## The function -/

/-- `x as u16` for a signed `x`. -/
def asU16 (x : Int) : UInt16 := UInt16.ofNat (x % 2 ^ 16).toNat

/-- The significand shifted right, rounded to even by the bits that are shifted out. -/
def roundedShift (significand : UInt64) (shift : Nat) : UInt64 :=
  let retained := significand >>> UInt64.ofNat shift
  let remainder := significand &&& (((1 : UInt64) <<< UInt64.ofNat shift) - 1)
  let midpoint := (1 : UInt64) <<< UInt64.ofNat (shift - 1)
  retained + (if midpoint < remainder ∨ remainder = midpoint ∧ retained &&& 1 ≠ 0 then 1 else 0)

/-- `f64_to_half_bits`. -/
def f64ToHalfBits (value : F64) (mantissaBits : Nat) (bias : Int) : UInt16 :=
  let bits := value.bits
  let sign := ((bits >>> 48) &&& 0x8000).toUInt16
  let encodedExponent : Int := ((bits >>> 52) &&& 0x7ff).toNat
  let fraction := bits &&& (((1 : UInt64) <<< (52 : UInt64)) - 1)
  let infinity := (asU16 (bias * 2 + 1) <<< UInt16.ofNat mantissaBits) ||| sign
  if encodedExponent = 0x7ff then
    infinity ||| (if fraction = 0 then 0 else (1 : UInt16) <<< UInt16.ofNat (mantissaBits - 1))
  else
    let exponent := encodedExponent - 1023
    let minimumNormal := 1 - bias
    if exponent < minimumNormal - mantissaBits - 1 then sign
    else if exponent > bias then infinity
    else
      let significand := fraction ||| ((1 : UInt64) <<< (52 : UInt64))
      let shift := 52 - mantissaBits + (max (minimumNormal - exponent) 0).toNat
      let rounded := roundedShift significand shift
      let magnitude :=
        if exponent < minimumNormal then rounded.toUInt16
        else (asU16 (exponent + bias) <<< UInt16.ofNat mantissaBits) +
          (rounded - ((1 : UInt64) <<< UInt64.ofNat mantissaBits)).toUInt16
      sign ||| magnitude

/-! ## What the bits say -/

namespace F64

def sign (x : F64) : Nat := x.bits.toNat / 2 ^ 63

def exponentField (x : F64) : Nat := x.bits.toNat / 2 ^ 52 % 2 ^ 11

def fraction (x : F64) : Nat := x.bits.toNat % 2 ^ 52

def IsNan (x : F64) : Prop := x.exponentField = 2047 ∧ x.fraction ≠ 0

def IsInfinite (x : F64) : Prop := x.exponentField = 2047 ∧ x.fraction = 0

/-- The magnitude of a finite value. -/
def magnitude (x : F64) : Nat :=
  if x.exponentField = 0 then x.fraction else (2 ^ 52 + x.fraction) * 2 ^ (x.exponentField - 1)

end F64

/-- A 16-bit format: `mantissaBits` and a field of `15 - mantissaBits` bits for the exponent. -/
structure HalfFormat where
  mantissaBits : Nat
  bias : Nat
  mantissa_pos : 0 < mantissaBits
  field_eq : (2 * bias + 2) * 2 ^ mantissaBits = 2 ^ 15
  unit_le : bias + mantissaBits ≤ 1000

namespace HalfFormat

def f16 : HalfFormat := ⟨10, 15, by decide, by decide, by decide⟩

variable (format : HalfFormat)

/-- The encoding of infinity. -/
def infinity : Nat := (2 * format.bias + 1) * 2 ^ format.mantissaBits

/-- The magnitude of the least subnormal, as a power of two. -/
def unitBits : Nat := 1075 - format.bias - format.mantissaBits

/-- The magnitude of an encoding. -/
def magnitude (encoding : Nat) : Nat :=
  let field := encoding / 2 ^ format.mantissaBits
  let fraction := encoding % 2 ^ format.mantissaBits
  if field = 0 then fraction * 2 ^ format.unitBits
  else (2 ^ format.mantissaBits + fraction) * 2 ^ (field - 1 + format.unitBits)

end HalfFormat

/-! ## The encodings of a format -/

section Encodings

variable {format : HalfFormat}

/-- From the start of a binade on, the encodings go up in equal steps, up to the start of the
next one. -/
theorem magnitude_normal (field : Nat) {steps : Nat} (hlo : 2 ^ format.mantissaBits ≤ steps)
    (hhi : steps ≤ 2 * 2 ^ format.mantissaBits) :
    format.magnitude (field * 2 ^ format.mantissaBits + steps) =
      steps * 2 ^ (field + format.unitBits) := by
  have hpos : 0 < 2 ^ format.mantissaBits := Nat.two_pow_pos _
  obtain ⟨fraction, rfl⟩ := Nat.exists_eq_add_of_le hlo
  rcases Nat.lt_or_eq_of_le (show fraction ≤ 2 ^ format.mantissaBits by omega) with hlt | rfl
  · have hsplit : field * 2 ^ format.mantissaBits + (2 ^ format.mantissaBits + fraction) =
        fraction + 2 ^ format.mantissaBits * (field + 1) := by ring
    unfold HalfFormat.magnitude
    rw [hsplit, Nat.add_mul_div_left _ _ hpos, Nat.add_mul_mod_self_left, Nat.div_eq_of_lt hlt,
      Nat.mod_eq_of_lt hlt, Nat.zero_add]
    dsimp only
    rw [if_neg (Nat.succ_ne_zero field), Nat.add_sub_cancel]
  · have hsplit : field * 2 ^ format.mantissaBits +
        (2 ^ format.mantissaBits + 2 ^ format.mantissaBits) =
        2 ^ format.mantissaBits * (field + 2) := by ring
    unfold HalfFormat.magnitude
    rw [hsplit, Nat.mul_div_cancel_left _ hpos, Nat.mul_mod_right]
    dsimp only
    rw [if_neg (Nat.succ_ne_zero _), Nat.add_zero, show field + 2 - 1 = field + 1 from rfl,
      Nat.add_right_comm, Nat.pow_succ]
    ring

/-- Up to the first normal encoding, the steps are those of the subnormals. -/
theorem magnitude_subnormal {steps : Nat} (hhi : steps ≤ 2 ^ format.mantissaBits) :
    format.magnitude steps = steps * 2 ^ format.unitBits := by
  rcases Nat.lt_or_eq_of_le hhi with hlt | rfl
  · unfold HalfFormat.magnitude
    rw [Nat.div_eq_of_lt hlt, Nat.mod_eq_of_lt hlt]
    exact if_pos rfl
  · have h := @magnitude_normal format 0 _ (Nat.le_refl _)
      (Nat.le_mul_of_pos_left _ Nat.two_pos)
    rwa [Nat.zero_mul, Nat.zero_add, Nat.zero_add] at h

/-- A larger encoding has a larger magnitude. -/
theorem halfMagnitude_increasing (top : Nat) : Increasing format.magnitude top := by
  refine increasing_of_succ fun i _ => ?_
  have hpos : 0 < 2 ^ format.mantissaBits := Nat.two_pow_pos _
  rcases Nat.lt_or_ge i (2 ^ format.mantissaBits) with hlt | hge
  · rw [magnitude_subnormal (Nat.le_of_lt hlt), magnitude_subnormal hlt]
    exact Nat.mul_lt_mul_of_pos_right (Nat.lt_succ_self i) (Nat.two_pow_pos _)
  · -- both ends of the step lie in the binade of the smaller one
    obtain ⟨field, steps, rfl, hlo, hhi⟩ : ∃ field steps, i = field * 2 ^ format.mantissaBits + steps ∧
        2 ^ format.mantissaBits ≤ steps ∧ steps < 2 * 2 ^ format.mantissaBits := by
      refine ⟨i / 2 ^ format.mantissaBits - 1, i % 2 ^ format.mantissaBits + 2 ^ format.mantissaBits,
        ?_, Nat.le_add_left _ _, ?_⟩
      · have hdiv := Nat.div_add_mod' i (2 ^ format.mantissaBits)
        have hone : 1 ≤ i / 2 ^ format.mantissaBits := (Nat.one_le_div_iff hpos).mpr hge
        have hmul : (i / 2 ^ format.mantissaBits - 1) * 2 ^ format.mantissaBits +
            2 ^ format.mantissaBits = i / 2 ^ format.mantissaBits * 2 ^ format.mantissaBits := by
          rw [← Nat.succ_mul, Nat.succ_eq_add_one, Nat.sub_add_cancel hone]
        omega
      · have := Nat.mod_lt i hpos
        omega
    rw [Nat.add_assoc, magnitude_normal field hlo (Nat.le_of_lt hhi),
      magnitude_normal field (Nat.le_succ_of_le hlo) hhi]
    exact Nat.mul_lt_mul_of_pos_right (Nat.lt_succ_self steps) (Nat.two_pow_pos _)

end Encodings

/-! ## The words -/

section Words

theorem toNat_shift {shift : Nat} (h : shift < 64) : (UInt64.ofNat shift).toNat % 64 = shift := by
  rw [UInt64.toNat_ofNat', Nat.mod_eq_of_lt (by omega : shift < 2 ^ 64), Nat.mod_eq_of_lt h]

theorem toNat_shiftLeft_one {shift : Nat} (h : shift < 64) :
    ((1 : UInt64) <<< UInt64.ofNat shift).toNat = 2 ^ shift := by
  have hlt : 2 ^ shift < 2 ^ 64 := Nat.pow_lt_pow_right Nat.one_lt_two h
  rw [UInt64.toNat_shiftLeft, toNat_shift h, Nat.shiftLeft_eq, UInt64.toNat_one, Nat.one_mul,
    Nat.mod_eq_of_lt hlt]

theorem toNat_low_bits (word : UInt64) {shift : Nat} (h : shift < 64) :
    (word &&& (((1 : UInt64) <<< UInt64.ofNat shift) - 1)).toNat = word.toNat % 2 ^ shift := by
  have hone := toNat_shiftLeft_one h
  have hle : (1 : UInt64) ≤ (1 : UInt64) <<< UInt64.ofNat shift := by
    rw [UInt64.le_iff_toNat_le, hone]
    exact Nat.two_pow_pos _
  rw [UInt64.toNat_and, UInt64.toNat_sub_of_le _ _ hle, hone, UInt64.toNat_one,
    Nat.and_two_pow_sub_one_eq_mod]

theorem toNat_high_bits (word : UInt64) {shift : Nat} (h : shift < 64) :
    (word >>> UInt64.ofNat shift).toNat = word.toNat / 2 ^ shift := by
  rw [UInt64.toNat_shiftRight, toNat_shift h, Nat.shiftRight_eq_div_pow]

/-- A quotient by a power of two, rounded by its remainder. -/
def roundedQuotient (u shift : Nat) : Nat :=
  u / 2 ^ shift +
    if 2 ^ shift < 2 * (u % 2 ^ shift) ∨ 2 * (u % 2 ^ shift) = 2 ^ shift ∧ u / 2 ^ shift % 2 = 1 then 1
    else 0

theorem toNat_roundedShift {significand : UInt64} {shift : Nat} (hpos : 0 < shift) (h : shift < 64) :
    (roundedShift significand shift).toNat = roundedQuotient significand.toNat shift := by
  have hhalf : 2 ^ shift = 2 * 2 ^ (shift - 1) := by
    rw [← Nat.pow_succ', Nat.succ_eq_add_one, Nat.sub_add_cancel hpos]
  have hretained := toNat_high_bits significand h
  have hremainder := toNat_low_bits significand h
  have hmidpoint := toNat_shiftLeft_one (Nat.lt_of_le_of_lt (Nat.sub_le shift 1) h)
  have hodd : (significand >>> UInt64.ofNat shift) &&& 1 ≠ 0 ↔
      significand.toNat / 2 ^ shift % 2 = 1 := by
    rw [Ne, ← UInt64.toNat_inj, UInt64.toNat_and, hretained, UInt64.toNat_one, Nat.and_one_is_mod,
      UInt64.toNat_zero]
    omega
  have hquotient : significand.toNat / 2 ^ shift < 2 ^ 63 := by
    have hlt := significand.toNat_lt
    have htwo : 2 ≤ 2 ^ shift := by
      have := Nat.two_pow_pos (shift - 1)
      omega
    calc significand.toNat / 2 ^ shift ≤ significand.toNat / 2 := Nat.div_le_div_left htwo Nat.two_pos
      _ < 2 ^ 63 := by omega
  unfold roundedShift roundedQuotient
  dsimp only
  rw [UInt64.toNat_add, hretained]
  have hcond : ((1 : UInt64) <<< UInt64.ofNat (shift - 1) <
        significand &&& (((1 : UInt64) <<< UInt64.ofNat shift) - 1) ∨
      significand &&& (((1 : UInt64) <<< UInt64.ofNat shift) - 1) =
        (1 : UInt64) <<< UInt64.ofNat (shift - 1) ∧
        (significand >>> UInt64.ofNat shift) &&& 1 ≠ 0) ↔
      (2 ^ shift < 2 * (significand.toNat % 2 ^ shift) ∨
        2 * (significand.toNat % 2 ^ shift) = 2 ^ shift ∧
          significand.toNat / 2 ^ shift % 2 = 1) := by
    rw [hodd, UInt64.lt_iff_toNat_lt, ← UInt64.toNat_inj, hremainder, hmidpoint]
    omega
  simp only [hcond]
  split
  · rw [UInt64.toNat_one, Nat.mod_eq_of_lt (by omega)]
  · rw [UInt64.toNat_zero, Nat.add_zero, Nat.mod_eq_of_lt (by omega)]

theorem F64.sign_lt (x : F64) : x.sign < 2 := by
  have := x.bits.toNat_lt
  unfold F64.sign
  omega

theorem toNat_sign (x : F64) :
    ((x.bits >>> 48) &&& 0x8000).toUInt16.toNat = x.sign * 2 ^ 15 := by
  have hword : ((x.bits >>> 48) &&& 0x8000).toNat = x.sign * 2 ^ 15 := by
    have hshift : (x.bits >>> 48).toNat = x.bits.toNat / 2 ^ 48 := toNat_high_bits x.bits (by decide)
    have hbit : (x.bits.toNat / 2 ^ 48).testBit 15 = decide (x.sign = 1) := by
      rw [Nat.testBit_eq_decide_div_mod_eq, Nat.div_div_eq_div_mul, ← Nat.pow_add]
      have := x.sign_lt
      refine decide_eq_decide.mpr ?_
      unfold F64.sign at this ⊢
      omega
    have hmask : (0x8000 : UInt64).toNat = 2 ^ 15 := rfl
    rw [UInt64.toNat_and, hshift, hmask, Nat.and_two_pow, hbit]
    have := x.sign_lt
    rcases (by omega : x.sign = 0 ∨ x.sign = 1) with h | h <;> simp [h]
  have := x.sign_lt
  rw [UInt64.toNat_toUInt16, hword, Nat.mod_eq_of_lt (by omega)]

theorem toNat_exponentField (x : F64) :
    ((x.bits >>> 52) &&& 0x7ff).toNat = x.exponentField := by
  have hshift : (x.bits >>> 52).toNat = x.bits.toNat / 2 ^ 52 := toNat_high_bits x.bits (by decide)
  have hmask : (0x7ff : UInt64).toNat = 2 ^ 11 - 1 := rfl
  rw [UInt64.toNat_and, hshift, hmask, Nat.and_two_pow_sub_one_eq_mod]
  rfl

theorem toNat_fraction (x : F64) :
    (x.bits &&& (((1 : UInt64) <<< (52 : UInt64)) - 1)).toNat = x.fraction :=
  toNat_low_bits x.bits (by decide : 52 < 64)

theorem F64.fraction_lt (x : F64) : x.fraction < 2 ^ 52 :=
  Nat.mod_lt _ (Nat.two_pow_pos 52)

theorem toNat_significand (x : F64) :
    ((x.bits &&& (((1 : UInt64) <<< (52 : UInt64)) - 1)) ||| ((1 : UInt64) <<< (52 : UInt64))).toNat =
      2 ^ 52 + x.fraction := by
  have hone : ((1 : UInt64) <<< (52 : UInt64)).toNat = 2 ^ 52 := toNat_shiftLeft_one (by decide : 52 < 64)
  have hor := Nat.two_pow_add_eq_or_of_lt x.fraction_lt 1
  rw [Nat.mul_one] at hor
  rw [UInt64.toNat_or, toNat_fraction, hone, Nat.or_comm, hor]

theorem toNat_asU16 {n : Nat} (h : n < 2 ^ 16) : (asU16 n).toNat = n := by
  unfold asU16
  rw [UInt16.toNat_ofNat']
  omega

variable (format : HalfFormat)

theorem HalfFormat.mantissaBits_le : format.mantissaBits ≤ 14 := by
  by_contra h
  have hpow : 2 ^ 15 ≤ 2 ^ format.mantissaBits := Nat.pow_le_pow_right Nat.two_pos (by omega)
  have hfield := format.field_eq
  have htwo : 2 * 2 ^ format.mantissaBits ≤ (2 * format.bias + 2) * 2 ^ format.mantissaBits :=
    Nat.mul_le_mul_right _ (by omega)
  omega

theorem HalfFormat.infinity_eq : format.infinity + 2 ^ format.mantissaBits = 2 ^ 15 := by
  rw [← format.field_eq, HalfFormat.infinity]
  ring

/-- A field moved up to its place. -/
theorem toNat_field {field : Nat} (h : field < 2 * format.bias + 2) :
    (asU16 field <<< UInt16.ofNat format.mantissaBits).toNat = field * 2 ^ format.mantissaBits := by
  have hbits := format.mantissaBits_le
  have hfield : field * 2 ^ format.mantissaBits < 2 ^ 15 := by
    rw [← format.field_eq]
    exact Nat.mul_lt_mul_of_pos_right h (Nat.two_pow_pos _)
  have hle : field ≤ field * 2 ^ format.mantissaBits := Nat.le_mul_of_pos_right _ (Nat.two_pow_pos _)
  rw [UInt16.toNat_shiftLeft, UInt16.toNat_ofNat', toNat_asU16 (by omega), Nat.shiftLeft_eq,
    Nat.mod_eq_of_lt (by omega : format.mantissaBits < 2 ^ 16),
    Nat.mod_eq_of_lt (by omega : format.mantissaBits < 16), Nat.mod_eq_of_lt (by omega)]

/-- The significand without its leading bit, added to the field: a carry goes into the field. -/
theorem toNat_carried {field rounded : Nat} {word : UInt64} (hfield : field + 1 < 2 * format.bias + 2)
    (hword : word.toNat = rounded) (hlo : 2 ^ format.mantissaBits ≤ rounded)
    (hhi : field * 2 ^ format.mantissaBits + rounded < 2 ^ 15) :
    ((asU16 ((field + 1 : Nat) : Int) <<< UInt16.ofNat format.mantissaBits) +
      (word - ((1 : UInt64) <<< UInt64.ofNat format.mantissaBits)).toUInt16).toNat =
      field * 2 ^ format.mantissaBits + rounded := by
  have hbits := format.mantissaBits_le
  have hone : ((1 : UInt64) <<< UInt64.ofNat format.mantissaBits).toNat = 2 ^ format.mantissaBits :=
    toNat_shiftLeft_one (by omega)
  have hle : (1 : UInt64) <<< UInt64.ofNat format.mantissaBits ≤ word := by
    rw [UInt64.le_iff_toNat_le, hone, hword]
    exact hlo
  have hsucc : (field + 1) * 2 ^ format.mantissaBits =
      field * 2 ^ format.mantissaBits + 2 ^ format.mantissaBits := Nat.succ_mul _ _
  rw [UInt16.toNat_add, toNat_field format hfield, UInt64.toNat_toUInt16, UInt64.toNat_sub_of_le _ _ hle,
    hone, hword, hsucc]
  omega

/-- A sign before an encoding. -/
theorem toNat_signed {sign word : UInt16} {s encoding : Nat} (hsign : sign.toNat = s * 2 ^ 15)
    (hword : word.toNat = encoding) (h : encoding < 2 ^ 15) :
    (sign ||| word).toNat = s * 2 ^ 15 + encoding := by
  rw [UInt16.toNat_or, hsign, hword, Nat.mul_comm s, Nat.two_pow_add_eq_or_of_lt h]

theorem toNat_infinity (x : F64) :
    ((asU16 ((format.bias : Int) * 2 + 1) <<< UInt16.ofNat format.mantissaBits) |||
      ((x.bits >>> 48) &&& 0x8000).toUInt16).toNat = x.sign * 2 ^ 15 + format.infinity := by
  have hcast : (format.bias : Int) * 2 + 1 = ((2 * format.bias + 1 : Nat) : Int) := by omega
  have hlt : format.infinity < 2 ^ 15 := by
    have := format.infinity_eq
    have := Nat.two_pow_pos format.mantissaBits
    omega
  rw [hcast, UInt16.or_comm]
  exact toNat_signed (toNat_sign x) (toNat_field format (Nat.lt_succ_self _)) hlt

end Words

/-! ## Rounding -/

section Rounding

variable {format : HalfFormat} {x : F64}

/-- Infinities and NaNs. -/
theorem f64ToHalfBits_special (hfield : x.exponentField = 2047) :
    (f64ToHalfBits x format.mantissaBits format.bias).toNat = x.sign * 2 ^ 15 +
      (format.infinity + if x.fraction = 0 then 0 else 2 ^ (format.mantissaBits - 1)) := by
  have hzero : x.bits &&& (((1 : UInt64) <<< (52 : UInt64)) - 1) = 0 ↔ x.fraction = 0 := by
    rw [← UInt64.toNat_inj, toNat_fraction]
    rfl
  unfold f64ToHalfBits
  dsimp only
  rw [toNat_exponentField, if_pos (by omega)]
  simp only [hzero]
  split
  · rw [UInt16.or_zero, toNat_infinity, Nat.add_zero]
  · -- the payload bit stands below the bits of infinity
    have hpos := format.mantissa_pos
    have hbits := format.mantissaBits_le
    have hpayload : ((1 : UInt16) <<< UInt16.ofNat (format.mantissaBits - 1)).toNat =
        2 ^ (format.mantissaBits - 1) := by
      have hlt : 2 ^ (format.mantissaBits - 1) < 2 ^ 16 := Nat.pow_lt_pow_right Nat.one_lt_two (by omega)
      rw [UInt16.toNat_shiftLeft, UInt16.toNat_ofNat', UInt16.toNat_one, Nat.shiftLeft_eq, Nat.one_mul,
        Nat.mod_eq_of_lt (by omega : format.mantissaBits - 1 < 2 ^ 16),
        Nat.mod_eq_of_lt (by omega : format.mantissaBits - 1 < 16), Nat.mod_eq_of_lt hlt]
    have hhigh : x.sign * 2 ^ 15 + format.infinity =
        2 ^ format.mantissaBits * (x.sign * 2 ^ (15 - format.mantissaBits) + (2 * format.bias + 1)) := by
      have hpow : 2 ^ 15 = 2 ^ (15 - format.mantissaBits) * 2 ^ format.mantissaBits := by
        rw [← Nat.pow_add, Nat.sub_add_cancel (by omega)]
      rw [hpow, HalfFormat.infinity]
      ring
    have hlow : 2 ^ (format.mantissaBits - 1) < 2 ^ format.mantissaBits :=
      Nat.pow_lt_pow_right Nat.one_lt_two (by omega)
    rw [UInt16.toNat_or, toNat_infinity, hpayload, hhigh, ← Nat.two_pow_add_eq_or_of_lt hlow, ← hhigh,
      Nat.add_assoc]

/-- Below half of the least subnormal. -/
theorem f64ToHalfBits_small
    (hsmall : x.exponentField + format.bias + format.mantissaBits < 1023) :
    (f64ToHalfBits x format.mantissaBits format.bias).toNat = x.sign * 2 ^ 15 ∧
      Nearest format.magnitude format.infinity x.magnitude 0 := by
  have hpos : 0 < 2 ^ format.mantissaBits := Nat.two_pow_pos _
  have hunit : 0 < format.infinity := Nat.mul_pos (Nat.succ_pos _) hpos
  have hzero : format.magnitude 0 = 0 := by rw [magnitude_subnormal (Nat.zero_le _), Nat.zero_mul]
  have hone : format.magnitude 1 = 2 ^ format.unitBits := by rw [magnitude_subnormal hpos, Nat.one_mul]
  have hbelow : 2 * x.magnitude < 2 ^ format.unitBits := by
    have hle := format.unit_le
    have hfraction := x.fraction_lt
    have hmagnitude : x.magnitude < 2 ^ (53 + (x.exponentField - 1)) := by
      rw [Nat.pow_add]
      unfold F64.magnitude
      split
      · next hsub =>
        rw [hsub]
        omega
      · exact Nat.mul_lt_mul_of_pos_right (by omega) (Nat.two_pow_pos _)
    have hpow : 2 ^ (53 + (x.exponentField - 1) + 1) ≤ 2 ^ format.unitBits := by
      refine Nat.pow_le_pow_right Nat.two_pos ?_
      unfold HalfFormat.unitBits
      omega
    rw [Nat.pow_succ] at hpow
    omega
  refine ⟨?_, ?_⟩
  · unfold f64ToHalfBits
    dsimp only
    rw [toNat_exponentField, if_neg (by omega), if_pos (by omega), toNat_sign]
  · have hbetween := nearest_between (u := x.magnitude) (halfMagnitude_increasing format.infinity) hunit
      (by rw [hzero]; exact Nat.zero_le _) (by rw [Nat.zero_add, hone]; omega)
    rwa [hzero, Nat.zero_add, hone, if_neg (by omega)] at hbetween

/-- Behind the values of the largest exponent. -/
theorem f64ToHalfBits_large (hlarge : format.bias + 1023 < x.exponentField)
    (hfinite : x.exponentField < 2047) :
    (f64ToHalfBits x format.mantissaBits format.bias).toNat = x.sign * 2 ^ 15 + format.infinity ∧
      Nearest format.magnitude format.infinity x.magnitude format.infinity := by
  have hle := format.unit_le
  refine ⟨?_, nearest_top (halfMagnitude_increasing _) ?_⟩
  · unfold f64ToHalfBits
    dsimp only
    rw [toNat_exponentField, if_neg (by omega), if_neg (by omega), if_pos (by omega), toNat_infinity]
  · have hinfinity : format.infinity = 2 * format.bias * 2 ^ format.mantissaBits +
        2 ^ format.mantissaBits := Nat.succ_mul _ _
    have hexponent : format.mantissaBits + (2 * format.bias + format.unitBits) ≤
        52 + (x.exponentField - 1) := by
      unfold HalfFormat.unitBits
      omega
    rw [hinfinity, magnitude_normal _ (Nat.le_refl _) (Nat.le_mul_of_pos_left _ Nat.two_pos),
      ← Nat.pow_add, F64.magnitude, if_neg (by omega)]
    calc 2 ^ (format.mantissaBits + (2 * format.bias + format.unitBits))
        ≤ 2 ^ (52 + (x.exponentField - 1)) := Nat.pow_le_pow_right Nat.two_pos hexponent
      _ = 2 ^ 52 * 2 ^ (x.exponentField - 1) := Nat.pow_add _ _ _
      _ ≤ (2 ^ 52 + x.fraction) * 2 ^ (x.exponentField - 1) :=
        Nat.mul_le_mul_right _ (Nat.le_add_right _ _)

/-- The quotient that is rounded, at a shift that leaves it between the ends of a row of equal
steps. -/
theorem nearest_quotient {base significand shift power unit : Nat} (hbase : base % 2 = 0)
    (hunit : unit = shift + power)
    (hlo : format.magnitude (base + significand / 2 ^ shift) = significand / 2 ^ shift * 2 ^ unit)
    (hhi : format.magnitude (base + significand / 2 ^ shift + 1) =
      (significand / 2 ^ shift + 1) * 2 ^ unit)
    (htop : base + significand / 2 ^ shift < format.infinity) :
    Nearest format.magnitude format.infinity (significand * 2 ^ power)
      (base + roundedQuotient significand shift) := by
  have hpower : 0 < 2 ^ power := Nat.two_pow_pos _
  have hsplit : significand * 2 ^ power =
      significand / 2 ^ shift * 2 ^ unit + significand % 2 ^ shift * 2 ^ power := by
    rw [hunit, Nat.pow_add, ← Nat.mul_assoc, ← Nat.add_mul, Nat.div_add_mod']
  have hremainder : significand % 2 ^ shift * 2 ^ power < 2 ^ unit := by
    rw [hunit, Nat.pow_add]
    exact Nat.mul_lt_mul_of_pos_right (Nat.mod_lt _ (Nat.two_pow_pos _)) hpower
  have hnearest := nearest_step (halfMagnitude_increasing _) hbase hlo hhi htop hremainder
  have hlt : 2 ^ unit < 2 * (significand % 2 ^ shift * 2 ^ power) ↔
      2 ^ shift < 2 * (significand % 2 ^ shift) := by
    rw [hunit, Nat.pow_add, ← Nat.mul_assoc]
    exact Nat.mul_lt_mul_right hpower
  have heq : 2 * (significand % 2 ^ shift * 2 ^ power) = 2 ^ unit ↔
      2 * (significand % 2 ^ shift) = 2 ^ shift := by
    rw [hunit, Nat.pow_add, ← Nat.mul_assoc]
    exact Nat.mul_left_inj (Nat.ne_of_gt hpower)
  simp only [hlt, heq] at hnearest
  rwa [← hsplit] at hnearest

/-- At the shift of a normal encoding the quotient keeps its leading bit. -/
theorem quotient_normal (hbits : format.mantissaBits ≤ 14) :
    (2 ^ format.mantissaBits ≤ (2 ^ 52 + x.fraction) / 2 ^ (52 - format.mantissaBits) ∧
      (2 ^ 52 + x.fraction) / 2 ^ (52 - format.mantissaBits) < 2 * 2 ^ format.mantissaBits) ∧
    2 ^ format.mantissaBits ≤ roundedQuotient (2 ^ 52 + x.fraction) (52 - format.mantissaBits) ∧
      roundedQuotient (2 ^ 52 + x.fraction) (52 - format.mantissaBits) ≤ 2 * 2 ^ format.mantissaBits := by
  have hfraction := x.fraction_lt
  have hpow : 2 ^ 52 = 2 ^ format.mantissaBits * 2 ^ (52 - format.mantissaBits) := by
    rw [← Nat.pow_add, Nat.add_sub_cancel' (by omega)]
  have hquotient : 2 ^ format.mantissaBits ≤ (2 ^ 52 + x.fraction) / 2 ^ (52 - format.mantissaBits) ∧
      (2 ^ 52 + x.fraction) / 2 ^ (52 - format.mantissaBits) < 2 * 2 ^ format.mantissaBits := by
    rw [Nat.le_div_iff_mul_le (Nat.two_pow_pos _), Nat.div_lt_iff_lt_mul (Nat.two_pow_pos _),
      Nat.mul_assoc, ← hpow]
    omega
  refine ⟨hquotient, ?_⟩
  unfold roundedQuotient
  split <;> omega

/-- At the shift of a subnormal encoding it loses that bit. -/
theorem quotient_subnormal (hbits : format.mantissaBits ≤ 14) {shift : Nat}
    (hshift : 53 - format.mantissaBits ≤ shift) :
    (2 ^ 52 + x.fraction) / 2 ^ shift < 2 ^ format.mantissaBits ∧
      roundedQuotient (2 ^ 52 + x.fraction) shift ≤ 2 ^ format.mantissaBits := by
  have hfraction := x.fraction_lt
  have hpow : 2 ^ 53 ≤ 2 ^ format.mantissaBits * 2 ^ shift := by
    rw [← Nat.pow_add]
    exact Nat.pow_le_pow_right Nat.two_pos (by omega)
  have hquotient : (2 ^ 52 + x.fraction) / 2 ^ shift < 2 ^ format.mantissaBits := by
    rw [Nat.div_lt_iff_lt_mul (Nat.two_pow_pos _)]
    omega
  refine ⟨hquotient, ?_⟩
  unfold roundedQuotient
  split <;> omega

/-- Values that are rounded. -/
theorem f64ToHalfBits_rounded
    (hlo : 1023 ≤ x.exponentField + format.bias + format.mantissaBits)
    (hhi : x.exponentField ≤ format.bias + 1023) :
    ∃ encoding, (f64ToHalfBits x format.mantissaBits format.bias).toNat =
        x.sign * 2 ^ 15 + encoding ∧
      Nearest format.magnitude format.infinity x.magnitude encoding := by
  have hle := format.unit_le
  have hbits := format.mantissaBits_le
  have hpos := format.mantissa_pos
  have hfraction := x.fraction_lt
  have htop := format.infinity_eq
  have hmagnitude : x.magnitude = (2 ^ 52 + x.fraction) * 2 ^ (x.exponentField - 1) :=
    if_neg (by omega)
  rcases Nat.lt_or_ge 1023 (x.exponentField + format.bias) with hnormal | hsubnormal
  · -- the binade of the value is one of the format: the quotient keeps its leading bit
    obtain ⟨field, hfield⟩ : ∃ field, x.exponentField + format.bias = field + 1 + 1023 :=
      ⟨x.exponentField + format.bias - 1024, by omega⟩
    obtain ⟨hquotient, hrounded⟩ := quotient_normal (x := x) hbits
    have hbelow : field * 2 ^ format.mantissaBits + 2 ^ format.mantissaBits + 2 ^ format.mantissaBits ≤
        format.infinity := by
      rw [HalfFormat.infinity, ← Nat.succ_mul, ← Nat.succ_mul]
      exact Nat.mul_le_mul_right _ (by omega)
    refine ⟨field * 2 ^ format.mantissaBits +
      roundedQuotient (2 ^ 52 + x.fraction) (52 - format.mantissaBits), ?_, ?_⟩
    · have hshift : 52 - format.mantissaBits +
          (max (1 - (format.bias : Int) - ((x.exponentField : Int) - 1023)) 0).toNat =
          52 - format.mantissaBits := by omega
      have hexponent : (x.exponentField : Int) - 1023 + format.bias = ((field + 1 : Nat) : Int) := by omega
      unfold f64ToHalfBits
      dsimp only
      rw [toNat_exponentField, if_neg (by omega), if_neg (by omega), if_neg (by omega),
        if_neg (by omega), hshift, hexponent]
      refine toNat_signed (toNat_sign x) ?_ (by omega)
      exact toNat_carried format (by omega) (by
        rw [toNat_roundedShift (by omega) (by omega), toNat_significand]) hrounded.1 (by omega)
    · rw [hmagnitude]
      refine @nearest_quotient format (field * 2 ^ format.mantissaBits) _ _ _
        (field + format.unitBits) ?_ ?_ ?_ ?_ ?_
      · rw [← Nat.sub_add_cancel hpos, Nat.pow_succ, ← Nat.mul_assoc, Nat.mul_mod_left]
      · unfold HalfFormat.unitBits
        omega
      · exact magnitude_normal _ hquotient.1 (Nat.le_of_lt hquotient.2)
      · rw [Nat.add_assoc]
        exact magnitude_normal _ (Nat.le_succ_of_le hquotient.1) hquotient.2
      · omega
  · -- the value lies among the subnormals of the format
    obtain ⟨shift, hshift⟩ : ∃ shift, shift + x.exponentField + format.bias + format.mantissaBits = 1076 :=
      ⟨1076 - (x.exponentField + format.bias + format.mantissaBits), by omega⟩
    obtain ⟨hquotient, hrounded⟩ := quotient_subnormal (x := x) hbits (by omega : 53 - format.mantissaBits ≤ shift)
    have hbelow : 2 ^ format.mantissaBits ≤ format.infinity :=
      Nat.le_mul_of_pos_left _ (Nat.succ_pos _)
    refine ⟨roundedQuotient (2 ^ 52 + x.fraction) shift, ?_, ?_⟩
    · have hamount : 52 - format.mantissaBits +
          (max (1 - (format.bias : Int) - ((x.exponentField : Int) - 1023)) 0).toNat = shift := by omega
      unfold f64ToHalfBits
      dsimp only
      rw [toNat_exponentField, if_neg (by omega), if_neg (by omega), if_neg (by omega),
        if_pos (by omega), hamount]
      refine toNat_signed (toNat_sign x) ?_ (by omega)
      rw [UInt64.toNat_toUInt16, toNat_roundedShift (by omega) (by omega), toNat_significand,
        Nat.mod_eq_of_lt (by omega)]
    · rw [hmagnitude, ← Nat.zero_add (roundedQuotient _ _)]
      refine @nearest_quotient format _ _ _ _ format.unitBits rfl ?_ ?_ ?_ ?_
      · unfold HalfFormat.unitBits
        omega
      · rw [Nat.zero_add]
        exact magnitude_subnormal (Nat.le_of_lt hquotient)
      · rw [Nat.zero_add]
        exact magnitude_subnormal hquotient
      · omega

/-- The result is the sign before the nearest encoding. -/
theorem f64ToHalfBits_finite (hfinite : x.exponentField < 2047) :
    ∃ encoding, (f64ToHalfBits x format.mantissaBits format.bias).toNat =
        x.sign * 2 ^ 15 + encoding ∧
      Nearest format.magnitude format.infinity x.magnitude encoding := by
  rcases Nat.lt_or_ge (x.exponentField + format.bias + format.mantissaBits) 1023 with hsmall | hlo
  · obtain ⟨hsign, hnearest⟩ := f64ToHalfBits_small hsmall
    exact ⟨0, by rw [hsign, Nat.add_zero], hnearest⟩
  · rcases Nat.lt_or_ge (format.bias + 1023) x.exponentField with hlarge | hhi
    · exact ⟨_, f64ToHalfBits_large hlarge hfinite⟩
    · exact f64ToHalfBits_rounded hlo hhi

end Rounding

/-- The sign is kept, a NaN becomes a NaN and an infinity an infinity. Every finite value is
rounded to the nearest encoding, ties to even, so that infinity is reached exactly from the
midpoint behind the largest finite encoding on. -/
theorem f64ToHalfBits_nearest (format : HalfFormat) (x : F64) :
    let half := (f64ToHalfBits x format.mantissaBits format.bias).toNat
    let encoding := half % 2 ^ 15
    half / 2 ^ 15 = x.sign ∧
    (x.IsNan → format.infinity < encoding) ∧
    (x.IsInfinite → encoding = format.infinity) ∧
    (¬ x.IsNan → ¬ x.IsInfinite →
      Nearest format.magnitude format.infinity x.magnitude encoding ∧
      (encoding = format.infinity ↔
        format.magnitude (format.infinity - 1) + format.magnitude format.infinity ≤
          2 * x.magnitude)) := by
  dsimp only
  have hpos := format.mantissa_pos
  have htop := format.infinity_eq
  have hpower : 2 ^ format.mantissaBits = 2 * 2 ^ (format.mantissaBits - 1) := by
    rw [← Nat.pow_succ', Nat.succ_eq_add_one, Nat.sub_add_cancel hpos]
  have hpayload : 0 < 2 ^ (format.mantissaBits - 1) := Nat.two_pow_pos _
  rcases Nat.lt_or_ge x.exponentField 2047 with hfinite | hspecial
  · obtain ⟨encoding, hhalf, hnearest⟩ := @f64ToHalfBits_finite format x hfinite
    have hencoding := hnearest.le_top
    have hmod : (x.sign * 2 ^ 15 + encoding) % 2 ^ 15 = encoding := by omega
    rw [hhalf, hmod]
    have hsign : (x.sign * 2 ^ 15 + encoding) / 2 ^ 15 = x.sign := by omega
    refine ⟨hsign, fun hnan => absurd hnan.1 (Nat.ne_of_lt hfinite),
      fun hinf => absurd hinf.1 (Nat.ne_of_lt hfinite), fun _ _ => ⟨hnearest, ?_⟩⟩
    refine hnearest.top_iff (halfMagnitude_increasing _)
      (Nat.mul_pos (Nat.succ_pos _) (Nat.two_pow_pos _)) ?_
    rw [HalfFormat.infinity, hpower, Nat.mul_left_comm, Nat.mul_mod_right]
  · have hfield : x.exponentField = 2047 := by
      have : x.exponentField < 2 ^ 11 := Nat.mod_lt _ (Nat.two_pow_pos 11)
      omega
    have hhalf := @f64ToHalfBits_special format x hfield
    rw [hhalf]
    refine ⟨?_, fun hnan => ?_, fun hinf => ?_, fun hnan hinf => ?_⟩
    · split <;> omega
    · rw [if_neg hnan.2]
      omega
    · rw [if_pos hinf.2]
      omega
    · exact absurd ⟨hfield, not_not.mp fun hfraction => hnan ⟨hfield, hfraction⟩⟩ hinf

/-- `65520` lies in the middle between the largest finite `f16` and infinity, and the `f64` below
it does not reach infinity. -/
theorem f64ToHalfBits_nearest_f16 :
    Nearest HalfFormat.f16.magnitude HalfFormat.f16.infinity
        (F64.mk 0x40EFFE0000000000).magnitude HalfFormat.f16.infinity ∧
      Nearest HalfFormat.f16.magnitude HalfFormat.f16.infinity
        (F64.mk 0x40EFFDFFFFFFFFFF).magnitude (HalfFormat.f16.infinity - 1) := by
  have hmidpoint : (f64ToHalfBits ⟨0x40EFFE0000000000⟩ 10 15).toNat % 2 ^ 15 =
      HalfFormat.f16.infinity := by decide +kernel
  have hbelow : (f64ToHalfBits ⟨0x40EFFDFFFFFFFFFF⟩ 10 15).toNat % 2 ^ 15 =
      HalfFormat.f16.infinity - 1 := by decide +kernel
  have hfinite : ∀ x : F64, x.exponentField ≠ 2047 → ¬ x.IsNan ∧ ¬ x.IsInfinite :=
    fun x h => ⟨fun hnan => h hnan.1, fun hinf => h hinf.1⟩
  obtain ⟨hnan, hinf⟩ := hfinite ⟨0x40EFFE0000000000⟩ (by decide +kernel)
  obtain ⟨hnan', hinf'⟩ := hfinite ⟨0x40EFFDFFFFFFFFFF⟩ (by decide +kernel)
  exact ⟨hmidpoint ▸ ((f64ToHalfBits_nearest .f16 _).2.2.2 hnan hinf).1,
    hbelow ▸ ((f64ToHalfBits_nearest .f16 _).2.2.2 hnan' hinf').1⟩

end EffectTorch
