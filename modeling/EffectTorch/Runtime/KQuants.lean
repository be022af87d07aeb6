import EffectTorch.Runtime.KQuantLayout
import Mathlib.Algebra.Order.Field.Rat
import Mathlib.Tactic.NormNum
import Mathlib.Tactic.Linarith
import Mathlib.Tactic.Ring

/-!
# The decoders of the K-quant blocks

`decode_ggml_k_block` of `runtime/src/storage.rs`, with exact arithmetic on the values. A byte is a
number; what is shifted and added to it stays below 256. The size of a block is checked first, so
every index lies in it.

Results:
1. `floatValue_fp16Bits`: a half is read exactly, subnormal ones included.
2. `decodeGgmlKBlock_exact`: a block of any fields decodes to the scaled codes, and every bit of it
   belongs to one field.
-/

namespace EffectTorch
open List Function Lib

namespace KQuant

/-! ## Bytes -/

def byteAt (bytes : List UInt8) (index : Nat) : Nat := (bytes.getD index 0).toNat

/-- `&bytes[start..stop]`. -/
def slice (bytes : List UInt8) (start stop : Nat) : List UInt8 := (bytes.drop start).take (stop - start)

/-- `byte as i8`. -/
def signed8 (byte : Nat) : Int := if byte < 128 then byte else byte - 256

/-! ## Halves -/

/-- The loop that shifts a subnormal fraction up. Ten turns suffice for a fraction of ten bits. -/
def normalizeFraction : (turns fraction exponent : Nat) → Nat × Nat
  | 0, fraction, exponent => (fraction, exponent)
  | turns + 1, fraction, exponent =>
    if fraction &&& 1024 = 0 then normalizeFraction turns (fraction <<< 1) (exponent - 1) else (fraction, exponent)

/-- The bits of an `f32` with the value of a half. -/
def fp16Bits (bits : Nat) : Nat :=
  let sign := (bits &&& 0x8000) <<< 16
  let exponent := (bits >>> 10) &&& 31
  let fraction := bits &&& 1023
  if exponent = 0 ∧ fraction = 0 then sign
  else if exponent = 0 then
    let (fraction, exponent) := normalizeFraction 10 fraction 113
    sign ||| (exponent <<< 23) ||| ((fraction &&& 1023) <<< 13)
  else if exponent = 31 then sign ||| 0x7f800000 ||| (fraction <<< 13)
  else sign ||| ((exponent + 112) <<< 23) ||| (fraction <<< 13)

/-- The exact value of a finite `f32`. -/
def floatValue (bits : Nat) : ℚ :=
  let exponent : Nat := bits / 2 ^ 23 % 2 ^ 8
  let fraction : Nat := bits % 2 ^ 23
  (if bits / 2 ^ 31 = 0 then 1 else -1) *
    if exponent = 0 then (fraction : ℚ) / 2 ^ 149 else ((2 ^ 23 + fraction) * 2 ^ exponent : ℚ) / 2 ^ 150

def fp16At (block : List UInt8) (offset : Nat) : ℚ :=
  floatValue (fp16Bits (byteAt block offset + 256 * byteAt block (offset + 1)))

/-! ## Decoders -/

def scaleMinK4 (index : Nat) (scales : List UInt8) : Nat × Nat :=
  if index < 4 then (byteAt scales index &&& 63, byteAt scales (index + 4) &&& 63)
  else
    ((byteAt scales (index + 4) &&& 0x0f) ||| ((byteAt scales (index - 4) >>> 6) <<< 4),
      (byteAt scales (index + 4) >>> 4) ||| ((byteAt scales index >>> 6) <<< 4))

/-- What a decoder writes, in order: positions and values. -/
abbrev Writes := List (Nat × ℚ)

/-- The turns of the loops over the halves, the shifts or lanes and the offsets. -/
def groupTurns (lanes : List Nat) : List (Nat × Nat × Nat) :=
  [0, 1].flatMap fun half => lanes.flatMap fun lane => [0, 16].map fun qOffset => (half, lane, qOffset)

def decodeQ2K (block : List UInt8) : Writes :=
  let scales := slice block 0 16
  let quants := slice block 16 80
  let d := fp16At block 80
  let dmin := fp16At block 82
  (groupTurns [0, 2, 4, 6]).zipIdx.flatMap fun ((half, shift, qOffset), group) =>
    let q := slice quants (half * 32) (half * 32 + 32)
    let scale := byteAt scales group
    let dl := d * ((scale &&& 0x0f : Nat) : ℚ)
    let ml := dmin * ((scale >>> 4 : Nat) : ℚ)
    (List.range 16).map fun index =>
      (group * 16 + index,
        dl * (((byteAt (slice q qOffset (qOffset + 16)) index >>> shift) &&& 3 : Nat) : ℚ) - ml)

def decodeQ3K (block : List UInt8) : Writes :=
  let hmask := slice block 0 32
  let quants := slice block 32 96
  let packedScales := slice block 96 108
  let d := fp16At block 108
  (groupTurns [0, 1, 2, 3]).zipIdx.flatMap fun ((half, lane, qOffset), group) =>
    let q := slice quants (half * 32) (half * 32 + 32)
    let shift := lane * 2
    let mask := 1 <<< (half * 4 + lane)
    let low := if group < 8 then byteAt packedScales group &&& 0x0f else byteAt packedScales (group - 8) >>> 4
    let high := (byteAt packedScales (8 + group % 4) >>> (2 * (group / 4))) &&& 3
    let scale : Int := (low ||| (high <<< 4) : Nat) - 32
    let dl := d * (scale : ℚ)
    (List.range 16).map fun index =>
      let lowQuant : Int := ((byteAt q (qOffset + index) >>> shift) &&& 3 : Nat)
      let highQuant : Int := if byteAt hmask (qOffset + index) &&& mask = 0 then 4 else 0
      (group * 16 + index, dl * ((lowQuant - highQuant : Int) : ℚ))

/-- The turns of the loops over the pairs and their sides. -/
def pairTurns : List (Nat × Nat) :=
  [0, 1, 2, 3].flatMap fun pair => [0, 1].map fun side => (pair, side)

def decodeQ4K (block : List UInt8) : Writes :=
  let d := fp16At block 0
  let dmin := fp16At block 2
  let scales := slice block 4 16
  let quants := slice block 16 144
  pairTurns.flatMap fun (pair, side) =>
    let q := slice quants (pair * 32) (pair * 32 + 32)
    let group := pair * 2 + side
    let (scale, min) := scaleMinK4 group scales
    let dl := d * (scale : ℚ)
    let ml := dmin * (min : ℚ)
    (List.range 32).map fun index =>
      let quant := if side = 0 then byteAt q index &&& 0x0f else byteAt q index >>> 4
      (group * 32 + index, dl * (quant : ℚ) - ml)

def decodeQ5K (block : List UInt8) : Writes :=
  let d := fp16At block 0
  let dmin := fp16At block 2
  let scales := slice block 4 16
  let high := slice block 16 48
  let low := slice block 48 176
  pairTurns.flatMap fun (pair, side) =>
    let ql := slice low (pair * 32) (pair * 32 + 32)
    let mask := if side = 0 then 1 <<< (pair * 2) else 1 <<< (pair * 2 + 1)
    let group := pair * 2 + side
    let (scale, min) := scaleMinK4 group scales
    let dl := d * (scale : ℚ)
    let ml := dmin * (min : ℚ)
    (List.range 32).map fun index =>
      let lowQuant := if side = 0 then byteAt ql index &&& 0x0f else byteAt ql index >>> 4
      let quant := lowQuant + if byteAt high index &&& mask = 0 then 0 else 16
      (group * 32 + index, dl * (quant : ℚ) - ml)

def decodeQ6K (block : List UInt8) : Writes :=
  let low := slice block 0 128
  let high := slice block 128 192
  let d := fp16At block 208
  [0, 1].flatMap fun half =>
    let ql := slice low (half * 64) (half * 64 + 64)
    let qh := slice high (half * 32) (half * 32 + 32)
    (List.range 32).flatMap fun index =>
      let scaleLane := index / 16
      let quants := [
        (byteAt ql index &&& 0x0f) ||| (((byteAt qh index >>> 0) &&& 3) <<< 4),
        (byteAt ql (index + 32) &&& 0x0f) ||| (((byteAt qh index >>> 2) &&& 3) <<< 4),
        (byteAt ql index >>> 4) ||| (((byteAt qh index >>> 4) &&& 3) <<< 4),
        (byteAt ql (index + 32) >>> 4) ||| (((byteAt qh index >>> 6) &&& 3) <<< 4)]
      quants.zipIdx.map fun (quant, quarter) =>
        let scaleIndex := half * 8 + scaleLane + quarter * 2
        let scale := signed8 (byteAt block (192 + scaleIndex))
        let quant : Int := (quant : Int) - 32
        (half * 128 + quarter * 32 + index, d * (scale : ℚ) * (quant : ℚ))

def decodeWrites : GgmlKQuant → List UInt8 → Writes
  | .q2K => decodeQ2K
  | .q3K => decodeQ3K
  | .q4K => decodeQ4K
  | .q5K => decodeQ5K
  | .q6K => decodeQ6K

/-- The output, and what the decoder writes into it. -/
def decodeGgmlKBlock (codec : GgmlKQuant) (block : List UInt8) (output : List ℚ) : Fallible String (List ℚ) := do
  let expected := codec.blockBytes
  rejectIf (block.length ≠ expected)
    (codec.name ++ " block has " ++ toString block.length ++ " bytes, expected " ++ toString expected)
  .ok ((decodeWrites codec block).foldl (fun output write => output.set write.1 write.2) output)

/-! ## Exact halves -/

/-- The value of a finite half. -/
def halfValue (bits : Nat) : ℚ :=
  (if bits / 2 ^ 15 = 0 then 1 else -1) *
    if bits / 2 ^ 10 % 2 ^ 5 = 0 then ((bits % 2 ^ 10 : Nat) : ℚ) / 2 ^ 24
    else ((2 ^ 10 + (bits % 2 ^ 10 : Nat)) * 2 ^ (bits / 2 ^ 10 % 2 ^ 5) : ℚ) / 2 ^ 25

def FiniteHalf (bits : Nat) : Prop := bits / 2 ^ 10 % 2 ^ 5 ≠ 31

instance : DecidablePred FiniteHalf := fun bits => inferInstanceAs (Decidable (bits / 2 ^ 10 % 2 ^ 5 ≠ 31))

section Halves

/-- Numbers whose bits do not overlap. -/
theorem or_shiftLeft {a i : Nat} (h : a < 2 ^ i) (b : Nat) : a ||| (b <<< i) = a + 2 ^ i * b := by
  rw [Nat.or_comm, ← Nat.shiftLeft_add_eq_or_of_lt h, Nat.shiftLeft_eq, Nat.mul_comm, Nat.add_comm]

theorem shiftLeft_or {a i : Nat} (h : a < 2 ^ i) (b : Nat) : (b <<< i) ||| a = 2 ^ i * b + a := by
  rw [Nat.or_comm, or_shiftLeft h, Nat.add_comm]

theorem normalizeFraction_eq {turns fraction : Nat} (exponent : Nat) (hpos : 2 ^ 10 ≤ fraction * 2 ^ turns)
    (hlt : fraction < 2 ^ 11) : ∃ k ≤ turns, normalizeFraction turns fraction exponent = (fraction * 2 ^ k, exponent - k) ∧
      2 ^ 10 ≤ fraction * 2 ^ k ∧ fraction * 2 ^ k < 2 ^ 11 := by
  induction turns generalizing fraction exponent with
  | zero =>
    rw [Nat.pow_zero, Nat.mul_one] at hpos
    exact ⟨0, Nat.le_refl 0, by rw [normalizeFraction, Nat.pow_zero, Nat.mul_one, Nat.sub_zero], by simpa using hpos,
      by simpa using hlt⟩
  | succ turns ih =>
    have hbit : (fraction &&& 1024 = 0) ↔ fraction < 2 ^ 10 := by
      have hmask := Nat.and_two_pow fraction 10
      have htest := Nat.testBit_eq_decide_div_mod_eq (x := fraction) (i := 10)
      rw [show (1024 : Nat) = 2 ^ 10 from rfl, hmask, htest]
      rcases Nat.lt_or_ge fraction (2 ^ 10) with h | h
      · rw [Nat.div_eq_of_lt h]
        exact ⟨fun _ => h, fun _ => rfl⟩
      · have hone : fraction / 2 ^ 10 = 1 := by omega
        rw [hone]
        exact ⟨nofun, fun hlt => absurd hlt (Nat.not_lt.mpr h)⟩
    rw [normalizeFraction]
    split
    · next h =>
      have hsmall := hbit.mp h
      rw [show 2 ^ (turns + 1) = 2 * 2 ^ turns from Nat.pow_succ', ← Nat.mul_assoc] at hpos
      obtain ⟨k, hk, hrun, hlo, hhi⟩ := @ih (fraction <<< 1) (exponent - 1)
        (by rwa [Nat.shiftLeft_eq, Nat.pow_one]) (by rw [Nat.shiftLeft_eq]; omega)
      have hscale : fraction <<< 1 * 2 ^ k = fraction * 2 ^ (k + 1) := by
        rw [Nat.shiftLeft_eq, Nat.pow_one, Nat.mul_assoc, ← Nat.pow_succ']
      rw [hscale] at hrun hlo hhi
      exact ⟨k + 1, Nat.succ_le_succ hk, by rw [hrun, Nat.sub_sub, Nat.add_comm 1], hlo, hhi⟩
    · next h =>
      refine ⟨0, Nat.zero_le _, ?_, ?_, ?_⟩
      · rw [Nat.pow_zero, Nat.mul_one, Nat.sub_zero]
      · rw [Nat.pow_zero, Nat.mul_one]
        exact Nat.not_lt.mp fun hlt => h (hbit.mpr hlt)
      · rwa [Nat.pow_zero, Nat.mul_one]

/-- The value of the bits of a sign, an exponent and a fraction. -/
theorem floatValue_fields {s e m : Nat} (he : e < 2 ^ 8) (hm : m < 2 ^ 23) :
    floatValue (s <<< 31 ||| e <<< 23 ||| m) = (if s = 0 then 1 else -1) *
      if e = 0 then (m : ℚ) / 2 ^ 149 else ((2 ^ 23 + m) * 2 ^ e : ℚ) / 2 ^ 150 := by
  have hexponent : e <<< 23 < 2 ^ 31 := by
    rw [Nat.shiftLeft_eq]
    omega
  have hword : s <<< 31 ||| e <<< 23 ||| m = 2 ^ 31 * s + 2 ^ 23 * e + m := by
    have hhigh : 2 ^ 31 * s + e <<< 23 = (2 ^ 8 * s + e) <<< 23 := by
      rw [Nat.shiftLeft_eq, Nat.shiftLeft_eq]
      ring
    rw [shiftLeft_or hexponent, hhigh, shiftLeft_or hm]
    ring
  have hsign : (2 ^ 31 * s + 2 ^ 23 * e + m) / 2 ^ 31 = s := by omega
  have hexp : (2 ^ 31 * s + 2 ^ 23 * e + m) / 2 ^ 23 % 2 ^ 8 = e := by omega
  have hfraction : (2 ^ 31 * s + 2 ^ 23 * e + m) % 2 ^ 23 = m := by omega
  simp only [floatValue, hword, hsign, hexp, hfraction]

/-- A finite half is read exactly. -/
theorem floatValue_fp16Bits {bits : Nat} (hbits : bits < 2 ^ 16) (hfinite : FiniteHalf bits) :
    floatValue (fp16Bits bits) = halfValue bits := by
  have hsign : (bits &&& 0x8000) <<< 16 = (bits / 2 ^ 15) <<< 31 := by
    have htop : bits / 2 ^ 15 < 2 := by omega
    rw [show (0x8000 : Nat) = 2 ^ 15 from rfl, Nat.and_two_pow, Nat.testBit_eq_decide_div_mod_eq, Nat.mod_eq_of_lt htop,
      Nat.shiftLeft_eq, Nat.shiftLeft_eq]
    obtain h | h : bits / 2 ^ 15 = 0 ∨ bits / 2 ^ 15 = 1 := by omega
    · rw [h]; rfl
    · rw [h]; rfl
  have hexponent : (bits >>> 10) &&& 31 = bits / 2 ^ 10 % 2 ^ 5 := by
    rw [show (31 : Nat) = 2 ^ 5 - 1 from rfl, Nat.and_two_pow_sub_one_eq_mod, Nat.shiftRight_eq_div_pow]
  have hfraction : bits &&& 1023 = bits % 2 ^ 10 := Nat.and_two_pow_sub_one_eq_mod bits 10
  obtain ⟨e, he⟩ : ∃ e, bits / 2 ^ 10 % 2 ^ 5 = e := ⟨_, rfl⟩
  obtain ⟨m, hm⟩ : ∃ m, bits % 2 ^ 10 = m := ⟨_, rfl⟩
  have hmlt : m < 2 ^ 10 := hm ▸ Nat.mod_lt _ (by decide)
  have helt : e < 31 := by
    have hne : e ≠ 31 := he ▸ hfinite
    have hlt : e < 2 ^ 5 := he ▸ Nat.mod_lt _ (by decide)
    omega
  rw [fp16Bits, halfValue, hsign, hexponent, hfraction, he, hm]
  dsimp only
  by_cases hzero : e = 0
  · subst hzero
    rw [if_pos rfl]
    by_cases hnone : m = 0
    · subst hnone
      rw [if_pos ⟨rfl, rfl⟩]
      have h := @floatValue_fields (bits / 2 ^ 15) 0 0 (by decide) (by decide)
      rw [Nat.zero_shiftLeft, Nat.or_zero, Nat.or_zero, if_pos rfl] at h
      rw [h]
      norm_num
    · rw [if_neg fun h => hnone h.2, if_pos rfl]
      obtain ⟨k, hk, hrun, hlo, hhi⟩ := @normalizeFraction_eq 10 m 113 (by omega) (by omega)
      have hlow : m * 2 ^ k &&& 1023 = m * 2 ^ k - 2 ^ 10 := by
        rw [show (1023 : Nat) = 2 ^ 10 - 1 from rfl, Nat.and_two_pow_sub_one_eq_mod]
        omega
      rw [hrun]
      dsimp only
      have hnormal : ¬ 113 - k = 0 := by omega
      rw [hlow, floatValue_fields (by omega) (by rw [Nat.shiftLeft_eq]; omega), if_neg hnormal, Nat.shiftLeft_eq]
      refine congrArg _ ?_
      have hsplit : (2 ^ 23 + ((m * 2 ^ k - 2 ^ 10) * 2 ^ 13 : Nat) : ℚ) = m * 2 ^ k * 2 ^ 13 := by
        rw [Nat.cast_mul, Nat.cast_sub hlo]
        push_cast
        ring
      have hpower : (2 : ℚ) ^ k * 2 ^ (113 - k) = 2 ^ 113 := by
        rw [← pow_add, Nat.add_sub_cancel' (by omega)]
      rw [hsplit]
      calc (m * 2 ^ k * 2 ^ 13 * 2 ^ (113 - k) : ℚ) / 2 ^ 150
          = (m : ℚ) * (2 ^ k * 2 ^ (113 - k)) * 2 ^ 13 / 2 ^ 150 := by ring
        _ = (m : ℚ) / 2 ^ 24 := by rw [hpower]; ring
  · have hnormal : ¬ e + 112 = 0 := Nat.succ_ne_zero _
    rw [if_neg fun h => hzero h.1, if_neg hzero, if_neg (Nat.ne_of_lt helt), if_neg hzero,
      floatValue_fields (by omega) (by rw [Nat.shiftLeft_eq]; omega), if_neg hnormal, Nat.shiftLeft_eq, pow_add]
    push_cast
    ring

end Halves

/-! ## What the decoders read -/

section Reads

variable {bytes block : List UInt8} {run run' : Run}

theorem byteAt_slice {start stop index : Nat} (h : index < stop - start) :
    byteAt (slice bytes start stop) index = byteAt bytes (start + index) := by
  rw [byteAt, byteAt, slice, getD_eq_getElem?_getD, List.getElem?_take_of_lt h, List.getElem?_drop,
    ← getD_eq_getElem?_getD]

theorem byteAt_lt (bytes : List UInt8) (index : Nat) : byteAt bytes index < 2 ^ 8 := UInt8.toNat_lt _

theorem and_mask (n w : Nat) : n &&& (2 ^ w - 1) = n % 2 ^ w := Nat.and_two_pow_sub_one_eq_mod n w

theorem readRuns_one : readRuns bytes [run] = (byteAt bytes run.byte >>> run.shift) % 2 ^ run.width := by
  rw [readRuns, readRuns, Nat.mul_zero, Nat.add_zero]
  rfl

theorem readRuns_two : readRuns bytes [run, run'] = (byteAt bytes run.byte >>> run.shift) % 2 ^ run.width +
    2 ^ run.width * ((byteAt bytes run'.byte >>> run'.shift) % 2 ^ run'.width) := by
  rw [readRuns, readRuns_one]
  rfl

/-- The high bits of a byte. -/
theorem shiftRight_high {n shift width : Nat} (h : n < 2 ^ (shift + width)) : n >>> shift = (n >>> shift) % 2 ^ width := by
  refine (Nat.mod_eq_of_lt ?_).symm
  rw [Nat.shiftRight_eq_div_pow]
  exact Nat.div_lt_of_lt_mul (by rwa [← Nat.pow_add])

/-- The half of a byte that a side names. -/
theorem nibble_eq {n side : Nat} (hn : n < 2 ^ 8) (hside : side < 2) :
    (if side = 0 then n &&& 0x0f else n >>> 4) = (n >>> (4 * side)) % 2 ^ 4 := by
  obtain rfl | rfl : side = 0 ∨ side = 1 := by omega
  · exact and_mask n 4
  · exact shiftRight_high hn

/-- A bit that a mask picks, with a weight. -/
theorem mask_weight (n k weight : Nat) :
    (if n &&& (1 <<< k) = 0 then 0 else weight) = weight * ((n >>> k) % 2 ^ 1) := by
  rw [Nat.one_shiftLeft, Nat.and_two_pow, Nat.testBit_eq_decide_div_mod_eq, Nat.shiftRight_eq_div_pow, Nat.pow_one]
  obtain h | h : n / 2 ^ k % 2 = 0 ∨ n / 2 ^ k % 2 = 1 := by omega
  · rw [h, Nat.mul_zero]
    exact if_pos (Nat.zero_mul _)
  · rw [h, Nat.mul_one]
    refine if_neg fun hzero => ?_
    exact Nat.ne_of_gt (Nat.two_pow_pos k) ((Nat.one_mul _).symm.trans hzero)

theorem fp16At_eq {offset : Nat} (hfinite : FiniteHalf (readRuns block (halfAt offset))) :
    fp16At block offset = halfValue (readRuns block (halfAt offset)) := by
  have hread : readRuns block (halfAt offset) = byteAt block offset + 256 * byteAt block (offset + 1) := by
    rw [halfAt, readRuns_two, Nat.shiftRight_zero, Nat.shiftRight_zero, Nat.mod_eq_of_lt (byteAt_lt _ _),
      Nat.mod_eq_of_lt (byteAt_lt _ _)]
    rfl
  have hlow := byteAt_lt block offset
  have hhigh := byteAt_lt block (offset + 1)
  rw [hread] at hfinite ⊢
  exact floatValue_fp16Bits (by omega) hfinite

end Reads

/-! ## Exact blocks -/

/-- The fields of a codec and their bits. -/
def layoutOf : (codec : GgmlKQuant) → BitLayout Field codec.blockBytes
  | .q2K => q2KLayout
  | .q3K => q3KLayout
  | .q4K => q4KLayout
  | .q5K => q5KLayout
  | .q6K => q6KLayout

/-- The group of a position, for groups of `n`. -/
def groupOf (codec : GgmlKQuant) (p : Fin 256) : Fin 16 :=
  match codec with
  | .q4K | .q5K => ⟨p / 32, by omega⟩
  | .q2K | .q3K | .q6K => ⟨p / 16, by omega⟩

/-- A group scale, with the bias of Q3_K and the sign of Q6_K. -/
def scaleValue : GgmlKQuant → Nat → Int
  | .q3K, scale => (scale : Int) - 32
  | .q6K, scale => signed8 scale
  | .q2K, scale | .q4K, scale | .q5K, scale => scale

/-- A code, with the bias of Q3_K and Q6_K. -/
def codeValue : GgmlKQuant → Nat → Int
  | .q3K, code => (code : Int) - 4
  | .q6K, code => (code : Int) - 32
  | .q2K, code | .q4K, code | .q5K, code => code

/-- The value at a position of a block with the fields `v`. Q3_K and Q6_K have no minima: the bits of
these fields are none, so their value is zero. -/
def decoded (codec : GgmlKQuant) (v : Field → Nat) (p : Fin 256) : ℚ :=
  halfValue (v .d) * (scaleValue codec (v (.scale (groupOf codec p))) : ℚ) * (codeValue codec (v (.code p)) : ℚ) -
    halfValue (v .dmin) * ((v (.minimum (groupOf codec p)) : Nat) : ℚ)

/-- Each position is written, always with the same value. -/
structure WritesEach (writes : Writes) (f : Fin 256 → ℚ) : Prop where
  sound : ∀ w ∈ writes, ∃ p : Fin 256, w = (p.val, f p)
  complete : ∀ p : Fin 256, ∃ w ∈ writes, w.1 = p.val

section Writes

variable {writes : Writes} {f : Fin 256 → ℚ} {block : List UInt8}

/-- Groups that are written one after the other. -/
theorem writesEach_groups {n : Nat} {value : Nat → Nat → ℚ} (hn : n * (256 / n) = 256)
    (hvalue : ∀ g i (h : g * n + i < 256), i < n → value g i = f ⟨g * n + i, h⟩) :
    WritesEach ((List.range (256 / n)).flatMap fun g => (List.range n).map fun i => (g * n + i, value g i)) f := by
  constructor
  · intro w hw
    obtain ⟨g, hg, hw⟩ := mem_flatMap.mp hw
    obtain ⟨i, hi, rfl⟩ := mem_map.mp hw
    have hlt : g * n + i < 256 := by
      have hroom : (g + 1) * n ≤ 256 / n * n := Nat.mul_le_mul_right n (mem_range.mp hg)
      rw [Nat.succ_mul, Nat.mul_comm (256 / n), hn] at hroom
      exact Nat.lt_of_lt_of_le (Nat.add_lt_add_left (mem_range.mp hi) _) hroom
    exact ⟨⟨g * n + i, hlt⟩, by rw [hvalue g i hlt (mem_range.mp hi)]⟩
  · intro p
    have hpos : 0 < n := Nat.pos_of_ne_zero fun h => by rw [h, Nat.zero_mul] at hn; cases hn
    refine ⟨(p / n * n + p % n, value (p / n) (p % n)), mem_flatMap.mpr ⟨p / n, ?_, ?_⟩, Nat.div_add_mod' _ _⟩
    · exact mem_range.mpr (Nat.div_lt_of_lt_mul (by rw [hn]; exact p.isLt))
    · exact mem_map.mpr ⟨p % n, mem_range.mpr (Nat.mod_lt _ hpos), rfl⟩

theorem groupTurns_shifts : (groupTurns [0, 2, 4, 6]).zipIdx =
    (List.range (256 / 16)).map fun g => ((g / 8, 2 * (g % 8 / 2), 16 * (g % 2)), g) := by decide

theorem groupTurns_lanes : (groupTurns [0, 1, 2, 3]).zipIdx =
    (List.range (256 / 16)).map fun g => ((g / 8, g % 8 / 2, 16 * (g % 2)), g) := by decide

theorem pairTurns_eq : pairTurns = (List.range (256 / 32)).map fun g => (g / 2, g % 2) := by decide

theorem decodeQ2K_each (hd : FiniteHalf (q2KLayout.read block .d)) (hdmin : FiniteHalf (q2KLayout.read block .dmin)) :
    WritesEach (decodeQ2K block) (decoded .q2K (q2KLayout.read block)) := by
  rw [decodeQ2K, groupTurns_shifts, flatMap_map]
  refine writesEach_groups (n := 16) rfl fun g i h hi => ?_
  have hg : g < 16 := by omega
  have hgroup : groupOf .q2K ⟨g * 16 + i, h⟩ = ⟨g, hg⟩ := Fin.ext (by simp only [groupOf]; omega)
  have hscale : byteAt (slice block 0 16) g &&& 15 = q2KLayout.read block (.scale ⟨g, hg⟩) := by
    rw [byteAt_slice (by omega), Nat.zero_add, show q2KLayout.read block (.scale ⟨g, hg⟩) = _ from readRuns_one]
    exact and_mask _ 4
  have hminimum : byteAt (slice block 0 16) g >>> 4 = q2KLayout.read block (.minimum ⟨g, hg⟩) := by
    rw [byteAt_slice (by omega), Nat.zero_add, show q2KLayout.read block (.minimum ⟨g, hg⟩) = _ from readRuns_one]
    exact shiftRight_high (byteAt_lt block g)
  have hcode : (byteAt (slice (slice (slice block 16 80) (g / 8 * 32) (g / 8 * 32 + 32)) (16 * (g % 2))
      (16 * (g % 2) + 16)) i >>> (2 * (g % 8 / 2))) &&& 3 = q2KLayout.read block (.code ⟨g * 16 + i, h⟩) := by
    rw [byteAt_slice (by omega), byteAt_slice (by omega), byteAt_slice (by omega)]
    have hbyte : 16 + (g / 8 * 32 + (16 * (g % 2) + i)) = 16 + (g * 16 + i) / 128 * 32 + (g * 16 + i) % 32 := by omega
    have hshift : 2 * (g % 8 / 2) = 2 * ((g * 16 + i) % 128 / 32) := by omega
    rw [hbyte, hshift, show q2KLayout.read block (.code ⟨g * 16 + i, h⟩) = _ from readRuns_one]
    exact and_mask _ 2
  rw [decoded, hgroup, hscale, hminimum, hcode, fp16At_eq hd, fp16At_eq hdmin]
  rfl

/-- The scale and the minimum of a group, split for the last four groups. -/
theorem scaleMinK4_eq {g : Nat} (hg : g < 8) : scaleMinK4 g (slice block 4 16) =
    (readRuns block (k4Runs (.scale ⟨g, Nat.lt_trans hg (by decide)⟩)),
      readRuns block (k4Runs (.minimum ⟨g, Nat.lt_trans hg (by decide)⟩))) := by
  have hhigh : ∀ index, byteAt block index >>> 6 = (byteAt block index >>> 6) % 2 ^ 2 :=
    fun index => shiftRight_high (byteAt_lt block index)
  have hnibble : ∀ index, byteAt block index >>> 4 = (byteAt block index >>> 4) % 2 ^ 4 :=
    fun index => shiftRight_high (byteAt_lt block index)
  rw [scaleMinK4]
  split
  · next h =>
    simp only [k4Runs, if_pos h, readRuns_one, Nat.shiftRight_zero]
    rw [byteAt_slice (by omega), byteAt_slice (by omega), ← Nat.add_assoc, Nat.add_right_comm]
    exact Prod.ext (and_mask _ 6) (and_mask _ 6)
  · next h =>
    have hfirst : 4 + (g + 4) = 8 + g := by omega
    have hsecond : 4 + (g - 4) = g := by omega
    simp only [k4Runs, if_neg h, if_pos hg, readRuns_two, Nat.shiftRight_zero]
    rw [byteAt_slice (by omega), byteAt_slice (by omega), byteAt_slice (by omega), hfirst, hsecond]
    refine Prod.ext ?_ ?_
    · rw [show byteAt block (8 + g) &&& 0x0f = byteAt block (8 + g) % 2 ^ 4 from and_mask _ 4,
        or_shiftLeft (Nat.mod_lt _ (by decide)), ← hhigh]
    · have hlow : byteAt block (8 + g) >>> 4 < 2 ^ 4 := by
        rw [hnibble]
        exact Nat.mod_lt _ (by decide)
      dsimp only
      rw [or_shiftLeft hlow, ← hnibble, ← hhigh]

theorem decodeQ4K_each (hd : FiniteHalf (q4KLayout.read block .d)) (hdmin : FiniteHalf (q4KLayout.read block .dmin)) :
    WritesEach (decodeQ4K block) (decoded .q4K (q4KLayout.read block)) := by
  rw [decodeQ4K, pairTurns_eq, flatMap_map]
  have hgroup : ∀ g, g / 2 * 2 + g % 2 = g := fun g => Nat.div_add_mod' g 2
  simp only [hgroup]
  refine writesEach_groups (n := 32) rfl fun g i h hi => ?_
  have hg : g < 8 := by omega
  have hgroup : groupOf .q4K ⟨g * 32 + i, h⟩ = ⟨g, Nat.lt_trans hg (by decide)⟩ :=
    Fin.ext (by simp only [groupOf]; omega)
  have hcode : (if g % 2 = 0 then byteAt (slice (slice block 16 144) (g / 2 * 32) (g / 2 * 32 + 32)) i &&& 0x0f
      else byteAt (slice (slice block 16 144) (g / 2 * 32) (g / 2 * 32 + 32)) i >>> 4) =
        q4KLayout.read block (.code ⟨g * 32 + i, h⟩) := by
    have hbyte : 16 + (g / 2 * 32 + i) = 16 + (g * 32 + i) / 64 * 32 + (g * 32 + i) % 32 := by omega
    have hside : g % 2 = (g * 32 + i) % 64 / 32 := by omega
    rw [byteAt_slice (by omega), byteAt_slice (by omega), nibble_eq (byteAt_lt _ _) (Nat.mod_lt _ (by decide)), hbyte,
      hside]
    exact (show q4KLayout.read block (.code ⟨g * 32 + i, h⟩) = _ from readRuns_one).symm
  rw [decoded, hgroup, hcode, fp16At_eq hd, fp16At_eq hdmin, scaleMinK4_eq hg]
  rfl

theorem decodeQ5K_each (hd : FiniteHalf (q5KLayout.read block .d)) (hdmin : FiniteHalf (q5KLayout.read block .dmin)) :
    WritesEach (decodeQ5K block) (decoded .q5K (q5KLayout.read block)) := by
  rw [decodeQ5K, pairTurns_eq, flatMap_map]
  have hgroup : ∀ g, g / 2 * 2 + g % 2 = g := fun g => Nat.div_add_mod' g 2
  simp only [hgroup]
  refine writesEach_groups (n := 32) rfl fun g i h hi => ?_
  have hg : g < 8 := by omega
  have hgroup : groupOf .q5K ⟨g * 32 + i, h⟩ = ⟨g, Nat.lt_trans hg (by decide)⟩ :=
    Fin.ext (by simp only [groupOf]; omega)
  have hmask : (if g % 2 = 0 then 1 <<< (g / 2 * 2) else 1 <<< (g / 2 * 2 + 1)) = 1 <<< g := by
    split
    · exact congrArg (1 <<< ·) (by omega)
    · exact congrArg (1 <<< ·) (by omega)
  have hcode : ((if g % 2 = 0 then byteAt (slice (slice block 48 176) (g / 2 * 32) (g / 2 * 32 + 32)) i &&& 0x0f
      else byteAt (slice (slice block 48 176) (g / 2 * 32) (g / 2 * 32 + 32)) i >>> 4) +
      if byteAt (slice block 16 48) i &&& 1 <<< g = 0 then 0 else 16) =
        q5KLayout.read block (.code ⟨g * 32 + i, h⟩) := by
    have hbyte : 48 + (g / 2 * 32 + i) = 48 + (g * 32 + i) / 64 * 32 + (g * 32 + i) % 32 := by omega
    have hside : g % 2 = (g * 32 + i) % 64 / 32 := by omega
    have hhigh : 16 + i = 16 + (g * 32 + i) % 32 := by omega
    have hbit : g = (g * 32 + i) / 32 := by omega
    rw [byteAt_slice (by omega), byteAt_slice (by omega), byteAt_slice (by omega),
      nibble_eq (byteAt_lt _ _) (Nat.mod_lt _ (by decide)), mask_weight, hbyte, hside, hhigh]
    refine Eq.trans ?_ (show q5KLayout.read block (.code ⟨g * 32 + i, h⟩) = _ from readRuns_two).symm
    simp only [← hbit]
    rfl
  rw [decoded, hgroup, hmask, hcode, fp16At_eq hd, fp16At_eq hdmin, scaleMinK4_eq hg]
  rfl

theorem decodeQ3K_each (hd : FiniteHalf (q3KLayout.read block .d)) :
    WritesEach (decodeQ3K block) (decoded .q3K (q3KLayout.read block)) := by
  rw [decodeQ3K, groupTurns_lanes, flatMap_map]
  refine writesEach_groups (n := 16) rfl fun g i h hi => ?_
  have hg : g < 16 := by omega
  have hgroup : groupOf .q3K ⟨g * 16 + i, h⟩ = ⟨g, hg⟩ := Fin.ext (by simp only [groupOf]; omega)
  have hscale : (if g < 8 then byteAt (slice block 96 108) g &&& 0x0f else byteAt (slice block 96 108) (g - 8) >>> 4) |||
      ((byteAt (slice block 96 108) (8 + g % 4) >>> (2 * (g / 4))) &&& 3) <<< 4 =
        q3KLayout.read block (.scale ⟨g, hg⟩) := by
    have hlow : (if g < 8 then byteAt (slice block 96 108) g &&& 0x0f else byteAt (slice block 96 108) (g - 8) >>> 4) =
        (byteAt block (96 + g % 8) >>> (4 * (g / 8))) % 2 ^ 4 := by
      split
      · next hfirst =>
        rw [byteAt_slice (by omega), Nat.mod_eq_of_lt hfirst, Nat.div_eq_of_lt hfirst]
        exact and_mask _ 4
      · next hsecond =>
        have hbyte : 96 + (g - 8) = 96 + g % 8 := by omega
        have hshift : g / 8 = 1 := by omega
        rw [byteAt_slice (by omega), hbyte, hshift]
        exact shiftRight_high (byteAt_lt _ _)
    have hhigh : (byteAt (slice block 96 108) (8 + g % 4) >>> (2 * (g / 4))) &&& 3 =
        (byteAt block (104 + g % 4) >>> (2 * (g / 4))) % 2 ^ 2 := by
      rw [byteAt_slice (by omega), ← Nat.add_assoc]
      exact and_mask _ 2
    rw [hlow, hhigh, or_shiftLeft (Nat.mod_lt _ (by decide))]
    exact (show q3KLayout.read block (.scale ⟨g, hg⟩) = _ from readRuns_two).symm
  have hcode : ((byteAt (slice (slice block 32 96) (g / 8 * 32) (g / 8 * 32 + 32)) (16 * (g % 2) + i) >>> (g % 8 / 2 * 2)
      &&& 3 : Nat) : Int) -
      (if byteAt (slice block 0 32) (16 * (g % 2) + i) &&& 1 <<< (g / 8 * 4 + g % 8 / 2) = 0 then 4 else 0) =
        (q3KLayout.read block (.code ⟨g * 16 + i, h⟩) : Int) - 4 := by
    have hbyte : 32 + (g / 8 * 32 + (16 * (g % 2) + i)) = 32 + (g * 16 + i) / 128 * 32 + (g * 16 + i) % 32 := by omega
    have hshift : g % 8 / 2 * 2 = 2 * ((g * 16 + i) % 128 / 32) := by omega
    have hhigh : 0 + (16 * (g % 2) + i) = (g * 16 + i) % 32 := by omega
    have hbit : g / 8 * 4 + g % 8 / 2 = (g * 16 + i) / 32 := by omega
    have hflip : ∀ n k : Nat, (if n &&& (1 <<< k) = 0 then (4 : Int) else 0) = 4 - (4 * ((n >>> k) % 2 ^ 1) : Nat) := by
      intro n k
      rw [← mask_weight]
      split
      · rfl
      · rfl
    have hread : q3KLayout.read block (.code ⟨g * 16 + i, h⟩) = _ := readRuns_two
    rw [byteAt_slice (by omega), byteAt_slice (by omega), byteAt_slice (by omega), hflip, hbyte, hshift, hhigh, hbit,
      hread, Nat.cast_add, show ∀ n, n &&& 3 = n % 2 ^ 2 from fun n => and_mask n 2]
    dsimp only
    omega
  have hnone : q3KLayout.read block (.minimum ⟨g, hg⟩) = 0 := rfl
  rw [decoded, hgroup, hscale, hcode, fp16At_eq hd, hnone, Nat.cast_zero, mul_zero, sub_zero]
  rfl

/-- The code that the loop over the quarters meets. -/
def q6KCode (block : List UInt8) (half index quarter : Nat) : Nat :=
  (byteAt block (half * 64 + (index + 32 * (quarter % 2))) >>> (4 * (quarter / 2))) % 2 ^ 4 +
    2 ^ 4 * ((byteAt block (128 + (half * 32 + index)) >>> (2 * quarter)) % 2 ^ 2)

theorem decodeQ6K_eq : decodeQ6K block = [0, 1].flatMap fun half => (List.range 32).flatMap fun index =>
    (List.range 4).map fun quarter => (half * 128 + quarter * 32 + index,
      fp16At block 208 * ((signed8 (byteAt block (192 + (half * 8 + index / 16 + quarter * 2))) : Int) : ℚ) *
        (((q6KCode block half index quarter : Int) - 32 : Int) : ℚ)) := by
  rw [decodeQ6K]
  refine flatMap_congr fun half hhalf => flatMap_congr fun index hindex => ?_
  have hhalf := mem_range.mp (show half ∈ List.range 2 from hhalf)
  have hindex := mem_range.mp hindex
  have hjoin : ∀ {a : Nat} (b shift : Nat), a < 2 ^ 4 → a ||| ((b >>> shift) &&& 3) <<< 4 =
      a + 2 ^ 4 * ((b >>> shift) % 2 ^ 2) := by
    intro a b shift ha
    rw [show (b >>> shift) &&& 3 = (b >>> shift) % 2 ^ 2 from and_mask _ 2, or_shiftLeft ha]
  have hlow : ∀ i, byteAt block i &&& 0x0f = byteAt block i >>> 0 % 2 ^ 4 := fun i => and_mask _ 4
  have htop : ∀ i, byteAt block i >>> 4 = (byteAt block i >>> 4) % 2 ^ 4 := fun i => shiftRight_high (byteAt_lt block i)
  have hlt : ∀ n, n % 2 ^ 4 < 2 ^ 4 := fun n => Nat.mod_lt n (by decide)
  dsimp only
  rw [byteAt_slice (by omega), byteAt_slice (by omega), byteAt_slice (by omega), byteAt_slice (by omega),
    byteAt_slice (by omega), byteAt_slice (by omega), Nat.zero_add, Nat.zero_add, hlow, hlow,
    hjoin _ _ (hlt _), hjoin _ _ (hlt _), hjoin _ _ (htop _ ▸ hlt _), hjoin _ _ (htop _ ▸ hlt _)]
  rw [htop, htop (half * 64 + (index + 32))]
  rfl

theorem decodeQ6K_each (hd : FiniteHalf (q6KLayout.read block .d)) :
    WritesEach (decodeQ6K block) (decoded .q6K (q6KLayout.read block)) := by
  have hvalue : ∀ half < 2, ∀ quarter < 4, ∀ index < 32, ∃ p : Fin 256, p.val = half * 128 + quarter * 32 + index ∧
      fp16At block 208 * ((signed8 (byteAt block (192 + (half * 8 + index / 16 + quarter * 2))) : Int) : ℚ) *
        (((q6KCode block half index quarter : Int) - 32 : Int) : ℚ) = decoded .q6K (q6KLayout.read block) p := by
    intro half hhalf quarter hquarter index hindex
    have hlt : half * 128 + quarter * 32 + index < 256 := by omega
    have hg : half * 8 + index / 16 + quarter * 2 < 16 := by omega
    have hgroup : groupOf .q6K ⟨_, hlt⟩ = ⟨_, hg⟩ := Fin.ext (by simp only [groupOf]; omega)
    have hscale : q6KLayout.read block (.scale ⟨_, hg⟩) = byteAt block (192 + (half * 8 + index / 16 + quarter * 2)) :=
      Eq.trans (show q6KLayout.read block (.scale ⟨_, hg⟩) = _ from readRuns_one) (Nat.mod_eq_of_lt (byteAt_lt _ _))
    have hcode : q6KLayout.read block (.code ⟨_, hlt⟩) = q6KCode block half index quarter := by
      have hbyte : half * 64 + (index + 32 * (quarter % 2)) = (half * 128 + quarter * 32 + index) / 128 * 64 +
        (half * 128 + quarter * 32 + index) % 64 := by omega
      have hside : quarter / 2 = (half * 128 + quarter * 32 + index) % 128 / 64 := by omega
      have hplane : 128 + (half * 32 + index) = 128 + (half * 128 + quarter * 32 + index) / 128 * 32 +
        (half * 128 + quarter * 32 + index) % 32 := by omega
      have hshift : 2 * quarter = 2 * ((half * 128 + quarter * 32 + index) % 128 / 32) := by omega
      rw [q6KCode, hbyte, hside, hplane, hshift]
      exact readRuns_two
    refine ⟨⟨_, hlt⟩, rfl, ?_⟩
    have hnone : q6KLayout.read block (.minimum ⟨_, hg⟩) = 0 := rfl
    rw [decoded, hgroup, hscale, hcode, fp16At_eq hd, hnone, Nat.cast_zero, mul_zero, sub_zero]
    rfl
  rw [decodeQ6K_eq]
  constructor
  · intro w hw
    obtain ⟨half, hhalf, hw⟩ := mem_flatMap.mp hw
    obtain ⟨index, hindex, hw⟩ := mem_flatMap.mp hw
    obtain ⟨quarter, hquarter, rfl⟩ := mem_map.mp hw
    obtain ⟨p, hp, heq⟩ := hvalue half (mem_range.mp (show half ∈ List.range 2 from hhalf)) quarter
      (mem_range.mp hquarter) index (mem_range.mp hindex)
    exact ⟨p, Prod.ext hp.symm heq⟩
  · intro p
    refine ⟨_, mem_flatMap.mpr ⟨p / 128, show p.val / 128 ∈ List.range 2 from mem_range.mpr (by omega),
      mem_flatMap.mpr ⟨p % 32, mem_range.mpr (by omega),
        mem_map.mpr ⟨p % 128 / 32, mem_range.mpr (by omega), rfl⟩⟩⟩, ?_⟩
    show p.val / 128 * 128 + p.val % 128 / 32 * 32 + p.val % 32 = p.val
    omega

end Writes

/-! ## The output -/

section Output

variable {writes : Writes} {f : Fin 256 → ℚ} {codec : GgmlKQuant} {block : List UInt8} {output : List ℚ}

theorem length_store (writes : Writes) (output : List ℚ) :
    (writes.foldl (fun output write => output.set write.1 write.2) output).length = output.length := by
  induction writes generalizing output with
  | nil => rfl
  | cons w writes ih => rw [foldl_cons, ih, length_set]

/-- A position keeps the value that all the writes to it have. -/
theorem getElem?_store {i : Nat} {x : ℚ} (hi : i < output.length) (hsame : ∀ w ∈ writes, w.1 = i → w.2 = x)
    (hwritten : output[i]? = some x ∨ ∃ w ∈ writes, w.1 = i) :
    (writes.foldl (fun output write => output.set write.1 write.2) output)[i]? = some x := by
  induction writes generalizing output with
  | nil => exact hwritten.resolve_right fun ⟨_, hw, _⟩ => absurd hw not_mem_nil
  | cons w writes ih =>
    rw [foldl_cons]
    refine ih (by rwa [length_set]) (fun w hw => hsame w (mem_cons_of_mem _ hw)) ?_
    by_cases heq : w.1 = i
    · subst heq
      rw [List.getElem?_set_self hi, hsame w mem_cons_self rfl]
      exact .inl rfl
    · rw [List.getElem?_set_ne heq]
      refine hwritten.imp_right fun ⟨w', hw', hat⟩ => ⟨w', (mem_cons.mp hw').resolve_left ?_, hat⟩
      rintro rfl
      exact heq hat

theorem decodeWrites_each (hd : FiniteHalf ((layoutOf codec).read block .d))
    (hdmin : FiniteHalf ((layoutOf codec).read block .dmin)) :
    WritesEach (decodeWrites codec block) (decoded codec ((layoutOf codec).read block)) := by
  cases codec with
  | q2K => exact decodeQ2K_each hd hdmin
  | q3K => exact decodeQ3K_each hd
  | q4K => exact decodeQ4K_each hd hdmin
  | q5K => exact decodeQ5K_each hd hdmin
  | q6K => exact decodeQ6K_each hd

/-- A block decodes to the values of its fields. -/
theorem decodeGgmlKBlock_read (hlen : block.length = codec.blockBytes)
    (hd : FiniteHalf ((layoutOf codec).read block .d)) (hdmin : FiniteHalf ((layoutOf codec).read block .dmin))
    (houtput : output.length = 256) : ∃ out, decodeGgmlKBlock codec block output = .ok out ∧ out.length = 256 ∧
      ∀ p : Fin 256, out[p.val]? = some (decoded codec ((layoutOf codec).read block) p) := by
  obtain ⟨hsound, hcomplete⟩ := decodeWrites_each hd hdmin
  refine ⟨_, bind_ok.mpr ⟨(), rejectIf_ok.mpr (not_not_intro hlen), rfl⟩, (length_store _ _).trans houtput, fun p => ?_⟩
  refine getElem?_store (by rw [houtput]; exact p.isLt) (fun w hw hat => ?_) (.inr (hcomplete p))
  obtain ⟨p', rfl⟩ := hsound w hw
  rw [Fin.ext hat]

end Output

/-! ## Every bit counts -/

section Bits

variable {codec : GgmlKQuant}

/-- The fields are one, where there are bits for them. -/
def unitFields (codec : GgmlKQuant) (f : Field) : Nat :=
  min 1 ((layoutOf codec).width f)

/-- A half of value `2 ^ -24` stays finite and changes its value with every bit. -/
theorem halfValue_flip : ∀ j < 16, FiniteHalf (1 ^^^ 2 ^ j) ∧ halfValue (1 ^^^ 2 ^ j) ≠ halfValue 1 := by
  decide +kernel

theorem scaleValue_injective {s s' : Nat} (hs : s < 2 ^ 8) (hs' : s' < 2 ^ 8) (h : scaleValue codec s = scaleValue codec s') :
    s = s' := by
  cases codec <;> simp only [scaleValue, signed8] at h <;> grind

theorem codeValue_injective {c c' : Nat} (h : codeValue codec c = codeValue codec c') : c = c' := by
  cases codec <;> simp only [codeValue] at h <;> omega

theorem unitFields_shape : unitFields codec .d = 1 ∧
    (∀ p, unitFields codec (.code p) = 1 ∧ unitFields codec (.scale (groupOf codec p)) = 1 ∧
      unitFields codec (.minimum (groupOf codec p)) = unitFields codec .dmin) ∧
    (∀ g, 0 < (layoutOf codec).width (.scale g) → ∃ p, groupOf codec p = g) ∧
    (∀ g, 0 < (layoutOf codec).width (.minimum g) → ∃ p, groupOf codec p = g) := by
  cases codec <;> decide +kernel

theorem widths : (layoutOf codec).width .d = 16 ∧ (layoutOf codec).width .dmin ≤ 16 ∧
    ∀ g, (layoutOf codec).width (.scale g) ≤ 8 := by
  cases codec <;> decide +kernel

/-- The fields with one bit of one of them flipped. -/
def flipField (codec : GgmlKQuant) (f : Field) (j : Nat) : Field → Nat :=
  Function.update (unitFields codec) f (unitFields codec f ^^^ 2 ^ j)

theorem unitFields_lt (f : Field) : unitFields codec f < 2 ^ (layoutOf codec).width f :=
  Nat.lt_of_le_of_lt (Nat.min_le_right _ _) Nat.lt_two_pow_self

theorem flipField_lt {f : Field} {j : Nat} (hj : j < (layoutOf codec).width f) (f' : Field) :
    flipField codec f j f' < 2 ^ (layoutOf codec).width f' := by
  rw [flipField, update_apply]
  split
  · next h =>
    subst h
    exact Nat.xor_lt_two_pow (unitFields_lt f') (Nat.pow_lt_pow_right (by decide) hj)
  · exact unitFields_lt f'

theorem xor_two_pow_ne (n j : Nat) : n ^^^ 2 ^ j ≠ n := by
  intro h
  have hbit := congrArg (Nat.testBit · j) h
  rw [Nat.testBit_xor, Nat.testBit_two_pow_self] at hbit
  cases hn : n.testBit j <;> rw [hn] at hbit <;> cases hbit

theorem halfValue_one : halfValue 1 ≠ 0 := by decide +kernel

theorem scaleValue_one : scaleValue codec 1 ≠ 0 := by cases codec <;> decide

theorem codeValue_one : codeValue codec 1 ≠ 0 := by cases codec <;> decide

/-- A flipped bit of any field changes a value. -/
theorem decoded_flip {f : Field} {j : Nat} (hj : j < (layoutOf codec).width f) :
    FiniteHalf (flipField codec f j .d) ∧ FiniteHalf (flipField codec f j .dmin) ∧
      ∃ p, decoded codec (flipField codec f j) p ≠ decoded codec (unitFields codec) p := by
  obtain ⟨hd, hat, hscale, hminimum⟩ := @unitFields_shape codec
  obtain ⟨hdwidth, hdminWidth, hscaleWidth⟩ := @widths codec
  have hdmin : FiniteHalf (unitFields codec .dmin) := by
    have hle : unitFields codec .dmin ≤ 1 := Nat.min_le_left _ _
    generalize unitFields codec .dmin = n at hle
    match n, hle with
    | 0, _ => decide
    | 1, _ => decide
  have hone : FiniteHalf 1 := by decide
  have hunit : ∀ {f' : Field}, j < (layoutOf codec).width f' → unitFields codec f' = 1 :=
    fun h => Nat.min_eq_left (Nat.lt_of_le_of_lt (Nat.zero_le j) h)
  have hweight : (halfValue 1 : ℚ) * (scaleValue codec 1 : ℚ) ≠ 0 :=
    mul_ne_zero halfValue_one (Int.cast_ne_zero.mpr scaleValue_one)
  have hcodeOne : (codeValue codec 1 : ℚ) ≠ 0 := Int.cast_ne_zero.mpr codeValue_one
  have hx := hunit hj
  cases f with
  | code p =>
    refine ⟨by simpa [flipField, hd] using hone, by simpa [flipField] using hdmin, p, fun h => ?_⟩
    simp only [decoded, flipField, update_apply, reduceCtorEq, if_false, if_true, hd, hx, (hat p).2.1] at h
    have hsame := mul_left_cancel₀ hweight (sub_left_injective h)
    exact xor_two_pow_ne 1 j (codeValue_injective (Int.cast_injective hsame))
  | scale g =>
    obtain ⟨p, rfl⟩ := hscale g (Nat.lt_of_le_of_lt (Nat.zero_le j) hj)
    refine ⟨by simpa [flipField, hd] using hone, by simpa [flipField] using hdmin, p, fun h => ?_⟩
    simp only [decoded, flipField, update_apply, reduceCtorEq, if_false, if_true, hd, hx, (hat p).1] at h
    have hsame := mul_left_cancel₀ halfValue_one (mul_right_cancel₀ hcodeOne (sub_left_injective h))
    have hsmall : (1 ^^^ 2 ^ j : Nat) < 2 ^ 8 :=
      Nat.xor_lt_two_pow (by decide) (Nat.pow_lt_pow_right (by decide) (Nat.lt_of_lt_of_le hj (hscaleWidth _)))
    exact xor_two_pow_ne 1 j (scaleValue_injective hsmall (by decide) (Int.cast_injective hsame))
  | minimum g =>
    obtain ⟨p, rfl⟩ := hminimum g (Nat.lt_of_le_of_lt (Nat.zero_le j) hj)
    have hdminOne : unitFields codec .dmin = 1 := (hat p).2.2.symm.trans hx
    refine ⟨by simpa [flipField, hd] using hone, by simpa [flipField] using hdmin, p, fun h => ?_⟩
    simp only [decoded, flipField, update_apply, reduceCtorEq, if_false, if_true, hx, hdminOne] at h
    have hsame := mul_left_cancel₀ halfValue_one (sub_right_injective h)
    exact xor_two_pow_ne 1 j (Nat.cast_injective hsame)
  | d =>
    obtain ⟨hfinite, hne⟩ := halfValue_flip j (hdwidth ▸ hj)
    refine ⟨by simpa [flipField, hd] using hfinite, by simpa [flipField] using hdmin, 0, fun h => hne ?_⟩
    simp only [decoded, flipField, update_apply, reduceCtorEq, if_false, if_true, hd, (hat 0).1, (hat 0).2.1] at h
    exact mul_right_cancel₀ (Int.cast_ne_zero.mpr scaleValue_one) (mul_right_cancel₀ hcodeOne (sub_left_injective h))
  | dmin =>
    obtain ⟨hfinite, hne⟩ := halfValue_flip j (Nat.lt_of_lt_of_le hj hdminWidth)
    refine ⟨by simpa [flipField, hd] using hone, by simpa [flipField, hx] using hfinite, 0, fun h => hne ?_⟩
    simp only [decoded, flipField, update_apply, reduceCtorEq, if_false, if_true, hd, (hat 0).2.2, hx] at h
    exact mul_right_cancel₀ (Nat.cast_ne_zero.mpr Nat.one_ne_zero) (sub_right_injective h)

/-- Flipping a bit of a field flips the bit of the block that belongs to it, and no other. -/
theorem bitOf_flipField {byte bit byte' bit' : Nat} (hbyte : byte' < codec.blockBytes) (hbit : bit' < 8)
    (hlt : byte < codec.blockBytes) (hlt' : bit < 8) :
    (bitOf ((layoutOf codec).pack (flipField codec ((layoutOf codec).owner byte bit).1
      ((layoutOf codec).owner byte bit).2)) byte' bit' = bitOf ((layoutOf codec).pack (unitFields codec)) byte' bit') ↔
        (byte', bit') ≠ (byte, bit) := by
  have howner : (layoutOf codec).owner byte' bit' = (layoutOf codec).owner byte bit ↔ (byte', bit') = (byte, bit) := by
    obtain ⟨_, hplace⟩ := (layoutOf codec).place_owner byte hlt bit hlt'
    obtain ⟨_, hplace'⟩ := (layoutOf codec).place_owner byte' hbyte bit' hbit
    constructor
    · intro h
      rw [← hplace, ← hplace', h]
    · intro h
      cases h
      rfl
  rw [BitLayout.bitOf_pack hbyte hbit, BitLayout.bitOf_pack hbyte hbit, Ne, ← howner]
  obtain ⟨f, j⟩ := (layoutOf codec).owner byte bit
  obtain ⟨f', j'⟩ := (layoutOf codec).owner byte' bit'
  dsimp only
  rw [flipField, update_apply]
  split
  · next h =>
    subst h
    rw [Nat.testBit_xor, Nat.testBit_two_pow, Prod.mk.injEq, eq_self_iff_true, true_and, eq_comm (a := j')]
    by_cases hj : j = j' <;> simp [hj]
  · next h => exact ⟨fun _ heq => h (congrArg Prod.fst heq), fun _ => rfl⟩

end Bits

/-- Packing fields by the layout of a codec and decoding the block yields the scaled codes; the
layout gives every bit of the block to one field, and a flip of any of them changes a value. -/
theorem decodeGgmlKBlock_exact (codec : GgmlKQuant) :
    (∀ v : Field → Nat, (∀ f, v f < 2 ^ (layoutOf codec).width f) → FiniteHalf (v .d) → FiniteHalf (v .dmin) →
      ∀ output : List ℚ, output.length = 256 →
        ∃ out, decodeGgmlKBlock codec ((layoutOf codec).pack v) output = .ok out ∧ out.length = 256 ∧
          ∀ p : Fin 256, out[p.val]? = some (decoded codec v p)) ∧
    (∀ byte < codec.blockBytes, ∀ bit < 8, ∃! place : Field × Nat,
      place.2 < (layoutOf codec).width place.1 ∧ bitPlace ((layoutOf codec).runs place.1) place.2 = (byte, bit)) ∧
    ∀ byte < codec.blockBytes, ∀ bit < 8, ∃ v v' : Field → Nat,
      (∀ f, v f < 2 ^ (layoutOf codec).width f ∧ v' f < 2 ^ (layoutOf codec).width f) ∧
      (∀ byte' < codec.blockBytes, ∀ bit' < 8, bitOf ((layoutOf codec).pack v') byte' bit' =
        bitOf ((layoutOf codec).pack v) byte' bit' ↔ (byte', bit') ≠ (byte, bit)) ∧
      ∃ p, decoded codec v' p ≠ decoded codec v p := by
  refine ⟨fun v hv hd hdmin output houtput => ?_, fun byte hbyte bit hbit => ?_, fun byte hbyte bit hbit => ?_⟩
  · have hread : (layoutOf codec).read ((layoutOf codec).pack v) = v := funext fun f => BitLayout.read_pack (hv f)
    have hdecode := @decodeGgmlKBlock_read codec ((layoutOf codec).pack v) output BitLayout.length_pack
    rw [hread] at hdecode
    exact hdecode hd hdmin houtput
  · obtain ⟨hin, hplace⟩ := (layoutOf codec).place_owner byte hbyte bit hbit
    refine ⟨(layoutOf codec).owner byte bit, ⟨hin, hplace⟩, fun ⟨f, j⟩ ⟨hj, hat⟩ => ?_⟩
    have howner := ((layoutOf codec).owner_place f j hj).2.2
    rw [hat] at howner
    exact howner.symm
  · obtain ⟨hin, _⟩ := (layoutOf codec).place_owner byte hbyte bit hbit
    refine ⟨unitFields codec, flipField codec _ _, fun f => ⟨unitFields_lt f, flipField_lt hin f⟩,
      fun byte' hbyte' bit' hbit' => bitOf_flipField hbyte' hbit' hbyte hbit, (decoded_flip hin).2.2⟩

theorem decodeGgmlKBlock_unit : ∃ out, decodeGgmlKBlock .q3K ((layoutOf .q3K).pack (unitFields .q3K))
    (List.replicate 256 0) = .ok out ∧ out[0]? = some (93 / 2 ^ 24) := by
  obtain ⟨out, hrun, _, hvalues⟩ := (decodeGgmlKBlock_exact .q3K).1 (unitFields .q3K) unitFields_lt (by decide)
    (by decide) (List.replicate 256 0) length_replicate
  have hfirst : decoded .q3K (unitFields .q3K) 0 = 93 / 2 ^ 24 := by decide +kernel
  exact ⟨out, hrun, hfirst ▸ hvalues 0⟩

end KQuant

end EffectTorch
