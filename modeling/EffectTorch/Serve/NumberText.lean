import EffectTorch.Core.TextEncoding
import Mathlib.Algebra.Order.Field.Rat
import Mathlib.Data.Nat.Digits.Defs
import Mathlib.Tactic.FieldSimp
import Mathlib.Tactic.Linarith
import Mathlib.Tactic.Ring

/-!
# Texts of numbers

What `JSON.stringify` gives for a finite number of JavaScript.

Results:
1. `readNumber_numberText`: the value is read back from the text.
2. `numberText_iff`: numbers have the same text when they have the same value.
-/

namespace EffectTorch.DecisionPlanner
open List Chat

/-! ## Numbers -/

/-- A finite number, by the shortest decimal that rounds to it; no shorter one ends with a zero. -/
inductive JsonNumber where
  | zero (negative : Bool)
  | decimal (negative : Bool) (digits : Nat) (exponent : Int) (last : digits % 10 ≠ 0)
deriving DecidableEq

/-- The value of a number. -/
def JsonNumber.value : JsonNumber → ℚ
  | .zero _ => 0
  | .decimal negative digits exponent _ => (if negative then -1 else 1) * (digits * 10 ^ exponent)

def digitUnit (d : Nat) : UInt16 := (48 + d).toUInt16

/-- The decimal digits of a number that is not zero. -/
def digitsText (n : Nat) : Text := (Nat.digits 10 n).reverse.map digitUnit

/-- `Number::toString` of a positive number; `n` is where the decimal point goes. -/
def decimalText (digits : Nat) (exponent : Int) : Text :=
  let s := digitsText digits
  let k : Int := s.length
  let n := k + exponent
  if k ≤ n ∧ n ≤ 21 then s ++ List.replicate (n - k).toNat 48
  else if 0 < n ∧ n ≤ 21 then s.take n.toNat ++ 0x2e :: s.drop n.toNat
  else if -6 < n ∧ n ≤ 0 then 48 :: 0x2e :: (List.replicate (-n).toNat 48 ++ s)
  else
    s.take 1 ++ (if k = 1 then [] else 0x2e :: s.drop 1) ++
      0x65 :: (if n - 1 < 0 then 0x2d else 0x2b) :: digitsText (n - 1).natAbs

/-- `JSON.stringify` of a finite number. -/
def numberText : JsonNumber → Text
  | .zero _ => [48]
  | .decimal negative digits exponent _ => (if negative then [0x2d] else []) ++ decimalText digits exponent

/-! ## Digits -/

/-- The number that digits stand for. -/
def readDigits (t : Text) : Nat := Nat.ofDigits 10 (t.reverse.map fun c => c.toNat - 48)

theorem readDigits_append (t t' : Text) : readDigits (t ++ t') = readDigits t * 10 ^ t'.length + readDigits t' := by
  rw [readDigits, reverse_append, map_append, Nat.ofDigits_append, length_map, length_reverse,
    Nat.add_comm, Nat.mul_comm]
  rfl

theorem readDigits_zeros (n : Nat) : readDigits (List.replicate n 48) = 0 := by
  rw [readDigits, reverse_replicate, map_replicate]
  induction n with
  | zero => rfl
  | succ n ih =>
    rw [replicate_succ, Nat.ofDigits_cons, ih]
    rfl

theorem digitUnit_toNat {d : Nat} (h : d < 10) : (digitUnit d).toNat = 48 + d := by
  revert d
  decide

theorem readDigits_digitsText (n : Nat) : readDigits (digitsText n) = n := by
  rw [readDigits, digitsText, ← map_reverse, reverse_reverse, map_map]
  have hdigits : ∀ d ∈ Nat.digits 10 n, ((fun c : UInt16 => c.toNat - 48) ∘ digitUnit) d = id d := fun d hd => by
    show (digitUnit d).toNat - 48 = d
    rw [digitUnit_toNat (Nat.digits_lt_base (by decide) hd), Nat.add_sub_cancel_left]
  rw [map_congr_left hdigits, map_id, Nat.ofDigits_digits]

/-- A unit that is a digit. -/
def isDigitUnit (c : UInt16) : Bool := 48 ≤ c && c ≤ 57

theorem isDigitUnit_digitUnit {d : Nat} (h : d < 10) : isDigitUnit (digitUnit d) = true := by
  revert d
  decide

theorem digitsText_digits (n : Nat) : ∀ c ∈ digitsText n, isDigitUnit c = true := by
  intro c hc
  obtain ⟨d, hd, rfl⟩ := mem_map.mp hc
  exact isDigitUnit_digitUnit (Nat.digits_lt_base (by decide) (mem_reverse.mp hd))

theorem digitsText_ne_nil {n : Nat} (h : n ≠ 0) : digitsText n ≠ [] := by
  intro hnil
  have hdigits := reverse_eq_nil_iff.mp (map_eq_nil_iff.mp hnil)
  exact h (Nat.digits_eq_nil_iff_eq_zero.mp hdigits)

theorem zeros_digits (n : Nat) : ∀ c ∈ List.replicate n (48 : UInt16), isDigitUnit c = true := by
  intro c hc
  rw [eq_of_mem_replicate hc]
  decide

/-! ## Reading a number -/

/-- The exponent behind the letter. -/
def readExponent : Text → Int
  | _ :: sign :: digits => if sign = 0x2d then -(readDigits digits : Int) else readDigits digits
  | _ => 0

theorem readExponent_nil : readExponent [] = 0 := rfl

/-- The value of a decimal: its digits, less those behind the point. -/
def readDecimal (t : Text) : ℚ :=
  let mantissa := t.takeWhile (· ≠ 0x65)
  let whole := mantissa.takeWhile (· ≠ 0x2e)
  let fraction := (mantissa.dropWhile (· ≠ 0x2e)).drop 1
  readDigits (whole ++ fraction) * 10 ^ (readExponent (t.dropWhile (· ≠ 0x65)) - fraction.length)

def readNumber : Text → ℚ
  | 0x2d :: t => -readDecimal t
  | t => readDecimal t

theorem split_at {p : UInt16 → Bool} {front back : Text} (hfront : ∀ c ∈ front, p c = true)
    (hback : ∀ c ∈ back.head?, p c = false) :
    (front ++ back).takeWhile p = front ∧ (front ++ back).dropWhile p = back := by
  rw [takeWhile_append_of_pos hfront, dropWhile_append_of_pos hfront]
  cases back with
  | nil => exact ⟨append_nil _, rfl⟩
  | cons c back =>
    have hc := hback c rfl
    rw [takeWhile_cons, dropWhile_cons, hc]
    exact ⟨append_nil _, rfl⟩

theorem isDigitUnit_ne {c d : UInt16} (hc : isDigitUnit c = true) (hd : isDigitUnit d = false) : decide (c ≠ d) = true := by
  refine decide_eq_true ?_
  rintro rfl
  exact absurd (hc.symm.trans hd) (by decide)

/-- Reading the parts of a decimal. -/
theorem readDecimal_parts {dotted : Text} (whole fraction tail : Text) (hwhole : ∀ c ∈ whole, isDigitUnit c = true)
    (hfraction : ∀ c ∈ fraction, isDigitUnit c = true)
    (hdotted : dotted = [] ∧ fraction = [] ∨ dotted = 0x2e :: fraction) (htail : ∀ c ∈ tail.head?, c = 0x65) :
    readDecimal (whole ++ dotted ++ tail) = readDigits (whole ++ fraction) * 10 ^ (readExponent tail - fraction.length) := by
  have hmantissa : ∀ c ∈ whole ++ dotted, decide (c ≠ 0x65) = true := by
    intro c hc
    rcases mem_append.mp hc with hc | hc
    · exact isDigitUnit_ne (hwhole c hc) (by decide)
    · rcases hdotted with ⟨rfl, -⟩ | rfl
      · exact absurd hc not_mem_nil
      · rcases mem_cons.mp hc with rfl | hc
        · decide
        · exact isDigitUnit_ne (hfraction c hc) (by decide)
  obtain ⟨htake, hdrop⟩ := split_at hmantissa fun c hc => by rw [htail c hc]; decide
  have hpoint : ∀ c ∈ dotted.head?, decide (c ≠ 0x2e) = false := by
    intro c hc
    rcases hdotted with ⟨rfl, -⟩ | rfl
    · exact absurd hc (Option.not_mem_none c)
    · rw [← Option.mem_some.mp hc]
      decide
  obtain ⟨hwhole', hrest⟩ := split_at (fun c hc => isDigitUnit_ne (hwhole c hc) (by decide)) hpoint
  have hafter : dotted.drop 1 = fraction := by
    rcases hdotted with ⟨rfl, rfl⟩ | rfl
    · rfl
    · rfl
  unfold readDecimal
  simp only [htake, hdrop, hwhole', hrest, hafter]

theorem readExponent_signed (e : Int) :
    readExponent (0x65 :: (if e < 0 then 0x2d else 0x2b) :: digitsText e.natAbs) = e := by
  by_cases h : e < 0
  · rw [if_pos h, readExponent, if_pos rfl, readDigits_digitsText]
    omega
  · rw [if_neg h, readExponent, if_neg (by decide), readDigits_digitsText]
    omega

section Forms

variable {s : Text} (hs : ∀ c ∈ s, isDigitUnit c = true)
include hs

/-- The digits and zeros. -/
theorem readDecimal_integer (m : Nat) : readDecimal (s ++ List.replicate m 48) = readDigits s * 10 ^ (m : Int) := by
  have hdigits : ∀ c ∈ s ++ List.replicate m 48, isDigitUnit c = true := fun c hc =>
    (mem_append.mp hc).elim (hs c) (zeros_digits _ c)
  have hparts := readDecimal_parts _ [] [] hdigits (fun c hc => absurd hc not_mem_nil) (.inl ⟨rfl, rfl⟩)
    fun c hc => absurd hc (Option.not_mem_none c)
  simp only [append_nil] at hparts
  rw [hparts, readDigits_append, readDigits_zeros, length_replicate]
  simp [readExponent_nil]

/-- The point is between the digits. -/
theorem readDecimal_point (n : Nat) :
    readDecimal (s.take n ++ 0x2e :: s.drop n) = readDigits s * 10 ^ (-(s.length - n : Nat) : Int) := by
  have hparts := readDecimal_parts (s.take n) (s.drop n) [] (fun c hc => hs c (mem_of_mem_take hc))
    (fun c hc => hs c (mem_of_mem_drop hc)) (.inr rfl) fun c hc => absurd hc (Option.not_mem_none c)
  rw [append_nil] at hparts
  rw [hparts, take_append_drop, length_drop, readExponent_nil, Int.zero_sub]

/-- There are zeros before the digits. -/
theorem readDecimal_small (m : Nat) :
    readDecimal (48 :: 0x2e :: (List.replicate m 48 ++ s)) = readDigits s * 10 ^ (-(m + s.length : Nat) : Int) := by
  have hdigits : ∀ c ∈ List.replicate m 48 ++ s, isDigitUnit c = true := fun c hc =>
    (mem_append.mp hc).elim (zeros_digits _ c) (hs c)
  have hparts := readDecimal_parts [48] _ [] (forall_mem_singleton.mpr (by decide)) hdigits (.inr rfl)
    fun c hc => absurd hc (Option.not_mem_none c)
  rw [append_nil] at hparts
  have hzero : readDigits [48] = 0 := by decide
  refine hparts.trans ?_
  rw [readDigits_append, readDigits_append, readDigits_zeros, hzero, length_append, length_replicate,
    readExponent_nil, Int.zero_sub, Nat.zero_mul, Nat.zero_mul, Nat.zero_add, Nat.zero_add]

/-- The point is behind the first digit, and there is an exponent. -/
theorem readDecimal_scientific (e : Int) :
    readDecimal (s.take 1 ++ (if (s.length : Int) = 1 then [] else 0x2e :: s.drop 1) ++
      0x65 :: (if e < 0 then 0x2d else 0x2b) :: digitsText e.natAbs) = readDigits s * 10 ^ (e - (s.length - 1 : Nat)) := by
  have hdotted : (if (s.length : Int) = 1 then [] else 0x2e :: s.drop 1) = [] ∧ s.drop 1 = [] ∨
      (if (s.length : Int) = 1 then [] else 0x2e :: s.drop 1) = 0x2e :: s.drop 1 := by
    split
    · next hone => exact .inl ⟨rfl, drop_eq_nil_of_le (by omega)⟩
    · exact .inr rfl
  rw [readDecimal_parts _ _ _ (fun c hc => hs c (mem_of_mem_take hc)) (fun c hc => hs c (mem_of_mem_drop hc))
    hdotted (fun c hc => (Option.mem_some.mp hc).symm), take_append_drop, readExponent_signed, length_drop]

end Forms

/-- The value is read back from each of the four forms. -/
theorem readDecimal_decimalText {digits : Nat} (h : digits ≠ 0) (exponent : Int) :
    readDecimal (decimalText digits exponent) = digits * 10 ^ exponent := by
  have hs := digitsText_digits digits
  have hread := readDigits_digitsText digits
  have hpos := length_pos_of_ne_nil (digitsText_ne_nil h)
  unfold decimalText
  dsimp only
  generalize digitsText digits = s at hs hread hpos
  split
  · rw [readDecimal_integer hs, hread]
    congr 2
    omega
  split
  · rw [readDecimal_point hs, hread]
    congr 2
    omega
  split
  · rw [readDecimal_small hs, hread]
    congr 2
    omega
  · rw [readDecimal_scientific hs, hread]
    congr 2
    omega

/-! ## Texts and values -/

/-- A unit of a number. -/
def isNumeric (c : UInt16) : Bool := isDigitUnit c || c == 0x2e || c == 0x65 || c == 0x2b || c == 0x2d

theorem decimalText_head {digits : Nat} (h : digits ≠ 0) (exponent : Int) :
    ∃ c rest, decimalText digits exponent = c :: rest ∧ isDigitUnit c = true := by
  have hs := digitsText_digits digits
  have hne := digitsText_ne_nil h
  unfold decimalText
  dsimp only
  cases hdigits : digitsText digits with
  | nil => exact absurd hdigits hne
  | cons c s =>
    have hc := hs c (hdigits ▸ mem_cons_self)
    split
    · exact ⟨c, _, rfl, hc⟩
    split
    · next hpoint =>
      obtain ⟨n, hn⟩ : ∃ n, (((c :: s).length : Int) + exponent).toNat = n + 1 := ⟨_, (Nat.sub_add_cancel (by omega)).symm⟩
      rw [hn]
      exact ⟨c, _, rfl, hc⟩
    split
    · exact ⟨48, _, rfl, by decide⟩
    · exact ⟨c, _, rfl, hc⟩

theorem decimalText_numeric (digits : Nat) (exponent : Int) : ∀ c ∈ decimalText digits exponent, isNumeric c = true := by
  have hdigit : ∀ c, isDigitUnit c = true → isNumeric c = true := fun c hc => by simp [isNumeric, hc]
  have hs : ∀ n, ∀ c ∈ digitsText n, isNumeric c = true := fun n c hc => hdigit c (digitsText_digits n c hc)
  have hz : ∀ n, ∀ c ∈ List.replicate n (48 : UInt16), isNumeric c = true := fun n c hc => hdigit c (zeros_digits n c hc)
  have htake : ∀ n, ∀ c ∈ (digitsText digits).take n, isNumeric c = true := fun n c hc => hs _ c (mem_of_mem_take hc)
  have hdrop : ∀ n, ∀ c ∈ (digitsText digits).drop n, isNumeric c = true := fun n c hc => hs _ c (mem_of_mem_drop hc)
  unfold decimalText
  dsimp only
  split
  · exact forall_mem_append.mpr ⟨hs _, hz _⟩
  split
  · exact forall_mem_append.mpr ⟨htake _, forall_mem_cons.mpr ⟨by decide, hdrop _⟩⟩
  split
  · exact forall_mem_cons.mpr ⟨by decide, forall_mem_cons.mpr ⟨by decide, forall_mem_append.mpr ⟨hz _, hs _⟩⟩⟩
  · refine forall_mem_append.mpr ⟨forall_mem_append.mpr ⟨htake 1, ?_⟩,
      forall_mem_cons.mpr ⟨by decide, forall_mem_cons.mpr ⟨?_, hs _⟩⟩⟩
    · split
      · exact fun c hc => absurd hc not_mem_nil
      · exact forall_mem_cons.mpr ⟨by decide, hdrop 1⟩
    · split
      · decide
      · decide

theorem numberText_numeric (a : JsonNumber) : ∀ c ∈ numberText a, isNumeric c = true := by
  cases a with
  | zero negative => exact forall_mem_singleton.mpr (by decide)
  | decimal negative digits exponent last =>
    refine forall_mem_append.mpr ⟨?_, decimalText_numeric digits exponent⟩
    cases negative with
    | false => exact fun c hc => absurd hc not_mem_nil
    | true => exact forall_mem_singleton.mpr (by decide)

theorem digits_ne_zero {digits : Nat} (last : digits % 10 ≠ 0) : digits ≠ 0 := by
  rintro rfl
  exact last rfl

theorem numberText_ne_nil (a : JsonNumber) : numberText a ≠ [] := by
  cases a with
  | zero negative => exact cons_ne_nil _ _
  | decimal negative digits exponent last =>
    obtain ⟨c, rest, htext, -⟩ := decimalText_head (digits_ne_zero last) exponent
    rw [numberText, htext]
    exact append_ne_nil_of_right_ne_nil _ (cons_ne_nil c rest)

theorem readNumber_digit {c : UInt16} (hc : isDigitUnit c = true) (rest : Text) :
    readNumber (c :: rest) = readDecimal (c :: rest) := by
  unfold readNumber
  split
  · next heq =>
    cases heq
    exact absurd hc (by decide)
  · rfl

/-- The value is read back from the text. -/
theorem readNumber_numberText (a : JsonNumber) : readNumber (numberText a) = a.value := by
  cases a with
  | zero negative =>
    have hzero : readDecimal [48] = 0 := by simp [readDecimal, readDigits]
    exact hzero
  | decimal negative digits exponent last =>
    have hdigits := digits_ne_zero last
    cases negative with
    | true =>
      show -readDecimal (decimalText digits exponent) = -1 * (digits * 10 ^ exponent)
      rw [readDecimal_decimalText hdigits, neg_one_mul]
    | false =>
      obtain ⟨c, rest, htext, hc⟩ := decimalText_head hdigits exponent
      show readNumber (decimalText digits exponent) = 1 * (digits * 10 ^ exponent)
      rw [htext, readNumber_digit hc, ← htext, readDecimal_decimalText hdigits, one_mul]

/-- Decimals that do not end with a zero are known by their value. -/
theorem decimal_unique {digits digits' : Nat} {exponent exponent' : Int} (h : digits % 10 ≠ 0) (h' : digits' % 10 ≠ 0)
    (heq : (digits * 10 ^ exponent : ℚ) = digits' * 10 ^ exponent') : digits = digits' ∧ exponent = exponent' := by
  wlog hle : exponent ≤ exponent' generalizing digits digits' exponent exponent'
  · obtain ⟨hd, he⟩ := this h' h heq.symm (Int.le_of_lt (Int.not_le.mp hle))
    exact ⟨hd.symm, he.symm⟩
  obtain ⟨n, rfl⟩ := Int.le.dest hle
  have hten : (10 : ℚ) ^ exponent ≠ 0 := zpow_ne_zero _ (by norm_num)
  rw [zpow_add₀ (by norm_num), mul_comm ((10 : ℚ) ^ exponent), ← mul_assoc] at heq
  have hnat : digits = digits' * 10 ^ n := by exact_mod_cast mul_right_cancel₀ hten heq
  cases n with
  | zero => simpa using hnat
  | succ n =>
    refine absurd ?_ h
    rw [hnat, Nat.pow_succ, ← Nat.mul_assoc]
    exact Nat.mul_mod_left _ _

theorem magnitude_pos {digits : Nat} (last : digits % 10 ≠ 0) (exponent : Int) : (0 : ℚ) < digits * 10 ^ exponent :=
  mul_pos (Nat.cast_pos.mpr (Nat.pos_of_ne_zero (digits_ne_zero last))) (zpow_pos (by norm_num) exponent)

theorem signed_ne_zero (negative : Bool) {x : ℚ} (hx : 0 < x) : (if negative then -1 else 1) * x ≠ 0 := by
  refine mul_ne_zero ?_ hx.ne'
  cases negative with
  | false => exact one_ne_zero
  | true => exact neg_ne_zero.mpr one_ne_zero

theorem signed_inj {negative negative' : Bool} {x y : ℚ} (hx : 0 < x) (hy : 0 < y)
    (h : (if negative then -1 else 1) * x = (if negative' then -1 else 1) * y) : negative = negative' ∧ x = y := by
  cases negative <;> cases negative' <;> simp only [if_true, if_false, Bool.false_eq_true, one_mul, neg_one_mul] at h
  · exact ⟨rfl, h⟩
  · exact absurd h (by linarith)
  · exact absurd h (by linarith)
  · exact ⟨rfl, neg_injective h⟩

/-- Numbers have the same text when they have the same value. -/
theorem numberText_iff {a b : JsonNumber} : numberText a = numberText b ↔ a.value = b.value := by
  refine ⟨fun h => by rw [← readNumber_numberText, h, readNumber_numberText], fun h => ?_⟩
  unfold JsonNumber.value at h
  cases a with
  | zero negative =>
    cases b with
    | zero negative' => rfl
    | decimal negative' digits exponent last => exact absurd h.symm (signed_ne_zero negative' (magnitude_pos last exponent))
  | decimal negative digits exponent last =>
    cases b with
    | zero negative' => exact absurd h (signed_ne_zero negative (magnitude_pos last exponent))
    | decimal negative' digits' exponent' last' =>
      obtain ⟨rfl, hmagnitude⟩ := signed_inj (magnitude_pos last exponent) (magnitude_pos last' exponent') h
      obtain ⟨rfl, rfl⟩ := decimal_unique last last' hmagnitude
      rfl

/-- The four forms. -/
example : numberText (.decimal false 12 1 (by decide)) = text "120" ∧ numberText (.decimal true 125 (-2) (by decide)) = text "-1.25" ∧
    numberText (.decimal false 5 (-3) (by decide)) = text "0.005" ∧ numberText (.decimal false 15 (-9) (by decide)) = text "1.5e-8" := by
  decide

end EffectTorch.DecisionPlanner
