import EffectTorch.Lib.BitFields
import EffectTorch.Runtime.Storage

/-!
# The bit layouts of the K-quant blocks

A block of 256 values holds their codes, a scale for every group of values and, in some codecs, a
minimum for every group, and one or two halves for the whole block.
-/

namespace EffectTorch
open Lib

namespace KQuant

/-- The fields of a block. A codec without minima has no bits for them. -/
inductive Field where
  | code (position : Fin 256)
  | scale (group : Fin 16)
  | minimum (group : Fin 16)
  | d
  | dmin
deriving DecidableEq, Repr

/-- A half, its low byte first. -/
def halfAt (byte : Nat) : List Run :=
  [⟨byte, 0, 8, Nat.le_refl 8⟩, ⟨byte + 1, 0, 8, Nat.le_refl 8⟩]

/-! ## Q2_K -/

def q2KRuns : Field → List Run
  | .code p => [⟨16 + p / 128 * 32 + p % 32, 2 * (p % 128 / 32), 2, by omega⟩]
  | .scale g => [⟨g, 0, 4, by decide⟩]
  | .minimum g => [⟨g, 4, 4, by decide⟩]
  | .d => halfAt 80
  | .dmin => halfAt 82

def q2KOwner (byte bit : Nat) : Field × Nat :=
  if h : byte < 16 then if bit < 4 then (.scale ⟨byte, h⟩, bit) else (.minimum ⟨byte, h⟩, bit - 4)
  else if h : byte < 80 ∧ bit < 8 then
    (.code ⟨(byte - 16) / 32 * 128 + bit / 2 * 32 + (byte - 16) % 32, by omega⟩, bit % 2)
  else if byte < 82 then (.d, 8 * (byte - 80) + bit)
  else (.dmin, 8 * (byte - 82) + bit)

def q2KLayout : BitLayout Field 84 where
  runs := q2KRuns
  owner := q2KOwner
  owner_place f j hj := by
    cases f <;> simp only [q2KRuns, halfAt, runsWidth, bitPlace, q2KOwner] at hj ⊢ <;> grind
  place_owner byte hbyte bit hbit := by
    simp only [q2KOwner]
    split_ifs <;> simp only [q2KRuns, halfAt, runsWidth, bitPlace] <;> grind

/-! ## Q3_K -/

/-- The high bits of the codes are a plane of their own, and so are those of the scales. -/
def q3KRuns : Field → List Run
  | .code p => [⟨32 + p / 128 * 32 + p % 32, 2 * (p % 128 / 32), 2, by omega⟩, ⟨p % 32, p / 32, 1, by omega⟩]
  | .scale g => [⟨96 + g % 8, 4 * (g / 8), 4, by omega⟩, ⟨104 + g % 4, 2 * (g / 4), 2, by omega⟩]
  | .minimum _ => []
  | .d => halfAt 108
  | .dmin => []

def q3KOwner (byte bit : Nat) : Field × Nat :=
  if h : byte < 32 ∧ bit < 8 then (.code ⟨bit * 32 + byte, by omega⟩, 2)
  else if h : byte < 96 ∧ bit < 8 then
    (.code ⟨(byte - 32) / 32 * 128 + bit / 2 * 32 + (byte - 32) % 32, by omega⟩, bit % 2)
  else if h : byte < 104 ∧ bit < 8 then (.scale ⟨bit / 4 * 8 + (byte - 96), by omega⟩, bit % 4)
  else if h : byte < 108 ∧ bit < 8 then (.scale ⟨bit / 2 * 4 + (byte - 104), by omega⟩, 4 + bit % 2)
  else (.d, 8 * (byte - 108) + bit)

def q3KLayout : BitLayout Field 110 where
  runs := q3KRuns
  owner := q3KOwner
  owner_place f j hj := by
    cases f <;> simp only [q3KRuns, halfAt, runsWidth, bitPlace, q3KOwner] at hj ⊢ <;> grind
  place_owner byte hbyte bit hbit := by
    simp only [q3KOwner]
    split_ifs <;> simp only [q3KRuns, halfAt, runsWidth, bitPlace] <;> grind

/-! ## Q4_K and Q5_K -/

/-- The fields of the first sixteen bytes. Scales and minima have six bits. Those of the last four groups
are split: the high bits lie over those of the first four groups. -/
def k4Runs : Field → List Run
  | .code _ => []
  | .scale g =>
    if g.val < 4 then [⟨4 + g, 0, 6, by decide⟩]
    else if g.val < 8 then [⟨8 + g, 0, 4, by decide⟩, ⟨g, 6, 2, by decide⟩]
    else []
  | .minimum g =>
    if g.val < 4 then [⟨8 + g, 0, 6, by decide⟩]
    else if g.val < 8 then [⟨8 + g, 4, 4, by decide⟩, ⟨4 + g, 6, 2, by decide⟩]
    else []
  | .d => halfAt 0
  | .dmin => halfAt 2

def k4Owner (byte bit : Nat) (h : byte < 16) : Field × Nat :=
  if byte < 2 then (.d, 8 * byte + bit)
  else if byte < 4 then (.dmin, 8 * (byte - 2) + bit)
  else if byte < 8 then
    if bit < 6 then (.scale ⟨byte - 4, by omega⟩, bit) else (.scale ⟨byte, h⟩, bit - 2)
  else if byte < 12 then
    if bit < 6 then (.minimum ⟨byte - 8, by omega⟩, bit) else (.minimum ⟨byte - 4, by omega⟩, bit - 2)
  else if bit < 4 then (.scale ⟨byte - 8, by omega⟩, bit)
  else (.minimum ⟨byte - 8, by omega⟩, bit - 4)

theorem k4Owner_place {f : Field} {j : Nat} (hj : j < runsWidth (k4Runs f)) :
    (bitPlace (k4Runs f) j).2 < 8 ∧ ∃ h, k4Owner (bitPlace (k4Runs f) j).1 (bitPlace (k4Runs f) j).2 h = (f, j) := by
  cases f <;> simp only [k4Runs] at hj ⊢
  case code => cases hj
  case d => simp only [halfAt, runsWidth, bitPlace, k4Owner] at hj ⊢; grind
  case dmin => simp only [halfAt, runsWidth, bitPlace, k4Owner] at hj ⊢; grind
  all_goals split_ifs at hj ⊢ <;> simp only [runsWidth, bitPlace, k4Owner] at hj ⊢ <;> grind

theorem k4Place_owner {byte bit : Nat} (h : byte < 16) (hbit : bit < 8) :
    (∀ p, (k4Owner byte bit h).1 ≠ .code p) ∧
      (k4Owner byte bit h).2 < runsWidth (k4Runs (k4Owner byte bit h).1) ∧
      bitPlace (k4Runs (k4Owner byte bit h).1) (k4Owner byte bit h).2 = (byte, bit) := by
  simp only [k4Owner]
  split_ifs <;> simp only [k4Runs, halfAt] <;> (try split_ifs) <;> simp only [runsWidth, bitPlace] <;> grind

def q4KRuns : Field → List Run
  | .code p => [⟨16 + p / 64 * 32 + p % 32, 4 * (p % 64 / 32), 4, by omega⟩]
  | f => k4Runs f

def q4KOwner (byte bit : Nat) : Field × Nat :=
  if h : byte < 16 then k4Owner byte bit h
  else if h : byte < 144 ∧ bit < 8 then
    (.code ⟨(byte - 16) / 32 * 64 + bit / 4 * 32 + (byte - 16) % 32, by omega⟩, bit % 4)
  else (.d, 0)

theorem q4KRuns_eq {f : Field} (h : ∀ p, f ≠ .code p) : q4KRuns f = k4Runs f := by
  cases f
  case code p => exact absurd rfl (h p)
  all_goals rfl

def q4KLayout : BitLayout Field 144 where
  runs := q4KRuns
  owner := q4KOwner
  owner_place f j hj := by
    by_cases hcode : ∃ p, f = .code p
    · obtain ⟨p, rfl⟩ := hcode
      simp only [q4KRuns, runsWidth, bitPlace, q4KOwner] at hj ⊢
      grind
    · rw [q4KRuns_eq (not_exists.mp hcode)] at hj ⊢
      obtain ⟨hbit, h, howner⟩ := k4Owner_place hj
      exact ⟨Nat.lt_trans h (by decide), hbit, (dif_pos h).trans howner⟩
  place_owner byte hbyte bit hbit := by
    by_cases h : byte < 16
    · have howner : q4KOwner byte bit = k4Owner byte bit h := dif_pos h
      obtain ⟨hcode, hplace⟩ := k4Place_owner h hbit
      rwa [howner, q4KRuns_eq hcode]
    · simp only [q4KOwner, dif_neg h]
      split_ifs <;> simp only [q4KRuns, runsWidth, bitPlace] <;> grind

/-- Like Q4_K, with a plane for the high bits of the codes. -/
def q5KRuns : Field → List Run
  | .code p => [⟨48 + p / 64 * 32 + p % 32, 4 * (p % 64 / 32), 4, by omega⟩, ⟨16 + p % 32, p / 32, 1, by omega⟩]
  | f => k4Runs f

def q5KOwner (byte bit : Nat) : Field × Nat :=
  if h : byte < 16 then k4Owner byte bit h
  else if h : byte < 48 ∧ bit < 8 then (.code ⟨bit * 32 + (byte - 16), by omega⟩, 4)
  else if h : byte < 176 ∧ bit < 8 then
    (.code ⟨(byte - 48) / 32 * 64 + bit / 4 * 32 + (byte - 48) % 32, by omega⟩, bit % 4)
  else (.d, 0)

theorem q5KRuns_eq {f : Field} (h : ∀ p, f ≠ .code p) : q5KRuns f = k4Runs f := by
  cases f
  case code p => exact absurd rfl (h p)
  all_goals rfl

def q5KLayout : BitLayout Field 176 where
  runs := q5KRuns
  owner := q5KOwner
  owner_place f j hj := by
    by_cases hcode : ∃ p, f = .code p
    · obtain ⟨p, rfl⟩ := hcode
      simp only [q5KRuns, runsWidth, bitPlace, q5KOwner] at hj ⊢
      grind
    · rw [q5KRuns_eq (not_exists.mp hcode)] at hj ⊢
      obtain ⟨hbit, h, howner⟩ := k4Owner_place hj
      exact ⟨Nat.lt_trans h (by decide), hbit, (dif_pos h).trans howner⟩
  place_owner byte hbyte bit hbit := by
    by_cases h : byte < 16
    · have howner : q5KOwner byte bit = k4Owner byte bit h := dif_pos h
      obtain ⟨hcode, hplace⟩ := k4Place_owner h hbit
      rwa [howner, q5KRuns_eq hcode]
    · simp only [q5KOwner, dif_neg h]
      split_ifs <;> simp only [q5KRuns, runsWidth, bitPlace] <;> grind

/-! ## Q6_K -/

def q6KRuns : Field → List Run
  | .code p => [⟨p / 128 * 64 + p % 64, 4 * (p % 128 / 64), 4, by omega⟩,
      ⟨128 + p / 128 * 32 + p % 32, 2 * (p % 128 / 32), 2, by omega⟩]
  | .scale g => [⟨192 + g, 0, 8, by decide⟩]
  | .minimum _ => []
  | .d => halfAt 208
  | .dmin => []

def q6KOwner (byte bit : Nat) : Field × Nat :=
  if h : byte < 128 ∧ bit < 8 then (.code ⟨byte / 64 * 128 + bit / 4 * 64 + byte % 64, by omega⟩, bit % 4)
  else if h : byte < 192 ∧ bit < 8 then
    (.code ⟨(byte - 128) / 32 * 128 + bit / 2 * 32 + (byte - 128) % 32, by omega⟩, 4 + bit % 2)
  else if h : byte < 208 ∧ 192 ≤ byte then (.scale ⟨byte - 192, by omega⟩, bit)
  else (.d, 8 * (byte - 208) + bit)

def q6KLayout : BitLayout Field 210 where
  runs := q6KRuns
  owner := q6KOwner
  owner_place f j hj := by
    cases f <;> simp only [q6KRuns, halfAt, runsWidth, bitPlace, q6KOwner] at hj ⊢ <;> grind
  place_owner byte hbyte bit hbit := by
    simp only [q6KOwner]
    split_ifs <;> simp only [q6KRuns, halfAt, runsWidth, bitPlace] <;> grind

end KQuant

end EffectTorch
