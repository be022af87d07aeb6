import Mathlib.Data.Nat.Bitwise
import Mathlib.Algebra.Order.Ring.Nat

/-!
# Fields of bits in a block of bytes

A field is a list of runs of bits, the low bits first; a run lies in one byte. A layout gives every
field its runs, and every bit of the block the field it belongs to.

Results:
1. `testBit_readRuns`: the bits of a field are the bits of the block at its places.
2. `read_pack`: packing values that fit and reading them back.
-/

namespace Lib
open List

/-- Consecutive bits of a byte. -/
structure Run where
  byte : Nat
  shift : Nat
  width : Nat
  fits : shift + width ≤ 8

def bitOf (bytes : List UInt8) (byte bit : Nat) : Bool :=
  (bytes.getD byte 0).toNat.testBit bit

def Run.read (bytes : List UInt8) (run : Run) : Nat :=
  ((bytes.getD run.byte 0).toNat >>> run.shift) % 2 ^ run.width

def readRuns (bytes : List UInt8) : List Run → Nat
  | [] => 0
  | run :: runs => run.read bytes + 2 ^ run.width * readRuns bytes runs

def runsWidth : List Run → Nat
  | [] => 0
  | run :: runs => run.width + runsWidth runs

/-- The byte and the bit in it where bit `j` of a field lies. -/
def bitPlace : List Run → Nat → Nat × Nat
  | [], j => (0, j)
  | run :: runs, j => if j < run.width then (run.byte, run.shift + j) else bitPlace runs (j - run.width)

section Runs

variable {bytes : List UInt8} {run : Run} {runs : List Run} {j : Nat}

theorem Run.read_lt : run.read bytes < 2 ^ run.width :=
  Nat.mod_lt _ (Nat.two_pow_pos _)

theorem Run.testBit_read (hj : j < run.width) :
    (run.read bytes).testBit j = bitOf bytes run.byte (run.shift + j) := by
  rw [Run.read, Nat.testBit_mod_two_pow, decide_eq_true hj, Bool.true_and, Nat.testBit_shiftRight, bitOf]

/-- The bits of a field are those of the block at its places. -/
theorem testBit_readRuns :
    (readRuns bytes runs).testBit j =
      (decide (j < runsWidth runs) && bitOf bytes (bitPlace runs j).1 (bitPlace runs j).2) := by
  induction runs generalizing j with
  | nil => rw [readRuns, Nat.zero_testBit, runsWidth, decide_eq_false (Nat.not_lt_zero j), Bool.false_and]
  | cons run runs ih =>
    rw [readRuns, Nat.add_comm, Nat.testBit_two_pow_mul_add _ Run.read_lt, runsWidth, bitPlace]
    split
    · next hj => rw [Run.testBit_read hj, decide_eq_true (Nat.lt_add_right _ hj), Bool.true_and]
    · next hj =>
      rw [ih]
      refine congrArg (· && _) (decide_eq_decide.mpr ?_)
      omega

end Runs

/-- A block of `size` bytes in which every bit belongs to one field. -/
structure BitLayout (F : Type) (size : Nat) where
  runs : F → List Run
  /-- The field of a bit, and which bit of it. -/
  owner : Nat → Nat → F × Nat
  owner_place : ∀ f j, j < runsWidth (runs f) → (bitPlace (runs f) j).1 < size ∧ (bitPlace (runs f) j).2 < 8 ∧
    owner (bitPlace (runs f) j).1 (bitPlace (runs f) j).2 = (f, j)
  place_owner : ∀ byte < size, ∀ bit < 8, (owner byte bit).2 < runsWidth (runs (owner byte bit).1) ∧
    bitPlace (runs (owner byte bit).1) (owner byte bit).2 = (byte, bit)

namespace BitLayout

variable {F : Type} {size : Nat} (layout : BitLayout F size)

def width (f : F) : Nat := runsWidth (layout.runs f)

def read (bytes : List UInt8) (f : F) : Nat := readRuns bytes (layout.runs f)

/-- Each bit of the block is that of the field it belongs to. -/
def pack (values : F → Nat) : List UInt8 :=
  (List.range size).map fun byte => UInt8.ofNat (Nat.ofBits fun bit : Fin 8 =>
    (values (layout.owner byte bit).1).testBit (layout.owner byte bit).2)

variable {layout} {values : F → Nat} {bytes : List UInt8}

@[simp] theorem length_pack : (layout.pack values).length = size := by
  rw [pack, length_map, length_range]

theorem bitOf_pack {byte bit : Nat} (hbyte : byte < size) (hbit : bit < 8) :
    bitOf (layout.pack values) byte bit = (values (layout.owner byte bit).1).testBit (layout.owner byte bit).2 := by
  rw [bitOf, getD_eq_getElem _ _ (by rwa [length_pack])]
  simp only [pack, getElem_map, getElem_range]
  rw [UInt8.toNat_ofNat', Nat.mod_eq_of_lt (Nat.ofBits_lt_two_pow _), Nat.testBit_ofBits_lt _ _ hbit]

/-- Packed values that fit are read back. -/
theorem read_pack {f : F} (hfits : values f < 2 ^ layout.width f) : layout.read (layout.pack values) f = values f := by
  refine Nat.eq_of_testBit_eq fun j => ?_
  rw [read, testBit_readRuns]
  by_cases hj : j < runsWidth (layout.runs f)
  · obtain ⟨hbyte, hbit, howner⟩ := layout.owner_place f j hj
    rw [decide_eq_true hj, Bool.true_and, bitOf_pack hbyte hbit, howner]
  · rw [decide_eq_false hj, Bool.false_and]
    exact (Nat.testBit_lt_two_pow (Nat.lt_of_lt_of_le hfits (Nat.pow_le_pow_right (by decide) (Nat.not_lt.mp hj)))).symm

end BitLayout

end Lib
