import Mathlib.Logic.Function.Iterate
import Mathlib.Data.Nat.Init

/-!
# The generator of random words

`Xoroshiro128Plus` of `runtime-cpu/src/random.rs`, on words of 64 bits.

Results:
1. `step_bijective`: a draw can be taken back.
2. `neverStuck_iff`: the one seed that gets stuck.
-/

namespace EffectTorch.Random

/-! ## The generator -/

structure Xoroshiro128Plus where
  s0 : BitVec 64
  s1 : BitVec 64
deriving DecidableEq

/-- The closure `next` of `new`. -/
def mix (state : BitVec 64) : BitVec 64 :=
  let state := state ^^^ (state <<< 13)
  let state := state ^^^ (state >>> 7)
  state ^^^ (state <<< 17)

def new (seed : BitVec 64) : Xoroshiro128Plus :=
  let state := seed + 0x9E3779B97F4A7C15#64
  let s0 := mix state
  let s1 := mix s0
  ⟨s0, s1⟩

def nextU64 (rng : Xoroshiro128Plus) : BitVec 64 × Xoroshiro128Plus :=
  let s0 := rng.s0
  let result := s0 + rng.s1
  let s1 := rng.s1 ^^^ s0
  (result, ⟨s0.rotateLeft 55 ^^^ s1 ^^^ (s1 <<< 14), s1.rotateLeft 36⟩)

/-- The state after a draw. -/
def step (rng : Xoroshiro128Plus) : Xoroshiro128Plus := (nextU64 rng).2

/-- The state after some draws. -/
def draws (n : Nat) (rng : Xoroshiro128Plus) : Xoroshiro128Plus := step^[n] rng

/-! ## Taking a draw back -/

section Steps

theorem rotateRight_rotateLeft (x : BitVec 64) {k : Nat} (h : k < 64) : (x.rotateLeft k).rotateRight k = x := by
  ext i hi
  rw [BitVec.getElem_rotateRight]
  simp only [Nat.mod_eq_of_lt h]
  split
  · next hlow =>
    rw [BitVec.getElem_rotateLeft]
    simp only [Nat.mod_eq_of_lt h, Nat.not_lt.mpr (Nat.le_add_right k i), dite_false, Nat.add_sub_cancel_left]
  · next hhigh =>
    have hlt : i - (64 - k) < k := by omega
    rw [BitVec.getElem_rotateLeft]
    simp only [Nat.mod_eq_of_lt h, hlt, dite_true, show 64 - k + (i - (64 - k)) = i by omega]

theorem rotateLeft_rotateRight (x : BitVec 64) {k : Nat} (h : k < 64) : (x.rotateRight k).rotateLeft k = x := by
  ext i hi
  rw [BitVec.getElem_rotateLeft]
  simp only [Nat.mod_eq_of_lt h]
  split
  · next hlow =>
    have hge : ¬ 64 - k + i < 64 - k := by omega
    rw [BitVec.getElem_rotateRight]
    simp only [Nat.mod_eq_of_lt h, hge, dite_false, Nat.add_sub_cancel_left]
  · next hhigh =>
    have hlt : i - k < 64 - k := by omega
    rw [BitVec.getElem_rotateRight]
    simp only [Nat.mod_eq_of_lt h, hlt, dite_true, show k + (i - k) = i by omega]

/-- The state before a draw. -/
def unstep (rng : Xoroshiro128Plus) : Xoroshiro128Plus :=
  let s1 := rng.s1.rotateRight 36
  let s0 := (rng.s0 ^^^ (s1 <<< 14) ^^^ s1).rotateRight 55
  ⟨s0, s1 ^^^ s0⟩

theorem xor_cancel (a b : BitVec 64) : a ^^^ b ^^^ b = a := by
  rw [BitVec.xor_assoc, BitVec.xor_self, BitVec.xor_zero]

theorem unstep_step (rng : Xoroshiro128Plus) : unstep (step rng) = rng := by
  simp only [unstep, step, nextU64, rotateRight_rotateLeft _ (by decide : 36 < 64), xor_cancel,
    rotateRight_rotateLeft _ (by decide : 55 < 64)]

theorem step_unstep (rng : Xoroshiro128Plus) : step (unstep rng) = rng := by
  simp only [unstep, step, nextU64, xor_cancel, rotateLeft_rotateRight _ (by decide : 36 < 64),
    rotateLeft_rotateRight _ (by decide : 55 < 64)]

/-- A draw can be taken back. -/
theorem step_bijective : Function.Bijective step :=
  ⟨Function.LeftInverse.injective unstep_step, Function.RightInverse.surjective step_unstep⟩

theorem draws_injective (n : Nat) : Function.Injective (draws n) := step_bijective.injective.iterate n

end Steps

/-! ## Seeds -/

section Seeds

/-- Both words are zero: the generator stays there. -/
def stuck : Xoroshiro128Plus := ⟨0, 0⟩

theorem draws_stuck (n : Nat) : draws n stuck = stuck := by
  have h : step stuck = stuck := by decide
  exact Function.iterate_fixed h n

theorem draws_eq_stuck {n : Nat} {rng : Xoroshiro128Plus} : draws n rng = stuck ↔ rng = stuck := by
  constructor
  · exact fun h => draws_injective n (h.trans (draws_stuck n).symm)
  · rintro rfl
    exact draws_stuck n

/-- Every bit of the word is one some places below it. -/
theorem xor_shiftLeft_eq_zero {x : BitVec 64} {k : Nat} (hk : 0 < k) (h : x ^^^ (x <<< k) = 0#64) : x = 0#64 := by
  have heq : x = x <<< k := BitVec.xor_eq_zero_iff.mp h
  have hbit : ∀ i, x.getLsbD i = false := by
    intro i
    induction i using Nat.strong_induction_on with
    | h i ih =>
      rw [heq, BitVec.getLsbD_shiftLeft]
      by_cases hlow : i < k
      · simp [hlow]
      · rw [ih (i - k) (Nat.sub_lt (Nat.lt_of_lt_of_le hk (Nat.not_lt.mp hlow)) hk), Bool.and_false]
  exact BitVec.eq_of_getLsbD_eq fun i _ => (hbit i).trans BitVec.getLsbD_zero.symm

theorem xor_shiftRight_eq_zero {x : BitVec 64} {k : Nat} (hk : 0 < k) (h : x ^^^ (x >>> k) = 0#64) : x = 0#64 := by
  have heq : x = x >>> k := BitVec.xor_eq_zero_iff.mp h
  have hdiv : x.toNat = x.toNat / 2 ^ k :=
    calc x.toNat = (x >>> k).toNat := congrArg BitVec.toNat heq
      _ = x.toNat / 2 ^ k := by rw [BitVec.toNat_ushiftRight, Nat.shiftRight_eq_div_pow]
  refine BitVec.eq_of_toNat_eq (Nat.eq_zero_of_not_pos fun hpos => ?_)
  exact absurd hdiv (Nat.ne_of_gt (Nat.div_lt_self hpos (Nat.one_lt_two_pow (Nat.ne_of_gt hk))))

theorem mix_eq_zero {state : BitVec 64} : mix state = 0#64 ↔ state = 0#64 := by
  constructor
  · intro h
    exact xor_shiftLeft_eq_zero (by decide) (xor_shiftRight_eq_zero (by decide) (xor_shiftLeft_eq_zero (by decide) h))
  · rintro rfl
    decide

/-- The seed whose sum with the offset is zero. -/
def stuckSeed : BitVec 64 := 0x61C8864680B583EB#64

theorem new_eq_stuck {seed : BitVec 64} : new seed = stuck ↔ seed = stuckSeed := by
  have hsum : seed + 0x9E3779B97F4A7C15#64 = 0#64 ↔ seed = stuckSeed := by
    constructor
    · intro h
      calc seed = seed + 0x9E3779B97F4A7C15#64 + stuckSeed := by rw [BitVec.add_assoc]; exact (BitVec.add_zero seed).symm
        _ = stuckSeed := by rw [h, BitVec.zero_add]
    · rintro rfl
      decide
  constructor
  · intro h
    exact hsum.mp (mix_eq_zero.mp (congrArg Xoroshiro128Plus.s0 h))
  · rintro rfl
    decide

/-- The generator of a seed: no draw leaves both words zero, a draw can be taken back, and two states stay apart. -/
def NeverStuck (seed : BitVec 64) : Prop :=
  (∀ n, draws n (new seed) ≠ stuck) ∧ Function.Bijective step ∧ ∀ n s s', s ≠ s' → draws n s ≠ draws n s'

theorem neverStuck_iff (seed : BitVec 64) : NeverStuck seed ↔ seed ≠ stuckSeed := by
  constructor
  · rintro ⟨h, -⟩ rfl
    exact h 0 (new_eq_stuck.mpr rfl)
  · intro h
    exact ⟨fun n hstuck => h (new_eq_stuck.mp (draws_eq_stuck.mp hstuck)), step_bijective,
      fun n s s' hne heq => hne (draws_injective n heq)⟩

theorem not_neverStuck : ¬ NeverStuck 0x61C8864680B583EB#64 := by
  rintro ⟨h, -⟩
  exact h 0 (by decide)

end Seeds

end EffectTorch.Random
