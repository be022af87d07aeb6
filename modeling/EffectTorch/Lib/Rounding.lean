import Mathlib.Data.Nat.Dist
import Mathlib.Order.Basic

/-!
# Rounding to a grid

A grid lists increasing values by an index up to `top`. `Nearest grid top u i` says that no
grid point is closer to `u` than that of `i`, and that of two closest points the one with the
even index is taken.

Results:
1. `nearest_between`: rounding between two neighbours, by the midpoint.
2. `nearest_top`: what lies behind the grid is rounded to its end.
3. `Nearest.top_iff`: the end is reached from the midpoint before it on.
4. `nearest_step`: rounding a quotient by its remainder.
-/

namespace Lib

structure Nearest (grid : Nat → Nat) (top u i : Nat) : Prop where
  le_top : i ≤ top
  closest : ∀ j ≤ top, Nat.dist u (grid i) ≤ Nat.dist u (grid j)
  even_of_tie : ∀ j ≤ top, j ≠ i → Nat.dist u (grid j) = Nat.dist u (grid i) → i % 2 = 0

def Increasing (grid : Nat → Nat) (top : Nat) : Prop :=
  ∀ i j, i < j → j ≤ top → grid i < grid j

variable {grid : Nat → Nat} {top u i : Nat}

theorem Increasing.le (h : Increasing grid top) {i j : Nat} (hij : i ≤ j) (hj : j ≤ top) :
    grid i ≤ grid j := by
  rcases Nat.lt_or_eq_of_le hij with hlt | rfl
  · exact Nat.le_of_lt (h i j hlt hj)
  · exact Nat.le_refl _

theorem increasing_of_succ (h : ∀ i < top, grid i < grid (i + 1)) : Increasing grid top := by
  intro i j hij
  induction hij with
  | refl => exact fun hj => h i hj
  | step _ ih => exact fun hj => Nat.lt_trans (ih (Nat.le_of_succ_le hj)) (h _ hj)

/-- Between two neighbours the midpoint decides, and on the midpoint the parity. -/
theorem nearest_between (hgrid : Increasing grid top) (hi : i < top) (hlo : grid i ≤ u)
    (hhi : u ≤ grid (i + 1)) :
    Nearest grid top u
      (if grid i + grid (i + 1) < 2 * u ∨ grid i + grid (i + 1) = 2 * u ∧ i % 2 = 1 then i + 1
        else i) := by
  have hstep := hgrid i (i + 1) (Nat.lt_succ_self i) hi
  -- every other point lies behind one of the two neighbours
  have hother : ∀ j ≤ top, grid j ≤ grid i ∧ (j ≠ i → grid j < grid i) ∨
      grid (i + 1) ≤ grid j ∧ (j ≠ i + 1 → grid (i + 1) < grid j) := by
    intro j hj
    rcases Nat.lt_trichotomy j i with hlt | rfl | hgt
    · exact .inl ⟨Nat.le_of_lt (hgrid j i hlt (Nat.le_of_lt hi)), fun _ =>
        hgrid j i hlt (Nat.le_of_lt hi)⟩
    · exact .inl ⟨Nat.le_refl _, fun hne => absurd rfl hne⟩
    · exact .inr ⟨hgrid.le hgt hj, fun hne =>
        hgrid (i + 1) j (Nat.lt_of_le_of_ne hgt (Ne.symm hne)) hj⟩
  split
  · next hup =>
    refine ⟨hi, fun j hj => ?_, fun j hj hne htie => ?_⟩
    · have := hother j hj
      unfold Nat.dist
      omega
    · have := hother j hj
      unfold Nat.dist at htie
      omega
  · next hdown =>
    refine ⟨Nat.le_of_lt hi, fun j hj => ?_, fun j hj hne htie => ?_⟩
    · have := hother j hj
      unfold Nat.dist
      omega
    · have := hother j hj
      unfold Nat.dist at htie
      omega

/-- What lies behind the grid is rounded to its end. -/
theorem nearest_top (hgrid : Increasing grid top) (hu : grid top ≤ u) : Nearest grid top u top := by
  refine ⟨Nat.le_refl _, fun j hj => ?_, fun j hj hne htie => ?_⟩
  · have := hgrid.le hj (Nat.le_refl _)
    unfold Nat.dist
    omega
  · have := hgrid j top (Nat.lt_of_le_of_ne hj hne) (Nat.le_refl _)
    unfold Nat.dist at htie
    omega

/-- The end is reached from the midpoint before it on, if its index is even. -/
theorem Nearest.top_iff (hgrid : Increasing grid top) (hpos : 0 < top) (heven : top % 2 = 0)
    (h : Nearest grid top u i) : i = top ↔ grid (top - 1) + grid top ≤ 2 * u := by
  have hlast := hgrid (top - 1) top (Nat.sub_one_lt_of_lt hpos) (Nat.le_refl _)
  constructor
  · rintro rfl
    have hclose := h.closest (i - 1) (Nat.sub_le _ _)
    unfold Nat.dist at hclose
    omega
  · intro hmid
    by_contra hne
    have hle : i ≤ top - 1 := by
      have := h.le_top
      omega
    have hbelow := hgrid.le hle (Nat.sub_le _ _)
    have hclose := h.closest top (Nat.le_refl _)
    have htie := h.even_of_tie top (Nat.le_refl _) (Ne.symm hne)
    have hprev : i ≠ top - 1 → grid i < grid (top - 1) := fun hi =>
      hgrid i (top - 1) (Nat.lt_of_le_of_ne hle hi) (Nat.sub_le _ _)
    unfold Nat.dist at hclose htie
    omega

/-- Where the grid is `base` points behind the multiples of `p`, a quotient is rounded by its
remainder. -/
theorem nearest_step (hgrid : Increasing grid top) {base q r p : Nat} (hbase : base % 2 = 0)
    (hlo : grid (base + q) = q * p) (hhi : grid (base + q + 1) = (q + 1) * p)
    (htop : base + q < top) (hr : r < p) :
    Nearest grid top (q * p + r)
      (base + (q + if p < 2 * r ∨ 2 * r = p ∧ q % 2 = 1 then 1 else 0)) := by
  have hsucc : (q + 1) * p = q * p + p := Nat.succ_mul q p
  have hbetween := nearest_between (u := q * p + r) hgrid htop (by omega) (by omega)
  rw [hlo, hhi, hsucc] at hbetween
  split at hbetween
  · next hup =>
    rw [if_pos (by omega)]
    exact hbetween
  · next hdown =>
    rw [if_neg (by omega)]
    exact hbetween

end Lib
