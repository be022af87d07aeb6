import EffectTorch.Lib.Ranges

/-!
# Ranges laid end to end

A list of ranges tiles `[lo, hi)` when each range starts where the one before it
stops. Empty ranges count: they too must start there.

Results:
1. `Tiles.eq_of_perm`: of all the arrangements of some ranges, only the sorted one can
   tile, so sorting finds the tiling if there is one.
-/

namespace Lib

/-- The ranges, one after the other, go from `lo` to `hi`. -/
def Tiles (lo : Nat) : List Range → Nat → Prop
  | [], hi => lo = hi
  | range :: ranges, hi => range.start = lo ∧ lo ≤ range.stop ∧ Tiles range.stop ranges hi

theorem Range.le_antisymm {a b : Range} (hab : a.le b) (hba : b.le a) : a = b := by
  rcases hab with hlt | ⟨heq, hle⟩
  · rcases hba with hlt' | ⟨heq', _⟩
    · exact absurd hlt' (Nat.lt_asymm hlt)
    · exact absurd hlt (Nat.not_lt_of_le (Nat.le_of_eq heq'))
  · rcases hba with hlt' | ⟨_, hle'⟩
    · exact absurd hlt' (Nat.not_lt_of_le (Nat.le_of_eq heq))
    · obtain ⟨start, stop⟩ := a
      obtain rfl : start = b.start := heq
      obtain rfl : stop = b.stop := Nat.le_antisymm hle hle'
      rfl

namespace Tiles

variable {lo hi : Nat} {ranges ranges' : List Range}

theorem le (h : Tiles lo ranges hi) : lo ≤ hi := by
  induction ranges generalizing lo with
  | nil => exact Nat.le_of_eq h
  | cons range ranges ih =>
    obtain ⟨_, hle, hrest⟩ := h
    exact Nat.le_trans hle (ih hrest)

/-- Each range lies inside `[lo, hi]`. -/
theorem bounds (h : Tiles lo ranges hi) {range : Range} (hmem : range ∈ ranges) :
    lo ≤ range.start ∧ range.start ≤ range.stop ∧ range.stop ≤ hi := by
  induction ranges generalizing lo with
  | nil => exact absurd hmem List.not_mem_nil
  | cons first ranges ih =>
    obtain ⟨hstart, hle, hrest⟩ := h
    rcases List.mem_cons.mp hmem with rfl | hmem
    · exact ⟨Nat.le_of_eq hstart.symm, hstart ▸ hle, hrest.le⟩
    · obtain ⟨hlo, hrange, hhi⟩ := ih hrest hmem
      exact ⟨Nat.le_trans hle hlo, hrange, hhi⟩

/-- A tiling is sorted by start and, at equal starts, by stop. -/
theorem sorted (h : Tiles lo ranges hi) : ranges.Pairwise Range.le := by
  induction ranges generalizing lo with
  | nil => exact List.Pairwise.nil
  | cons range ranges ih =>
    obtain ⟨hstart, hle, hrest⟩ := h
    refine List.pairwise_cons.mpr ⟨fun b hb => ?_, ih hrest⟩
    obtain ⟨hlo, hb, _⟩ := hrest.bounds hb
    rcases Nat.lt_or_eq_of_le (Nat.le_trans (hstart ▸ hle) hlo) with hlt | heq
    · exact .inl hlt
    · -- a later range that starts at the same point shows that this one is empty
      exact .inr ⟨heq, Nat.le_trans hlo hb⟩

theorem eq_of_perm (h : Tiles lo ranges hi) (hperm : ranges.Perm ranges')
    (hsorted : ranges'.Pairwise Range.le) : ranges = ranges' :=
  hperm.eq_of_pairwise (fun _ _ _ _ => Range.le_antisymm) h.sorted hsorted

end Tiles

end Lib
