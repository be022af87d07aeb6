import Mathlib.Algebra.BigOperators.Intervals
import Mathlib.MeasureTheory.Measure.Lebesgue.Basic
import Mathlib.MeasureTheory.Measure.Real

/-!
# Categorical draws

A draw picks the first item at which the running total of the weights exceeds it.

Results:
1. `pick_eq_some`: the draws that pick an item are those between the total before it and
   the total behind it.
2. `pick_returns`: a draw below the total picks an item of positive weight.
3. `pick_unit`: the shares of the total that pick an item make up an interval as long as
   its share.
4. `volume_pick`: a uniform draw picks an item with its share of the total.
-/

namespace Lib
open List MeasureTheory Set

/-- The index of the first weight at which the draw falls below zero. -/
def pick {K : Type} [Field K] [LinearOrder K] : List K → K → Option Nat
  | [], _ => none
  | weight :: weights, draw =>
    if draw - weight < 0 then some 0 else (pick weights (draw - weight)).map (· + 1)

/-- The total of the weights ahead of an index. -/
def massBefore {K : Type} [Field K] (weights : List K) (index : Nat) : K :=
  (weights.take index).sum

section Order

variable {K : Type} [Field K] [LinearOrder K] [IsStrictOrderedRing K] {weights : List K} {draw : K}

theorem massBefore_nonneg (hweights : ∀ w ∈ weights, 0 ≤ w) (index : Nat) :
    0 ≤ massBefore weights index :=
  sum_nonneg fun w hw => hweights w (mem_of_mem_take hw)

/-- The draws that pick an item. -/
theorem pick_eq_some (hweights : ∀ w ∈ weights, 0 ≤ w) (hdraw : 0 ≤ draw) {index : Nat} :
    pick weights draw = some index ↔ ∃ w, weights[index]? = some w ∧
      massBefore weights index ≤ draw ∧ draw < massBefore weights index + w := by
  induction weights generalizing draw index with
  | nil => simp [pick]
  | cons weight weights ih =>
    obtain ⟨_, hrest⟩ := forall_mem_cons.mp hweights
    rw [pick]
    split
    · next hlt =>
      have hlt := sub_neg.mp hlt
      cases index with
      | zero => simp [massBefore, hdraw, hlt]
      | succ index =>
        refine iff_of_false (by simp) fun ⟨w, _, hbefore, _⟩ => ?_
        rw [massBefore, take_succ_cons, sum_cons] at hbefore
        have hmass := massBefore_nonneg hrest index
        exact absurd hlt (not_lt_of_ge (le_trans (le_add_of_nonneg_right hmass) hbefore))
    · next hge =>
      have hge := not_lt.mp hge
      cases index with
      | zero =>
        refine iff_of_false (by simp) fun ⟨w, hw, _, hlt⟩ => ?_
        obtain rfl : weight = w := Option.some.inj hw
        rw [massBefore, take_zero, sum_nil, zero_add] at hlt
        exact absurd hge (not_le_of_gt (sub_neg.mpr hlt))
      | succ index =>
        rw [Option.map_eq_some_iff]
        have hstep : ∀ index, pick weights (draw - weight) = some index ↔ _ := fun _ => ih hrest hge
        simp only [massBefore, take_succ_cons, sum_cons, List.getElem?_cons_succ,
          Nat.add_right_cancel_iff, exists_eq_right, hstep, le_sub_iff_add_le', sub_lt_iff_lt_add',
          add_assoc]

/-- A draw below the total picks an item. -/
theorem pick_returns (hweights : ∀ w ∈ weights, 0 ≤ w) (hdraw : 0 ≤ draw)
    (hlt : draw < weights.sum) :
    ∃ index w, pick weights draw = some index ∧ weights[index]? = some w ∧ 0 < w := by
  induction weights generalizing draw with
  | nil => exact absurd hdraw (not_le_of_gt (by simpa using hlt))
  | cons weight weights ih =>
    obtain ⟨_, hrest⟩ := forall_mem_cons.mp hweights
    rw [sum_cons] at hlt
    rw [pick]
    split
    · next h => exact ⟨0, weight, rfl, rfl, lt_of_le_of_lt hdraw (sub_neg.mp h)⟩
    · next h =>
      obtain ⟨index, w, hpick, hw, hpos⟩ :=
        ih hrest (not_lt.mp h) (sub_lt_iff_lt_add'.mpr hlt)
      exact ⟨index + 1, w, by rw [hpick]; rfl, hw, hpos⟩

/-- The items up to this one are some of the items. -/
theorem massBefore_add_le (hweights : ∀ w ∈ weights, 0 ≤ w) {index : Nat} {w : K}
    (hw : weights[index]? = some w) : massBefore weights index + w ≤ weights.sum := by
  have htake : (weights.take (index + 1)).sum = massBefore weights index + w := by
    rw [take_add_one, hw, Option.toList_some, sum_append, sum_singleton]
    rfl
  rw [← htake, ← take_append_drop (index + 1) weights, sum_append,
    take_append_drop]
  exact le_add_of_nonneg_right
    (sum_nonneg fun w hw => hweights w (mem_of_mem_drop hw))

/-- The shares of the total that pick an item. -/
theorem pick_unit (hweights : ∀ w ∈ weights, 0 ≤ w) (hpos : 0 < weights.sum) {index : Nat} {w : K}
    (hw : weights[index]? = some w) (hdraw : 0 ≤ draw) :
    pick weights (draw * weights.sum) = some index ↔
      massBefore weights index / weights.sum ≤ draw ∧
        draw < massBefore weights index / weights.sum + w / weights.sum := by
  rw [pick_eq_some hweights (mul_nonneg hdraw hpos.le), ← add_div, div_le_iff₀ hpos,
    lt_div_iff₀ hpos]
  constructor
  · rintro ⟨w', hw', h⟩
    obtain rfl := Option.some.inj (hw.symm.trans hw')
    exact h
  · exact fun h => ⟨w, hw, h⟩

end Order

/-! ## Uniform draws -/

/-- The uniform draws that pick an item make up an interval. -/
theorem pick_interval {weights : List ℝ} (hweights : ∀ w ∈ weights, 0 ≤ w)
    (hpos : 0 < weights.sum) {index : Nat} {w : ℝ} (hw : weights[index]? = some w) :
    {u : ℝ | u ∈ Set.Ico 0 1 ∧ pick weights (u * weights.sum) = some index} =
      Set.Ico (massBefore weights index / weights.sum)
        ((massBefore weights index + w) / weights.sum) := by
  ext u
  rw [mem_ofPred_eq, mem_Ico, mem_Ico, add_div]
  constructor
  · rintro ⟨⟨hu, _⟩, hpick⟩
    exact (pick_unit hweights hpos hw hu).mp hpick
  · rintro ⟨hle, hlt⟩
    have hu : 0 ≤ u := le_trans (div_nonneg (massBefore_nonneg hweights index) hpos.le) hle
    have hu' : u < 1 := by
      refine lt_of_lt_of_le hlt ?_
      rw [← add_div, div_le_one hpos]
      exact massBefore_add_le hweights hw
    exact ⟨⟨hu, hu'⟩, (pick_unit hweights hpos hw hu).mpr ⟨hle, hlt⟩⟩

/-- A uniform draw picks an item with its share of the total. -/
theorem volume_pick {weights : List ℝ} (hweights : ∀ w ∈ weights, 0 ≤ w)
    (hpos : 0 < weights.sum) (index : Nat) :
    volume.real {u : ℝ | u ∈ Set.Ico 0 1 ∧ pick weights (u * weights.sum) = some index} =
      weights.getD index 0 / weights.sum := by
  rw [getD_eq_getElem?_getD]
  cases hw : weights[index]? with
  | none =>
    -- no draw picks an index behind the list
    have hnone : {u : ℝ | u ∈ Set.Ico 0 1 ∧ pick weights (u * weights.sum) = some index} = ∅ := by
      refine eq_empty_of_forall_notMem fun u ⟨⟨hu, _⟩, hpick⟩ => ?_
      obtain ⟨w, hw', _⟩ := (pick_eq_some hweights (mul_nonneg hu hpos.le)).mp hpick
      rw [hw] at hw'
      cases hw'
    rw [hnone, measureReal_empty, Option.getD_none, zero_div]
  | some w =>
    have hle : massBefore weights index / weights.sum ≤
        (massBefore weights index + w) / weights.sum :=
      div_le_div_of_nonneg_right (le_add_of_nonneg_right (hweights w (mem_of_getElem? hw)))
        hpos.le
    rw [pick_interval hweights hpos hw, Real.volume_real_Ico_of_le hle, ← sub_div,
      add_sub_cancel_left, Option.getD_some]

/-! ## Sums of two rows -/

theorem sum_zipWith (f : ℝ → ℝ → ℝ) {l l' : List ℝ} (hlength : l.length = l'.length) :
    (List.zipWith f l l').sum = ∑ i ∈ Finset.range l.length, f (l.getD i 0) (l'.getD i 0) := by
  induction l generalizing l' with
  | nil => simp
  | cons a l ih =>
    cases l' with
    | nil => cases hlength
    | cons b l' =>
      rw [zipWith_cons_cons, sum_cons, ih (Nat.succ.inj hlength), length_cons,
        Finset.sum_range_succ', add_comm]
      simp only [getD_cons_succ, getD_cons_zero]

theorem sum_getD (l : List ℝ) : ∑ i ∈ Finset.range l.length, l.getD i 0 = l.sum := by
  have h := sum_zipWith (fun a _ => a) (rfl : l.length = l.length)
  rw [← h, zipWith_self, map_id']

end Lib
