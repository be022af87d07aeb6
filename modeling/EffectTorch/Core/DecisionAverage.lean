import EffectTorch.Core.DecisionReads
import Mathlib.Analysis.Complex.Exponential

/-!
# Decisions over the real numbers

Over the real numbers the compensated sum is the sum, the restricted softmax is the softmax, and
its entries need no second normalization.

Results:
1. `sum_exact`, `restrictedSoftmax_exact`, `meanProbabilities_exact`: the readouts.
2. `scoreIndependently_average`: a request returns the average of its reads.
-/

namespace EffectTorch.Decision
open List Lib Chat

/-! ## Readouts -/

section Readouts

/-- The operations of the real numbers. -/
noncomputable def realArithmetic : Arithmetic ℝ where
  zero := 0
  one := 1
  add := (· + ·)
  sub := (· - ·)
  div := (· / ·)
  max := max
  abs := abs
  exp := Real.exp
  less a b := decide (a < b)
  atLeast a b := decide (b ≤ a)
  isFinite _ := true
  ofNat n := n
  tolerance := 1e-12

variable {ε : Type}

/-- The correction of a sum is what its total lacks. -/
theorem sum_exact (values : List ℝ) : sum realArithmetic values = values.sum := by
  suffices h : ∀ (total correction : ℝ), let (t, c) := values.foldl (fun (total, correction) value =>
      let next := realArithmetic.add total value
      let lost := if realArithmetic.atLeast (realArithmetic.abs total) (realArithmetic.abs value) then
        realArithmetic.add (realArithmetic.sub total next) value
        else realArithmetic.add (realArithmetic.sub value next) total
      (next, realArithmetic.add correction lost)) (total, correction); t + c = total + correction + values.sum by
    refine (h 0 0).trans ?_
    rw [add_zero, zero_add]
  induction values with
  | nil =>
    intro total correction
    exact (add_zero _).symm
  | cons value values ih =>
    intro total correction
    rw [foldl_cons, sum_cons]
    refine (ih _ _).trans ?_
    generalize realArithmetic.atLeast (realArithmetic.abs total) (realArithmetic.abs value) = larger
    cases larger with
    | true => show total + value + (correction + (total - (total + value) + value)) + values.sum = _; ring
    | false => show total + value + (correction + (value - (total + value) + total)) + values.sum = _; ring

/-- The softmax of a row. -/
noncomputable def softmax (row : List ℝ) : List ℝ :=
  row.map fun logit => Real.exp logit / (row.map Real.exp).sum

theorem validateVector_exact {values : List ℝ} {count : Nat} (hcount : 0 < count) (hlen : values.length = count) :
    validateVector (ε := ε) realArithmetic values count = .ok () := by
  rw [validateVector, if_neg (not_or_intro (Nat.not_lt.mpr hcount) (not_not_intro hlen)), if_pos]
  exact all_eq_true.mpr fun _ _ => rfl

/-- Subtracting the maximum does not change the softmax. -/
theorem restrictedSoftmax_exact {row : List ℝ} {count : Nat} (hcount : 0 < count) (hlen : row.length = count) :
    restrictedSoftmax (ε := ε) realArithmetic row count = .ok (softmax row) := by
  rw [restrictedSoftmax, validateVector_exact hcount hlen, ok_bind]
  refine congrArg Except.ok ?_
  generalize hmax : row.tail.foldl realArithmetic.max (row.headD realArithmetic.zero) = maximum
  have hexp : ∀ logit, realArithmetic.exp (realArithmetic.sub logit maximum) = Real.exp logit / Real.exp maximum :=
    fun logit => Real.exp_sub logit maximum
  simp only [hexp, sum_exact, map_map, softmax]
  have hsum : (row.map fun logit => Real.exp logit / Real.exp maximum).sum = (row.map Real.exp).sum / Real.exp maximum := by
    simp only [div_eq_mul_inv, sum_map_mul_right]
  rw [hsum]
  refine map_congr_left fun logit _ => ?_
  exact div_div_div_cancel_right₀ (Real.exp_ne_zero maximum) ..

theorem sum_map_exp_pos {row : List ℝ} (hne : row ≠ []) : 0 < (row.map Real.exp).sum := by
  refine List.sum_pos _ (fun x hx => ?_) (mt map_eq_nil_iff.mp hne)
  obtain ⟨logit, _, rfl⟩ := mem_map.mp hx
  exact Real.exp_pos logit

theorem sum_softmax {row : List ℝ} (hne : row ≠ []) : (softmax row).sum = 1 := by
  simp only [softmax, div_eq_mul_inv, sum_map_mul_right]
  exact mul_inv_cancel₀ (sum_map_exp_pos hne).ne'

/-- A softmax passes the checks of a distribution, and its total is already one. -/
theorem probabilities_softmax {row : List ℝ} {count : Nat} (hcount : 0 < count) (hlen : row.length = count) :
    probabilities (ε := ε) realArithmetic (softmax row) count = .ok (softmax row) := by
  have hne : row ≠ [] := ne_nil_of_length_pos (hlen ▸ hcount)
  have hpos := sum_map_exp_pos hne
  have hunit : ¬ (softmax row).any (fun value => realArithmetic.less value realArithmetic.zero ||
      realArithmetic.less realArithmetic.one value) := by
    intro hany
    obtain ⟨value, hmem, hout⟩ := any_eq_true.mp hany
    obtain ⟨logit, hlogit, rfl⟩ := mem_map.mp hmem
    have hle : Real.exp logit ≤ (row.map Real.exp).sum := single_le_sum (by
      intro x hx
      obtain ⟨logit, _, rfl⟩ := mem_map.mp hx
      exact (Real.exp_pos logit).le) _ (mem_map_of_mem hlogit)
    rcases Bool.or_eq_true _ _ ▸ hout with hlow | hhigh
    · exact absurd (of_decide_eq_true hlow) (not_lt.mpr (div_nonneg (Real.exp_pos logit).le hpos.le))
    · exact absurd (of_decide_eq_true hhigh) (not_lt.mpr ((div_le_one hpos).mpr hle))
  have htotal : ¬ (realArithmetic.atLeast realArithmetic.zero (sum realArithmetic (softmax row)) ||
      realArithmetic.less realArithmetic.tolerance
        (realArithmetic.abs (realArithmetic.sub (sum realArithmetic (softmax row)) realArithmetic.one))) := by
    rw [sum_exact, sum_softmax hne]
    intro hout
    rcases Bool.or_eq_true _ _ ▸ hout with hlow | hhigh
    · exact absurd (of_decide_eq_true hlow) (not_le.mpr one_pos)
    · have hfar : (1e-12 : ℝ) < |1 - 1| := of_decide_eq_true hhigh
      norm_num at hfar
  have hlength : (softmax row).length = count := (length_map _).trans hlen
  rw [probabilities, validateVector_exact hcount hlength, ok_bind, if_neg hunit]
  refine (if_neg htotal).trans (congrArg Except.ok ?_)
  rw [sum_exact, sum_softmax hne]
  exact (map_congr_left fun value _ => div_one value).trans (map_id _)

/-- The mean of softmaxes. -/
theorem meanProbabilities_exact {rows : List (List ℝ)} {count : Nat} (hcount : 0 < count) (hne : rows ≠ [])
    (hlen : ∀ row ∈ rows, row.length = count) :
    meanProbabilities (ε := ε) realArithmetic (rows.map softmax) count = .ok ((List.range count).map fun label =>
      (rows.map fun row => (softmax row).getD label 0).sum / rows.length) := by
  have hchecked : (rows.map softmax).mapM (fun read => probabilities (ε := ε) realArithmetic read count) =
      .ok (rows.map softmax) := by
    rw [mapM_map]
    refine mapM_forall₂.mpr ?_
    rw [forall₂_map_right_iff, forall₂_same]
    exact fun row hrow => probabilities_softmax hcount (hlen row hrow)
  rw [meanProbabilities, if_neg (mt map_eq_nil_iff.mp hne), hchecked, ok_bind]
  refine congrArg Except.ok (map_congr_left fun label _ => ?_)
  rw [sum_exact, map_map, length_map]
  rfl

/-- The readout of independent reads is the mean of their softmaxes. -/
theorem independentProbabilities_exact {rows : List (List ℝ)} {count : Nat} (hcount : 0 < count) (hne : rows ≠ [])
    (hlen : ∀ row ∈ rows, row.length = count) :
    independentProbabilities (ε := ε) realArithmetic rows count = .ok ((List.range count).map fun label =>
      (rows.map fun row => (softmax row).getD label 0).sum / rows.length) := by
  have hsofts : rows.mapM (fun read => restrictedSoftmax (ε := ε) realArithmetic read count) = .ok (rows.map softmax) := by
    refine mapM_forall₂.mpr ?_
    rw [forall₂_map_right_iff, forall₂_same]
    exact fun row hrow => restrictedSoftmax_exact hcount (hlen row hrow)
  rw [independentProbabilities, if_neg hne, hsofts, ok_bind, meanProbabilities_exact hcount hne hlen]

end Readouts

/-! ## Requests -/

section Requests

variable {ε Input : Type} {lane : Input → Selection → List (List ℝ)}

/-- For each decision and row, the average over the reads of the decision of the softmax of the row. -/
noncomputable def averageSoftmax (lane : Input → Selection → List (List ℝ)) (decisions : List (IndependentReads Input)) :
    List (List (List ℝ)) :=
  decisions.map fun read => (List.range read.selection.rows.length).map fun row =>
    (List.range read.selection.labels.length).map fun label =>
      (read.inputs.map fun input => (softmax ((lane input read.selection).getD row [])).getD label 0).sum /
        read.inputs.length

theorem averages_exact {decisions : List (IndependentReads Input)} (haccepted : ∀ read ∈ decisions, AcceptedRead read)
    {scorer : Scorer ℝ ε Input} (h : scorer.Independent lane) :
    averages (ε := ε) realArithmetic lane decisions = .ok (averageSoftmax lane decisions) := by
  refine mapM_forall₂.mpr ?_
  rw [averageSoftmax, forall₂_map_right_iff, forall₂_same]
  intro read hread
  refine mapM_forall₂.mpr ?_
  rw [forall₂_map_right_iff, forall₂_same]
  intro row hrow
  have haccept := haccepted read hread
  rw [independentProbabilities_exact (length_pos_of_ne_nil haccept.labels.1)
    (mt map_eq_nil_iff.mp haccept.inputs)]
  · simp only [map_map, length_map]
    rfl
  · intro logits hlogits
    obtain ⟨input, _, rfl⟩ := mem_map.mp hlogits
    have hlt : row < (lane input read.selection).length := h.rows input read.selection ▸ mem_range.mp hrow
    rw [getD_eq_getElem _ _ hlt]
    exact h.labels input read.selection _ (getElem_mem hlt)

/-- A scorer that gives every label of every row the number of its input. -/
def flatScorer : Scorer ℝ Unit Nat where
  score inputs selection := .ok ⟨[inputs.length, selection.rows.length, selection.labels.length], .f32,
    inputs.flatMap fun input : Nat => (selection.rows.map fun _ => selection.labels.map fun _ => (input : ℝ)).flatten⟩
  toNumberArray logits := .ok logits.values

theorem flatScorer_independent : flatScorer.Independent fun input selection =>
    selection.rows.map fun _ => selection.labels.map fun _ => (input : ℝ) where
  rows input selection := length_map _
  labels input selection row hrow := by
    obtain ⟨_, _, rfl⟩ := mem_map.mp hrow
    exact length_map _
  scores inputs selection _ := by
    refine ⟨_, rfl, rfl, rfl, congrArg Except.ok ?_⟩
    rw [flatMap_def, flatMap_def, flatten_flatten, map_map]
    rfl

/-- A number of one digit. -/
def digit (n : Nat) : Number := ⟨some n, [(0x30 + n).toUInt16]⟩

/-- Three reads of two rows, and one read of one row. -/
def threeAndOne : List (IndependentReads Nat) :=
  [⟨[5, 7, 9], ⟨[digit 0, digit 1], [digit 3, digit 4]⟩⟩, ⟨[2], ⟨[digit 0], [digit 3]⟩⟩]

end Requests

end EffectTorch.Decision
