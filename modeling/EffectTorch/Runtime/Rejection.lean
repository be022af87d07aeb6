import EffectTorch.Runtime.Sampling
import Mathlib.MeasureTheory.Measure.Prod

/-!
# Rejection sampling keeps the target distribution

The candidate is drawn from the proposal row, and the two draws of `rejection_sample` are
uniform in `[0, 1)` and independent.

Results:
1. `rejectionSample_cases`: a candidate is accepted below `min(1, p / q)`, and above it
   the residual row has positive mass and picks the replacement.
2. `emissionProbability_eq`: the share of the draws that emit a token, for one candidate.
3. `rejectionSample_exact`: over the candidates, each token is emitted with its target
   probability, and no candidate of the proposal meets an error.
-/

namespace EffectTorch
open List Lib MeasureTheory Set

/-- A probability row that the sampler accepts as normalized. -/
structure ProbabilityRow where
  weights : List ℝ
  nonneg : ∀ w ∈ weights, 0 ≤ w
  sum_eq_one : weights.sum = 1
  length_le : weights.length ≤ u32Max

namespace ProbabilityRow

/-- The probability of a token. -/
def weight (row : ProbabilityRow) (token : Nat) : ℝ :=
  row.weights.getD token 0

theorem weight_nonneg (row : ProbabilityRow) (token : Nat) : 0 ≤ row.weight token := by
  rw [weight, getD_eq_getElem?_getD]
  cases h : row.weights[token]? with
  | none => exact le_rfl
  | some w => exact row.nonneg w (mem_of_getElem? h)

theorem getElem?_of_pos {row : ProbabilityRow} {token : Nat} (h : 0 < row.weight token) :
    row.weights[token]? = some (row.weight token) := by
  rw [weight, getD_eq_getElem?_getD] at h ⊢
  cases hw : row.weights[token]? with
  | none => rw [hw] at h; exact absurd h (lt_irrefl _)
  | some w => rfl

theorem weight_eq_zero {row : ProbabilityRow} {token : Nat} (h : row.weights.length ≤ token) :
    row.weight token = 0 := by
  rw [weight, getD_eq_getElem?_getD, List.getElem?_eq_none h, Option.getD_none]

theorem sum_weight (row : ProbabilityRow) :
    ∑ token ∈ Finset.range row.weights.length, row.weight token = 1 :=
  (sum_getD row.weights).trans row.sum_eq_one

theorem ne_nil (row : ProbabilityRow) : row.weights ≠ [] := by
  intro h
  have hsum := row.sum_eq_one
  rw [h, sum_nil] at hsum
  exact zero_ne_one hsum

end ProbabilityRow

/-- The share of the two draws on which a candidate emits a token. -/
noncomputable def emissionProbability (target proposal : ProbabilityRow) (candidate token : Nat) :
    ℝ :=
  volume.real {draws : ℝ × ℝ | draws ∈ Set.Ico (0 : ℝ) 1 ×ˢ Set.Ico (0 : ℝ) 1 ∧
    emitted candidate (rejectionSample target.weights proposal.weights candidate draws.1 draws.2
      neverCancelled) = some token}

variable {target proposal : ProbabilityRow} {candidate : Nat}

/-! ## The residual row -/

theorem residual_nonneg (target proposal : List ℝ) : ∀ w ∈ residual target proposal, 0 ≤ w := by
  induction target generalizing proposal with
  | nil => simp [residual]
  | cons p target ih =>
    cases proposal with
    | nil => simp [residual]
    | cons q proposal =>
      exact forall_mem_cons.mpr ⟨le_max_right _ _, ih proposal⟩

theorem residual_length (hlength : target.weights.length = proposal.weights.length) :
    (residual target.weights proposal.weights).length = target.weights.length := by
  rw [residual, length_zipWith, hlength, min_self]

theorem residual_getD (hlength : target.weights.length = proposal.weights.length) (token : Nat) :
    (residual target.weights proposal.weights).getD token 0 =
      max (target.weight token - proposal.weight token) 0 := by
  simp only [residual, ProbabilityRow.weight, getD_eq_getElem?_getD, List.getElem?_zipWith]
  rcases Nat.lt_or_ge token target.weights.length with h | h
  · rw [List.getElem?_eq_getElem h, List.getElem?_eq_getElem (hlength ▸ h)]
    rfl
  · rw [List.getElem?_eq_none h, List.getElem?_eq_none (hlength ▸ h)]
    simp

theorem residual_sum (hlength : target.weights.length = proposal.weights.length) :
    (residual target.weights proposal.weights).sum =
      ∑ token ∈ Finset.range target.weights.length,
        max (target.weight token - proposal.weight token) 0 :=
  sum_zipWith _ hlength

/-- What the proposal has too much of some tokens, it has too little of others. -/
theorem excess_eq_residual (hlength : target.weights.length = proposal.weights.length) :
    ∑ token ∈ Finset.range target.weights.length,
      max (proposal.weight token - target.weight token) 0 =
        (residual target.weights proposal.weights).sum := by
  have hdifference : ∀ token, max (proposal.weight token - target.weight token) 0 =
      max (target.weight token - proposal.weight token) 0 +
        (proposal.weight token - target.weight token) := by
    intro token
    rcases le_total (proposal.weight token) (target.weight token) with h | h
    · rw [max_eq_right (sub_nonpos.mpr h), max_eq_left (sub_nonneg.mpr h)]
      ring
    · rw [max_eq_left (sub_nonneg.mpr h), max_eq_right (sub_nonpos.mpr h), zero_add]
  have hproposal := proposal.sum_weight
  rw [← hlength] at hproposal
  rw [Finset.sum_congr rfl fun token _ => hdifference token, Finset.sum_add_distrib,
    Finset.sum_sub_distrib, hproposal, target.sum_weight, sub_self, add_zero, residual_sum hlength]

theorem residual_sum_pos (hlength : target.weights.length = proposal.weights.length) {token : Nat}
    (hpos : 0 < max (target.weight token - proposal.weight token) 0) :
    0 < (residual target.weights proposal.weights).sum := by
  rw [← residual_getD hlength, getD_eq_getElem?_getD] at hpos
  cases hget : (residual target.weights proposal.weights)[token]? with
  | none => rw [hget] at hpos; exact absurd hpos (lt_irrefl _)
  | some w =>
    rw [hget] at hpos
    exact hpos.trans_le (single_le_sum (residual_nonneg _ _) w (mem_of_getElem? hget))

/-- A candidate that may be rejected leaves a residual row with positive mass. -/
theorem residual_pos (hlength : target.weights.length = proposal.weights.length)
    (hlt : target.weight candidate < proposal.weight candidate) :
    0 < (residual target.weights proposal.weights).sum := by
  have hmem : candidate ∈ Finset.range target.weights.length := by
    have hget := ProbabilityRow.getElem?_of_pos ((target.weight_nonneg candidate).trans_lt hlt)
    rw [Finset.mem_range, hlength]
    exact (List.getElem?_eq_some_iff.mp hget).1
  have hterm : max (proposal.weight candidate - target.weight candidate) 0 ≤ _ :=
    Finset.single_le_sum (f := fun token => max (proposal.weight token - target.weight token) 0)
      (fun token _ => le_max_right _ _) hmem
  rw [excess_eq_residual hlength, max_eq_left (sub_nonneg.mpr hlt.le)] at hterm
  exact (sub_pos.mpr hlt).trans_le hterm

/-! ## One candidate -/

/-- The probability that a candidate is accepted. -/
noncomputable def acceptance (target proposal : ProbabilityRow) (candidate : Nat) : ℝ :=
  min 1 (target.weight candidate / proposal.weight candidate)

/-- The test of a candidate of the proposal returns for every pair of draws. -/
theorem rejectionSample_cases (hlength : target.weights.length = proposal.weights.length)
    (hcandidate : 0 < proposal.weight candidate) {acceptDraw residualDraw : ℝ}
    (haccept : acceptDraw ∈ Set.Ico (0 : ℝ) 1) (hresidual : residualDraw ∈ Set.Ico (0 : ℝ) 1) :
    (acceptDraw < acceptance target proposal candidate ∧
      rejectionSample target.weights proposal.weights candidate acceptDraw residualDraw
        neverCancelled = .ok .accepted) ∨
    (acceptance target proposal candidate ≤ acceptDraw ∧
      target.weight candidate < proposal.weight candidate ∧
      ∃ token, proposal.weight token < target.weight token ∧
        pick (residual target.weights proposal.weights)
          (residualDraw * (residual target.weights proposal.weights).sum) = some token ∧
        rejectionSample target.weights proposal.weights candidate acceptDraw residualDraw
          neverCancelled = .ok (.rejected token)) := by
  have hq := ProbabilityRow.getElem?_of_pos hcandidate
  have hp : target.weights[candidate]? = some (target.weight candidate) := by
    have hlt : candidate < target.weights.length := by
      rw [hlength]
      exact (List.getElem?_eq_some_iff.mp hq).1
    rw [ProbabilityRow.weight, getD_eq_getElem?_getD, List.getElem?_eq_getElem hlt]
    rfl
  have hvalid : ¬ (proposal.weight candidate ≤ 0 ∨ target.weight candidate < 0) :=
    not_or.mpr ⟨not_le.mpr hcandidate, not_lt.mpr (target.weight_nonneg candidate)⟩
  have hrows : ¬ (target.weights.length ≠ proposal.weights.length ∨ target.weights = []) :=
    not_or.mpr ⟨not_not.mpr hlength, target.ne_nil⟩
  have htest : (proposal.weight candidate ≤ target.weight candidate ∨
      acceptDraw < target.weight candidate / proposal.weight candidate) ↔
      acceptDraw < acceptance target proposal candidate := by
    rw [acceptance, lt_min_iff, ← one_le_div hcandidate]
    constructor
    · rintro (h | h)
      · exact ⟨haccept.2, haccept.2.trans_le h⟩
      · exact ⟨haccept.2, h⟩
    · exact fun h => Or.inr h.2
  have hrun : rejectionSample target.weights proposal.weights candidate acceptDraw residualDraw
      neverCancelled = if acceptDraw < acceptance target proposal candidate then .ok .accepted
        else do
          let token ← sampleProbabilitiesWithDraw (residual target.weights proposal.weights)
            residualDraw neverCancelled
          return .rejected token := by
    simp only [rejectionSample, rejectIf, if_neg hrows, if_neg hvalid, hp, hq, okOr_some, ok_bind,
      htest]
    rfl
  rcases lt_or_ge acceptDraw (acceptance target proposal candidate) with h | h
  · exact Or.inl ⟨h, by rw [hrun, if_pos h]⟩
  · have hlt : target.weight candidate < proposal.weight candidate := by
      refine not_le.mp fun hle => absurd (htest.mp (Or.inl hle)) (not_lt.mpr h)
    obtain ⟨token, w, hok, hpick, hw, hpos⟩ := sampleProbabilities_pick
      (residual_nonneg target.weights proposal.weights)
      ((residual_length hlength).trans_le target.length_le) (residual_pos hlength hlt)
      hresidual.1 hresidual.2
    have hmass : max (target.weight token - proposal.weight token) 0 = w := by
      rw [← residual_getD hlength, getD_eq_getElem?_getD, hw, Option.getD_some]
    refine Or.inr ⟨h, hlt, token, ?_, hpick, by rw [hrun, if_neg (not_lt.mpr h), hok]; rfl⟩
    rcases lt_max_iff.mp (hmass ▸ hpos) with hdifference | hzero
    · exact sub_pos.mp hdifference
    · exact absurd hzero (lt_irrefl _)

theorem acceptance_mem (target proposal : ProbabilityRow) (candidate : Nat) :
    acceptance target proposal candidate ∈ Icc (0 : ℝ) 1 :=
  ⟨le_min zero_le_one (div_nonneg (target.weight_nonneg _) (proposal.weight_nonneg _)),
    min_le_left _ _⟩

/-- The draws that emit a token: those that accept it as the candidate, and those that
reject the candidate and pick the token. -/
theorem emitted_draws (hlength : target.weights.length = proposal.weights.length)
    (hcandidate : 0 < proposal.weight candidate) (token : Nat) :
    {draws : ℝ × ℝ | draws ∈ Set.Ico (0 : ℝ) 1 ×ˢ Set.Ico (0 : ℝ) 1 ∧
      emitted candidate (rejectionSample target.weights proposal.weights candidate draws.1 draws.2
        neverCancelled) = some token} =
    Set.Ico 0 (acceptance target proposal candidate) ×ˢ
        {u : ℝ | u ∈ Set.Ico 0 1 ∧ candidate = token} ∪
      Set.Ico (acceptance target proposal candidate) 1 ×ˢ
        {u : ℝ | u ∈ Set.Ico 0 1 ∧ pick (residual target.weights proposal.weights)
          (u * (residual target.weights proposal.weights).sum) = some token} := by
  obtain ⟨hnonneg, hle⟩ := acceptance_mem target proposal candidate
  ext ⟨d, u⟩
  simp only [mem_ofPred_eq, mem_union, mem_prod, mem_Ico]
  constructor
  · rintro ⟨⟨hd, hu⟩, hemit⟩
    rcases rejectionSample_cases hlength hcandidate hd hu with
      ⟨hlt, hrun⟩ | ⟨hge, -, token', -, hpick, hrun⟩
    · rw [hrun] at hemit
      exact Or.inl ⟨⟨hd.1, hlt⟩, hu, Option.some.inj hemit⟩
    · rw [hrun] at hemit
      exact Or.inr ⟨⟨hge, hd.2⟩, hu, hpick.trans hemit⟩
  · rintro (⟨⟨hd, hlt⟩, hu, hsame⟩ | ⟨⟨hge, hd⟩, hu, hpicked⟩)
    · have hd' : d ∈ Set.Ico (0 : ℝ) 1 := ⟨hd, hlt.trans_le hle⟩
      refine ⟨⟨hd', hu⟩, ?_⟩
      rcases rejectionSample_cases hlength hcandidate hd' hu with ⟨-, hrun⟩ | ⟨hge, -⟩
      · rw [hrun, hsame]
        rfl
      · exact absurd hlt (not_lt.mpr hge)
    · have hd' : d ∈ Set.Ico (0 : ℝ) 1 := ⟨hnonneg.trans hge, hd⟩
      refine ⟨⟨hd', hu⟩, ?_⟩
      rcases rejectionSample_cases hlength hcandidate hd' hu with
        ⟨hlt, -⟩ | ⟨-, -, token', -, hpick, hrun⟩
      · exact absurd hlt (not_lt.mpr hge)
      · rw [hrun]
        exact hpick.symm.trans hpicked

/-- The share of the draws on which a candidate emits a token. -/
theorem emissionProbability_eq (hlength : target.weights.length = proposal.weights.length)
    (hcandidate : 0 < proposal.weight candidate) (token : Nat) :
    emissionProbability target proposal candidate token =
      acceptance target proposal candidate * (if candidate = token then 1 else 0) +
        (1 - acceptance target proposal candidate) *
          (max (target.weight token - proposal.weight token) 0 /
            (residual target.weights proposal.weights).sum) := by
  obtain ⟨hnonneg, hle⟩ := acceptance_mem target proposal candidate
  have hsame : volume.real {u : ℝ | u ∈ Set.Ico 0 1 ∧ candidate = token} =
      if candidate = token then 1 else 0 := by
    split
    · next h => simp [h, Ico_def]
    · next h => simp [h]
  have hpick : (1 - acceptance target proposal candidate) *
      volume.real {u : ℝ | u ∈ Set.Ico 0 1 ∧ pick (residual target.weights proposal.weights)
        (u * (residual target.weights proposal.weights).sum) = some token} =
      (1 - acceptance target proposal candidate) *
        (max (target.weight token - proposal.weight token) 0 /
          (residual target.weights proposal.weights).sum) := by
    rcases lt_or_ge (target.weight candidate) (proposal.weight candidate) with h | h
    · rw [volume_pick (residual_nonneg _ _) (residual_pos hlength h), residual_getD hlength]
    · have hone : acceptance target proposal candidate = 1 :=
        min_eq_left ((one_le_div hcandidate).mpr h)
      rw [hone, sub_self, zero_mul, zero_mul]
  have hdisjoint : Disjoint
      (Set.Ico 0 (acceptance target proposal candidate) ×ˢ {u : ℝ | u ∈ Set.Ico 0 1 ∧ candidate = token})
      (Set.Ico (acceptance target proposal candidate) 1 ×ˢ
        {u : ℝ | u ∈ Set.Ico 0 1 ∧ pick (residual target.weights proposal.weights)
          (u * (residual target.weights proposal.weights).sum) = some token}) :=
    disjoint_left.mpr fun d h h' => absurd h.1.2 (not_lt.mpr h'.1.1)
  have hmeasurable : MeasurableSet
      (Set.Ico 0 (acceptance target proposal candidate) ×ˢ {u : ℝ | u ∈ Set.Ico 0 1 ∧ candidate = token}) :=
    measurableSet_Ico.prod (measurableSet_Ico.inter (MeasurableSet.const _))
  have hfinite : volume (Set.Ico (0 : ℝ) 1 ×ˢ Set.Ico (0 : ℝ) 1) ≠ ⊤ := by
    rw [Measure.volume_eq_prod, Measure.prod_prod, Real.volume_Ico]
    finiteness
  rw [emissionProbability, emitted_draws hlength hcandidate, measureReal_union' hdisjoint
    hmeasurable (ne_top_of_le_ne_top hfinite (measure_mono ?_))
    (ne_top_of_le_ne_top hfinite (measure_mono ?_)), Measure.volume_eq_prod, measureReal_prod_prod,
    measureReal_prod_prod, hsame, Real.volume_real_Ico_of_le hnonneg, Real.volume_real_Ico_of_le hle,
    hpick, sub_zero]
  · exact prod_mono (Ico_subset_Ico_right hle) fun u hu => hu.1
  · exact prod_mono (Ico_subset_Ico_left hnonneg) fun u hu => hu.1

/-! ## All candidates -/

/-- What the candidates of the proposal emit, in all. -/
theorem sum_emissionProbability (hlength : target.weights.length = proposal.weights.length)
    (token : Nat) :
    ∑ candidate ∈ Finset.range proposal.weights.length,
      proposal.weight candidate * emissionProbability target proposal candidate token =
        target.weight token := by
  -- the weight of a candidate splits into what is accepted and what is rejected of it
  have hterm : ∀ candidate, proposal.weight candidate *
      emissionProbability target proposal candidate token =
      (if candidate = token then min (proposal.weight candidate) (target.weight candidate) else 0) +
        max (proposal.weight candidate - target.weight candidate) 0 *
          (max (target.weight token - proposal.weight token) 0 /
            (residual target.weights proposal.weights).sum) := by
    intro candidate
    rcases (proposal.weight_nonneg candidate).eq_or_lt with hzero | hpos
    · have hnonneg := target.weight_nonneg candidate
      rw [← hzero, zero_mul, zero_sub, max_eq_right (neg_nonpos.mpr hnonneg), min_eq_left hnonneg,
        zero_mul, add_zero, ite_self]
    · have haccepted : proposal.weight candidate * acceptance target proposal candidate =
          min (proposal.weight candidate) (target.weight candidate) := by
        rw [acceptance, mul_min_of_nonneg _ _ hpos.le, mul_one, mul_div_cancel₀ _ hpos.ne']
      have hrejected : proposal.weight candidate * (1 - acceptance target proposal candidate) =
          max (proposal.weight candidate - target.weight candidate) 0 := by
        rw [mul_sub, mul_one, haccepted]
        rcases le_total (proposal.weight candidate) (target.weight candidate) with h | h
        · rw [min_eq_left h, max_eq_right (sub_nonpos.mpr h), sub_self]
        · rw [min_eq_right h, max_eq_left (sub_nonneg.mpr h)]
      rw [emissionProbability_eq hlength hpos, mul_add, ← mul_assoc, ← mul_assoc, haccepted,
        hrejected, mul_ite, mul_one, mul_zero]
  have houtside : token ∉ Finset.range proposal.weights.length →
      min (proposal.weight token) (target.weight token) = 0 := by
    intro h
    have hge : proposal.weights.length ≤ token := by simpa using h
    rw [ProbabilityRow.weight_eq_zero hge, min_eq_left (target.weight_nonneg token)]
  have haccepted : ∑ candidate ∈ Finset.range proposal.weights.length,
      (if candidate = token then min (proposal.weight candidate) (target.weight candidate) else 0) =
        min (proposal.weight token) (target.weight token) := by
    rw [Finset.sum_ite_eq']
    split
    · rfl
    · next h => exact (houtside h).symm
  have hreplaced : (residual target.weights proposal.weights).sum *
      (max (target.weight token - proposal.weight token) 0 /
        (residual target.weights proposal.weights).sum) =
      max (target.weight token - proposal.weight token) 0 := by
    rcases (le_max_right (target.weight token - proposal.weight token) 0).eq_or_lt with h | h
    · rw [← h, zero_div, mul_zero]
    · exact mul_div_cancel₀ _ (residual_sum_pos hlength h).ne'
  rw [Finset.sum_congr rfl fun candidate _ => hterm candidate, Finset.sum_add_distrib,
    ← Finset.sum_mul, haccepted, ← hlength, excess_eq_residual hlength, hreplaced]
  rcases le_total (proposal.weight token) (target.weight token) with h | h
  · rw [min_eq_left h, max_eq_left (sub_nonneg.mpr h), add_sub_cancel]
  · rw [min_eq_right h, max_eq_right (sub_nonpos.mpr h), add_zero]

/-- What rejection sampling owes to its caller. -/
structure RejectionExact (target proposal : ProbabilityRow) : Prop where
  /-- Each token is emitted with its target probability. -/
  distribution (token : Nat) :
    ∑ candidate ∈ Finset.range proposal.weights.length,
      proposal.weight candidate * emissionProbability target proposal candidate token =
        target.weight token
  /-- A candidate that can be rejected leaves mass for its replacement. -/
  mass {candidate : Nat} : target.weight candidate < proposal.weight candidate →
    0 < (residual target.weights proposal.weights).sum
  /-- A candidate that the proposal can draw meets no error, and its replacement is a token
  that the target weighs more than the proposal. -/
  returns {candidate : Nat} {acceptDraw residualDraw : ℝ} : 0 < proposal.weight candidate →
    acceptDraw ∈ Set.Ico (0 : ℝ) 1 → residualDraw ∈ Set.Ico (0 : ℝ) 1 →
    ∃ result, rejectionSample target.weights proposal.weights candidate acceptDraw residualDraw
      neverCancelled = .ok result ∧
      ∀ token, result = .rejected token → target.weight candidate < proposal.weight candidate ∧
        proposal.weight token < target.weight token

/-- Rejection sampling is exact for any two rows of one vocabulary. -/
theorem rejectionSample_exact (target proposal : ProbabilityRow)
    (hlength : target.weights.length = proposal.weights.length) :
    RejectionExact target proposal where
  distribution := sum_emissionProbability hlength
  mass := residual_pos hlength
  returns := by
    intro candidate acceptDraw residualDraw hcandidate haccept hresidual
    rcases rejectionSample_cases hlength hcandidate haccept hresidual with
      ⟨-, hrun⟩ | ⟨-, hlt, token, htoken, -, hrun⟩
    · exact ⟨_, hrun, fun _ h => by cases h⟩
    · refine ⟨_, hrun, fun token' h => ⟨hlt, ?_⟩⟩
      obtain rfl := RejectionResult.rejected.inj h
      exact htoken

noncomputable def evenRow : ProbabilityRow where
  weights := [1 / 2, 1 / 2]
  nonneg := by simp
  sum_eq_one := by norm_num
  length_le := by decide

noncomputable def unevenRow : ProbabilityRow where
  weights := [1 / 4, 3 / 4]
  nonneg := by
    intro w hw
    simp only [mem_cons, not_mem_nil, or_false] at hw
    rcases hw with rfl | rfl <;> norm_num
  sum_eq_one := by norm_num
  length_le := by decide

theorem rejectionSample_exact_uneven : RejectionExact unevenRow evenRow :=
  rejectionSample_exact unevenRow evenRow rfl

example : rejectionSample [(1 / 4 : ℚ), 3 / 4] [1 / 2, 1 / 2] 0 (3 / 5) (1 / 2) neverCancelled =
    .ok (.rejected 1) := by decide +kernel

end EffectTorch
