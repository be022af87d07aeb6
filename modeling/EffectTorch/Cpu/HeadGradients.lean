import EffectTorch.Cpu.HeadCrossEntropy
import EffectTorch.Lib.Gradient
import Mathlib

/-!
# The gradients of a projected cross-entropy

Over the real numbers the sums of the chunked backward pass are the gradients of the mean
cross-entropy of the projection.

Results:
1. `hasDerivAt_meanLoss`: the derivative of the mean, as the logits move.
2. `head_gradients`: the sums of the backward pass are gradients.
3. `chunkedHeadCe_exact`: the chunked kernels, and the targets that they accept.
-/

namespace EffectTorch
open Finset Lib

/-! ## Derivatives of the loss -/

section Loss

variable {target : Target} {ignoreIndex : Int} {classes rows : Nat}

theorem hasDerivAt_rowLoss {z : ℝ → Nat → ℝ} {z' : Nat → ℝ} {t : ℝ} {label : Nat} (hlabel : label < classes)
    (hz : ∀ c < classes, HasDerivAt (z · c) (z' c) t) :
    HasDerivAt (fun t => rowLoss Real.exp Real.log (z t) classes label)
      (∑ c ∈ Finset.range classes, rowDelta Real.exp (z t) classes label c * z' c) t := by
  have hmem : label ∈ Finset.range classes := Finset.mem_range.mpr hlabel
  refine ((hasDerivAt_logSumExp ⟨label, hmem⟩ fun c hc => hz c (Finset.mem_range.mp hc)).sub (hz label hlabel)).congr_deriv ?_
  rw [← softmaxMean_weights]
  simp only [rowDelta, sub_mul, sum_sub_distrib, ite_mul, one_mul, zero_mul]
  rw [sum_ite_eq' _ label, if_pos hmem]

/-- The derivative of the mean, as the logits move. -/
theorem hasDerivAt_meanLoss {z : ℝ → Nat → Nat → ℝ} {z' : Nat → Nat → ℝ} {t : ℝ}
    (hvalid : (target.invalid ignoreIndex classes rows).card = 0)
    (hz : ∀ row < rows, ∀ c < classes, HasDerivAt (z · row c) (z' row c) t) :
    HasDerivAt (fun t => meanLoss Real.exp Real.log target ignoreIndex classes rows (z t))
      ((∑ row ∈ Finset.range rows, ∑ c ∈ Finset.range classes,
        gradientAt Real.exp target ignoreIndex classes (z t) row c * z' row c) /
          (target.active ignoreIndex rows).card) t := by
  have hrows : HasDerivAt (fun t => ∑ row ∈ target.active ignoreIndex rows,
      rowLoss Real.exp Real.log (z t row) classes (target.value row).toNat)
      (∑ row ∈ target.active ignoreIndex rows, ∑ c ∈ Finset.range classes,
        rowDelta Real.exp (z t row) classes (target.value row).toNat c * z' row c) t := by
    refine HasDerivAt.fun_sum fun row hrow => ?_
    have hinside : ¬ target.Outside classes row := fun houtside =>
      notMem_empty row (card_eq_zero.mp hvalid ▸ Finset.mem_filter.mpr ⟨hrow, houtside⟩)
    exact hasDerivAt_rowLoss (Target.label_lt hinside)
      fun c hc => hz row (Finset.mem_range.mp (Finset.mem_filter.mp hrow).1) c hc
  refine (hrows.div_const _).congr_deriv (congrArg (· / _) ?_)
  rw [Target.active, sum_filter]
  refine sum_congr rfl fun row _ => ?_
  by_cases hignored : target.Ignored ignoreIndex row
  · simp only [gradientAt, if_pos hignored, if_neg (not_not_intro hignored), zero_mul, sum_const_zero]
  · simp only [gradientAt, if_neg hignored, if_pos hignored]

end Loss

/-! ## Derivatives of the projection -/

section Projection

variable {x weight bias : Nat → ℝ} {inner vocab : Nat}

theorem hasDerivAt_headLogit_x {row index : Nat} (hindex : index < inner) (row' c : Nat) (v : ℝ) :
    HasDerivAt (fun v => headLogit (Function.update x (row * inner + index) v) weight bias inner vocab row' c)
      (if row' = row then weight (index * vocab + c) else 0) v := by
  refine ((hasDerivAt_dot _ (row' * inner + ·) (weight <| · * vocab + c) _ v).add_const (bias c)).congr_deriv ?_
  have hterm : ∀ k ∈ Finset.range inner, (if row' * inner + k = row * inner + index then weight (k * vocab + c) else 0) =
      if k = index then if row' = row then weight (k * vocab + c) else 0 else 0 := by
    intro k hk
    simp only [place_inj (Finset.mem_range.mp hk) hindex]
    by_cases hrow : row' = row <;> simp [hrow]
  rw [sum_congr rfl hterm, sum_ite_eq' _ index, if_pos (Finset.mem_range.mpr hindex)]

theorem hasDerivAt_headLogit_weight {index c : Nat} (hindex : index < inner) (hc : c < vocab) (row : Nat) {c' : Nat}
    (hc' : c' < vocab) (v : ℝ) :
    HasDerivAt (fun v => headLogit x (Function.update weight (index * vocab + c) v) bias inner vocab row c')
      (if c' = c then x (row * inner + index) else 0) v := by
  unfold headLogit
  simp only [mul_comm (x _)]
  refine ((hasDerivAt_dot _ (· * vocab + c') (x <| row * inner + ·) _ v).add_const (bias c')).congr_deriv ?_
  have hterm : ∀ k ∈ Finset.range inner, (if k * vocab + c' = index * vocab + c then x (row * inner + k) else 0) =
      if k = index then if c' = c then x (row * inner + k) else 0 else 0 := by
    intro k hk
    simp only [place_inj hc' hc]
    by_cases hkindex : k = index <;> simp [hkindex]
  rw [sum_congr rfl hterm, sum_ite_eq' _ index, if_pos (Finset.mem_range.mpr hindex)]

theorem hasDerivAt_headLogit_bias {c : Nat} (row c' : Nat) (v : ℝ) :
    HasDerivAt (fun v => headLogit x weight (Function.update bias c v) inner vocab row c') (if c' = c then 1 else 0) v :=
  (hasDerivAt_update bias c c' v).const_add _

end Projection

/-! ## Gradients -/

section Gradients

variable {target : Target} {ignoreIndex : Int} {rows inner vocab : Nat} {x weight bias : Nat → ℝ}

/-- The mean cross-entropy of the projection. -/
noncomputable def headLoss (target : Target) (ignoreIndex : Int) (rows inner vocab : Nat) (x weight bias : Nat → ℝ) : ℝ :=
  meanLoss Real.exp Real.log target ignoreIndex vocab rows (headLogit x weight bias inner vocab)

/-- What the backward pass adds up for a row and a class. -/
noncomputable def headDelta (target : Target) (ignoreIndex : Int) (rows inner vocab : Nat) (x weight bias : Nat → ℝ)
    (upstream : ℝ) (row c : Nat) : ℝ :=
  gradientAt Real.exp target ignoreIndex vocab (headLogit x weight bias inner vocab) row c *
    (upstream / (target.active ignoreIndex rows).card)

/-- The derivative of the loss times the upstream gradient, as the projection moves. -/
theorem hasDerivAt_headLoss (hvalid : (target.invalid ignoreIndex vocab rows).card = 0) (upstream : ℝ)
    {z : ℝ → Nat → Nat → ℝ} {z' : Nat → Nat → ℝ} {t : ℝ} (ht : z t = headLogit x weight bias inner vocab)
    (hz : ∀ row < rows, ∀ c < vocab, HasDerivAt (z · row c) (z' row c) t) :
    HasDerivAt (fun t => upstream * meanLoss Real.exp Real.log target ignoreIndex vocab rows (z t))
      (∑ row ∈ Finset.range rows, ∑ c ∈ Finset.range vocab,
        headDelta target ignoreIndex rows inner vocab x weight bias upstream row c * z' row c) t := by
  refine ((hasDerivAt_meanLoss hvalid hz).const_mul upstream).congr_deriv ?_
  rw [ht, ← mul_div_assoc, mul_sum, sum_div]
  refine sum_congr rfl fun row _ => ?_
  rw [mul_sum, sum_div]
  refine sum_congr rfl fun c _ => ?_
  rw [headDelta]
  ring

/-- The sums of the backward pass are gradients. -/
theorem head_gradients (hvalid : (target.invalid ignoreIndex vocab rows).card = 0) (upstream : ℝ) {dx dweight dbias : Nat → ℝ}
    (hdx : ∀ row < rows, ∀ index < inner, dx (row * inner + index) = ∑ c ∈ Finset.range vocab,
      headDelta target ignoreIndex rows inner vocab x weight bias upstream row c * weight (index * vocab + c))
    (hdweight : ∀ index < inner, ∀ c < vocab, dweight (index * vocab + c) = ∑ row ∈ Finset.range rows,
      x (row * inner + index) * headDelta target ignoreIndex rows inner vocab x weight bias upstream row c)
    (hdbias : ∀ c < vocab, dbias c = ∑ row ∈ Finset.range rows,
      headDelta target ignoreIndex rows inner vocab x weight bias upstream row c) :
    IsGradient (fun x => upstream * headLoss target ignoreIndex rows inner vocab x weight bias) x (rows * inner) dx ∧
      IsGradient (fun weight => upstream * headLoss target ignoreIndex rows inner vocab x weight bias) weight
        (inner * vocab) dweight ∧
      IsGradient (fun bias => upstream * headLoss target ignoreIndex rows inner vocab x weight bias) bias vocab dbias := by
  refine ⟨fun i hi => ?_, fun i hi => ?_, fun c hc => ?_⟩
  · obtain ⟨row, hrow, index, hindex, rfl⟩ : ∃ row < rows, ∃ index < inner, i = row * inner + index :=
      ⟨i / inner, Nat.div_lt_of_lt_mul (Nat.mul_comm rows inner ▸ hi), i % inner,
        Nat.mod_lt i (Nat.pos_of_ne_zero fun h => by simp [h] at hi), (Nat.div_add_mod' ..).symm⟩
    refine (hasDerivAt_headLoss hvalid upstream (by rw [Function.update_eq_self])
      fun row' _ c _ => hasDerivAt_headLogit_x hindex row' c _).congr_deriv ?_
    have hterm : ∀ row' ∈ Finset.range rows, ∑ c ∈ Finset.range vocab,
        headDelta target ignoreIndex rows inner vocab x weight bias upstream row' c *
          (if row' = row then weight (index * vocab + c) else 0) =
        if row' = row then ∑ c ∈ Finset.range vocab,
          headDelta target ignoreIndex rows inner vocab x weight bias upstream row' c * weight (index * vocab + c) else 0 := by
      intro row' _
      by_cases h : row' = row <;> simp [h]
    rw [sum_congr rfl hterm, sum_ite_eq' _ row, if_pos (Finset.mem_range.mpr hrow), hdx row hrow index hindex]
  · obtain ⟨index, hindex, c, hc, rfl⟩ : ∃ index < inner, ∃ c < vocab, i = index * vocab + c :=
      ⟨i / vocab, Nat.div_lt_of_lt_mul (Nat.mul_comm inner vocab ▸ hi), i % vocab,
        Nat.mod_lt i (Nat.pos_of_ne_zero fun h => by simp [h] at hi), (Nat.div_add_mod' ..).symm⟩
    refine (hasDerivAt_headLoss hvalid upstream (by rw [Function.update_eq_self])
      fun row _ c' hc' => hasDerivAt_headLogit_weight hindex hc row hc' _).congr_deriv ?_
    rw [hdweight index hindex c hc]
    refine sum_congr rfl fun row _ => ?_
    simp only [mul_ite, mul_zero]
    rw [sum_ite_eq' _ c, if_pos (Finset.mem_range.mpr hc), mul_comm]
  · refine (hasDerivAt_headLoss hvalid upstream (by rw [Function.update_eq_self])
      fun row _ c' _ => hasDerivAt_headLogit_bias row c' _).congr_deriv ?_
    rw [hdbias c hc]
    refine sum_congr rfl fun row _ => ?_
    simp only [mul_ite, mul_one, mul_zero]
    rw [sum_ite_eq' _ c, if_pos (Finset.mem_range.mpr hc)]

end Gradients

/-! ## The chunked kernels -/

section Chunked

variable {target : Target} {lead : List Nat} {inner vocab chunkSize : Nat}

/-- The chunks visit every row once; the forward pass is the mean cross-entropy of the projection; the
backward pass returns its gradients, times the upstream gradient; and all kernels accept the same
targets. -/
theorem chunkedHeadCe_exact (hlead : 0 ∉ lead) (hrows : lead.prod ≤ usizeMax) (hvocab : vocab ≠ 0)
    (hchunk : chunkSize ≠ 0) (htargets : target.numel = lead.prod) (ignoreIndex : Int) :
    (∃ hpos : 0 < headCeChunkLen lead.prod vocab chunkSize,
      chunkLoop (φ := Fault String) lead.prod (headCeChunkLen lead.prod vocab chunkSize) hpos
        (fun offset localRow visited => .ok (visited ++ [offset + localRow])) 0 [] = .ok (List.range lead.prod)) ∧
    (∀ {R : Type} [Field R] [LinearOrder R] [IsStrictOrderedRing R] {exp ln : R → R}, LogLaws exp ln →
      ∀ {x weight bias : Dense R}, x.shape = lead ++ [inner] → weight.shape = [inner, vocab] → bias.shape.prod = vocab →
      ∀ b : HeadLossBuffers R (headCeChunkLen lead.prod vocab chunkSize) vocab, target.Accepted ignoreIndex vocab lead.prod →
      ∃ loss status, chunkedHeadCeForwardInto exp ln x weight bias target ignoreIndex chunkSize b.loss b.status b.logits
          b.nll b.flags = .ok (loss, status) ∧
        loss.at 0 = meanLoss exp ln target ignoreIndex vocab lead.prod (headLogit x.at weight.at bias.at inner vocab)) ∧
    (∀ {x weight bias gradient : Dense ℝ}, x.shape = lead ++ [inner] → weight.shape = [inner, vocab] →
      bias.shape.prod = vocab → gradient.shape.prod = 1 →
      ∀ b : HeadGradientBuffers x weight bias (headCeChunkLen lead.prod vocab chunkSize) inner vocab,
      target.Accepted ignoreIndex vocab lead.prod →
      ∃ dx dweight dbias, chunkedHeadCeBackwardInto Real.exp x weight bias target gradient ignoreIndex chunkSize b.dx
          b.dweight b.dbias b.status b.logits b.gradLogits b.dweightScratch b.dbiasScratch = .ok (dx, dweight, dbias) ∧
        IsGradient (fun x => gradient.at 0 * headLoss target ignoreIndex lead.prod inner vocab x weight.at bias.at) x.at
          (lead.prod * inner) dx.at ∧
        IsGradient (fun weight => gradient.at 0 * headLoss target ignoreIndex lead.prod inner vocab x.at weight bias.at)
          weight.at (inner * vocab) dweight.at ∧
        IsGradient (fun bias => gradient.at 0 * headLoss target ignoreIndex lead.prod inner vocab x.at weight.at bias)
          bias.at vocab dbias.at) ∧
    ∀ {R : Type} [Field R] [LinearOrder R] [IsStrictOrderedRing R] {exp ln : R → R}, LogLaws exp ln →
      ∀ {x weight bias gradient logits grad count : Dense R}, x.shape = lead ++ [inner] → weight.shape = [inner, vocab] →
      bias.shape.prod = vocab → gradient.shape.prod = 1 → logits.shape = lead ++ [vocab] → logits.shape.prod ≤ usizeMax →
      grad.shape = logits.shape → count.shape = [1] →
      ∀ (f : HeadLossBuffers R (headCeChunkLen lead.prod vocab chunkSize) vocab)
        (b : HeadGradientBuffers x weight bias (headCeChunkLen lead.prod vocab chunkSize) inner vocab)
        (u : LossBuffers R lead.prod),
      ((∃ out, chunkedHeadCeForwardInto exp ln x weight bias target ignoreIndex chunkSize f.loss f.status f.logits f.nll
          f.flags = .ok out) ↔ target.Accepted ignoreIndex vocab lead.prod) ∧
      ((∃ out, chunkedHeadCeBackwardInto exp x weight bias target gradient ignoreIndex chunkSize b.dx b.dweight b.dbias
          b.status b.logits b.gradLogits b.dweightScratch b.dbiasScratch = .ok out) ↔
            target.Accepted ignoreIndex vocab lead.prod) ∧
      ((∃ out, crossEntropyForwardInto exp ln logits target ignoreIndex .mean u.loss u.status u.nll u.flags = .ok out) ↔
        target.Accepted ignoreIndex vocab lead.prod) ∧
      ((∃ out, crossEntropyBackwardInto exp logits target ignoreIndex .mean grad (some count) = .ok out) ↔
        target.Accepted ignoreIndex vocab lead.prod) := by
  have hfit : ∀ {R : Type} {x weight bias : Dense R}, x.shape = lead ++ [inner] → weight.shape = [inner, vocab] →
      bias.shape.prod = vocab → HeadFit x weight bias target lead inner vocab :=
    fun hx hweight hbias => ⟨hx, hweight, hbias, htargets, hlead, hvocab, hrows⟩
  refine ⟨⟨headCeChunkLen_pos (List.prod_ne_zero hlead) vocab chunkSize, chunkLoop_visits _ _⟩, ?_, ?_, ?_⟩
  · intro R _ _ _ exp ln hexp x weight bias hx hweight hbias b haccepted
    obtain ⟨loss, status, hloss, hrun⟩ :=
      chunkedHeadCeForwardInto_mean hexp (hfit hx hweight hbias) ignoreIndex hchunk b
    exact ⟨loss, status, (checkTargets_returns hrun).1 haccepted, hloss (Target.accepted_iff.mp haccepted)⟩
  · intro x weight bias gradient hx hweight hbias hgradient b haccepted
    obtain ⟨dx, dweight, dbias, hdx, hdweight, hdbias, hrun⟩ := chunkedHeadCeBackwardInto_sums real_logLaws.toExpLaws
      (hfit hx hweight hbias) ignoreIndex hchunk hgradient b rfl
    exact ⟨dx, dweight, dbias, (checkTargets_returns hrun).1 haccepted,
      head_gradients (Target.accepted_iff.mp haccepted).2 (gradient.at 0) hdx hdweight hdbias⟩
  · intro R _ _ _ exp ln hexp x weight bias gradient logits grad count hx hweight hbias hgradient hlogits hfits hgrad hcount
      f b u
    have hlogitsFit : LogitsFit logits target lead vocab := ⟨hlogits, htargets, by simp [hlogits, hlead, Ne.symm hvocab],
      hfits⟩
    obtain ⟨_, _, _, hforward⟩ := chunkedHeadCeForwardInto_mean hexp (hfit hx hweight hbias) ignoreIndex hchunk f
    obtain ⟨_, _, _, _, _, _, hbackward⟩ := chunkedHeadCeBackwardInto_sums hexp.toExpLaws (hfit hx hweight hbias)
      ignoreIndex hchunk hgradient b rfl
    obtain ⟨_, _, _, hwhole⟩ := crossEntropyForwardInto_mean hexp hlogitsFit ignoreIndex u
    obtain ⟨_, _, _, hwhole'⟩ := crossEntropyBackwardInto_mean hexp.toExpLaws hlogitsFit ignoreIndex hgrad hcount
    exact ⟨(checkTargets_returns hforward).2, (checkTargets_returns hbackward).2, (checkTargets_returns hwhole).2,
      (checkTargets_returns hwhole').2⟩

/-- Two rows in two chunks; the second row does not count. -/
theorem chunkedHeadCe_two :
    (Target.u32 ⟨[2], [1, 7], rfl⟩).Accepted 7 2 2 ∧
    ∃ loss status, chunkedHeadCeForwardInto Real.exp Real.log ⟨[2, 1], [3, 5], rfl⟩ ⟨[1, 2], [1, 2], rfl⟩ ⟨[2], [0, 1], rfl⟩
        (.u32 ⟨[2], [1, 7], rfl⟩) 7 1 ⟨[], [0], rfl⟩ ⟨[3], [0, 0, 0], rfl⟩ ⟨[1, 2], [9, 9], rfl⟩ ⟨[1], [9], rfl⟩
        ⟨[1], [9], rfl⟩ = .ok (loss, status) ∧
      loss.at 0 = meanLoss Real.exp Real.log (.u32 ⟨[2], [1, 7], rfl⟩) 7 2 2
        (headLogit (Dense.at ⟨[2, 1], [3, 5], rfl⟩) (Dense.at ⟨[1, 2], [1, 2], rfl⟩) (Dense.at ⟨[2], [0, 1], rfl⟩) 1 2) := by
  have haccepted : (Target.u32 ⟨[2], [1, 7], rfl⟩).Accepted 7 2 2 := ⟨⟨0, by decide, by decide⟩, by decide⟩
  have hexact := @chunkedHeadCe_exact (.u32 ⟨[2], [1, 7], rfl⟩) [2] 1 2 1 (by decide) (by decide) (by decide) (by decide) rfl 7
  exact ⟨haccepted, hexact.2.1 real_logLaws rfl rfl rfl
    ⟨⟨⟨[], [0], rfl⟩, ⟨[3], [0, 0, 0], rfl⟩, ⟨[1], [9], rfl⟩, ⟨[1], [9], rfl⟩, rfl, rfl, rfl, rfl⟩, ⟨[1, 2], [9, 9], rfl⟩, rfl⟩
    haccepted⟩

end Chunked

end EffectTorch
