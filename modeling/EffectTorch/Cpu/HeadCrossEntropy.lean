import EffectTorch.Cpu.CrossEntropy

/-!
# Cross-entropy of a projection in chunks

`chunked_head_ce_forward_into` and `chunked_head_ce_backward_into` of `runtime-cpu/src/composed.rs`:
the rows are projected, normalized and differentiated chunk by chunk, and the logits of a chunk
overwrite those of the chunk before. Arithmetic is exact and there is one type of elements.

Results:
1. `headCeChunkLen_pos`: the length of a chunk is positive.
2. `chunkedHeadCeForwardInto_mean`: the forward pass is the mean cross-entropy of the projection.
3. `chunkedHeadCeBackwardInto_sums`: what the backward pass adds up.
-/

namespace EffectTorch
open List Option Lib

/-! ## Geometry -/

/-- `head_ce_chunk_len`. -/
def headCeChunkLen (rows vocab chunkSize : Nat) : Nat :=
  let elements := min (rows * vocab) usizeMax
  let chunks := min (max 2 (min 64 (elements / chunkSize))) rows
  (rows + max chunks 1 - 1) / max chunks 1

theorem headCeChunkLen_pos {rows : Nat} (h : rows ≠ 0) (vocab chunkSize : Nat) : 0 < headCeChunkLen rows vocab chunkSize := by
  unfold headCeChunkLen
  refine Nat.div_pos ?_ (Nat.lt_of_lt_of_le Nat.one_pos (Nat.le_max_right ..))
  omega

/-- What `chunked_head_geometry` returns. -/
structure HeadGeometry where
  rows : Nat
  inner : Nat
  vocab : Nat
  chunkLen : Nat
  positive : 0 < chunkLen

variable {R : Type}

def chunkedHeadGeometry (x weight bias : Dense R) (target : Target) (chunkSize : Nat) : Fallible String HeadGeometry := do
  rejectIf (chunkSize = 0) "chunked head CE: chunk size must be non-zero"
  rejectIf (weight.shape.length ≠ 2 ∨ x.shape = []) "chunked head CE: unsupported dtype or input rank"
  let rank := x.shape.length
  let rows ← okOr ((x.shape.take (rank - 1)).foldlM checkedMul 1) "chunked head CE rows: element count overflow"
  let inner ← dimension weight.shape 0
  let vocab ← dimension weight.shape 1
  let width ← dimension x.shape (rank - 1)
  if h : rows = 0 ∨ vocab = 0 ∨ width ≠ inner ∨ bias.shape.prod ≠ vocab ∨ target.numel ≠ rows then
    fail "chunked head CE: inconsistent input geometry"
  else .ok ⟨rows, inner, vocab, headCeChunkLen rows vocab chunkSize, headCeChunkLen_pos (fun hzero => h (.inl hzero)) _ _⟩

/-! ## Kernels -/

section Kernels

variable [Field R]

/-- The projection of a row, into the scratch from `base` on. -/
def projectRow {n : Nat} (x weight bias : Dense R) (inner vocab row base : Nat) (logits : Slice R n) :
    Fallible String (Slice R n) :=
  (List.range vocab).foldlM (fun logits c =>
    (do
      let value ← (List.range inner).foldlM (fun value index => do
        let a ← x.element (row * inner + index)
        let b ← weight.element (index * vocab + c)
        .ok (value + a * b)) 0
      let b ← bias.element c
      .ok (value + b)) >>= fun value => logits.write (base + c) value) logits

variable [LinearOrder R] (exp ln : R → R)

/-- What the forward loop carries: the scratch, the losses added up and the counts. -/
structure HeadForward (R : Type) (logitsLen nllLen flagsLen : Nat) where
  logits : Slice R logitsLen
  nll : Slice R nllLen
  flags : Slice Nat flagsLen
  total : R
  active : Nat
  invalid : Nat

/-- The turn of a row. -/
def forwardTurn {l n m : Nat} (x weight bias : Dense R) (target : Target) (ignoreIndex : Int) (inner vocab : Nat)
    (offset localRow : Nat) (s : HeadForward R l n m) : Fallible String (HeadForward R l n m) := do
  let row := offset + localRow
  let logits ← projectRow x weight bias inner vocab row (localRow * vocab) s.logits
  let value ← target.get row
  let ignored := target.isIgnored value ignoreIndex
  let invalidRow := !ignored && Target.outside value vocab
  let flags ← s.flags.write localRow (rowFlags ignored invalidRow)
  let loss ← maskedNll exp ln (fun c => logits.read (localRow * vocab + c)) vocab (ignored || invalidRow) value.toNat
  let nll ← s.nll.write localRow loss
  let loss ← nll.read localRow
  .ok ⟨logits, nll, flags, s.total + loss, s.active + (!ignored).toNat, s.invalid + invalidRow.toNat⟩

/-- `chunked_head_ce_forward_into`: the loss and the status. -/
def chunkedHeadCeForwardInto (x weight bias : Dense R) (target : Target) (ignoreIndex : Int) (chunkSize : Nat)
    (loss status logitsScratch nllScratch : Dense R) (flagsScratch : Dense Nat) : Fallible String (Dense R × Dense R) := do
  let g ← chunkedHeadGeometry x weight bias target chunkSize
  let logits ← logitsScratch.writable "chunked head CE logits scratch" [g.chunkLen, g.vocab]
  let nll ← nllScratch.writable "chunked head CE nll scratch" [g.chunkLen]
  let flags ← flagsScratch.writable "chunked head CE flags scratch" [g.chunkLen]
  let s ← chunkLoop g.rows g.chunkLen g.positive (forwardTurn exp ln x weight bias target ignoreIndex g.inner g.vocab) 0
    ⟨logits, nll, flags, 0, 0, 0⟩
  let result := if s.active = 0 then 0 else s.total / s.active
  let status ← status.writeStatus "chunked head CE status" result s.active s.invalid
  let loss ← loss.writeScalar "chunked head CE loss" result
  checkTargets .mean s.active s.invalid g.vocab
  .ok (loss, status)

/-- What the backward loop carries: the scratch of a chunk, the gradients added up, and those of the
hidden states. -/
structure HeadBackward (R : Type) (logitsLen gradLen weightLen biasLen xLen : Nat) where
  logits : Slice R logitsLen
  gradLogits : Slice R gradLen
  dweight : Slice R weightLen
  dbias : Slice R biasLen
  dx : Slice R xLen

/-- One turn of the inner loop over the classes: a product is added to the gradient of the input, and
one to that of the weight. -/
def classTurn {g w : Nat} (x weight : Dense R) (gradLogits : Slice R g) (inner vocab row base index : Nat)
    (s : R × Slice R w) (c : Nat) : Fallible String (R × Slice R w) := do
  let gradient ← gradLogits.read (base + c)
  let coefficient ← weight.element (index * vocab + c)
  let a ← x.element (row * inner + index)
  let old ← s.2.read (index * vocab + c)
  let dweight ← s.2.write (index * vocab + c) (old + a * gradient)
  .ok (s.1 + gradient * coefficient, dweight)

/-- One turn of the loop over the inputs of a row. -/
def inputTurn {g w d : Nat} (x weight : Dense R) (gradLogits : Slice R g) (inner vocab row base : Nat)
    (s : Slice R w × Slice R d) (index : Nat) : Fallible String (Slice R w × Slice R d) := do
  let (value, dweight) ← (List.range vocab).foldlM (classTurn x weight gradLogits inner vocab row base index) (0, s.1)
  let dx ← s.2.write (row * inner + index) value
  .ok (dweight, dx)

/-- One turn of the loop that adds a row to the gradient of the bias. -/
def biasTurn {g b : Nat} (gradLogits : Slice R g) (base : Nat) (dbias : Slice R b) (c : Nat) :
    Fallible String (Slice R b) := do
  let gradient ← gradLogits.read (base + c)
  let old ← dbias.read c
  dbias.write c (old + gradient)

/-- The turn of a row. -/
def backwardTurn {l g w b d : Nat} (x weight bias : Dense R) (target : Target) (ignoreIndex : Int) (scale : R)
    (inner vocab : Nat) (offset localRow : Nat) (s : HeadBackward R l g w b d) : Fallible String (HeadBackward R l g w b d) := do
  let row := offset + localRow
  let base := localRow * vocab
  let logits ← projectRow x weight bias inner vocab row base s.logits
  let gradLogits ← gradientTurn exp (fun c => logits.read (base + c)) target ignoreIndex vocab scale row base s.gradLogits
  let (dweight, dx) ← (List.range inner).foldlM (inputTurn x weight gradLogits inner vocab row base) (s.dweight, s.dx)
  let dbias ← (List.range vocab).foldlM (biasTurn gradLogits base) s.dbias
  .ok ⟨logits, gradLogits, dweight, dbias, dx⟩

/-- `output[index] = accumulator[index]`. -/
def copyLoop {n m : Nat} (count : Nat) (accumulator : Slice R n) (output : Slice R m) : Fallible String (Slice R m) :=
  (List.range count).foldlM (fun output index => accumulator.read index >>= fun value => output.write index value) output

/-- `chunked_head_ce_backward_into`: the gradients of the hidden states, the weight and the bias. -/
def chunkedHeadCeBackwardInto (x weight bias : Dense R) (target : Target) (gradient : Dense R) (ignoreIndex : Int)
    (chunkSize : Nat) (dx dweight dbias status logitsScratch gradLogitsScratch dweightScratch dbiasScratch : Dense R) :
    Fallible String (Dense R × Dense R × Dense R) := do
  let g ← chunkedHeadGeometry x weight bias target chunkSize
  rejectIf (gradient.shape.prod ≠ 1) "chunked head CE: gradient must be a scalar of the input dtype"
  let (active, invalid) ← target.summary ignoreIndex g.vocab
  let _ ← status.writeStatus "chunked head CE status" 0 active invalid
  checkTargets .mean active invalid g.vocab
  let scale := (← gradient.element 0) / active
  let logits ← logitsScratch.writable "chunked head CE logits scratch" [g.chunkLen, g.vocab]
  let gradLogits ← gradLogitsScratch.writable "chunked head CE grad-logits scratch" [g.chunkLen, g.vocab]
  let _ ← dweightScratch.writable "chunked head CE dweight scratch" [g.inner, g.vocab]
  let _ ← dbiasScratch.writable "chunked head CE dbias scratch" [g.vocab]
  let dxValues ← dx.writable "chunked head CE dx" x.shape
  let dweightValues ← dweight.writable "chunked head CE dweight" weight.shape
  let dbiasValues ← dbias.writable "chunked head CE dbias" bias.shape
  let s ← chunkLoop g.rows g.chunkLen g.positive (backwardTurn exp x weight bias target ignoreIndex scale g.inner g.vocab) 0
    (⟨logits, gradLogits, zeros, zeros, dxValues⟩ : HeadBackward R _ _ dweightScratch.shape.prod dbiasScratch.shape.prod _)
  let dweightValues ← copyLoop (g.inner * g.vocab) s.dweight dweightValues
  let dbiasValues ← copyLoop g.vocab s.dbias dbiasValues
  .ok (⟨dx.shape, s.dx⟩, ⟨dweight.shape, dweightValues⟩, ⟨dbias.shape, dbiasValues⟩)

end Kernels

/-! ## Rows -/

section Rows

/-- The projection of a row. -/
def headLogit [Field R] (x weight bias : Nat → R) (inner vocab row c : Nat) : R :=
  ∑ index ∈ Finset.range inner, x (row * inner + index) * weight (index * vocab + c) + bias c

/-- The tensors of a projected cross-entropy. -/
structure HeadFit (x weight bias : Dense R) (target : Target) (lead : List Nat) (inner vocab : Nat) : Prop where
  x : x.shape = lead ++ [inner]
  weight : weight.shape = [inner, vocab]
  bias : bias.shape.prod = vocab
  targets : target.numel = lead.prod
  positive : 0 ∉ lead
  vocab : vocab ≠ 0
  fits : lead.prod ≤ usizeMax

variable {x weight bias : Dense R} {target : Target} {lead : List Nat} {inner vocab : Nat}

theorem HeadFit.geometry (h : HeadFit x weight bias target lead inner vocab) {chunkSize : Nat} (hchunk : chunkSize ≠ 0) :
    chunkedHeadGeometry x weight bias target chunkSize = .ok ⟨lead.prod, inner, vocab,
      headCeChunkLen lead.prod vocab chunkSize, headCeChunkLen_pos (prod_ne_zero h.positive) _ _⟩ := by
  have hrank : x.shape.length - 1 = lead.length := by rw [h.x, length_append]; rfl
  have hwidth : dimension x.shape lead.length = .ok inner := by simp [dimension, h.x]
  have hdims : dimension weight.shape 0 = .ok inner ∧ dimension weight.shape 1 = .ok vocab := by
    rw [h.weight]
    exact ⟨rfl, rfl⟩
  have hlead : (x.shape.take lead.length).foldlM checkedMul 1 = some lead.prod := by
    rw [h.x, take_left', lead_ok h.positive h.fits]
    rfl
  unfold chunkedHeadGeometry
  refine bind_ok.mpr ⟨(), rejectIf_ok.mpr hchunk, bind_ok.mpr ⟨(), rejectIf_ok.mpr (by simp [h.weight, h.x]), ?_⟩⟩
  simp only [hrank, hlead, okOr_some, ok_bind, hdims, hwidth]
  rw [dif_neg]
  simp [prod_ne_zero h.positive, h.vocab, h.bias, h.targets]

section Bounds

variable (h : HeadFit x weight bias target lead inner vocab) {row index c : Nat}

variable [Field R]
include h

theorem HeadFit.x_ok (hrow : row < lead.prod) (hindex : index < inner) :
    x.element (row * inner + index) = .ok (x.at (row * inner + index)) := by
  refine Dense.element_ok ?_
  rw [h.x, prod_append, prod_singleton]
  exact row_lt hrow hindex

theorem HeadFit.weight_ok (hindex : index < inner) (hc : c < vocab) :
    weight.element (index * vocab + c) = .ok (weight.at (index * vocab + c)) := by
  refine Dense.element_ok ?_
  rw [h.weight, prod_cons, prod_singleton]
  exact row_lt hindex hc

theorem HeadFit.bias_ok (hc : c < vocab) : bias.element c = .ok (bias.at c) :=
  Dense.element_ok (h.bias ▸ hc)

/-- The projection of a row fills the scratch. -/
theorem HeadFit.projectRow_writes (hrow : row < lead.prod) {n base : Nat} (hbase : base + vocab ≤ n) :
    Slice.WritesRow (n := n) base vocab (headLogit x.at weight.at bias.at inner vocab row)
      (projectRow x weight bias inner vocab row base) := by
  refine Slice.writesRow hbase fun c hc => ?_
  have hturn : ∀ index ∈ List.range inner, ∀ value : R, (do
      let a ← x.element (row * inner + index)
      let b ← weight.element (index * vocab + c)
      .ok (value + a * b) : Fallible String R) =
        .ok (value + x.at (row * inner + index) * weight.at (index * vocab + c)) := by
    intro index hindex value
    have hlt := mem_range.mp hindex
    rw [h.x_ok hrow hlt, ok_bind, h.weight_ok hlt hc, ok_bind]
  rw [sum_loop hturn, ok_bind, h.bias_ok hc, ok_bind, zero_add]
  rfl

end Bounds

end Rows

/-! ## The forward pass -/

section Forward

variable [Field R] [LinearOrder R] [IsStrictOrderedRing R] {exp ln : R → R}
  {x weight bias : Dense R} {target : Target}
  {lead : List Nat} {inner vocab : Nat}

/-- The turn of a row adds its loss and counts it, whatever the scratch holds. -/
theorem forwardTurn_ok (hexp : LogLaws exp ln) (h : HeadFit x weight bias target lead inner vocab) (ignoreIndex : Int)
    {l n m offset localRow : Nat} (hrow : offset + localRow < lead.prod) (hl : (localRow + 1) * vocab ≤ l)
    (hn : localRow < n) (hm : localRow < m) (s : HeadForward R l n m) :
    ∃ s', forwardTurn exp ln x weight bias target ignoreIndex inner vocab offset localRow s = .ok s' ∧
      s'.total = s.total + lossAt exp ln target ignoreIndex vocab (headLogit x.at weight.at bias.at inner vocab)
        (offset + localRow) ∧
      s'.active = s.active + (if target.Ignored ignoreIndex (offset + localRow) then 0 else 1) ∧
      s'.invalid = s.invalid + if ¬ target.Ignored ignoreIndex (offset + localRow) ∧
        target.Outside vocab (offset + localRow) then 1 else 0 := by
  rw [Nat.succ_mul] at hl
  obtain ⟨logits, hproject, hin, -⟩ := h.projectRow_writes hrow hl s.logits
  have hlogit : ∀ c < vocab, (logits.read (localRow * vocab + c) : Fallible String R) =
      .ok (headLogit x.at weight.at bias.at inner vocab (offset + localRow) c) := fun c hc => Slice.read_ok.mpr (hin c hc)
  obtain ⟨flags, hflags, -, -⟩ := s.flags.exists_write (ε := String) hm
    (flagsAt target ignoreIndex vocab (offset + localRow))
  obtain ⟨nll, hnll, hloss, -⟩ := s.nll.exists_write (ε := String) hn (lossAt exp ln target ignoreIndex vocab
    (headLogit x.at weight.at bias.at inner vocab) (offset + localRow))
  refine ⟨⟨logits, nll, flags, _, _, _⟩, ?_, rfl, rfl, rfl⟩
  unfold forwardTurn
  simp only [hproject, ok_bind, Target.get_ok (h.targets ▸ hrow)]
  rw [show rowFlags _ _ = flagsAt target ignoreIndex vocab (offset + localRow) from rfl, hflags, ok_bind,
    maskedNll_ok hexp hlogit, ok_bind, hnll, ok_bind, Slice.read_ok.mpr hloss, ok_bind, Target.toNat_active,
    Target.toNat_invalid]

/-- The loop over the chunks adds up the losses of all rows. -/
theorem forwardLoop_ok (hexp : LogLaws exp ln) (h : HeadFit x weight bias target lead inner vocab) (ignoreIndex : Int)
    {l n m chunkLen : Nat} (hpos : 0 < chunkLen) (hl : l = chunkLen * vocab) (hn : n = chunkLen) (hm : m = chunkLen)
    (logits : Slice R l) (nll : Slice R n) (flags : Slice Nat m) :
    ∃ s, chunkLoop lead.prod chunkLen hpos (forwardTurn exp ln x weight bias target ignoreIndex inner vocab) 0
        (⟨logits, nll, flags, 0, 0, 0⟩ : HeadForward R l n m) = .ok s ∧
      s.total = ∑ row ∈ Finset.range lead.prod,
        lossAt exp ln target ignoreIndex vocab (headLogit x.at weight.at bias.at inner vocab) row ∧
      s.active = (target.active ignoreIndex lead.prod).card ∧
      s.invalid = (target.invalid ignoreIndex vocab lead.prod).card := by
  refine chunkLoop_total (fun rows (s : HeadForward R l n m) => s.total = ∑ row ∈ Finset.range rows,
      lossAt exp ln target ignoreIndex vocab (headLogit x.at weight.at bias.at inner vocab) row ∧
    s.active = (target.active ignoreIndex rows).card ∧ s.invalid = (target.invalid ignoreIndex vocab rows).card) ?_
    (Nat.zero_le _) ⟨rfl, rfl, rfl⟩
  rintro offset localRow s hrow hlocal ⟨htotal, hactive, hinvalid⟩
  obtain ⟨s', hturn, htotal', hactive', hinvalid'⟩ := forwardTurn_ok hexp h ignoreIndex hrow
    (hl ▸ Nat.mul_le_mul_right vocab hlocal) (hn ▸ hlocal) (hm ▸ hlocal) s
  refine ⟨s', hturn, ?_, ?_, ?_⟩
  · rw [htotal', htotal, Finset.sum_range_succ]
  · rw [hactive', hactive, Target.active_succ]
  · rw [hinvalid', hinvalid, Target.invalid_succ]

/-- What the forward pass writes: the scratch is that of a chunk. -/
structure HeadLossBuffers (R : Type) (chunkLen vocab : Nat) extends LossBuffers R chunkLen where
  logits : Dense R
  logits_shape : logits.shape = [chunkLen, vocab]

/-- The forward pass is the mean cross-entropy of the projection, for targets that are accepted. -/
theorem chunkedHeadCeForwardInto_mean (hexp : LogLaws exp ln) (h : HeadFit x weight bias target lead inner vocab)
    (ignoreIndex : Int) {chunkSize : Nat} (hchunk : chunkSize ≠ 0)
    (b : HeadLossBuffers R (headCeChunkLen lead.prod vocab chunkSize) vocab) :
    ∃ loss' status', ((target.active ignoreIndex lead.prod).card ≠ 0 ∧
        (target.invalid ignoreIndex vocab lead.prod).card = 0 → loss'.at 0 =
          meanLoss exp ln target ignoreIndex vocab lead.prod (headLogit x.at weight.at bias.at inner vocab)) ∧
      chunkedHeadCeForwardInto exp ln x weight bias target ignoreIndex chunkSize b.loss b.status b.logits b.nll b.flags =
        (checkTargets .mean (target.active ignoreIndex lead.prod).card (target.invalid ignoreIndex vocab lead.prod).card
          vocab >>= fun _ => .ok (loss', status')) := by
  obtain ⟨s, hrun, htotal, hactive, hinvalid⟩ := forwardLoop_ok hexp h ignoreIndex
    (headCeChunkLen_pos (prod_ne_zero h.positive) vocab chunkSize)
    (by rw [b.logits_shape, prod_cons, prod_singleton]) (by rw [b.nll_shape, prod_singleton])
    (by rw [b.flags_shape, prod_singleton]) b.logits.elements b.nll.elements b.flags.elements
  refine ⟨⟨[], [if s.active = 0 then 0 else s.total / s.active], rfl⟩,
    ⟨[3], [if s.active = 0 then 0 else s.total / s.active, s.active, s.invalid], rfl⟩, fun ⟨hcount, hvalid⟩ => ?_, ?_⟩
  · show (if s.active = 0 then 0 else s.total / s.active) = _
    rw [if_neg (hactive ▸ hcount), htotal, hactive, sum_lossAt hvalid, meanLoss]
  · unfold chunkedHeadCeForwardInto
    simp only [h.geometry hchunk, ok_bind, Dense.writable_ok _ b.logits_shape, Dense.writable_ok _ b.nll_shape,
      Dense.writable_ok _ b.flags_shape, hrun, Dense.writeStatus_ok _ b.status_shape, Dense.writeScalar_ok _ b.loss_shape,
      hactive, hinvalid]

end Forward

/-! ## The backward pass -/

section Backward

variable [Field R] {x weight bias : Dense R} {target : Target} {lead : List Nat} {inner vocab : Nat}

/-- The loop over the classes adds to one row of the gradient of the weight. -/
theorem classLoop_ok (h : HeadFit x weight bias target lead inner vocab) {g w row base index : Nat}
    {gradLogits : Slice R g} {delta : Nat → R} (hdelta : ∀ c < vocab, gradLogits.get? (base + c) = some (delta c))
    (hrow : row < lead.prod) (hindex : index < inner) (hw : inner * vocab ≤ w) (dweight : Slice R w) :
    ∃ dweight', (List.range vocab).foldlM (classTurn x weight gradLogits inner vocab row base index) (0, dweight) =
        .ok (∑ c ∈ Finset.range vocab, delta c * weight.at (index * vocab + c), dweight') ∧
      (∀ c < vocab, dweight'.get? (index * vocab + c) =
        (dweight.get? (index * vocab + c)).map (· + x.at (row * inner + index) * delta c)) ∧
      ∀ i, i < index * vocab ∨ index * vocab + vocab ≤ i → dweight'.get? i = dweight.get? i := by
  suffices hloop : ∃ s', (List.range vocab).foldlM (classTurn x weight gradLogits inner vocab row base index) (0, dweight) =
      .ok s' ∧ s'.1 = ∑ c ∈ Finset.range vocab, delta c * weight.at (index * vocab + c) ∧
        (∀ c < vocab, s'.2.get? (index * vocab + c) =
          (dweight.get? (index * vocab + c)).map (· + x.at (row * inner + index) * delta c)) ∧
        ∀ i, i < index * vocab ∨ index * vocab + vocab ≤ i → s'.2.get? i = dweight.get? i by
    obtain ⟨⟨value, dweight'⟩, hrun, rfl, hin, hout⟩ := hloop
    exact ⟨dweight', hrun, hin, hout⟩
  refine rangeLoop_total (fun k (s : R × Slice R w) =>
    s.1 = ∑ c ∈ Finset.range k, delta c * weight.at (index * vocab + c) ∧
      (∀ c < k, s.2.get? (index * vocab + c) =
        (dweight.get? (index * vocab + c)).map (· + x.at (row * inner + index) * delta c)) ∧
      ∀ i, i < index * vocab ∨ index * vocab + k ≤ i → s.2.get? i = dweight.get? i) ?_
    ⟨rfl, fun c hc => absurd hc (Nat.not_lt_zero c), fun _ _ => rfl⟩
  rintro c hc ⟨value, dw⟩ ⟨hvalue, hin, hout⟩
  have hlt : index * vocab + c < w := Nat.lt_of_lt_of_le (row_lt hindex hc) hw
  obtain ⟨old, hold⟩ := isSome_iff_exists.mp (dweight.isSome_get? hlt)
  have hread : dw.get? (index * vocab + c) = some old := (hout _ (.inr (Nat.le_refl _))).trans hold
  obtain ⟨dw', hwrite, hnew, hkept⟩ := dw.exists_write (ε := String) hlt (old + x.at (row * inner + index) * delta c)
  refine ⟨(value + delta c * weight.at (index * vocab + c), dw'), ?_, ?_, fun c' hc' => ?_, fun i hi => ?_⟩
  · rw [classTurn, Slice.read_ok.mpr (hdelta c hc), ok_bind, h.weight_ok hindex hc, ok_bind, h.x_ok hrow hindex, ok_bind,
      Slice.read_ok.mpr hread, ok_bind, hwrite, ok_bind]
  · rw [Finset.sum_range_succ, ← hvalue]
  · rcases Nat.lt_succ_iff_lt_or_eq.mp hc' with hlt' | rfl
    · exact (hkept _ (Nat.ne_of_lt (Nat.add_lt_add_left hlt' _))).trans (hin c' hlt')
    · rw [hold]
      exact hnew
  · exact (hkept i (by omega)).trans (hout i (by omega))

/-- The loop over the inputs of a row adds to the gradient of the weight, and writes that of the row. -/
theorem inputLoop_ok (h : HeadFit x weight bias target lead inner vocab) {g w d row base : Nat}
    {gradLogits : Slice R g} {delta : Nat → R} (hdelta : ∀ c < vocab, gradLogits.get? (base + c) = some (delta c))
    (hrow : row < lead.prod) (hw : inner * vocab ≤ w) (hd : lead.prod * inner ≤ d) (s : Slice R w × Slice R d) :
    ∃ s', (List.range inner).foldlM (inputTurn x weight gradLogits inner vocab row base) s = .ok s' ∧
      (∀ index < inner, ∀ c < vocab, s'.1.get? (index * vocab + c) =
        (s.1.get? (index * vocab + c)).map (· + x.at (row * inner + index) * delta c)) ∧
      (∀ index < inner, s'.2.get? (row * inner + index) =
        some (∑ c ∈ Finset.range vocab, delta c * weight.at (index * vocab + c))) ∧
      ∀ i < row * inner, s'.2.get? i = s.2.get? i := by
  suffices hloop : ∃ s', (List.range inner).foldlM (inputTurn x weight gradLogits inner vocab row base) s = .ok s' ∧
      (∀ index < inner, ∀ c < vocab, s'.1.get? (index * vocab + c) =
        (s.1.get? (index * vocab + c)).map (· + x.at (row * inner + index) * delta c)) ∧
      (∀ i, inner * vocab ≤ i → s'.1.get? i = s.1.get? i) ∧
      (∀ index < inner, s'.2.get? (row * inner + index) =
        some (∑ c ∈ Finset.range vocab, delta c * weight.at (index * vocab + c))) ∧
      ∀ i < row * inner, s'.2.get? i = s.2.get? i by
    obtain ⟨s', hrun, hweight, -, hdx, hkept⟩ := hloop
    exact ⟨s', hrun, hweight, hdx, hkept⟩
  refine rangeLoop_total (fun k (s' : Slice R w × Slice R d) =>
    (∀ index < k, ∀ c < vocab, s'.1.get? (index * vocab + c) =
        (s.1.get? (index * vocab + c)).map (· + x.at (row * inner + index) * delta c)) ∧
      (∀ i, k * vocab ≤ i → s'.1.get? i = s.1.get? i) ∧
      (∀ index < k, s'.2.get? (row * inner + index) =
        some (∑ c ∈ Finset.range vocab, delta c * weight.at (index * vocab + c))) ∧
      ∀ i < row * inner, s'.2.get? i = s.2.get? i) ?_
    ⟨fun c hc => absurd hc (Nat.not_lt_zero c), fun _ _ => rfl, fun c hc => absurd hc (Nat.not_lt_zero c), fun _ _ => rfl⟩
  rintro index hindex ⟨dw, dx⟩ ⟨hweight, hlater, hdx, hkept⟩
  obtain ⟨dw', hclass, hin, hout⟩ := classLoop_ok h hdelta hrow hindex hw dw
  obtain ⟨dx', hwrite, hnew, hkept'⟩ := dx.exists_write (ε := String) (Nat.lt_of_lt_of_le (row_lt hrow hindex) hd)
    (∑ c ∈ Finset.range vocab, delta c * weight.at (index * vocab + c))
  refine ⟨(dw', dx'), ?_, fun index' hindex' c hc => ?_, fun i hi => ?_, fun index' hindex' => ?_, fun i hi => ?_⟩
  · simp only [inputTurn, hclass, ok_bind, hwrite]
  · rcases Nat.lt_succ_iff_lt_or_eq.mp hindex' with hlt | rfl
    · exact (hout _ (.inl (row_lt hlt hc))).trans (hweight index' hlt c hc)
    · rw [← hlater _ (Nat.le_add_right ..)]
      exact hin c hc
  · rw [Nat.succ_mul] at hi
    exact (hout i (.inr hi)).trans (hlater i (Nat.le_trans (Nat.le_add_right ..) hi))
  · rcases Nat.lt_succ_iff_lt_or_eq.mp hindex' with hlt | rfl
    · exact (hkept' _ (Nat.ne_of_lt (Nat.add_lt_add_left hlt _))).trans (hdx index' hlt)
    · exact hnew
  · exact (hkept' i (Nat.ne_of_lt (Nat.lt_of_lt_of_le hi (Nat.le_add_right ..)))).trans (hkept i hi)

/-- The loop over the classes adds a row to the gradient of the bias. -/
theorem biasLoop_ok {g b base : Nat} {gradLogits : Slice R g} {delta : Nat → R}
    (hdelta : ∀ c < vocab, gradLogits.get? (base + c) = some (delta c)) (hb : vocab ≤ b) (dbias : Slice R b) :
    ∃ dbias', (List.range vocab).foldlM (biasTurn gradLogits base) dbias = .ok dbias' ∧
      ∀ c < vocab, dbias'.get? c = (dbias.get? c).map (· + delta c) := by
  suffices hloop : ∃ dbias', (List.range vocab).foldlM (biasTurn gradLogits base) dbias = .ok dbias' ∧
      (∀ c < vocab, dbias'.get? c = (dbias.get? c).map (· + delta c)) ∧ ∀ i, vocab ≤ i → dbias'.get? i = dbias.get? i by
    obtain ⟨dbias', hrun, hin, -⟩ := hloop
    exact ⟨dbias', hrun, hin⟩
  refine rangeLoop_total (fun k (s : Slice R b) => (∀ c < k, s.get? c = (dbias.get? c).map (· + delta c)) ∧
    ∀ i, k ≤ i → s.get? i = dbias.get? i) ?_ ⟨fun c hc => absurd hc (Nat.not_lt_zero c), fun _ _ => rfl⟩
  rintro c hc s ⟨hin, hout⟩
  have hlt : c < b := Nat.lt_of_lt_of_le hc hb
  obtain ⟨old, hold⟩ := isSome_iff_exists.mp (dbias.isSome_get? hlt)
  have hread : s.get? c = some old := (hout c (Nat.le_refl c)).trans hold
  obtain ⟨s', hwrite, hnew, hkept⟩ := s.exists_write (ε := String) hlt (old + delta c)
  refine ⟨s', ?_, fun c' hc' => ?_, fun i hi => ?_⟩
  · rw [biasTurn, Slice.read_ok.mpr (hdelta c hc), ok_bind, Slice.read_ok.mpr hread, ok_bind, hwrite]
  · rcases Nat.lt_succ_iff_lt_or_eq.mp hc' with hlt' | rfl
    · exact (hkept _ (Nat.ne_of_lt hlt')).trans (hin c' hlt')
    · rw [hold]
      exact hnew
  · exact (hkept i (Nat.ne_of_gt hi)).trans (hout i (Nat.le_of_succ_le hi))

variable [LinearOrder R] {exp : R → R}

/-- The turn of a row adds its gradients, whatever the scratch holds. -/
theorem backwardTurn_ok (hexp : ExpLaws exp) (h : HeadFit x weight bias target lead inner vocab) (ignoreIndex : Int)
    (scale : R) {l g w b d offset localRow : Nat} (hrow : offset + localRow < lead.prod) (hl : (localRow + 1) * vocab ≤ l)
    (hg : (localRow + 1) * vocab ≤ g) (hw : inner * vocab ≤ w) (hb : vocab ≤ b) (hd : lead.prod * inner ≤ d)
    (s : HeadBackward R l g w b d) {delta : Nat → Nat → R} (hdelta : delta = fun row c => gradientAt exp target ignoreIndex vocab
      (headLogit x.at weight.at bias.at inner vocab) row c * scale) :
    ∃ s', backwardTurn exp x weight bias target ignoreIndex scale inner vocab offset localRow s = .ok s' ∧
      (∀ index < inner, ∀ c < vocab, s'.dweight.get? (index * vocab + c) = (s.dweight.get? (index * vocab + c)).map
        (· + x.at ((offset + localRow) * inner + index) * delta (offset + localRow) c)) ∧
      (∀ c < vocab, s'.dbias.get? c = (s.dbias.get? c).map (· + delta (offset + localRow) c)) ∧
      (∀ index < inner, s'.dx.get? ((offset + localRow) * inner + index) =
        some (∑ c ∈ Finset.range vocab, delta (offset + localRow) c * weight.at (index * vocab + c))) ∧
      ∀ i < (offset + localRow) * inner, s'.dx.get? i = s.dx.get? i := by
  rw [Nat.succ_mul] at hl hg
  obtain ⟨logits, hproject, hin, -⟩ := h.projectRow_writes hrow hl s.logits
  have hlogit : ∀ c < vocab, (logits.read (localRow * vocab + c) : Fallible String R) =
      .ok (headLogit x.at weight.at bias.at inner vocab (offset + localRow) c) := fun c hc => Slice.read_ok.mpr (hin c hc)
  obtain ⟨gradLogits, hgradient, hgrad, -⟩ := gradientTurn_writes hexp (h.targets ▸ hrow) hlogit ignoreIndex scale hg
    s.gradLogits
  have hread : ∀ c < vocab, gradLogits.get? (localRow * vocab + c) = some (delta (offset + localRow) c) := by
    rw [hdelta]
    exact hgrad
  obtain ⟨⟨dweight, dx⟩, hinputs, hweight, hdx, hkept⟩ := inputLoop_ok h hread hrow hw hd (s.dweight, s.dx)
  obtain ⟨dbias, hbias, hdbias⟩ := biasLoop_ok hread hb s.dbias
  refine ⟨⟨logits, gradLogits, dweight, dbias, dx⟩, ?_, hweight, hdbias, hdx, hkept⟩
  simp only [backwardTurn, hproject, ok_bind, hgradient, hinputs, hbias]

/-- The loop over the chunks adds up the gradients of all rows. -/
theorem backwardLoop_ok (hexp : ExpLaws exp) (h : HeadFit x weight bias target lead inner vocab) (ignoreIndex : Int)
    (scale : R) {l g w b d chunkLen : Nat} (hpos : 0 < chunkLen) (hl : l = chunkLen * vocab) (hg : g = chunkLen * vocab)
    (hw : inner * vocab ≤ w) (hb : vocab ≤ b) (hd : lead.prod * inner ≤ d) (logits : Slice R l) (gradLogits : Slice R g)
    (dx : Slice R d) {delta : Nat → Nat → R} (hdelta : delta = fun row c => gradientAt exp target ignoreIndex vocab
      (headLogit x.at weight.at bias.at inner vocab) row c * scale) :
    ∃ s, chunkLoop lead.prod chunkLen hpos (backwardTurn exp x weight bias target ignoreIndex scale inner vocab) 0
        (⟨logits, gradLogits, zeros, zeros, dx⟩ : HeadBackward R l g w b d) = .ok s ∧
      (∀ index < inner, ∀ c < vocab, s.dweight.get? (index * vocab + c) =
        some (∑ row ∈ Finset.range lead.prod, x.at (row * inner + index) * delta row c)) ∧
      (∀ c < vocab, s.dbias.get? c = some (∑ row ∈ Finset.range lead.prod, delta row c)) ∧
      ∀ row < lead.prod, ∀ index < inner, s.dx.get? (row * inner + index) =
        some (∑ c ∈ Finset.range vocab, delta row c * weight.at (index * vocab + c)) := by
  refine chunkLoop_total (fun rows (s : HeadBackward R l g w b d) =>
    (∀ index < inner, ∀ c < vocab, s.dweight.get? (index * vocab + c) =
        some (∑ row ∈ Finset.range rows, x.at (row * inner + index) * delta row c)) ∧
      (∀ c < vocab, s.dbias.get? c = some (∑ row ∈ Finset.range rows, delta row c)) ∧
      ∀ row < rows, ∀ index < inner, s.dx.get? (row * inner + index) =
        some (∑ c ∈ Finset.range vocab, delta row c * weight.at (index * vocab + c))) ?_ (Nat.zero_le _) ⟨?_, ?_, ?_⟩
  · rintro offset localRow s hrow hlocal ⟨hweight, hbias, hdx⟩
    obtain ⟨s', hturn, hweight', hbias', hdx', hkept⟩ := backwardTurn_ok hexp h ignoreIndex scale hrow
      (hl ▸ Nat.mul_le_mul_right vocab hlocal) (hg ▸ Nat.mul_le_mul_right vocab hlocal) hw hb hd s hdelta
    refine ⟨s', hturn, fun index hindex c hc => ?_, fun c hc => ?_, fun row hrow' index hindex => ?_⟩
    · rw [hweight' index hindex c hc, hweight index hindex c hc, map_some, Finset.sum_range_succ]
    · rw [hbias' c hc, hbias c hc, map_some, Finset.sum_range_succ]
    · rcases Nat.lt_succ_iff_lt_or_eq.mp hrow' with hlt | rfl
      · rw [hkept _ (row_lt hlt hindex), hdx row hlt index hindex]
      · exact hdx' index hindex
  · intro index hindex c hc
    have hlt : index * vocab + c < w := Nat.lt_of_lt_of_le (row_lt hindex hc) hw
    show (List.replicate w (0 : R))[index * vocab + c]? = _
    rw [List.getElem?_replicate, if_pos hlt, Finset.range_zero, Finset.sum_empty]
  · intro c hc
    show (List.replicate b (0 : R))[c]? = _
    rw [List.getElem?_replicate, if_pos (Nat.lt_of_lt_of_le hc hb), Finset.range_zero, Finset.sum_empty]
  · exact fun row hrow => absurd hrow (Nat.not_lt_zero row)

omit [Field R] [LinearOrder R] in
theorem copyLoop_ok {n m count : Nat} {accumulator : Slice R n} {value : Nat → R}
    (h : ∀ i < count, accumulator.get? i = some (value i)) (hm : count ≤ m) (output : Slice R m) :
    ∃ output', copyLoop count accumulator output = .ok output' ∧ ∀ i < count, output'.get? i = some (value i) := by
  have hbase : 0 + count ≤ m := by rwa [Nat.zero_add]
  obtain ⟨output', hrun, hin, -⟩ := Slice.writesRow (ε := String) hbase (fun i hi => Slice.read_ok.mpr (h i hi)) output
  simp only [Nat.zero_add] at hrun hin
  exact ⟨output', hrun, hin⟩

/-- What the backward pass writes: the scratch is that of a chunk, and of the gradients added up. -/
structure HeadGradientBuffers {R : Type} (x weight bias : Dense R) (chunkLen inner vocab : Nat) where
  dx : Dense R
  dweight : Dense R
  dbias : Dense R
  status : Dense R
  logits : Dense R
  gradLogits : Dense R
  dweightScratch : Dense R
  dbiasScratch : Dense R
  dx_shape : dx.shape = x.shape
  dweight_shape : dweight.shape = weight.shape
  dbias_shape : dbias.shape = bias.shape
  status_shape : status.shape = [3]
  logits_shape : logits.shape = [chunkLen, vocab]
  gradLogits_shape : gradLogits.shape = [chunkLen, vocab]
  dweightScratch_shape : dweightScratch.shape = [inner, vocab]
  dbiasScratch_shape : dbiasScratch.shape = [vocab]

/-- What the backward pass returns, for targets that are accepted: the gradients added up over the rows. -/
theorem chunkedHeadCeBackwardInto_sums (hexp : ExpLaws exp) (h : HeadFit x weight bias target lead inner vocab)
    (ignoreIndex : Int) {chunkSize : Nat} (hchunk : chunkSize ≠ 0) {gradient : Dense R} (hgradient : gradient.shape.prod = 1)
    (b : HeadGradientBuffers x weight bias (headCeChunkLen lead.prod vocab chunkSize) inner vocab)
    {delta : Nat → Nat → R} (hdelta : delta = fun row c => gradientAt exp target ignoreIndex vocab
      (headLogit x.at weight.at bias.at inner vocab) row c * (gradient.at 0 / (target.active ignoreIndex lead.prod).card)) :
    ∃ dx' dweight' dbias', (∀ row < lead.prod, ∀ index < inner, dx'.at (row * inner + index) =
        ∑ c ∈ Finset.range vocab, delta row c * weight.at (index * vocab + c)) ∧
      (∀ index < inner, ∀ c < vocab, dweight'.at (index * vocab + c) =
        ∑ row ∈ Finset.range lead.prod, x.at (row * inner + index) * delta row c) ∧
      (∀ c < vocab, dbias'.at c = ∑ row ∈ Finset.range lead.prod, delta row c) ∧
      chunkedHeadCeBackwardInto exp x weight bias target gradient ignoreIndex chunkSize b.dx b.dweight b.dbias b.status
          b.logits b.gradLogits b.dweightScratch b.dbiasScratch =
        (checkTargets .mean (target.active ignoreIndex lead.prod).card (target.invalid ignoreIndex vocab lead.prod).card
          vocab >>= fun _ => .ok (dx', dweight', dbias')) := by
  have hdims : weight.shape.prod = inner * vocab := by rw [h.weight, prod_cons, prod_singleton]
  have hpairs : ∀ {scratch : Dense R} {a b : Nat}, scratch.shape = [a, b] → scratch.shape.prod = a * b := fun hshape => by
    rw [hshape, prod_cons, prod_singleton]
  have hscalar : gradient.element 0 = .ok (gradient.at 0) := Dense.element_ok (by rw [hgradient]; exact Nat.one_pos)
  obtain ⟨s, hrun, hweight, hbias, hx⟩ := backwardLoop_ok hexp h ignoreIndex
    (gradient.at 0 / (target.active ignoreIndex lead.prod).card)
    (headCeChunkLen_pos (prod_ne_zero h.positive) vocab chunkSize) (hpairs b.logits_shape) (hpairs b.gradLogits_shape)
    (Nat.le_of_eq (hpairs b.dweightScratch_shape).symm)
    (show vocab ≤ b.dbiasScratch.shape.prod by rw [b.dbiasScratch_shape, prod_singleton])
    (show lead.prod * inner ≤ b.dx.shape.prod by rw [b.dx_shape, h.x, prod_append, prod_singleton])
    b.logits.elements b.gradLogits.elements b.dx.elements hdelta
  have hcells : ∀ i < inner * vocab, s.dweight.get? i = some (∑ row ∈ Finset.range lead.prod,
      x.at (row * inner + i / vocab) * delta row (i % vocab)) := by
    intro i hi
    have hcell := hweight (i / vocab) (Nat.div_lt_of_lt_mul (Nat.mul_comm inner vocab ▸ hi)) (i % vocab)
      (Nat.mod_lt i (Nat.pos_of_ne_zero h.vocab))
    rwa [Nat.div_add_mod'] at hcell
  obtain ⟨dweight', hcopy, hdweight'⟩ := copyLoop_ok hcells (Nat.le_of_eq (b.dweight_shape ▸ hdims).symm) b.dweight.elements
  obtain ⟨dbias', hcopy', hdbias'⟩ := copyLoop_ok hbias (Nat.le_of_eq (b.dbias_shape ▸ h.bias).symm) b.dbias.elements
  refine ⟨⟨b.dx.shape, s.dx⟩, ⟨b.dweight.shape, dweight'⟩, ⟨b.dbias.shape, dbias'⟩,
    fun row hrow index hindex => Dense.at_eq (hx row hrow index hindex), fun index hindex c hc => ?_,
    fun c hc => Dense.at_eq (hdbias' c hc), ?_⟩
  · rw [Dense.at_eq (hdweight' _ (row_lt hindex hc)), Nat.mul_comm index, Nat.mul_add_div (Nat.pos_of_ne_zero h.vocab),
      Nat.mul_add_mod, Nat.div_eq_of_lt hc, Nat.mod_eq_of_lt hc, Nat.add_zero]
  · have hchecks : rejectIf (gradient.shape.prod ≠ 1) "chunked head CE: gradient must be a scalar of the input dtype" =
        .ok () := rejectIf_ok.mpr (not_not_intro hgradient)
    simp only [chunkedHeadCeBackwardInto, h.geometry hchunk, ok_bind, hchecks, Target.summary_eq, h.targets,
      Dense.writeStatus_ok _ b.status_shape, hscalar, Dense.writable_ok _ b.logits_shape,
      Dense.writable_ok _ b.gradLogits_shape, Dense.writable_ok _ b.dweightScratch_shape,
      Dense.writable_ok _ b.dbiasScratch_shape, Dense.writable_ok _ b.dx_shape, Dense.writable_ok _ b.dweight_shape,
      Dense.writable_ok _ b.dbias_shape, hrun, hcopy, hcopy']

end Backward

end EffectTorch
