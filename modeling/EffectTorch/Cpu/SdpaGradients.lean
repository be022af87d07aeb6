import EffectTorch.Cpu.Sdpa
import EffectTorch.Lib.Gradient
import Mathlib

/-!
# Gradients of attention

`sdpa_backward_into` of `runtime-cpu/src/composed.rs`: the weights come back from the logarithm of their
sum, and each key of a query adds to the gradients. Arithmetic is exact, and the elements of all tensors
have one type.

Results:
1. `sdpaBackwardInto_adds`: what the backward pass adds up.
2. `sdpa_gradients`: these sums are gradients.
3. `sdpa_exact`: the forward and the backward pass together.
-/

namespace EffectTorch
open Finset Lib

variable {R : Type}

/-! ## The backward kernel -/

section Kernel

variable [Field R] (exp : R → R)

/-- `dq_values`, `dk_values` and `dv_values`. -/
abbrev SdpaGrads (R : Type) (a b c : Nat) : Type := (Slice R a × Slice R b) × Slice R c

/-- One turn of the loop over the depth: a product is added to the gradient of the query, and one to that
of the key. -/
def sdpaDepthTurn {a b : Nat} (q k : Dense R) (qBase kBase : Nat) (ds : R) (s : Slice R a × Slice R b) (depth : Nat) :
    Fallible String (Slice R a × Slice R b) := do
  let key ← k.element (kBase + depth)
  let old ← s.1.read (qBase + depth)
  let dq ← s.1.write (qBase + depth) (old + ds * key)
  let query ← q.element (qBase + depth)
  let old ← s.2.read (kBase + depth)
  let dk ← s.2.write (kBase + depth) (old + ds * query)
  .ok (dq, dk)

/-- One turn of the loop over the columns of the values. -/
def sdpaColumnTurn {c : Nat} (gradient : Dense R) (outputBase vBase : Nat) (probability : R) (dv : Slice R c)
    (valueIndex : Nat) : Fallible String (Slice R c) := do
  let upstream ← gradient.element (outputBase + valueIndex)
  let old ← dv.read (vBase + valueIndex)
  dv.write (vBase + valueIndex) (old + probability * upstream)

/-- One turn of the loop over the keys. -/
def sdpaGradientTurn {n a b c : Nat} (q k v logsumexp gradient : Dense R) (g : SdpaGeometry) (scale : R) (causal : Bool)
    (window : Option Nat) (dVec : Slice R n) (bh query : Nat) (s : SdpaGrads R a b c) (key : Nat) :
    Fallible String (SdpaGrads R a b c) := do
  if !sdpaAllowed query key g.queryLen g.keyLen causal window then .ok s
  else
    let row := bh * g.queryLen + query
    let qBase := row * g.queryDepth
    let kBase := (bh * g.keyLen + key) * g.queryDepth
    let vBase := (bh * g.keyLen + key) * g.valueDepth
    let dot ← sdpaDot q k g.queryDepth qBase kBase
    let lse ← logsumexp.element row
    let probability := exp (dot * scale - lse)
    let dp ← sdpaDot gradient v g.valueDepth (row * g.valueDepth) vBase
    let d ← dVec.read row
    let ds := probability * (dp - d) * scale
    let pair ← (List.range g.queryDepth).foldlM (sdpaDepthTurn q k qBase kBase ds) s.1
    let dv ← (List.range g.valueDepth).foldlM (sdpaColumnTurn gradient (row * g.valueDepth) vBase probability) s.2
    .ok (pair, dv)

/-- `sdpa_backward_into`: the gradients of the queries, the keys and the values. -/
def sdpaBackwardInto (q k v output logsumexp gradient : Dense R) (scale : R) (causal : Bool) (window : Option Nat)
    (dq dk dv dVecScratch : Dense R) : Fallible String (Dense R × Dense R × Dense R) := do
  let g ← sdpaGeometry q.shape k.shape v.shape
  rejectIf (g.queryHeads ≠ g.kvHeads) "sdpa backward: grouped-query attention is not differentiable"
  let expected := (checkedMul g.batchHeads g.queryLen).bind (checkedMul · g.valueDepth)
  let rows := q.shape.take (q.shape.length - 1)
  rejectIf (output.shape.prod ≠ expected.getD usizeMax ∨ gradient.shape ≠ output.shape ∨
    sdpaOutputMatches output.shape q.shape g.valueDepth = false ∨ logsumexp.shape ≠ rows)
    "sdpa backward: output, logsumexp, or gradient mismatch"
  let dVec ← dVecScratch.writable "sdpa row-dot scratch" rows
  let dVec ← (List.range (g.batchHeads * g.queryLen)).foldlM (fun dVec row =>
    sdpaDot output gradient g.valueDepth (row * g.valueDepth) (row * g.valueDepth) >>= fun value => dVec.write row value) dVec
  let _ ← dq.writable "sdpa dq" q.shape
  let _ ← dk.writable "sdpa dk" k.shape
  let _ ← dv.writable "sdpa dv" v.shape
  let s ← (List.range g.batchHeads).foldlM (fun s bh => (List.range g.queryLen).foldlM (fun s query =>
    (List.range g.keyLen).foldlM (sdpaGradientTurn exp q k v logsumexp gradient g scale causal window dVec bh query) s) s)
    (((zeros, zeros), zeros) : SdpaGrads R dq.shape.prod dk.shape.prod dv.shape.prod)
  .ok (⟨dq.shape, s.1.1⟩, ⟨dk.shape, s.1.2⟩, ⟨dv.shape, s.2⟩)

end Kernel

/-! ## What the loops add up -/

section Sums

variable [Field R] {exp : R → R} {q k v gradient logsumexp : Dense R} {a b c n : Nat}

/-- The cells of the three gradients. -/
abbrev sdpaCell : SdpaGrads R a b c → (Nat ⊕ Nat) ⊕ Nat → Option R :=
  getBoth (getBoth Slice.get? Slice.get?) Slice.get?

theorem depthLoop_adds {depth qBase kBase : Nat}
    (hq : ∀ index < depth, q.element (qBase + index) = .ok (q.at (qBase + index)))
    (hk : ∀ index < depth, k.element (kBase + index) = .ok (k.at (kBase + index))) (ha : qBase + depth ≤ a)
    (hb : kBase + depth ≤ b) (ds : R) :
    Adds (getBoth (Slice.get? (n := a)) (Slice.get? (n := b)))
      (Sum.elim (fun i => ∑ index ∈ Finset.range depth, if i = qBase + index then ds * k.at (kBase + index) else 0)
        fun i => ∑ index ∈ Finset.range depth, if i = kBase + index then ds * q.at (qBase + index) else 0)
      fun s => (List.range depth).foldlM (sdpaDepthTurn q k qBase kBase ds) s := by
  have hturn : ∀ index < depth, Adds (getBoth (Slice.get? (n := a)) (Slice.get? (n := b)))
      (Sum.elim (fun i => if i = qBase + index then ds * k.at (kBase + index) else 0)
        fun i => if i = kBase + index then ds * q.at (qBase + index) else 0)
      fun s => sdpaDepthTurn q k qBase kBase ds s index := by
    intro index hindex
    have hboth := Adds.both
      (Slice.adds_write (ε := String) (Nat.lt_of_lt_of_le (Nat.add_lt_add_left hindex qBase) ha) (ds * k.at (kBase + index)))
      (Slice.adds_write (ε := String) (Nat.lt_of_lt_of_le (Nat.add_lt_add_left hindex kBase) hb) (ds * q.at (qBase + index)))
    unfold sdpaDepthTurn
    simpa only [hq index hindex, hk index hindex, ok_bind, bind_assoc] using hboth
  refine (Adds.rangeLoop hturn).congr fun i => ?_
  cases i with
  | inl i => rfl
  | inr i => rfl

theorem columnLoop_adds {depth outputBase vBase : Nat}
    (hg : ∀ index < depth, gradient.element (outputBase + index) = .ok (gradient.at (outputBase + index)))
    (hc : vBase + depth ≤ c) (probability : R) :
    Adds (Slice.get? (n := c))
      (fun i => ∑ index ∈ Finset.range depth, if i = vBase + index then probability * gradient.at (outputBase + index) else 0)
      fun s => (List.range depth).foldlM (sdpaColumnTurn gradient outputBase vBase probability) s := by
  have hturn : ∀ index < depth, Adds (Slice.get? (n := c))
      (fun i => if i = vBase + index then probability * gradient.at (outputBase + index) else 0)
      fun s => sdpaColumnTurn gradient outputBase vBase probability s index := by
    intro index hindex
    unfold sdpaColumnTurn
    simp only [hg index hindex, ok_bind]
    exact Slice.adds_write (Nat.lt_of_lt_of_le (Nat.add_lt_add_left hindex vBase) hc) _
  exact Adds.rangeLoop hturn

/-- What a key of a query adds to the gradients: `p` is its weight and `ds` the derivative in their product. -/
def sdpaAmount (g : SdpaGeometry) (q k gradient : Nat → R) (p ds : R) (bh query key : Nat) : (Nat ⊕ Nat) ⊕ Nat → R :=
  let qBase := (bh * g.queryLen + query) * g.queryDepth
  let kBase := (bh * g.keyLen + key) * g.queryDepth
  let vBase := (bh * g.keyLen + key) * g.valueDepth
  let outputBase := (bh * g.queryLen + query) * g.valueDepth
  Sum.elim
    (Sum.elim (fun i => ∑ index ∈ Finset.range g.queryDepth, if i = qBase + index then ds * k (kBase + index) else 0)
      fun i => ∑ index ∈ Finset.range g.queryDepth, if i = kBase + index then ds * q (qBase + index) else 0)
    fun i => ∑ index ∈ Finset.range g.valueDepth, if i = vBase + index then p * gradient (outputBase + index) else 0

/-- The weight of a key, from the logarithm of the sum. -/
def sdpaProbability (exp : R → R) (g : SdpaGeometry) (scale : R) (q k logsumexp : Nat → R) (bh query key : Nat) : R :=
  exp (sdpaScore g scale q k bh query key - logsumexp (bh * g.queryLen + query))

/-- The derivative of the loss in the value of a row. -/
def sdpaRowDot (g : SdpaGeometry) (output gradient : Nat → R) (row : Nat) : R :=
  ∑ column ∈ Finset.range g.valueDepth, output (row * g.valueDepth + column) * gradient (row * g.valueDepth + column)

/-- The derivative of the loss in the product of a query and a key. -/
def sdpaDs (exp : R → R) (g : SdpaGeometry) (scale : R) (q k v output logsumexp gradient : Nat → R) (bh query key : Nat) : R :=
  sdpaProbability exp g scale q k logsumexp bh query key *
    (∑ column ∈ Finset.range g.valueDepth, gradient ((bh * g.queryLen + query) * g.valueDepth + column) *
      v ((bh * g.keyLen + key) * g.valueDepth + column) - sdpaRowDot g output gradient (bh * g.queryLen + query)) * scale

end Sums

/-! ## The tensors -/

/-- The tensors of a backward pass. -/
structure SdpaGradientFit (q k v output logsumexp gradient : Dense R) (g : SdpaGeometry) : Prop
    extends SdpaFit q.shape k.shape v.shape g where
  equal : g.queryHeads = g.kvHeads
  output_shape : output.shape = q.shape.take (q.shape.length - 1) ++ [g.valueDepth]
  logsumexp_shape : logsumexp.shape = q.shape.take (q.shape.length - 1)
  gradient_shape : gradient.shape = output.shape
  fits : output.shape.prod ≤ usizeMax

section Fit

variable {q k v output logsumexp gradient : Dense R} {g : SdpaGeometry}
  (h : SdpaGradientFit q k v output logsumexp gradient g)
include h

theorem SdpaGradientFit.batchHeads : g.batch * g.kvHeads = g.batchHeads := congrArg (g.batch * ·) h.equal.symm

theorem SdpaGradientFit.kvBh (bh : Nat) : g.kvBh bh = bh := by
  have hratio : g.queryHeads / g.queryHeads = 1 := Nat.div_self (h.equal ▸ h.heads)
  unfold SdpaGeometry.kvBh
  simp only [← h.equal, hratio, Nat.div_one]
  exact Nat.div_add_mod' bh g.queryHeads

theorem SdpaGradientFit.outputs : output.shape.prod = g.batchHeads * g.queryLen * g.valueDepth := by
  rw [h.output_shape, List.prod_append, List.prod_singleton, h.rows]

theorem SdpaGradientFit.expected :
    ((checkedMul g.batchHeads g.queryLen).bind (checkedMul · g.valueDepth)).getD usizeMax = output.shape.prod := by
  have hfits := h.outputs ▸ h.fits
  have hrows : g.batchHeads * g.queryLen ≤ usizeMax := Nat.le_trans (Nat.le_mul_of_pos_right _ h.valueDepth) hfits
  rw [checkedMul_some.mpr ⟨hrows, rfl⟩, Option.bind_some, checkedMul_some.mpr ⟨hfits, rfl⟩, h.outputs]
  rfl

section Rows

variable [Field R] {row : Nat} (hrow : row < g.batchHeads * g.queryLen)
include hrow

theorem SdpaGradientFit.output_ok {column : Nat} (hcolumn : column < g.valueDepth) :
    output.element (row * g.valueDepth + column) = .ok (output.at (row * g.valueDepth + column)) :=
  Dense.element_ok (h.outputs ▸ row_lt hrow hcolumn)

theorem SdpaGradientFit.gradient_ok {column : Nat} (hcolumn : column < g.valueDepth) :
    gradient.element (row * g.valueDepth + column) = .ok (gradient.at (row * g.valueDepth + column)) :=
  Dense.element_ok (h.gradient_shape ▸ h.outputs ▸ row_lt hrow hcolumn)

theorem SdpaGradientFit.logsumexp_ok : logsumexp.element row = .ok (logsumexp.at row) :=
  Dense.element_ok (h.logsumexp_shape ▸ h.rows ▸ hrow)

end Rows

end Fit

/-! ## The loops of the backward pass -/

section Backward

variable [Field R] {exp : R → R} {q k v output logsumexp gradient : Dense R} {g : SdpaGeometry}
  {a b c n : Nat}
  {bh query key : Nat} {scale : R} {causal : Bool} {window : Option Nat}

/-- What a key adds, as the backward pass computes it. -/
def sdpaAmountAt (exp : R → R) (g : SdpaGeometry) (scale : R) (q k v output logsumexp gradient : Nat → R)
    (bh query key : Nat) : (Nat ⊕ Nat) ⊕ Nat → R :=
  sdpaAmount g q k gradient (sdpaProbability exp g scale q k logsumexp bh query key)
    (sdpaDs exp g scale q k v output logsumexp gradient bh query key) bh query key

/-- What the keys of all queries add. -/
def sdpaGradient (exp : R → R) (g : SdpaGeometry) (causal : Bool) (window : Option Nat) (scale : R)
    (q k v output logsumexp gradient : Nat → R) (cell : (Nat ⊕ Nat) ⊕ Nat) : R :=
  ∑ bh ∈ Finset.range g.batchHeads, ∑ query ∈ Finset.range g.queryLen, ∑ key ∈ g.keys causal window query,
    sdpaAmountAt exp g scale q k v output logsumexp gradient bh query key cell

/-- The turn of a key adds its amounts. -/
theorem SdpaGradientFit.turn_adds (h : SdpaGradientFit q k v output logsumexp gradient g) {dVec : Slice R n}
    (hd : ∀ row < g.batchHeads * g.queryLen, dVec.get? row = some (sdpaRowDot g output.at gradient.at row))
    (ha : q.shape.prod ≤ a) (hb : k.shape.prod ≤ b) (hc : v.shape.prod ≤ c) (hbh : bh < g.batchHeads)
    (hquery : query < g.queryLen) (hkey : key < g.keyLen) :
    Adds (sdpaCell (a := a) (b := b) (c := c))
      (fun cell => if sdpaAllowed query key g.queryLen g.keyLen causal window = true then
        sdpaAmountAt exp g scale q.at k.at v.at output.at logsumexp.at gradient.at bh query key cell else 0)
      fun s => sdpaGradientTurn exp q k v logsumexp gradient g scale causal window dVec bh query s key := by
  unfold sdpaGradientTurn
  by_cases hallowed : sdpaAllowed query key g.queryLen g.keyLen causal window = true
  · have hrow := row_lt hbh hquery
    have hkv : bh * g.keyLen + key < g.batchHeads * g.keyLen := row_lt hbh hkey
    have hkbh := h.kvBh bh
    have hq := fun index (hindex : index < g.queryDepth) => h.query_ok hbh hquery hindex
    have hk := fun index (hindex : index < g.queryDepth) => h.key_ok hbh hkey hindex
    have hv : ∀ index < g.valueDepth, v.element ((bh * g.keyLen + key) * g.valueDepth + index) =
        .ok (v.at ((bh * g.keyLen + key) * g.valueDepth + index)) := fun index hindex => by
      have hvalue := h.value_ok hbh hkey hindex
      rwa [sdpaValue, hkbh] at hvalue
    obtain ⟨dot, hdot, hscore⟩ := h.dot_ok hbh hquery hkey scale
    rw [hkbh] at hdot
    simp only [hkbh] at hk
    have hqa := Nat.le_trans (h.queries ▸ row_le hrow) ha
    have hkb := Nat.le_trans (h.keys ▸ h.batchHeads ▸ row_le hkv) hb
    have hvc := Nat.le_trans (h.values ▸ h.batchHeads ▸ row_le hkv) hc
    simp only [hallowed, Bool.not_true, Bool.false_eq_true, if_false, if_true, hdot, ok_bind, h.logsumexp_ok hrow, hscore,
      sdpaDot_ok (fun _ hindex => h.gradient_ok hrow hindex) hv, Slice.read_ok.mpr (hd _ hrow)]
    refine (Adds.both (depthLoop_adds hq hk hqa hkb _) (columnLoop_adds (fun _ hindex => h.gradient_ok hrow hindex) hvc _)).congr
      fun cell => ?_
    rfl
  · simp only [hallowed, Bool.not_false, if_true]
    refine Updates.nothing.congr fun cell a => ?_
    simp only [Bool.false_eq_true, if_false, add_zero]

/-- The loops over the rows and their keys. -/
theorem SdpaGradientFit.loops_add (h : SdpaGradientFit q k v output logsumexp gradient g) (exp : R → R) {dVec : Slice R n}
    (hd : ∀ row < g.batchHeads * g.queryLen, dVec.get? row = some (sdpaRowDot g output.at gradient.at row))
    (ha : q.shape.prod ≤ a) (hb : k.shape.prod ≤ b) (hc : v.shape.prod ≤ c) (scale : R) (causal : Bool)
    (window : Option Nat) :
    Adds (sdpaCell (a := a) (b := b) (c := c))
      (sdpaGradient exp g causal window scale q.at k.at v.at output.at logsumexp.at gradient.at) fun s =>
        (List.range g.batchHeads).foldlM (fun s bh => (List.range g.queryLen).foldlM (fun s query =>
          (List.range g.keyLen).foldlM (sdpaGradientTurn exp q k v logsumexp gradient g scale causal window dVec bh query) s)
          s) s := by
  refine Adds.rangeLoop fun bh hbh => Adds.rangeLoop fun query hquery => ?_
  refine (Adds.rangeLoop fun key hkey => h.turn_adds hd ha hb hc hbh hquery hkey).congr fun cell => ?_
  exact (sum_filter _ _).symm

/-- What the backward pass writes. -/
structure SdpaGradientBuffers (R : Type) (q k v : List Nat) where
  dq : Dense R
  dk : Dense R
  dv : Dense R
  dVec : Dense R
  dq_shape : dq.shape = q
  dk_shape : dk.shape = k
  dv_shape : dv.shape = v
  dVec_shape : dVec.shape = q.take (q.length - 1)

theorem zeros_get {i : Nat} (hi : i < n) : (zeros : Slice R n).get? i = some 0 :=
  List.getElem?_replicate.trans (if_pos hi)

/-- What the backward pass adds up. -/
theorem sdpaBackwardInto_adds (hg : sdpaGeometry q.shape k.shape v.shape = .ok g)
    (h : SdpaGradientFit q k v output logsumexp gradient g) (scale : R) (causal : Bool) (window : Option Nat)
    (w : SdpaGradientBuffers R q.shape k.shape v.shape) {total : (Nat ⊕ Nat) ⊕ Nat → R}
    (htotal : total = sdpaGradient exp g causal window scale q.at k.at v.at output.at logsumexp.at gradient.at) :
    ∃ dq dk dv, sdpaBackwardInto exp q k v output logsumexp gradient scale causal window w.dq w.dk w.dv w.dVec =
        .ok (dq, dk, dv) ∧
      (∀ i < q.shape.prod, dq.at i = total (.inl (.inl i))) ∧ (∀ i < k.shape.prod, dk.at i = total (.inl (.inr i))) ∧
        ∀ i < v.shape.prod, dv.at i = total (.inr i) := by
  have hrows : 0 + g.batchHeads * g.queryLen ≤ w.dVec.shape.prod := by rw [w.dVec_shape, h.rows, Nat.zero_add]
  have hdots : ∀ row < g.batchHeads * g.queryLen,
      sdpaDot output gradient g.valueDepth (row * g.valueDepth) (row * g.valueDepth) =
        .ok (sdpaRowDot g output.at gradient.at row) := fun row hrow =>
    sdpaDot_ok (fun _ hcolumn => h.output_ok hrow hcolumn) fun _ hcolumn => h.gradient_ok hrow hcolumn
  obtain ⟨dVec, hdVec, hd, -⟩ := Slice.writesRow hrows hdots w.dVec.elements
  simp only [Nat.zero_add] at hdVec hd
  obtain ⟨s, hloops, hcells⟩ := h.loops_add exp hd (Nat.le_of_eq (congrArg List.prod w.dq_shape.symm))
    (Nat.le_of_eq (congrArg List.prod w.dk_shape.symm)) (Nat.le_of_eq (congrArg List.prod w.dv_shape.symm)) scale causal window
    ((zeros, zeros), zeros)
  rw [← htotal] at hcells
  refine ⟨⟨w.dq.shape, s.1.1⟩, ⟨w.dk.shape, s.1.2⟩, ⟨w.dv.shape, s.2⟩, ?_, fun i hi => Dense.at_eq ?_,
    fun i hi => Dense.at_eq ?_, fun i hi => Dense.at_eq ?_⟩
  · unfold sdpaBackwardInto
    rw [hg, ok_bind]
    refine bind_ok.mpr ⟨(), rejectIf_ok.mpr (not_not_intro h.equal), bind_ok.mpr ⟨(), rejectIf_ok.mpr ?_, ?_⟩⟩
    · simp [h.expected, h.gradient_shape, sdpaOutputMatches_ok h.rank h.output_shape, h.logsumexp_shape]
    · simp only [Dense.writable_ok _ w.dVec_shape, Dense.writable_ok _ w.dq_shape, Dense.writable_ok _ w.dk_shape,
        Dense.writable_ok _ w.dv_shape, ok_bind, hdVec, hloops]
  · exact (hcells (.inl (.inl i))).trans (Adds.map_zero (zeros_get (hi.trans_eq (congrArg List.prod w.dq_shape.symm))) _)
  · exact (hcells (.inl (.inr i))).trans (Adds.map_zero (zeros_get (hi.trans_eq (congrArg List.prod w.dk_shape.symm))) _)
  · exact (hcells (.inr i)).trans (Adds.map_zero (zeros_get (hi.trans_eq (congrArg List.prod w.dv_shape.symm))) _)

end Backward

/-! ## Gradients -/

section Gradients

variable {g : SdpaGeometry} {causal : Bool} {window : Option Nat} {scale : ℝ}
  {q k v output logsumexp gradient : Nat → ℝ}
  {bh query key : Nat}

/-- The output, weighted by the upstream gradient. -/
noncomputable def sdpaLoss (g : SdpaGeometry) (causal : Bool) (window : Option Nat) (scale : ℝ) (gradient q k v : Nat → ℝ) :
    ℝ :=
  ∑ bh ∈ Finset.range g.batchHeads, ∑ query ∈ Finset.range g.queryLen, ∑ column ∈ Finset.range g.valueDepth,
    gradient ((bh * g.queryLen + query) * g.valueDepth + column) * sdpa g causal window Real.exp scale q k v bh query column

/-- The output and the logarithms are those of the forward pass. -/
structure SdpaSaved (g : SdpaGeometry) (causal : Bool) (window : Option Nat) (scale : ℝ) (q k v output logsumexp : Nat → ℝ) :
    Prop where
  kvBh : ∀ bh, g.kvBh bh = bh
  keys : ∀ query < g.queryLen, (g.keys causal window query).Nonempty
  output : ∀ bh < g.batchHeads, ∀ query < g.queryLen, ∀ column < g.valueDepth,
    output ((bh * g.queryLen + query) * g.valueDepth + column) = sdpa g causal window Real.exp scale q k v bh query column
  logsumexp : ∀ bh < g.batchHeads, ∀ query < g.queryLen,
    logsumexp (bh * g.queryLen + query) = sdpaLse g causal window Real.exp Real.log scale q k bh query

/-- The derivative of the loss, as the scores and the values move. -/
theorem SdpaSaved.hasDerivAt_loss (h : SdpaSaved g causal window scale q k v output logsumexp) (gradient : Nat → ℝ)
    {qt kt vt : ℝ → Nat → ℝ} {t : ℝ} (hq : qt t = q) (hk : kt t = k) (hv : vt t = v) {score' : Nat → Nat → Nat → ℝ}
    (hscore : ∀ bh query key, key < g.keyLen →
      HasDerivAt (fun t => sdpaScore g scale (qt t) (kt t) bh query key) (score' bh query key) t)
    {value' : Nat → Nat → Nat → ℝ} (hvalue : ∀ bh column key, column < g.valueDepth →
      HasDerivAt (fun t => sdpaValue g (vt t) bh column key) (value' bh column key) t) :
    HasDerivAt (fun t => sdpaLoss g causal window scale gradient (qt t) (kt t) (vt t))
      (∑ bh ∈ Finset.range g.batchHeads, ∑ query ∈ Finset.range g.queryLen, ∑ key ∈ g.keys causal window query,
        (sdpaProbability Real.exp g scale q k logsumexp bh query key *
          (∑ column ∈ Finset.range g.valueDepth, gradient ((bh * g.queryLen + query) * g.valueDepth + column) *
            v ((bh * g.keyLen + key) * g.valueDepth + column) - sdpaRowDot g output gradient (bh * g.queryLen + query)) *
          score' bh query key +
        ∑ column ∈ Finset.range g.valueDepth, sdpaProbability Real.exp g scale q k logsumexp bh query key *
          gradient ((bh * g.queryLen + query) * g.valueDepth + column) * value' bh column key)) t := by
  refine HasDerivAt.fun_sum fun bh hbh => HasDerivAt.fun_sum fun query hquery => ?_
  have hbh := Finset.mem_range.mp hbh
  have hquery := Finset.mem_range.mp hquery
  have hkey : ∀ key ∈ g.keys causal window query, key < g.keyLen := fun key hkey =>
    Finset.mem_range.mp (Finset.mem_filter.mp hkey).1
  refine (hasDerivAt_softmaxMeans (Finset.range g.valueDepth)
    (fun column => gradient ((bh * g.queryLen + query) * g.valueDepth + column)) (h.keys query hquery)
    (fun key hkeys => hscore bh query key (hkey key hkeys))
    fun column hcolumn key _ => hvalue bh column key (Finset.mem_range.mp hcolumn)).congr_deriv ?_
  have hdot : ∑ column ∈ Finset.range g.valueDepth, gradient ((bh * g.queryLen + query) * g.valueDepth + column) *
      softmaxMean Real.exp (g.keys causal window query) (sdpaScore g scale q k bh query) (sdpaValue g v bh column) =
        sdpaRowDot g output gradient (bh * g.queryLen + query) := by
    refine sum_congr rfl fun column hcolumn => ?_
    rw [h.output bh hbh query hquery column (Finset.mem_range.mp hcolumn), mul_comm]
    rfl
  refine sum_congr rfl fun key _ => ?_
  have hprobability : sdpaProbability Real.exp g scale q k logsumexp bh query key =
      Real.exp (sdpaScore g scale q k bh query key) /
        ∑ key ∈ g.keys causal window query, Real.exp (sdpaScore g scale q k bh query key) := by
    rw [sdpaProbability, h.logsumexp bh hbh query hquery]
    exact exp_sub_logSumExp real_logLaws (h.keys query hquery) _ _
  rw [hq, hk, hv, hdot, ← hprobability]
  simp only [sdpaValue, h.kvBh bh]

theorem hasDerivAt_sdpaScore_q (i : Nat) (t : ℝ) :
    HasDerivAt (fun t => sdpaScore g scale (Function.update q i t) k bh query key)
      ((∑ index ∈ Finset.range g.queryDepth, if (bh * g.queryLen + query) * g.queryDepth + index = i then
        k ((g.kvBh bh * g.keyLen + key) * g.queryDepth + index) else 0) * scale) t :=
  (hasDerivAt_dot _ ((bh * g.queryLen + query) * g.queryDepth + ·)
    (k <| (g.kvBh bh * g.keyLen + key) * g.queryDepth + ·) i t).mul_const scale

theorem hasDerivAt_sdpaScore_k (i : Nat) (t : ℝ) :
    HasDerivAt (fun t => sdpaScore g scale q (Function.update k i t) bh query key)
      ((∑ index ∈ Finset.range g.queryDepth, if (g.kvBh bh * g.keyLen + key) * g.queryDepth + index = i then
        q ((bh * g.queryLen + query) * g.queryDepth + index) else 0) * scale) t := by
  unfold sdpaScore
  simp only [mul_comm (q _)]
  exact (hasDerivAt_dot _ ((g.kvBh bh * g.keyLen + key) * g.queryDepth + ·)
    (q <| (bh * g.queryLen + query) * g.queryDepth + ·) i t).mul_const scale

theorem scaled_sum (x : ℝ) (depth : Nat) (place : Nat → Nat) (coefficient : Nat → ℝ) (i : Nat) :
    x * ((∑ index ∈ Finset.range depth, if place index = i then coefficient index else 0) * scale) =
      ∑ index ∈ Finset.range depth, if i = place index then x * scale * coefficient index else 0 := by
  rw [mul_comm _ scale, ← mul_assoc, mul_sum]
  refine sum_congr rfl fun index _ => ?_
  rw [mul_ite, mul_zero]
  exact if_congr eq_comm rfl rfl

/-- The sums of the backward pass are gradients. -/
theorem SdpaSaved.gradients (h : SdpaSaved g causal window scale q k v output logsumexp) (gradient : Nat → ℝ) (a b c : Nat)
    {total : (Nat ⊕ Nat) ⊕ Nat → ℝ}
    (htotal : total = sdpaGradient Real.exp g causal window scale q k v output logsumexp gradient) :
    IsGradient (fun q => sdpaLoss g causal window scale gradient q k v) q a (total <| .inl <| .inl ·) ∧
      IsGradient (fun k => sdpaLoss g causal window scale gradient q k v) k b (total <| .inl <| .inr ·) ∧
      IsGradient (fun v => sdpaLoss g causal window scale gradient q k v) v c (total <| .inr ·) := by
  subst htotal
  refine ⟨fun i _ => ?_, fun i _ => ?_, fun i _ => ?_⟩
  · refine (h.hasDerivAt_loss gradient (Function.update_eq_self i q) rfl rfl (fun _ _ _ _ => hasDerivAt_sdpaScore_q i (q i))
      fun _ _ _ _ => hasDerivAt_const _ _).congr_deriv ?_
    refine sum_congr rfl fun bh _ => sum_congr rfl fun query _ => sum_congr rfl fun key _ => ?_
    simp only [mul_zero, sum_const_zero, add_zero, h.kvBh bh]
    exact scaled_sum _ _ ((bh * g.queryLen + query) * g.queryDepth + ·) (k <| (bh * g.keyLen + key) * g.queryDepth + ·) i
  · refine (h.hasDerivAt_loss gradient rfl (Function.update_eq_self i k) rfl (fun _ _ _ _ => hasDerivAt_sdpaScore_k i (k i))
      fun _ _ _ _ => hasDerivAt_const _ _).congr_deriv ?_
    refine sum_congr rfl fun bh _ => sum_congr rfl fun query _ => sum_congr rfl fun key _ => ?_
    simp only [mul_zero, sum_const_zero, add_zero, h.kvBh bh]
    exact scaled_sum _ _ ((bh * g.keyLen + key) * g.queryDepth + ·) (q <| (bh * g.queryLen + query) * g.queryDepth + ·) i
  · refine (h.hasDerivAt_loss gradient rfl rfl (Function.update_eq_self i v) (fun _ _ _ _ => hasDerivAt_const _ _)
      fun _ _ _ _ => hasDerivAt_update v i _ (v i)).congr_deriv ?_
    refine sum_congr rfl fun bh _ => sum_congr rfl fun query _ => sum_congr rfl fun key _ => ?_
    simp only [mul_zero, zero_add, h.kvBh bh]
    refine sum_congr rfl fun column _ => ?_
    rw [mul_ite, mul_one, mul_zero]
    exact if_congr eq_comm rfl rfl

end Gradients

/-! ## Both passes -/

section Exact

variable {qs ks vs : List Nat} {g : SdpaGeometry} {causal : Bool} {window : Option Nat}

/-- The forward pass is the softmax of the scores of the keys of each query, applied to the values. Where
there are as many heads of keys and values as of queries, the backward pass returns the gradients; where
there are fewer, it is rejected. -/
theorem sdpa_exact (hg : sdpaGeometry qs ks vs = .ok g)
    (hkeys : ∀ query < g.queryLen, ∃ key < g.keyLen, sdpaAllowed query key g.queryLen g.keyLen causal window = true) :
    (∀ {R : Type} [Field R] [LinearOrder R] [IsStrictOrderedRing R] {exp ln : R → R}, LogLaws exp ln →
      ∀ (q k v : Dense R), q.shape = qs → k.shape = ks → v.shape = vs → ∀ (scale : R) (b : SdpaBuffers R qs g.valueDepth),
      ∃ output logsumexp, sdpaForwardInto exp ln q k v scale causal window b.output b.logsumexp = .ok (output, logsumexp) ∧
        ∀ bh < g.batchHeads, ∀ query < g.queryLen,
          (∀ column < g.valueDepth, output.at ((bh * g.queryLen + query) * g.valueDepth + column) =
            sdpa g causal window exp scale q.at k.at v.at bh query column) ∧
          logsumexp.at (bh * g.queryLen + query) = sdpaLse g causal window exp ln scale q.at k.at bh query) ∧
    (g.queryHeads = g.kvHeads → ∀ (q k v gradient : Dense ℝ), q.shape = qs → k.shape = ks → v.shape = vs →
      gradient.shape = qs.take (qs.length - 1) ++ [g.valueDepth] → gradient.shape.prod ≤ usizeMax →
      ∀ (scale : ℝ) (b : SdpaBuffers ℝ qs g.valueDepth) (w : SdpaGradientBuffers ℝ qs ks vs),
      ∃ output logsumexp dq dk dv,
        sdpaForwardInto Real.exp Real.log q k v scale causal window b.output b.logsumexp = .ok (output, logsumexp) ∧
        sdpaBackwardInto Real.exp q k v output logsumexp gradient scale causal window w.dq w.dk w.dv w.dVec =
          .ok (dq, dk, dv) ∧
        IsGradient (fun q => sdpaLoss g causal window scale gradient.at q k.at v.at) q.at qs.prod dq.at ∧
        IsGradient (fun k => sdpaLoss g causal window scale gradient.at q.at k v.at) k.at ks.prod dk.at ∧
        IsGradient (fun v => sdpaLoss g causal window scale gradient.at q.at k.at v) v.at vs.prod dv.at) ∧
    (g.queryHeads ≠ g.kvHeads → ∀ {R : Type} [Field R] (exp : R → R) (q k v output logsumexp gradient : Dense R) (scale : R)
      (dq dk dv dVec : Dense R), q.shape = qs → k.shape = ks → v.shape = vs →
      sdpaBackwardInto exp q k v output logsumexp gradient scale causal window dq dk dv dVec =
        fail "sdpa backward: grouped-query attention is not differentiable") := by
  have hnonempty : ∀ query < g.queryLen, (g.keys causal window query).Nonempty := fun query hquery => by
    obtain ⟨key, hkey, hallowed⟩ := hkeys query hquery
    exact ⟨key, Finset.mem_filter.mpr ⟨Finset.mem_range.mpr hkey, hallowed⟩⟩
  refine ⟨?_, ?_, ?_⟩
  · rintro R _ _ _ exp ln hexp q k v rfl rfl rfl scale b
    obtain ⟨output, logsumexp, hforward, -, -, hrows⟩ := sdpaForwardInto_mean hexp hg hnonempty scale b
    exact ⟨output, logsumexp, hforward, hrows⟩
  · rintro hequal q k v gradient rfl rfl rfl hgradient hfits scale b w
    obtain ⟨output, logsumexp, hforward, houtput, hlogsumexp, hrows⟩ :=
      sdpaForwardInto_mean real_logLaws hg hnonempty scale b
    have hshape := houtput.trans b.output_shape
    have hfit : SdpaGradientFit q k v output logsumexp gradient g :=
      ⟨sdpaGeometry_fits hg, hequal, hshape, hlogsumexp.trans b.logsumexp_shape, hgradient.trans hshape.symm,
        (hgradient.trans hshape.symm) ▸ hfits⟩
    have hsaved : SdpaSaved g causal window scale q.at k.at v.at output.at logsumexp.at :=
      ⟨hfit.kvBh, hnonempty, fun bh hbh query hquery => (hrows bh hbh query hquery).1,
        fun bh hbh query hquery => (hrows bh hbh query hquery).2⟩
    obtain ⟨dq, dk, dv, hbackward, hdq, hdk, hdv⟩ := sdpaBackwardInto_adds hg hfit scale causal window w rfl
    obtain ⟨hgq, hgk, hgv⟩ := hsaved.gradients gradient.at q.shape.prod k.shape.prod v.shape.prod rfl
    exact ⟨output, logsumexp, dq, dk, dv, hforward, hbackward, fun i hi => hdq i hi ▸ hgq i hi,
      fun i hi => hdk i hi ▸ hgk i hi, fun i hi => hdv i hi ▸ hgv i hi⟩
  · rintro hgrouped R _ exp q k v output logsumexp gradient scale dq dk dv dVec rfl rfl rfl
    unfold sdpaBackwardInto
    rw [hg, ok_bind, rejectIf, if_pos hgrouped]
    rfl

/-- Two queries, the first of which has one key. -/
theorem sdpa_exact_two :
    ∃ output logsumexp dq dk dv,
      sdpaForwardInto Real.exp Real.log ⟨[2, 1], [1, 2], rfl⟩ ⟨[2, 1], [3, 4], rfl⟩ ⟨[2, 1], [5, 6], rfl⟩ 1 true none
        ⟨[2, 1], [0, 0], rfl⟩ ⟨[2], [0, 0], rfl⟩ = .ok (output, logsumexp) ∧
      sdpaBackwardInto Real.exp ⟨[2, 1], [1, 2], rfl⟩ ⟨[2, 1], [3, 4], rfl⟩ ⟨[2, 1], [5, 6], rfl⟩ output logsumexp
        ⟨[2, 1], [1, 1], rfl⟩ 1 true none ⟨[2, 1], [9, 9], rfl⟩ ⟨[2, 1], [9, 9], rfl⟩ ⟨[2, 1], [9, 9], rfl⟩ ⟨[2], [9, 9], rfl⟩ =
          .ok (dq, dk, dv) ∧
      IsGradient (fun q => sdpaLoss ⟨1, 1, 1, 2, 2, 1, 1⟩ true none 1 (Dense.at ⟨[2, 1], [1, 1], rfl⟩) q
        (Dense.at ⟨[2, 1], [3, 4], rfl⟩) (Dense.at ⟨[2, 1], [5, 6], rfl⟩)) (Dense.at ⟨[2, 1], [1, 2], rfl⟩) 2 dq.at := by
  have hg : sdpaGeometry [2, 1] [2, 1] [2, 1] = .ok ⟨1, 1, 1, 2, 2, 1, 1⟩ := rfl
  have hkeys : ∀ query < 2, ∃ key < 2, sdpaAllowed query key 2 2 true none = true := by decide
  obtain ⟨output, logsumexp, dq, dk, dv, hforward, hbackward, hdq, -, -⟩ := (sdpa_exact hg hkeys).2.1 rfl ⟨[2, 1], [1, 2], rfl⟩
    ⟨[2, 1], [3, 4], rfl⟩ ⟨[2, 1], [5, 6], rfl⟩ ⟨[2, 1], [1, 1], rfl⟩ rfl rfl rfl rfl (by decide) 1
    ⟨⟨[2, 1], [0, 0], rfl⟩, ⟨[2], [0, 0], rfl⟩, rfl, rfl⟩
    ⟨⟨[2, 1], [9, 9], rfl⟩, ⟨[2, 1], [9, 9], rfl⟩, ⟨[2, 1], [9, 9], rfl⟩, ⟨[2], [9, 9], rfl⟩, rfl, rfl, rfl, rfl⟩
  exact ⟨output, logsumexp, dq, dk, dv, hforward, hbackward, hdq⟩

/-- Two heads of queries share one head of keys and values: there is no backward pass. -/
theorem sdpaBackwardInto_grouped :
    sdpaGeometry [2, 1, 1] [1, 1, 1] [1, 1, 1] = .ok ⟨1, 2, 1, 1, 1, 1, 1⟩ ∧
    (∀ query < 1, ∃ key < 1, sdpaAllowed query key 1 1 false none = true) ∧
    ∀ (output logsumexp gradient dq dk dv dVec : Dense ℝ) (out : Dense ℝ × Dense ℝ × Dense ℝ),
      sdpaBackwardInto Real.exp ⟨[2, 1, 1], [1, 1], rfl⟩ ⟨[1, 1, 1], [1], rfl⟩ ⟨[1, 1, 1], [1], rfl⟩ output logsumexp gradient 1
        false none dq dk dv dVec ≠ .ok out := by
  refine ⟨rfl, by decide, fun output logsumexp gradient dq dk dv dVec out h => ?_⟩
  exact nomatch h

end Exact

end EffectTorch
