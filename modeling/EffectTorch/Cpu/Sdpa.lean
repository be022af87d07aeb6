import EffectTorch.Cpu.CrossEntropy
import EffectTorch.Lib.OnlineSoftmax

/-!
# Scaled dot-product attention

`sdpa_forward_into` of `runtime-cpu/src/composed.rs`. The keys of a query come one by one; the output is
rescaled whenever a key has the largest score so far. Arithmetic is exact, and the elements of all
tensors have one type. Where a query has no key the source leaves not-a-numbers, and the model zeros.

Results:
1. `sdpaGeometry_fits`: the sizes of the tensors.
2. `sdpaForwardInto_mean`: the output is a softmax mean, and the other output the logarithm of its sum.
-/

namespace EffectTorch
open List Lib

variable {R : Type}

/-! ## Geometry -/

structure SdpaGeometry where
  batch : Nat
  queryHeads : Nat
  kvHeads : Nat
  queryLen : Nat
  keyLen : Nat
  queryDepth : Nat
  valueDepth : Nat

/-- `batch_heads`. -/
def SdpaGeometry.batchHeads (g : SdpaGeometry) : Nat := g.batch * g.queryHeads

/-- The batch and the heads of `sdpa_geometry`. -/
def sdpaHeads (q k v : List Nat) : Fallible String (Nat × Nat × Nat) := do
  let r := q.length
  if r < 3 then .ok (1, 1, 1)
  else
    let queryHeads ← dimension q (r - 3)
    let kvHeads ← dimension k (r - 3)
    let valueHeads ← dimension v (r - 3)
    rejectIf (valueHeads ≠ kvHeads ∨ kvHeads = 0 ∨ queryHeads % kvHeads ≠ 0)
      "sdpa: query heads must be divisible by matching K/V heads"
    let batch ← okOr ((q.take (r - 3)).foldlM checkedMul 1) "sdpa batch: element count overflow"
    .ok (batch, queryHeads, kvHeads)

/-- `sdpa_geometry`, over the shapes. -/
def sdpaGeometry (q k v : List Nat) : Fallible String SdpaGeometry := do
  let r := q.length
  rejectIf (r < 2 ∨ k.length ≠ r ∨ v.length ≠ r) "sdpa: q/k/v must have matching rank >= 2"
  let leading := if r < 3 then r - 2 else r - 3
  rejectIf (q.take leading ≠ k.take leading ∨ q.take leading ≠ v.take leading) "sdpa: q/k/v leading dimensions must match"
  let (batch, queryHeads, kvHeads) ← sdpaHeads q k v
  let t ← dimension q (r - 2)
  let s ← dimension k (r - 2)
  let d ← dimension q (r - 1)
  let kd ← dimension k (r - 1)
  let vs ← dimension v (r - 2)
  let dv ← dimension v (r - 1)
  rejectIf (d ≠ kd ∨ s ≠ vs ∨ t = 0 ∨ s = 0 ∨ d = 0 ∨ dv = 0) "sdpa: incompatible or zero-sized q/k/v dimensions"
  .ok ⟨batch, queryHeads, kvHeads, t, s, d, dv⟩

/-- What the kernels need of the shapes. -/
structure SdpaFit (q k v : List Nat) (g : SdpaGeometry) : Prop where
  rank : 0 < q.length
  rows : (q.take (q.length - 1)).prod = g.batchHeads * g.queryLen
  queries : q.prod = g.batchHeads * g.queryLen * g.queryDepth
  keys : k.prod = g.batch * g.kvHeads * g.keyLen * g.queryDepth
  values : v.prod = g.batch * g.kvHeads * g.keyLen * g.valueDepth
  heads : 0 < g.kvHeads
  divides : g.kvHeads ∣ g.queryHeads
  queryLen : 0 < g.queryLen
  valueDepth : 0 < g.valueDepth

section Geometry

variable {q k v : List Nat} {g : SdpaGeometry}

theorem foldlM_checkedMul_some {l : List Nat} {start count : Nat} (h : l.foldlM checkedMul start = some count) :
    count = start * l.prod := by
  induction l generalizing start with
  | nil =>
    cases h
    rw [prod_nil, Nat.mul_one]
  | cons a l ih =>
    obtain ⟨next, hnext, hrest⟩ := Option.bind_eq_some_iff.mp (foldlM_cons.symm.trans h)
    rw [ih hrest, (checkedMul_some.mp hnext).2, prod_cons, Nat.mul_assoc]

theorem dimension_ok {shape : List Nat} {index a : Nat} : dimension shape index = .ok a ↔ shape[index]? = some a :=
  expect_ok

theorem prod_take_dimension {shape : List Nat} {index a : Nat} (h : dimension shape index = .ok a) :
    (shape.take (index + 1)).prod = (shape.take index).prod * a := by
  rw [take_add_one, dimension_ok.mp h, prod_append]
  exact congrArg (_ * ·) prod_singleton

/-- The product of a shape, by its last two dimensions. -/
theorem prod_dimensions {shape : List Nat} {r a b : Nat} (hr : shape.length = r + 2)
    (ha : dimension shape r = .ok a) (hb : dimension shape (r + 1) = .ok b) :
    (shape.take (r + 1)).prod = (shape.take r).prod * a ∧ shape.prod = (shape.take r).prod * a * b := by
  have hall : shape.take (r + 1 + 1) = shape := take_of_length_le (Nat.le_of_eq hr)
  refine ⟨prod_take_dimension ha, ?_⟩
  rw [← prod_take_dimension ha, ← prod_take_dimension hb, hall]

/-- What `sdpaHeads` returns, for leading dimensions that agree. -/
theorem sdpaHeads_ok {r batch queryHeads kvHeads : Nat} (hq : q.length = r + 2) (hk : k.length = r + 2)
    (hv : v.length = r + 2)
    (hleading : q.take (r - 1) = k.take (r - 1) ∧ q.take (r - 1) = v.take (r - 1))
    (h : sdpaHeads q k v = .ok (batch, queryHeads, kvHeads)) :
    (q.take r).prod = batch * queryHeads ∧ (k.take r).prod = batch * kvHeads ∧ (v.take r).prod = batch * kvHeads ∧
      0 < kvHeads ∧ kvHeads ∣ queryHeads := by
  unfold sdpaHeads at h
  rw [hq] at h
  cases r with
  | zero =>
    cases h
    exact ⟨rfl, rfl, rfl, Nat.one_pos, dvd_rfl⟩
  | succ r =>
    -- there is a dimension of heads before the last two
    rw [Nat.add_sub_cancel] at hleading
    have hat : r + 1 + 2 - 3 = r := rfl
    simp only [hat] at h
    rw [if_neg (by omega)] at h
    obtain ⟨qh, hqh, h⟩ := bind_ok.mp h
    obtain ⟨kvh, hkvh, h⟩ := bind_ok.mp h
    obtain ⟨vh, hvh, h⟩ := bind_ok.mp h
    obtain ⟨_, hheads, h⟩ := bind_ok.mp h
    obtain ⟨count, hcount, h⟩ := bind_ok.mp h
    cases h
    have hheads := rejectIf_ok.mp hheads
    simp only [not_or, not_not] at hheads
    obtain ⟨rfl, hpos, hdivides⟩ := hheads
    have hbatch : (q.take r).prod = batch := by
      have hfold := okOr_ok.mp hcount
      rw [foldlM_checkedMul_some hfold, Nat.one_mul]
    rw [prod_take_dimension hqh, prod_take_dimension hkvh, prod_take_dimension hvh, ← hleading.1, ← hleading.2, hbatch]
    exact ⟨rfl, rfl, rfl, Nat.pos_of_ne_zero hpos, Nat.dvd_of_mod_eq_zero hdivides⟩

/-- The sizes of the tensors. -/
theorem sdpaGeometry_fits (h : sdpaGeometry q k v = .ok g) : SdpaFit q k v g := by
  unfold sdpaGeometry at h
  obtain ⟨_, hrank, h⟩ := bind_ok.mp h
  obtain ⟨_, hleading, h⟩ := bind_ok.mp h
  obtain ⟨⟨batch, queryHeads, kvHeads⟩, hheads, h⟩ := bind_ok.mp h
  obtain ⟨t, ht, h⟩ := bind_ok.mp h
  obtain ⟨s, hs, h⟩ := bind_ok.mp h
  obtain ⟨d, hd, h⟩ := bind_ok.mp h
  obtain ⟨kd, hkd, h⟩ := bind_ok.mp h
  obtain ⟨vs, hvs, h⟩ := bind_ok.mp h
  obtain ⟨dv, hdv, h⟩ := bind_ok.mp h
  obtain ⟨_, hdims, h⟩ := bind_ok.mp h
  cases h
  have hrank := rejectIf_ok.mp hrank
  have hdims := rejectIf_ok.mp hdims
  have hleading := rejectIf_ok.mp hleading
  simp only [not_or, not_not, Nat.not_lt] at hrank hdims hleading
  obtain ⟨hq, hk, hv⟩ := hrank
  obtain ⟨rfl, rfl, ht0, -, -, hdv0⟩ := hdims
  obtain ⟨r, hr⟩ : ∃ r, q.length = r + 2 := ⟨q.length - 2, (Nat.sub_add_cancel hq).symm⟩
  rw [hr] at hk hv hleading ht hs hd hkd hvs hdv
  have hlead : (if r + 2 < 3 then r + 2 - 2 else r + 2 - 3) = r - 1 := by
    cases r with
    | zero => rfl
    | succ r => exact if_neg (by omega)
  rw [hlead] at hleading
  obtain ⟨hqp, hkp, hvp, hpos, hdivides⟩ := sdpaHeads_ok hr hk hv hleading hheads
  obtain ⟨hrows, hqueries⟩ := prod_dimensions hr ht hd
  obtain ⟨-, hkeys⟩ := prod_dimensions hk hs hkd
  obtain ⟨-, hvalues⟩ := prod_dimensions hv hvs hdv
  rw [hqp] at hrows hqueries
  rw [hkp] at hkeys
  rw [hvp] at hvalues
  exact ⟨by omega, hr ▸ hrows, hqueries, hkeys, hvalues, hpos, hdivides, Nat.pos_of_ne_zero ht0,
    Nat.pos_of_ne_zero hdv0⟩

end Geometry

/-! ## The mask -/

/-- `sdpa_allowed`. -/
def sdpaAllowed (query key queryLen keyLen : Nat) (causal : Bool) (window : Option Nat) : Bool :=
  if !causal then true
  else
    let last := query + (keyLen - queryLen)
    decide (key ≤ last) && window.all fun window => decide (last + 1 - window ≤ key)

/-! ## The forward kernel -/

section Kernel

variable [Field R]

/-- A loop that adds up products; that of `score`, for a query and a key. -/
def sdpaDot (q k : Dense R) (depth qBase kBase : Nat) : Fallible String R :=
  (List.range depth).foldlM (fun score index => do
    let a ← q.element (qBase + index)
    let b ← k.element (kBase + index)
    .ok (score + a * b)) 0

variable [LinearOrder R] (exp ln : R → R)

/-- What the loop over the keys of a row carries; `maximum` is none for minus infinity. -/
structure SdpaRow (R : Type) (n : Nat) where
  out : Slice R n
  maximum : Option R
  denominator : R

/-- The loop over the columns of the output, for one key. -/
def sdpaRescale {n : Nat} (v : Dense R) (valueDepth outputBase vBase : Nat) (previousScale weight : R) (out : Slice R n) :
    Fallible String (Slice R n) :=
  (List.range valueDepth).foldlM (fun out valueIndex => do
    let old ← out.read (outputBase + valueIndex)
    let value ← v.element (vBase + valueIndex)
    out.write (outputBase + valueIndex) (old * previousScale + weight * value)) out

/-- One turn of the loop over the keys. -/
def sdpaKeyTurn {n : Nat} (q k v : Dense R) (g : SdpaGeometry) (scale : R) (causal : Bool) (window : Option Nat)
    (kvBh query row : Nat) (s : SdpaRow R n) (key : Nat) : Fallible String (SdpaRow R n) := do
  if !sdpaAllowed query key g.queryLen g.keyLen causal window then .ok s
  else
    let dot ← sdpaDot q k g.queryDepth (row * g.queryDepth) ((kvBh * g.keyLen + key) * g.queryDepth)
    let score := dot * scale
    let next := nextMaximum s.maximum score
    let previous := previousScale exp s.maximum next
    let weight := exp (score - next)
    let out ← sdpaRescale v g.valueDepth (row * g.valueDepth) ((kvBh * g.keyLen + key) * g.valueDepth) previous weight s.out
    .ok ⟨out, some next, s.denominator * previous + weight⟩

/-- The head of keys and values of a head of queries. -/
def SdpaGeometry.kvBh (g : SdpaGeometry) (bh : Nat) : Nat :=
  let batch := bh / g.queryHeads
  let queryHead := bh % g.queryHeads
  batch * g.kvHeads + queryHead / (g.queryHeads / g.kvHeads)

/-- The turn of a row. -/
def sdpaRowTurn {n m : Nat} (q k v : Dense R) (g : SdpaGeometry) (scale : R) (causal : Bool) (window : Option Nat)
    (bh : Nat) (s : Slice R n × Slice R m) (query : Nat) : Fallible String (Slice R n × Slice R m) := do
  let row := bh * g.queryLen + query
  let outputBase := row * g.valueDepth
  let out ← (List.range g.valueDepth).foldlM (fun out valueIndex => out.write (outputBase + valueIndex) 0) s.1
  let t ← (List.range g.keyLen).foldlM (sdpaKeyTurn exp q k v g scale causal window (g.kvBh bh) query row) ⟨out, none, 0⟩
  let out ← (List.range g.valueDepth).foldlM (fun out valueIndex => do
    let value ← out.read (outputBase + valueIndex)
    out.write (outputBase + valueIndex) (value / t.denominator)) t.out
  let lse ← s.2.write row (t.maximum.getD 0 + ln t.denominator)
  .ok (out, lse)

/-- The shape of the output is that of the queries, but for the last dimension. -/
def sdpaOutputMatches (output q : List Nat) (valueDepth : Nat) : Bool :=
  output.length == q.length && output.take (output.length - 1) == q.take (q.length - 1) &&
    output[output.length - 1]? == some valueDepth

/-- `sdpa_forward_into`: the output and the logarithms of the sums. -/
def sdpaForwardInto (q k v : Dense R) (scale : R) (causal : Bool) (window : Option Nat) (output logsumexp : Dense R) :
    Fallible String (Dense R × Dense R) := do
  let g ← sdpaGeometry q.shape k.shape v.shape
  rejectIf (!sdpaOutputMatches output.shape q.shape g.valueDepth) "sdpa: output shape mismatch"
  let lse ← logsumexp.writable "sdpa logsumexp" (q.shape.take (q.shape.length - 1))
  let (out, lse) ← (List.range g.batchHeads).foldlM (fun s bh =>
    (List.range g.queryLen).foldlM (sdpaRowTurn exp ln q k v g scale causal window bh) s) (output.elements, lse)
  .ok (⟨output.shape, out⟩, ⟨logsumexp.shape, lse⟩)

end Kernel

/-! ## What attention is -/

section Attention

variable (g : SdpaGeometry) (causal : Bool) (window : Option Nat)

/-- The keys of a query. -/
def SdpaGeometry.keys (query : Nat) : Finset Nat :=
  {key ∈ Finset.range g.keyLen | sdpaAllowed query key g.queryLen g.keyLen causal window = true}

variable [Field R]

def sdpaScore (scale : R) (q k : Nat → R) (bh query key : Nat) : R :=
  (∑ depth ∈ Finset.range g.queryDepth, q ((bh * g.queryLen + query) * g.queryDepth + depth) *
    k ((g.kvBh bh * g.keyLen + key) * g.queryDepth + depth)) * scale

/-- A column of the values. -/
def sdpaValue (v : Nat → R) (bh column key : Nat) : R := v ((g.kvBh bh * g.keyLen + key) * g.valueDepth + column)

/-- The softmax of the scores of the keys of a query, applied to the values. -/
def sdpa (exp : R → R) (scale : R) (q k v : Nat → R) (bh query column : Nat) : R :=
  softmaxMean exp (g.keys causal window query) (sdpaScore g scale q k bh query) (sdpaValue g v bh column)

/-- The logarithm of the sum of the exponentials of the scores. -/
def sdpaLse (exp ln : R → R) (scale : R) (q k : Nat → R) (bh query : Nat) : R :=
  ln (∑ key ∈ g.keys causal window query, exp (sdpaScore g scale q k bh query key))

end Attention

/-! ## The rows -/

section Rows

variable [Field R] {q k v : Dense R} {g : SdpaGeometry} {bh query key : Nat}

omit [Field R] in
theorem SdpaFit.kvBh_lt (h : SdpaFit q.shape k.shape v.shape g) (hbh : bh < g.batchHeads) :
    g.kvBh bh < g.batch * g.kvHeads := by
  have hheads : 0 < g.queryHeads := Nat.pos_of_ne_zero fun hzero => by simp [SdpaGeometry.batchHeads, hzero] at hbh
  refine row_lt (Nat.div_lt_of_lt_mul (Nat.mul_comm .. ▸ hbh)) (Nat.div_lt_of_lt_mul ?_)
  rw [Nat.div_mul_cancel h.divides]
  exact Nat.mod_lt _ hheads

theorem sdpaDot_ok {a b : Dense R} {depth aBase bBase : Nat}
    (ha : ∀ index < depth, a.element (aBase + index) = .ok (a.at (aBase + index)))
    (hb : ∀ index < depth, b.element (bBase + index) = .ok (b.at (bBase + index))) :
    sdpaDot a b depth aBase bBase = .ok (∑ index ∈ Finset.range depth, a.at (aBase + index) * b.at (bBase + index)) := by
  have hturn : ∀ index ∈ List.range depth, ∀ score : R, (do
      let x ← a.element (aBase + index)
      let y ← b.element (bBase + index)
      .ok (score + x * y) : Fallible String R) = .ok (score + a.at (aBase + index) * b.at (bBase + index)) := by
    intro index hindex score
    have hlt := mem_range.mp hindex
    rw [ha index hlt, ok_bind, hb index hlt, ok_bind]
  refine (sum_loop hturn 0).trans (congrArg Except.ok ?_)
  rw [zero_add]
  rfl

section Elements

variable (h : SdpaFit q.shape k.shape v.shape g) (hbh : bh < g.batchHeads)
include h hbh

theorem SdpaFit.query_ok (hquery : query < g.queryLen) {depth : Nat} (hdepth : depth < g.queryDepth) :
    q.element ((bh * g.queryLen + query) * g.queryDepth + depth) =
      .ok (q.at ((bh * g.queryLen + query) * g.queryDepth + depth)) :=
  Dense.element_ok (h.queries ▸ row_lt (row_lt hbh hquery) hdepth)

theorem SdpaFit.key_ok (hkey : key < g.keyLen) {depth : Nat} (hdepth : depth < g.queryDepth) :
    k.element ((g.kvBh bh * g.keyLen + key) * g.queryDepth + depth) =
      .ok (k.at ((g.kvBh bh * g.keyLen + key) * g.queryDepth + depth)) :=
  Dense.element_ok (h.keys ▸ row_lt (row_lt (h.kvBh_lt hbh) hkey) hdepth)

theorem SdpaFit.value_ok (hkey : key < g.keyLen) {column : Nat} (hcolumn : column < g.valueDepth) :
    v.element ((g.kvBh bh * g.keyLen + key) * g.valueDepth + column) = .ok (sdpaValue g v.at bh column key) :=
  Dense.element_ok (h.values ▸ row_lt (row_lt (h.kvBh_lt hbh) hkey) hcolumn)

theorem SdpaFit.dot_ok (hquery : query < g.queryLen) (hkey : key < g.keyLen) (scale : R) :
    ∃ dot, sdpaDot q k g.queryDepth ((bh * g.queryLen + query) * g.queryDepth)
        ((g.kvBh bh * g.keyLen + key) * g.queryDepth) = .ok dot ∧ dot * scale = sdpaScore g scale q.at k.at bh query key :=
  ⟨_, sdpaDot_ok (fun _ hdepth => h.query_ok hbh hquery hdepth) fun _ hdepth => h.key_ok hbh hkey hdepth, rfl⟩

/-- One key rescales a row and adds its values. -/
theorem SdpaFit.rescale_changes (hkey : key < g.keyLen) {n base : Nat} (hbase : base + g.valueDepth ≤ n)
    (previous weight : R) :
    Slice.ChangesRow (n := n) base g.valueDepth (fun column a => a * previous + weight * sdpaValue g v.at bh column key)
      (sdpaRescale v g.valueDepth base ((g.kvBh bh * g.keyLen + key) * g.valueDepth) previous weight) := by
  have hcolumns : ∀ column < g.valueDepth, Updates (Slice.get? (n := n))
      (fun i a => if i = base + column then a * previous + weight * sdpaValue g v.at bh column key else a) fun out => (do
        let old ← out.read (base + column)
        let value ← v.element ((g.kvBh bh * g.keyLen + key) * g.valueDepth + column)
        out.write (base + column) (old * previous + weight * value) : Fallible String (Slice R n)) := by
    intro column hcolumn
    simp only [h.value_ok hbh hkey hcolumn, ok_bind]
    exact Slice.updates_modify (Nat.lt_of_lt_of_le (Nat.add_lt_add_left hcolumn base) hbase) _
  exact Slice.changesRow hcolumns

end Elements

end Rows

/-! ## The forward pass -/

section Forward

variable [Field R] [LinearOrder R] {exp ln : R → R} {q k v : Dense R} {g : SdpaGeometry}
  {bh query key n m : Nat}
  {scale : R} {causal : Bool} {window : Option Nat}

/-- Before the turn of a key the row holds the sums over the keys before it. -/
structure RowStreams (exp : R → R) (g : SdpaGeometry) (scale : R) (q k v : Nat → R) (bh query base : Nat) (out : Slice R n)
    (keys : Finset Nat) (s : SdpaRow R n) : Prop where
  denominator : Streams exp keys (sdpaScore g scale q k bh query) 1 s.maximum s.denominator
  columns : ∀ column < g.valueDepth, ∃ total, s.out.get? (base + column) = some total ∧
    Streams exp keys (sdpaScore g scale q k bh query) (sdpaValue g v bh column) s.maximum total
  kept : ∀ i, i < base ∨ base + g.valueDepth ≤ i → s.out.get? i = out.get? i

/-- The turn of a key. -/
theorem SdpaFit.keyTurn_ok (h : SdpaFit q.shape k.shape v.shape g) (hexp : ExpLaws exp) (hbh : bh < g.batchHeads)
    (hquery : query < g.queryLen) (hkey : key < g.keyLen) {base : Nat}
    (hbase : base = (bh * g.queryLen + query) * g.valueDepth) (hn : base + g.valueDepth ≤ n) {out : Slice R n}
    {s : SdpaRow R n}
    (hs : RowStreams exp g scale q.at k.at v.at bh query base out
      {key' ∈ Finset.range key | sdpaAllowed query key' g.queryLen g.keyLen causal window = true} s) :
    ∃ s', sdpaKeyTurn exp q k v g scale causal window (g.kvBh bh) query (bh * g.queryLen + query) s key = .ok s' ∧
      RowStreams exp g scale q.at k.at v.at bh query base out
        {key' ∈ Finset.range (key + 1) | sdpaAllowed query key' g.queryLen g.keyLen causal window = true} s' := by
  unfold sdpaKeyTurn
  rw [Finset.range_add_one, Finset.filter_insert]
  by_cases hallowed : sdpaAllowed query key g.queryLen g.keyLen causal window = true
  · rw [hallowed, if_pos rfl, ← hbase]
    obtain ⟨dot, hdot, hscore⟩ := h.dot_ok hbh hquery hkey scale
    obtain ⟨next, hnext⟩ : ∃ next, nextMaximum s.maximum (sdpaScore g scale q.at k.at bh query key) = next := ⟨_, rfl⟩
    obtain ⟨out', hrescale, hin, hkept⟩ := h.rescale_changes hbh hkey hn (previousScale exp s.maximum next)
      (exp (sdpaScore g scale q.at k.at bh query key - next)) s.out
    have hnew : key ∉ ({key' ∈ Finset.range key | sdpaAllowed query key' g.queryLen g.keyLen causal window = true} :
        Finset Nat) := fun hmem => Finset.notMem_range_self (Finset.mem_filter.mp hmem).1
    refine ⟨⟨out', some next, s.denominator * previousScale exp s.maximum next +
      exp (sdpaScore g scale q.at k.at bh query key - next)⟩, ?_, ?_, fun column hcolumn => ?_, fun i hi => ?_⟩
    · simp only [Bool.not_true, Bool.false_eq_true, if_false, hdot, ok_bind, hscore, hnext, hrescale]
    · have hturn := hs.denominator.turn hexp hnew
      rwa [Pi.one_apply, mul_one, hnext] at hturn
    · obtain ⟨total, htotal, hstreams⟩ := hs.columns column hcolumn
      refine ⟨_, ?_, hnext ▸ hstreams.turn hexp hnew⟩
      rw [hin column hcolumn, htotal, Option.map_some]
    · rw [hkept i hi, hs.kept i hi]
  · rw [if_neg hallowed]
    refine ⟨s, ?_, hs⟩
    rw [Bool.not_eq_true _ |>.mp hallowed]
    rfl

/-- What the rows before `row` hold. -/
def RowsDone (exp ln : R → R) (g : SdpaGeometry) (scale : R) (causal : Bool) (window : Option Nat) (q k v : Nat → R)
    (row : Nat) (s : Slice R n × Slice R m) : Prop :=
  ∀ bh < g.batchHeads, ∀ query < g.queryLen, bh * g.queryLen + query < row →
    (∀ column < g.valueDepth, s.1.get? ((bh * g.queryLen + query) * g.valueDepth + column) =
      some (sdpa g causal window exp scale q k v bh query column)) ∧
    s.2.get? (bh * g.queryLen + query) = some (sdpaLse g causal window exp ln scale q k bh query)

variable [IsStrictOrderedRing R]

/-- The turn of a row. -/
theorem SdpaFit.rowTurn_ok (h : SdpaFit q.shape k.shape v.shape g) (hexp : LogLaws exp ln) (hbh : bh < g.batchHeads)
    (hquery : query < g.queryLen) (hkeys : (g.keys causal window query).Nonempty)
    (hn : g.batchHeads * g.queryLen * g.valueDepth ≤ n) (hm : g.batchHeads * g.queryLen ≤ m) {s : Slice R n × Slice R m}
    (hs : RowsDone exp ln g scale causal window q.at k.at v.at (bh * g.queryLen + query) s) :
    ∃ s', sdpaRowTurn exp ln q k v g scale causal window bh s query = .ok s' ∧
      RowsDone exp ln g scale causal window q.at k.at v.at (bh * g.queryLen + query + 1) s' := by
  have hrow := row_lt hbh hquery
  obtain ⟨base, hbase⟩ : ∃ base, base = (bh * g.queryLen + query) * g.valueDepth := ⟨_, rfl⟩
  have hroom : base + g.valueDepth ≤ n := Nat.le_trans (hbase ▸ row_le hrow) hn
  have hfilled : ∀ column < g.valueDepth, (Except.ok 0 : Fallible String R) = .ok 0 := fun _ _ => rfl
  obtain ⟨out, hfill, hzero, hkept⟩ := Slice.writesRow hroom hfilled s.1
  have hstart : RowStreams exp g scale q.at k.at v.at bh query base s.1
      {key ∈ Finset.range 0 | sdpaAllowed query key g.queryLen g.keyLen causal window = true} ⟨out, none, 0⟩ :=
    ⟨Streams.start, fun column hcolumn => ⟨0, hzero column hcolumn, Streams.start⟩, hkept⟩
  obtain ⟨t, hrun, ht⟩ := rangeLoop_total (fun key (t : SdpaRow R n) => RowStreams exp g scale q.at k.at v.at bh query base
    s.1 {key' ∈ Finset.range key | sdpaAllowed query key' g.queryLen g.keyLen causal window = true} t)
    (fun key hkey t ht => h.keyTurn_ok hexp.toExpLaws hbh hquery hkey hbase hroom ht) hstart
  obtain ⟨maximum, hmaximum⟩ := ht.denominator.isSome hkeys
  have hdivided : ∀ column < g.valueDepth, Updates (Slice.get? (n := n))
      (fun i a => if i = base + column then a / t.denominator else a) fun out => (do
        let value ← out.read (base + column)
        out.write (base + column) (value / t.denominator) : Fallible String (Slice R n)) := fun column hcolumn =>
    Slice.updates_modify (Nat.lt_of_lt_of_le (Nat.add_lt_add_left hcolumn base) hroom) (· / t.denominator)
  obtain ⟨out', hdivide, hin, hout⟩ := Slice.changesRow hdivided t.out
  obtain ⟨lse, hlse, hnew, hold⟩ := s.2.exists_write (ε := String) (Nat.lt_of_lt_of_le hrow hm)
    (t.maximum.getD 0 + ln t.denominator)
  refine ⟨(out', lse), ?_, fun bh' hbh' query' hquery' hlt => ?_⟩
  · simp only [ok_bind] at hfill
    unfold sdpaRowTurn
    simp only [← hbase, hfill, ok_bind, hrun, hdivide, hlse]
  · rcases Nat.lt_succ_iff_lt_or_eq.mp hlt with hlt | heq
    · obtain ⟨hcolumns, hsum⟩ := hs bh' hbh' query' hquery' hlt
      refine ⟨fun column hcolumn => ?_, (hold _ (Nat.ne_of_lt hlt)).trans hsum⟩
      have hbefore : (bh' * g.queryLen + query') * g.valueDepth + column < base := hbase ▸ row_lt hlt hcolumn
      exact (hout _ (.inl hbefore)).trans ((ht.kept _ (.inl hbefore)).trans (hcolumns column hcolumn))
    · -- the row of this turn
      obtain ⟨rfl, rfl⟩ := (place_inj hquery' hquery).mp heq
      have hdenominator := ht.denominator
      rw [hmaximum] at hnew hdenominator
      refine ⟨fun column hcolumn => ?_, hnew.trans (congrArg some (hdenominator.logSumExp hexp))⟩
      obtain ⟨total, htotal, hstreams⟩ := ht.columns column hcolumn
      rw [hmaximum] at hstreams
      rw [← hbase, hin column hcolumn, htotal]
      exact congrArg some (hstreams.mean hexp.toExpLaws hdenominator)

/-- The loops over the rows. -/
theorem SdpaFit.rows_ok (h : SdpaFit q.shape k.shape v.shape g) (hexp : LogLaws exp ln)
    (hkeys : ∀ query < g.queryLen, (g.keys causal window query).Nonempty)
    (scale : R) (hn : g.batchHeads * g.queryLen * g.valueDepth ≤ n) (hm : g.batchHeads * g.queryLen ≤ m)
    (s : Slice R n × Slice R m) :
    ∃ s', (List.range g.batchHeads).foldlM (fun s bh =>
        (List.range g.queryLen).foldlM (sdpaRowTurn exp ln q k v g scale causal window bh) s) s = .ok s' ∧
      RowsDone exp ln g scale causal window q.at k.at v.at (g.batchHeads * g.queryLen) s' := by
  refine rangeLoop_total (fun bh (s : Slice R n × Slice R m) =>
    RowsDone exp ln g scale causal window q.at k.at v.at (bh * g.queryLen) s) (fun bh hbh s hs => ?_)
    fun bh _ query _ hlt => absurd hlt (by simp)
  obtain ⟨s', hrun, hs'⟩ := rangeLoop_total (fun query (s : Slice R n × Slice R m) =>
    RowsDone exp ln g scale causal window q.at k.at v.at (bh * g.queryLen + query) s)
    (fun query hquery s hs => h.rowTurn_ok hexp hbh hquery (hkeys query hquery) hn hm hs) hs
  exact ⟨s', hrun, by rwa [Nat.succ_mul]⟩

/-- What the forward pass writes. -/
structure SdpaBuffers (R : Type) (q : List Nat) (valueDepth : Nat) where
  output : Dense R
  logsumexp : Dense R
  output_shape : output.shape = q.take (q.length - 1) ++ [valueDepth]
  logsumexp_shape : logsumexp.shape = q.take (q.length - 1)

omit [LinearOrder R] [IsStrictOrderedRing R] [Field R] in
theorem sdpaOutputMatches_ok {output shape : List Nat} {valueDepth : Nat} (hrank : 0 < shape.length)
    (h : output = shape.take (shape.length - 1) ++ [valueDepth]) : sdpaOutputMatches output shape valueDepth = true := by
  have hlength : (shape.take (shape.length - 1)).length = shape.length - 1 := by simp
  have hsize : output.length = shape.length := by
    rw [h, length_append, hlength]
    exact Nat.sub_add_cancel hrank
  have hfront : output.take (shape.length - 1) = shape.take (shape.length - 1) := by rw [h, take_left' hlength]
  have hlast : output[shape.length - 1]? = some valueDepth := by
    rw [h, List.getElem?_append_right (Nat.le_of_eq hlength), hlength, Nat.sub_self]
    rfl
  simp [sdpaOutputMatches, hsize, hfront, hlast]

/-- The output is the softmax of the scores of the keys of each query, applied to the values; the other
output is the logarithm of their sum. -/
theorem sdpaForwardInto_mean (hexp : LogLaws exp ln) (hg : sdpaGeometry q.shape k.shape v.shape = .ok g)
    (hkeys : ∀ query < g.queryLen, (g.keys causal window query).Nonempty) (scale : R)
    (b : SdpaBuffers R q.shape g.valueDepth) :
    ∃ output logsumexp, sdpaForwardInto exp ln q k v scale causal window b.output b.logsumexp = .ok (output, logsumexp) ∧
      output.shape = b.output.shape ∧ logsumexp.shape = b.logsumexp.shape ∧
      ∀ bh < g.batchHeads, ∀ query < g.queryLen,
        (∀ column < g.valueDepth, output.at ((bh * g.queryLen + query) * g.valueDepth + column) =
          sdpa g causal window exp scale q.at k.at v.at bh query column) ∧
        logsumexp.at (bh * g.queryLen + query) = sdpaLse g causal window exp ln scale q.at k.at bh query := by
  have hfit := sdpaGeometry_fits hg
  have hm : g.batchHeads * g.queryLen ≤ b.logsumexp.shape.prod := by rw [b.logsumexp_shape, hfit.rows]
  have hn : g.batchHeads * g.queryLen * g.valueDepth ≤ b.output.shape.prod := by
    rw [b.output_shape, prod_append, prod_singleton, hfit.rows]
  obtain ⟨⟨out, lse⟩, hrun, hrows⟩ := hfit.rows_ok hexp hkeys scale hn hm (b.output.elements, b.logsumexp.elements)
  refine ⟨⟨b.output.shape, out⟩, ⟨b.logsumexp.shape, lse⟩, ?_, rfl, rfl, fun bh hbh query hquery => ?_⟩
  · unfold sdpaForwardInto
    rw [hg, ok_bind]
    refine bind_ok.mpr ⟨(), rejectIf_ok.mpr (by simp [sdpaOutputMatches_ok hfit.rank b.output_shape]), ?_⟩
    simp only [Dense.writable_ok _ b.logsumexp_shape, ok_bind, hrun]
  · obtain ⟨hcolumns, hsum⟩ := hrows bh hbh query hquery (row_lt hbh hquery)
    exact ⟨fun column hcolumn => Dense.at_eq (hcolumns column hcolumn), Dense.at_eq hsum⟩

end Forward

end EffectTorch
