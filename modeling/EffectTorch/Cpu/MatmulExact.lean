import EffectTorch.Cpu.Matmul
import EffectTorch.Cpu.ScatterExact
import EffectTorch.Lib.Fill

/-!
# What `matmul` computes of two matrices

Each element of the output is the product of a row and a column, in the arithmetic of the kernel.

Results:
1. `naiveRow_eq`, `halfAccumulate_eq`: one output row of the naive kernel, one output element of the half kernel.
2. `matmulInto_matrices`: the product of two matrices.
-/

namespace EffectTorch
open List Lib Gguf

namespace Matmul

/-- What the kernel makes of the pairs of elements that an output element is the product of. -/
def product {T : Type} [MatmulElem T] (pairs : List (T × T)) : T :=
  match MatmulAlgorithm.ofDType (CpuElem.dtype T) with
  | .naive => pairs.foldl (fun value p => MatmulElem.multiplyAdd p.1 p.2 value) MatmulElem.default
  | .halfF32 => MatmulElem.narrow (pairs.foldl (fun accumulator p =>
      MatmulElem.mulAdd T (MatmulElem.widen p.1) (MatmulElem.widen p.2) accumulator) ⟨0⟩)

/-! ## Matrices -/

section Matrices

variable {T : Type} {t : TypedTensor T} {m n i j : Nat}

theorem coordinate_matrix : Coordinate [m, n] [i, j] ↔ i < m ∧ j < n := by simp

/-- The address of an element of a matrix. -/
theorem address_matrix {l : Layout} (hshape : l.shape = [m, n]) :
    l.address [i, j] = l.offset + i * l.strides.getD (l.rank - 2) 0 + j * l.strides.getD (l.rank - 1) 0 := by
  obtain ⟨shape, strides, offset, hrank⟩ := l
  obtain rfl : shape = [m, n] := hshape
  match strides, hrank with
  | [s₀, s₁], _ => exact (Nat.add_assoc _ _ _).symm

end Matrices

section Kernels

variable {T : Type} [MatmulElem T] {a b : List T} {n k : Nat}

omit [MatmulElem T] in
theorem fillRange_eq {output : List T} {start : Nat} {value : T} (h : start + n ≤ output.length) :
    fillRange output start n value = .ok (sweep start n (fun _ _ => value) output) := by
  have hsplice := fun i => @getElem?_splice T output (List.replicate n value) start (by rwa [length_replicate]) i
  rw [length_replicate] at hsplice
  rw [fillRange, if_pos h]
  refine congrArg Except.ok (ext_getElem? fun i => ?_)
  rw [hsplice, getElem?_sweep]
  by_cases hin : start ≤ i ∧ i < start + n
  · rw [if_pos hin, List.getElem?_replicate_of_lt (Nat.sub_lt_left_of_lt_add hin.1 hin.2),
      List.getElem?_eq_getElem (Nat.lt_of_lt_of_le hin.2 h)]
    simp [hin]
  · simp [hin]

/-- One output row of the naive kernel. -/
theorem naiveRow_eq {aStart aCol bOffset bRow bCol outputRow : Nat} {left : Nat → T} {right : Nat → Nat → T} {output : List T}
    (hleft : ∀ t < k, a[aStart + t * aCol]? = some (left t))
    (hright : ∀ t < k, ∀ j < n, b[bOffset + t * bRow + j * bCol]? = some (right t j))
    (hroom : outputRow + n ≤ output.length) :
    naiveRow a b aStart aCol bOffset bRow bCol n k outputRow output = .ok (sweep outputRow n (fun j _ =>
      ((List.range k).map fun t => (left t, right t j)).foldl (fun value p => MatmulElem.multiplyAdd p.1 p.2 value)
        MatmulElem.default) output) := by
  rw [naiveRow, fillRange_eq hroom, ok_bind]
  refine (@foldlM_sweeps Nat T (Fault String) outputRow n _ (List.range k)
    (fun t j value => MatmulElem.multiplyAdd (left t) (right t j) value) _ fun t ht cells hcells => ?_).trans ?_
  · have ht := mem_range.mp ht
    have hread : (readAt a (aStart + t * aCol) : Fallible String T) = .ok (left t) := readAt_ok.mpr (hleft t ht)
    rw [hread, ok_bind]
    refine foldlM_sweep fun j hj cells' hcells' => ?_
    have hlt : outputRow + j < cells'.length := by
      rw [hcells', hcells, length_sweep]
      exact Nat.lt_of_lt_of_le (Nat.add_lt_add_left hj _) hroom
    have hvalue : (readAt cells' (outputRow + j) : Fallible String T) = .ok cells'[outputRow + j] :=
      readAt_ok.mpr (List.getElem?_eq_getElem hlt)
    have hother : (readAt b (bOffset + t * bRow + j * bCol) : Fallible String T) = .ok (right t j) :=
      readAt_ok.mpr (hright t ht j hj)
    rw [hvalue, ok_bind, hother, ok_bind, writeAt_of_lt hlt, modify_eq_set_getElem?, List.getElem?_eq_getElem hlt]
    rfl
  · refine congrArg Except.ok (ext_getElem? fun i => ?_)
    rw [getElem?_sweep, getElem?_sweep, getElem?_sweep, Option.map_map]
    refine congrArg (Option.map · output[i]?) (funext fun v => ?_)
    rw [Function.comp_apply, foldl_map]
    split <;> rfl

/-- One output element of the half kernel. -/
theorem halfAccumulate_eq {aStart aCol bStart bRow : Nat} {left right : Nat → T}
    (hleft : ∀ t < k, a[aStart + t * aCol]? = some (left t)) (hright : ∀ t < k, b[bStart + t * bRow]? = some (right t)) :
    halfAccumulate a b aStart aCol bStart bRow k = .ok (((List.range k).map fun t => (left t, right t)).foldl
      (fun accumulator p => MatmulElem.mulAdd T (MatmulElem.widen p.1) (MatmulElem.widen p.2) accumulator) ⟨0⟩) := by
  rw [halfAccumulate, foldl_map]
  refine foldlM_plain fun t ht accumulator => ?_
  have ht := mem_range.mp ht
  have hread : (readAt a (aStart + t * aCol) : Fallible String T) = .ok (left t) := readAt_ok.mpr (hleft t ht)
  have hother : (readAt b (bStart + t * bRow) : Fallible String T) = .ok (right t) := readAt_ok.mpr (hright t ht)
  rw [hread, ok_bind, hother, ok_bind]

end Kernels

/-! ## Two matrices -/

section Matmul

variable {T : Type} [MatmulElem T] {a b : TypedTensor T} {m n k : Nat} {output : CpuTensorRequirement}

/-- The element of a tensor at a coordinate that it has. -/
def element (t : TypedTensor T) (c : List Nat) : T := (t.at? c).getD MatmulElem.default

theorem at_element {t : TypedTensor T} {c : List Nat} (hc : Coordinate t.shape c) : t.at? c = some (element t c) := by
  obtain ⟨v, hv⟩ := t.exists_at hc
  rw [element, hv]
  rfl

theorem matmulRequirement_ok {shape : List Nat} {dtype : DType} (h : matmulRequirement shape dtype = .ok output) :
    output.shape = shape ∧ output.dtype = dtype := by
  obtain ⟨_, _, h⟩ := bind_ok.mp h
  obtain ⟨_, _, h⟩ := bind_ok.mp h
  exact (Except.ok.inj h) ▸ ⟨rfl, rfl⟩

/-- The requirements of the product of two matrices. -/
def matrices (a b : TypedTensor T) (output : CpuTensorRequirement) (m n k : Nat) : MatmulRequirements :=
  ⟨output, [], .ofDType (CpuElem.dtype T), a.layout, b.layout, 1, m, n, k⟩

theorem matmulRequirements_matrices (ha : a.shape = [m, k]) (hb : b.shape = [k, n])
    (houtput : matmulRequirement [m, n] (CpuElem.dtype T) = .ok output) :
    matmulRequirements a b = .ok (matrices a b output m n k) := by
  have hshape : matmulOutputShape [m, k] [k, n] = .ok [m, n] := by
    simp [matmulOutputShape, rejectIf, pure, Except.pure]
  have hbatch : checkedProduct (List.take ([m, n].length - 2) [m, n]) = .ok 1 := rfl
  rw [matmulRequirements, ha, hb, hshape, ok_bind]
  dsimp only
  rw [hbatch, ok_bind, houtput, ok_bind]
  rfl

variable {destination : CpuDestination T}

theorem validateMatmul_matrices (ha : a.shape = [m, k]) (hb : b.shape = [k, n])
    (houtput : matmulRequirement [m, n] (CpuElem.dtype T) = .ok output) (hready : destination.Ready)
    (hshape : destination.shape = [m, n]) :
    validateMatmul a b destination [] (matrices a b output m n k) = .ok () := by
  obtain ⟨hout, hdtype⟩ := matmulRequirement_ok houtput
  have hbatch : checkedProduct [] = .ok 1 := rfl
  rw [validateMatmul, ha, hb, hshape, hready.dtype]
  simp [matrices, hout, hdtype, rejectIf, batchDimension, hbatch, pure, Except.pure]

omit [MatmulElem T] in
/-- A loop that fills the rows of an output, one in each turn. -/
theorem foldlM_rows {ι : Type} {l : List ι} {slot : ι → Nat} {value : Nat → T} {body : List T → ι → Fallible String (List T)}
    {output : List T} (hlength : output.length = m * n) (hslot : ∀ a ∈ l, slot a < m) (hall : ∀ i < m, ∃ a ∈ l, slot a = i)
    (hbody : ∀ a ∈ l, ∀ cells : List T, slot a * n + n ≤ cells.length →
      body cells a = .ok (sweep (slot a * n) n (fun j _ => value (slot a * n + j)) cells)) :
    ∃ out, l.foldlM body output = .ok out ∧ out.length = m * n ∧
      ∀ i < m, ∀ j < n, out[i * n + j]? = some (value (i * n + j)) := by
  have hend : ∀ i < m, i * n + n ≤ m * n := fun i hi => Nat.succ_mul i n ▸ Nat.mul_le_mul_right n hi
  have hfills : Fills (fun s i => s[i]?) value (fun i => ∃ a ∈ l, slot a * n ≤ i ∧ i < slot a * n + n)
      fun cells => l.foldlM body cells := by
    refine Fills.loop fun a ha cells hcells => ?_
    have hroom : slot a * n + n ≤ cells.length := by
      rcases Nat.eq_zero_or_pos n with rfl | hpos
      · exact Nat.zero_le _
      · have hlast := hcells (slot a * n + (n - 1)) ⟨Nat.le_add_right _ _, by omega⟩
        rw [isSome_getElem?] at hlast
        omega
    refine ⟨_, hbody a ha cells hroom, fun i hi => ?_, fun i hi => ?_⟩
    · rw [getElem?_sweep, List.getElem?_eq_getElem (Nat.lt_of_lt_of_le hi.2 hroom), Option.map_some, if_pos hi,
        Nat.add_sub_cancel' hi.1]
    · rw [getElem?_sweep]
      simp [hi]
  have hcells : ∀ i, (∃ a ∈ l, slot a * n ≤ i ∧ i < slot a * n + n) → (output[i]?).isSome := by
    rintro i ⟨a, ha, -, hlt⟩
    rw [isSome_getElem?, hlength]
    exact Nat.lt_of_lt_of_le hlt (hend _ (hslot a ha))
  obtain ⟨out, hrun, hin, -⟩ := hfills output hcells
  refine ⟨out, hrun, (hfills.length_eq (fun s i => Iff.of_eq (isSome_getElem? s i)) hcells hrun).trans hlength, ?_⟩
  intro i hi j hj
  obtain ⟨a, ha, rfl⟩ := hall i hi
  exact hin _ ⟨a, ha, Nat.le_add_right _ _, Nat.add_lt_add_left hj _⟩

/-- The element of the product of two matrices with a row-major index. -/
def productAt (a b : TypedTensor T) (n k linear : Nat) : T :=
  product ((List.range k).map fun t => (element a [linear / n, t], element b [t, linear % n]))

theorem row_column {i j n : Nat} (hj : j < n) : (i * n + j) / n = i ∧ (i * n + j) % n = j := by
  rw [Nat.mul_comm, Nat.mul_add_div (Nat.zero_lt_of_lt hj), Nat.div_eq_of_lt hj, Nat.mul_add_mod, Nat.mod_eq_of_lt hj]
  exact ⟨rfl, rfl⟩

theorem productAt_eq {i j : Nat} (hj : j < n) : productAt a b n k (i * n + j) =
    product ((List.range k).map fun t => (element a [i, t], element b [t, j])) := by
  rw [productAt, (row_column hj).1, (row_column hj).2]

/-- The elements of two matrices, where the kernels read them. -/
theorem getElem?_left (ha : a.shape = [m, k]) {i t : Nat} (hi : i < m) (ht : t < k) :
    a.values[a.layout.offset + i * a.layout.strides.getD (a.layout.rank - 2) 0 +
      t * a.layout.strides.getD (a.layout.rank - 1) 0]? = some (element a [i, t]) := by
  rw [← address_matrix ha]
  exact at_element (by rw [ha]; exact coordinate_matrix.mpr ⟨hi, ht⟩)

/-- The elements of two matrices, where the kernels read them. -/
theorem getElem?_right (hb : b.shape = [k, n]) {t j : Nat} (ht : t < k) (hj : j < n) :
    b.values[b.layout.offset + t * b.layout.strides.getD (b.layout.rank - 2) 0 +
      j * b.layout.strides.getD (b.layout.rank - 1) 0]? = some (element b [t, j]) :=
  getElem?_left hb ht hj

/-- The loops of the naive kernel over two matrices. -/
theorem naiveInto_matrices (houtput : output.shape = [m, n]) (hready : destination.Ready) :
    naiveInto a.values a.layout b.values b.layout destination (matrices a b output m n k) =
      (List.range m).foldlM (fun output row => naiveRow a.values b.values
        (a.layout.offset + row * a.layout.strides.getD (a.layout.rank - 2) 0) (a.layout.strides.getD (a.layout.rank - 1) 0)
        b.layout.offset (b.layout.strides.getD (b.layout.rank - 2) 0) (b.layout.strides.getD (b.layout.rank - 1) 0) n k
        (row * n) output) destination.slice := by
  rw [naiveInto, CpuDestination.writeCurrent_ready hready]
  simp only [matrices, houtput, batchOffset, length_cons, length_nil, range_one, foldlM_cons,
    foldlM_nil, bind_pure, Nat.zero_mul, Nat.zero_add]
  rfl

/-- The loops of the half kernel over two matrices. -/
theorem halfInto_matrices (houtput : output.shape = [m, n]) (hready : destination.Ready) :
    halfInto a.values a.layout b.values b.layout destination (matrices a b output m n k) =
      (List.range m).foldlM (fun output row => (List.range n).foldlM (fun output column =>
        halfAccumulate a.values b.values (a.layout.offset + row * a.layout.strides.getD (a.layout.rank - 2) 0)
          (a.layout.strides.getD (a.layout.rank - 1) 0) (b.layout.offset + column * b.layout.strides.getD (b.layout.rank - 1) 0)
          (b.layout.strides.getD (b.layout.rank - 2) 0) k >>= fun accumulator =>
        writeAt output (row * n + column) (MatmulElem.narrow accumulator)) output) destination.slice := by
  rw [halfInto, CpuDestination.writeCurrent_ready hready]
  simp only [matrices, houtput, batchOffset, length_cons, length_nil, range_one, foldlM_cons,
    foldlM_nil, bind_pure, Nat.zero_mul, Nat.zero_add]
  rfl

/-- The product of two matrices. -/
theorem matmulInto_matrices (ha : a.shape = [m, k]) (hb : b.shape = [k, n])
    (houtput : matmulRequirement [m, n] (CpuElem.dtype T) = .ok output) (hready : destination.Ready)
    (hshape : destination.shape = [m, n]) :
    ∃ out, matmulInto a b destination [] (matrices a b output m n k) = .ok out ∧ out.length = m * n ∧
      ∀ i < m, ∀ j < n, out[i * n + j]? =
        some (product ((List.range k).map fun t => (element a [i, t], element b [t, j]))) := by
  obtain ⟨hout, hdtype⟩ := matmulRequirement_ok houtput
  have hlength : destination.slice.length = m * n := by
    rw [hready.length_slice, hshape, prod_cons, prod_cons, prod_nil, Nat.mul_one]
  have hrows : ∀ body : List T → Nat → Fallible String (List T), (∀ row ∈ List.range m, ∀ cells : List T,
      row * n + n ≤ cells.length →
        body cells row = .ok (sweep (row * n) n (fun j _ => productAt a b n k (row * n + j)) cells)) →
      ∃ out, (List.range m).foldlM body destination.slice = .ok out ∧ out.length = m * n ∧
        ∀ i < m, ∀ j < n, out[i * n + j]? = some (productAt a b n k (i * n + j)) := fun body hbody =>
    @foldlM_rows T m n Nat (List.range m) id (productAt a b n k) body destination.slice hlength
      (fun i hi => mem_range.mp hi) (fun i hi => ⟨i, mem_range.mpr hi, rfl⟩) hbody
  obtain ⟨out, hrun, houtlen, hcells⟩ : ∃ out, matmulInto a b destination [] (matrices a b output m n k) = .ok out ∧
      out.length = m * n ∧ ∀ i < m, ∀ j < n, out[i * n + j]? = some (productAt a b n k (i * n + j)) := by
    have hsame : (matrices a b output m n k).algorithm = MatmulAlgorithm.ofDType (CpuElem.dtype T) := rfl
    rw [matmulInto, validateMatmul_matrices ha hb houtput hready hshape, ok_bind]
    rw [hsame]
    cases halgorithm : MatmulAlgorithm.ofDType (CpuElem.dtype T) with
    | naive =>
      rw [naiveInto_matrices hout hready]
      refine hrows _ fun row hrow cells hroom => ?_
      rw [naiveRow_eq (fun t ht => getElem?_left ha (mem_range.mp hrow) ht) (fun t ht j hj => getElem?_right hb ht hj) hroom]
      refine congrArg Except.ok (sweep_congr fun j hj _ => ?_)
      rw [productAt_eq hj, product, halgorithm]
    | halfF32 =>
      rw [halfInto_matrices hout hready]
      refine hrows _ fun row hrow cells hroom => ?_
      refine foldlM_sweep fun j hj cells' hcells' => ?_
      have hlt : row * n + j < cells'.length := hcells' ▸ Nat.lt_of_lt_of_le (Nat.add_lt_add_left hj _) hroom
      rw [halfAccumulate_eq (fun t ht => getElem?_left ha (mem_range.mp hrow) ht) (fun t ht => (by
        rw [Nat.add_right_comm]
        exact getElem?_right hb ht hj)), ok_bind, writeAt_of_lt hlt, productAt_eq hj, product, halgorithm,
        modify_eq_set_getElem?, List.getElem?_eq_getElem hlt]
      rfl
  exact ⟨out, hrun, houtlen, fun i hi j hj => (hcells i hi j hj).trans (congrArg some (productAt_eq hj))⟩

end Matmul

end Matmul

end EffectTorch
