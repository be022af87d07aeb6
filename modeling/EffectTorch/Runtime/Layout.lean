import EffectTorch.Lib.Strides
import EffectTorch.Runtime.Storage

/-!
# Layouts

`runtime/src/layout.rs`: contiguous layouts, the views `permute`, `broadcast_to` and
`narrow`, the checked sizes and `broadcast_shape`. The only way to fail is to panic. A
sum or product that is not checked panics in a build with overflow checks and wraps in
one without.

Results:
1. `checkedMaxIndex_some`: the checked maximum index of a layout.
2. `isContiguous_iff`: which strides are packed row-major.
3. `contiguous_ok`: a contiguous layout sends each coordinate to its row-major index.
-/

namespace EffectTorch
open List Option Lib

/-! ## Panics and plain arithmetic -/

/-- Whether the build checks plain arithmetic for overflow. -/
inductive Build where
  | checked
  | wrapping
deriving DecidableEq, Repr

namespace Build

def add (build : Build) (a b : Nat) : Fallible Empty Nat :=
  if a + b ≤ usizeMax then .ok (a + b)
  else
    match build with
    | checked => .error (.panic "attempt to add with overflow")
    | wrapping => .ok ((a + b) % 2 ^ 64)

def mul (build : Build) (a b : Nat) : Fallible Empty Nat :=
  if a * b ≤ usizeMax then .ok (a * b)
  else
    match build with
    | checked => .error (.panic "attempt to multiply with overflow")
    | wrapping => .ok ((a * b) % 2 ^ 64)

theorem add_of_le {build : Build} {a b : Nat} (h : a + b ≤ usizeMax) :
    build.add a b = .ok (a + b) :=
  if_pos h

theorem mul_of_le {build : Build} {a b : Nat} (h : a * b ≤ usizeMax) :
    build.mul a b = .ok (a * b) :=
  if_pos h

theorem checked_add_ok {a b c : Nat} :
    checked.add a b = .ok c ↔ a + b ≤ usizeMax ∧ c = a + b := by
  unfold add
  split
  · next h => simp [h, eq_comm]
  · next h => simp [h]

theorem checked_mul_ok {a b c : Nat} :
    checked.mul a b = .ok c ↔ a * b ≤ usizeMax ∧ c = a * b := by
  unfold mul
  split
  · next h => simp [h, eq_comm]
  · next h => simp [h]

end Build

/-- `assert!(condition)`. -/
def assert (condition : Prop) [Decidable condition] (message : String) : Fallible Empty Unit :=
  if condition then .ok () else .error (.panic message)

/-- The panic of `slice[index]`. -/
def outOfBounds (len index : Nat) : Fault Empty :=
  .panic ("index out of bounds: the len is " ++ toString len ++ " but the index is " ++
    toString index)

theorem assert_ok {condition : Prop} [Decidable condition] {message : String} {u : Unit} :
    assert condition message = .ok u ↔ condition := by
  unfold assert
  split
  · next h => simp [h]
  · next h => simp [h]

namespace Layout

/-- Number of dimensions. -/
def rank (l : Layout) : Nat := l.shape.length

/-- The element that coordinate `c` names. -/
def address (l : Layout) (c : List Nat) : Nat :=
  l.offset + dot c l.strides

/-! ## Contiguous layouts -/

/-- The strides of the dimensions from dimension `d` on and the running product, the
innermost dimension first. The outermost dimension is not multiplied in. -/
def rowStrides : (d : Nat) → (shape : List Nat) →
    Fallible Empty ({ strides : List Nat // shape.length = strides.length } × Nat)
  | _, [] => .ok (⟨[], rfl⟩, 1)
  | d, dim :: shape => do
    let (strides, acc) ← rowStrides (d + 1) shape
    let next ← (if d ≠ 0 then expect (checkedMul acc dim) "layout stride overflow" else .ok acc)
    .ok (⟨acc :: strides.1, congrArg Nat.succ strides.2⟩, next)

/-- A row-major layout at offset zero. -/
def contiguous (shape : List Nat) : Fallible Empty Layout := do
  let (strides, _) ← rowStrides 0 shape
  .ok ⟨shape, strides.1, 0, strides.2⟩

/-- The element count, or `none` on overflow. -/
def checkedNumel (l : Layout) : Option Nat :=
  if 0 ∈ l.shape then some 0 else l.shape.foldlM checkedMul 1

/-- The running product over the dimensions from dimension `d` on, the innermost
dimension first; `none` where a stride differs from it or it overflows. -/
def packed : Nat → List (Nat × Nat) → Option Nat
  | _, [] => some 1
  | d, (dim, stride) :: dims => do
    let acc ← packed (d + 1) dims
    if dim ≠ 1 ∧ stride ≠ acc then none
    else if d ≠ 0 then checkedMul acc dim else some acc

/-- Whether the layout is densely packed row-major. -/
def isContiguous (l : Layout) : Bool :=
  (packed 0 (l.shape.zip l.strides)).isSome

/-! ## Views -/

/-- Reorders the dimensions: `axes[i]` is the source of output dimension `i`. -/
def permute (l : Layout) (axes : List Nat) : Fallible Empty Layout := do
  assert (axes.length = l.rank) ("assertion `left == right` failed\n  left: " ++
    toString axes.length ++ "\n right: " ++ toString l.rank)
  match axes.find? (l.rank ≤ ·) with
  | some axis => .error (outOfBounds l.rank axis)
  | none => .ok ⟨axes.map (l.shape.getD · 0), axes.map (l.strides.getD · 0), l.offset, by simp⟩

/-- The strides of the kept dimensions of a broadcast, or its first failed assertion. -/
def broadcastStrides : (shape strides target : List Nat) →
    Fallible Empty { strides : List Nat // target.length = strides.length }
  | src :: shape, stride :: strides, dst :: target => do
    assert (src = dst ∨ src = 1) ("cannot broadcast " ++ toString src ++ " to " ++ toString dst)
    let rest ← broadcastStrides shape strides target
    .ok ⟨(if src = 1 ∧ dst ≠ 1 then 0 else stride) :: rest.1, congrArg Nat.succ rest.2⟩
  | _, _, target => .ok ⟨target.map fun _ => 0, by simp⟩

/-- A view of an equal or higher rank: new leading dimensions and repeated dimensions of
size one have stride zero. -/
def broadcastTo (l : Layout) (shape : List Nat) : Fallible Empty Layout := do
  assert (l.rank ≤ shape.length) "assertion failed: shape.len() >= self.rank()"
  let extra := shape.length - l.rank
  let strides ← broadcastStrides l.shape l.strides (shape.drop extra)
  .ok ⟨shape, List.replicate extra 0 ++ strides.1, l.offset, by
    rw [length_append, length_replicate, ← strides.2, length_drop,
      Nat.add_sub_cancel' (Nat.sub_le _ _)]⟩

/-- The view of `start..start + len` along dimension `dim`. -/
def narrow (build : Build) (l : Layout) (dim start len : Nat) : Fallible Empty Layout := do
  let stop ← build.add start len
  if dim < l.rank then
    assert (stop ≤ l.shape.getD dim 0) "assertion failed: start + len <= self.shape[dim]"
    let step ← build.mul start (l.strides.getD dim 0)
    let offset ← build.add l.offset step
    .ok ⟨l.shape.set dim len, l.strides, offset, by simp [l.rank_eq]⟩
  else .error (outOfBounds l.rank dim)

/-! ## Checked sizes -/

/-- One past the largest element the layout names, zero for an empty layout, or `none` on
overflow. -/
def checkedMaxIndex (l : Layout) : Option Nat :=
  if 0 ∈ l.shape then some 0
  else do
    let index ← (l.shape.zip l.strides).foldlM (fun index (dim, stride) => do
      checkedAdd index (← checkedMul (dim - 1) stride)) l.offset
    checkedAdd index 1

/-- The bytes of the smallest buffer that holds the layout. -/
def checkedByteSize (l : Layout) (dtype : DType) : Option Nat := do
  checkedMul (← l.checkedMaxIndex) dtype.sizeInBytes

end Layout

/-- The common shape of two shapes, aligned from the right. -/
def broadcastShape (a b : List Nat) : Fallible Empty (List Nat) :=
  let rank := max a.length b.length
  (List.range rank).mapM fun d => do
    let ad := if d < rank - a.length then 1 else a.getD (d - (rank - a.length)) 0
    let bd := if d < rank - b.length then 1 else b.getD (d - (rank - b.length)) 0
    assert (ad = bd ∨ ad = 1 ∨ bd = 1)
      ("shape mismatch: " ++ toString a ++ " vs " ++ toString b)
    .ok (max ad bd)

/-! ## Row-major layouts -/

/-- The product of the last dimensions fits `usize`, however many they are. -/
def ProductsFit : List Nat → Prop
  | [] => True
  | d :: shape => d * shape.prod ≤ usizeMax ∧ ProductsFit shape

theorem productsFit_iff {shape : List Nat} (hpos : 0 ∉ shape) :
    ProductsFit shape ↔ shape.prod ≤ usizeMax := by
  induction shape with
  | nil => exact ⟨fun _ => by decide, fun _ => trivial⟩
  | cons d shape ih =>
    obtain ⟨hd, hrest⟩ := not_or.mp fun h => hpos (mem_cons.mpr h)
    rw [prod_cons, ProductsFit, ih hrest, and_iff_left_iff_imp]
    exact Nat.le_trans (Nat.le_mul_of_pos_left _ (Nat.pos_of_ne_zero (Ne.symm hd)))

namespace Layout

theorem rowStrides_ok {shape : List Nat} {d : Nat}
    {r : { strides : List Nat // shape.length = strides.length } × Nat}
    (h : rowStrides d shape = .ok r) :
    RowMajor shape r.1.1 ∧ (d ≠ 0 → r.2 = shape.prod) := by
  induction shape generalizing d with
  | nil =>
    cases h
    exact ⟨trivial, fun _ => rfl⟩
  | cons dim shape ih =>
    obtain ⟨⟨strides, acc⟩, hinner, h⟩ := bind_ok.mp h
    obtain ⟨next, hnext, h⟩ := bind_ok.mp h
    obtain rfl := Except.ok.inj h
    obtain ⟨hrow, hacc⟩ := ih hinner
    have hprod : acc = shape.prod := hacc (Nat.succ_ne_zero d)
    refine ⟨⟨.inr hprod, hrow⟩, fun hd => ?_⟩
    rw [if_pos hd, expect_ok, checkedMul_some] at hnext
    rw [hnext.2, hprod, prod_cons, Nat.mul_comm]

/-- A contiguous layout sends each coordinate to its row-major index. -/
theorem contiguous_ok {shape : List Nat} {l : Layout} (h : contiguous shape = .ok l) :
    l.shape = shape ∧ l.offset = 0 ∧ RowMajor l.shape l.strides := by
  obtain ⟨r, hr, h⟩ := bind_ok.mp h
  obtain rfl := Except.ok.inj h
  exact ⟨rfl, rfl, (rowStrides_ok hr).1⟩

theorem packed_some {shape strides : List Nat} (hlen : shape.length = strides.length)
    {d acc : Nat} :
    packed (d + 1) (shape.zip strides) = some acc ↔
      (RowMajor shape strides ∧ ProductsFit shape) ∧ acc = shape.prod := by
  induction shape generalizing strides d acc with
  | nil => simp [packed, RowMajor, ProductsFit, eq_comm]
  | cons dim shape ih =>
    cases strides with
    | nil => cases hlen
    | cons stride strides =>
      rw [zip_cons_cons, packed, bind_eq_bind, bind_eq_some_iff]
      simp only [ih (Nat.succ.inj hlen)]
      constructor
      · rintro ⟨inner, ⟨⟨hrow, hfits⟩, rfl⟩, h⟩
        split at h
        · cases h
        · next hstride =>
          rw [if_pos (Nat.succ_ne_zero d), checkedMul_some, Nat.mul_comm] at h
          exact ⟨⟨⟨Decidable.or_iff_not_imp_left.mpr (Decidable.not_and_not_right.mp hstride),
            hrow⟩, h.1, hfits⟩, h.2⟩
      · rintro ⟨⟨⟨hstride, hrow⟩, hfits, hrest⟩, rfl⟩
        refine ⟨shape.prod, ⟨⟨hrow, hrest⟩, rfl⟩, ?_⟩
        rw [if_neg fun h => hstride.elim h.1 h.2, if_pos (Nat.succ_ne_zero d), checkedMul_some,
          Nat.mul_comm]
        exact ⟨hfits, rfl⟩

/-- Which strides are packed row-major. -/
theorem isContiguous_iff {l : Layout} :
    l.isContiguous = true ↔ RowMajor l.shape l.strides ∧ ProductsFit l.shape.tail := by
  obtain ⟨shape, strides, offset, hlen⟩ := l
  unfold isContiguous
  dsimp only
  cases shape with
  | nil => simp [packed, RowMajor, ProductsFit]
  | cons dim shape =>
    cases strides with
    | nil => cases hlen
    | cons stride strides =>
      rw [zip_cons_cons, packed, bind_eq_bind, isSome_iff_exists]
      simp only [bind_eq_some_iff, packed_some (Nat.succ.inj hlen), tail_cons]
      constructor
      · rintro ⟨_, _, ⟨⟨hrow, hfits⟩, rfl⟩, h⟩
        split at h
        · cases h
        · next hstride =>
          exact ⟨⟨Decidable.or_iff_not_imp_left.mpr (Decidable.not_and_not_right.mp hstride), hrow⟩,
            hfits⟩
      · rintro ⟨⟨hstride, hrow⟩, hfits⟩
        refine ⟨shape.prod, shape.prod, ⟨⟨hrow, hfits⟩, rfl⟩, ?_⟩
        rw [if_neg fun h => hstride.elim h.1 h.2, if_neg (not_not_intro rfl)]

/-! ## Sizes -/

theorem foldlM_maxIndex {shape strides : List Nat} {index total : Nat} :
    ((shape.zip strides).foldlM (fun index (dim, stride) => do
      checkedAdd index (← checkedMul (dim - 1) stride)) index).bind (checkedAdd · 1) = some total ↔
      index + dot (lastCoordinate shape) strides + 1 ≤ usizeMax ∧
      total = index + dot (lastCoordinate shape) strides + 1 := by
  induction shape generalizing strides index with
  | nil => exact checkedAdd_some
  | cons dim shape ih =>
    cases strides with
    | nil => exact checkedAdd_some
    | cons stride strides =>
      have hsum : index + (dim - 1) * stride + dot (lastCoordinate shape) strides + 1 =
          index + dot (lastCoordinate (dim :: shape)) (stride :: strides) + 1 := by
        simp [lastCoordinate, Nat.add_assoc]
      rw [← hsum, zip_cons_cons, foldlM_cons]
      dsimp only
      by_cases hfits : index + (dim - 1) * stride ≤ usizeMax
      · have hmul : checkedMul (dim - 1) stride = some ((dim - 1) * stride) :=
          if_pos (Nat.le_trans (Nat.le_add_left _ _) hfits)
        rw [hmul]
        simp only [bind_eq_bind, bind_some, checkedAdd_of_le hfits]
        exact ih
      · constructor
        · intro h
          simp only [bind_eq_bind, bind_eq_some_iff, checkedMul_some,
            checkedAdd_some] at h
          obtain ⟨_, ⟨_, ⟨_, ⟨_, rfl⟩, hadd, _⟩, _⟩, _⟩ := h
          exact absurd hadd hfits
        · rintro ⟨hle, _⟩
          exact absurd (Nat.le_trans (Nat.le_add_right _ _) (Nat.le_of_succ_le hle)) hfits

/-- The checked maximum index of a layout. -/
theorem checkedMaxIndex_some {l : Layout} {n : Nat} :
    l.checkedMaxIndex = some n ↔ (0 ∈ l.shape ∧ n = 0) ∨
      (0 ∉ l.shape ∧ l.address (lastCoordinate l.shape) + 1 ≤ usizeMax ∧
        n = l.address (lastCoordinate l.shape) + 1) := by
  unfold checkedMaxIndex
  split
  · next hzero => simp [hzero, eq_comm]
  · next hpos =>
    rw [and_iff_right hpos, or_iff_right fun h => hpos h.1]
    exact foldlM_maxIndex

end Layout

end EffectTorch
