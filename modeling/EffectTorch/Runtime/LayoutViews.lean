import EffectTorch.Runtime.Layout
import Mathlib.Data.List.Perm.Subperm

/-!
# Views of layouts

`Layout::permute`, `Layout::broadcast_to` and `Layout::narrow` compute a new shape, new
strides and a new offset. A view is right if each of its coordinates still names an
element of the layout it was taken from, the one the operation says.

Results:
1. `ViewOp.run_source`: one view names the elements its operation says.
2. `viewChain_exact`: so does every chain of views, the checked maximum index of what
   comes out bounds its addresses, and `is_contiguous` tells whether they are row-major.
3. `broadcastShape_numpy_iff`: the common shape of two shapes is the one of NumPy unless
   a dimension of zero meets one of one.
-/

namespace EffectTorch
open List Lib

/-! ## One view -/

/-- One view of a layout. -/
inductive ViewOp where
  | permute (axes : List Nat)
  | broadcastTo (shape : List Nat)
  | narrow (dim start len : Nat)
deriving DecidableEq, Repr

namespace ViewOp

def run (build : Build) (l : Layout) : ViewOp → Fallible Empty Layout
  | permute axes => l.permute axes
  | broadcastTo shape => l.broadcastTo shape
  | narrow dim start len => l.narrow build dim start len

/-- The coordinate of the parent, of shape `shape`, that coordinate `c` of the view
names. Component `i` of a permuted coordinate runs along dimension `axes[i]`; a
broadcast one loses its leading components and stays at zero along a repeated dimension;
a narrowed one starts at `start`. -/
def source (shape : List Nat) : ViewOp → List Nat → List Nat
  | permute axes, c => scatter axes c
  | broadcastTo target, c => squash shape (c.drop (target.length - shape.length))
  | narrow dim start _, c => c.modify dim (start + ·)

/-- A permutation names no dimension twice, and the sums of `narrow` do not wrap. -/
def Exact (build : Build) (l : Layout) : ViewOp → Prop
  | permute axes => axes.Nodup
  | broadcastTo _ => True
  | narrow dim start len => build = .checked ∨
      (start + len ≤ usizeMax ∧ l.offset + start * l.strides.getD dim 0 ≤ usizeMax)

end ViewOp

namespace Layout

variable {l v : Layout} {c : List Nat}

theorem permute_ok {axes : List Nat} (h : l.permute axes = .ok v) :
    axes.length = l.rank ∧ (∀ a ∈ axes, a < l.rank) ∧ v.shape = axes.map (l.shape.getD · 0) ∧
      v.strides = axes.map (l.strides.getD · 0) ∧ v.offset = l.offset := by
  obtain ⟨_, hlen, h⟩ := bind_ok.mp h
  split at h
  · cases h
  · next hall =>
    obtain rfl := Except.ok.inj h
    have hbelow : ∀ a ∈ axes, a < l.rank := by simpa using hall
    exact ⟨assert_ok.mp hlen, hbelow, rfl, rfl, rfl⟩

theorem permute_source {axes : List Nat} (h : l.permute axes = .ok v) (hnodup : axes.Nodup)
    (hc : Coordinate v.shape c) :
    Coordinate l.shape (scatter axes c) ∧ v.address c = l.address (scatter axes c) := by
  obtain ⟨hlen, hbelow, hshape, hstrides, hoffset⟩ := permute_ok h
  have hperm : axes.Perm (List.range l.shape.length) :=
    (hnodup.subperm fun a ha => mem_range.mpr (hbelow a ha)).perm_of_length_le
      (by rw [length_range, hlen, rank])
  rw [hshape] at hc
  have hclen : c.length = axes.length := by simpa using hc.length_eq
  refine ⟨coordinate_scatter hperm hc, ?_⟩
  rw [address, address, hoffset, hstrides, dot_gather (l.rank_eq ▸ hperm) hclen]

theorem broadcastStrides_ok {shape strides target : List Nat}
    (hlen : shape.length = strides.length) (htarget : shape.length = target.length)
    {r : { strides : List Nat // target.length = strides.length }}
    (h : broadcastStrides shape strides target = .ok r) :
    Repeats shape target ∧ r.1 = repeatStrides shape strides target := by
  induction shape generalizing strides target with
  | nil =>
    obtain rfl := length_eq_zero_iff.mp htarget.symm
    cases h
    exact ⟨.nil, rfl⟩
  | cons src shape ih =>
    cases strides with
    | nil => cases hlen
    | cons stride strides =>
      cases target with
      | nil => cases htarget
      | cons dst target =>
        obtain ⟨_, hfits, h⟩ := bind_ok.mp h
        obtain ⟨rest, hrest, h⟩ := bind_ok.mp h
        obtain rfl := Except.ok.inj h
        obtain ⟨hrepeats, hstrides⟩ := ih (Nat.succ.inj hlen) (Nat.succ.inj htarget) hrest
        exact ⟨.cons (assert_ok.mp hfits) hrepeats, congrArg (_ :: ·) hstrides⟩

theorem broadcastStrides_returns {shape strides target : List Nat}
    (hlen : shape.length = strides.length) (h : Repeats shape target) :
    ∃ r, broadcastStrides shape strides target = .ok r := by
  induction h generalizing strides with
  | nil => exact ⟨_, rfl⟩
  | cons hd _ ih =>
    cases strides with
    | nil => cases hlen
    | cons stride strides =>
      obtain ⟨rest, hrest⟩ := ih (Nat.succ.inj hlen)
      exact ⟨_, bind_ok.mpr ⟨(), assert_ok.mpr hd, bind_ok.mpr ⟨rest, hrest, rfl⟩⟩⟩

theorem broadcastTo_ok {shape : List Nat} (h : l.broadcastTo shape = .ok v) :
    l.rank ≤ shape.length ∧ Repeats l.shape (shape.drop (shape.length - l.rank)) ∧
      v.shape = shape ∧ v.offset = l.offset ∧
      v.strides = List.replicate (shape.length - l.rank) 0 ++
        repeatStrides l.shape l.strides (shape.drop (shape.length - l.rank)) := by
  obtain ⟨_, hrank, h⟩ := bind_ok.mp h
  obtain ⟨strides, hstrides, h⟩ := bind_ok.mp h
  obtain rfl := Except.ok.inj h
  have hle : l.rank ≤ shape.length := assert_ok.mp hrank
  have hdrop : l.shape.length = (shape.drop (shape.length - l.rank)).length := by
    rw [length_drop, Nat.sub_sub_self hle, rank]
  obtain ⟨hrepeats, hrow⟩ := broadcastStrides_ok l.rank_eq hdrop hstrides
  exact ⟨hle, hrepeats, rfl, rfl, congrArg _ hrow⟩

/-- Each dimension may be kept or repeated. -/
theorem broadcastTo_returns {shape : List Nat} (hrank : l.rank ≤ shape.length)
    (h : Repeats l.shape (shape.drop (shape.length - l.rank))) :
    ∃ v, l.broadcastTo shape = .ok v := by
  obtain ⟨strides, hstrides⟩ := broadcastStrides_returns l.rank_eq h
  exact ⟨_, bind_ok.mpr ⟨(), assert_ok.mpr hrank, bind_ok.mpr ⟨strides, hstrides, rfl⟩⟩⟩

theorem broadcastTo_source {shape : List Nat} (h : l.broadcastTo shape = .ok v)
    (hc : Coordinate v.shape c) :
    Coordinate l.shape (squash l.shape (c.drop (shape.length - l.rank))) ∧
      v.address c = l.address (squash l.shape (c.drop (shape.length - l.rank))) := by
  obtain ⟨_, hrepeats, hshape, hoffset, hstrides⟩ := broadcastTo_ok h
  have hkept : Coordinate (shape.drop (shape.length - l.rank))
      (c.drop (shape.length - l.rank)) := forall₂_drop _ (hshape ▸ hc)
  refine ⟨coordinate_squash hrepeats hkept, ?_⟩
  rw [address, address, hoffset, hstrides, dot_replicate_zero,
    dot_squash hrepeats l.rank_eq hkept]

theorem narrow_ok {build : Build} {dim start len : Nat}
    (hexact : (ViewOp.narrow dim start len).Exact build l)
    (h : l.narrow build dim start len = .ok v) :
    dim < l.rank ∧ start + len ≤ l.shape.getD dim 0 ∧ v.shape = l.shape.set dim len ∧
      v.strides = l.strides ∧ v.offset = l.offset + start * l.strides.getD dim 0 := by
  obtain ⟨stop, hstop, h⟩ := bind_ok.mp h
  split at h
  · next hdim =>
    obtain ⟨_, hle, h⟩ := bind_ok.mp h
    obtain ⟨step, hstep, h⟩ := bind_ok.mp h
    obtain ⟨offset, hoffset, h⟩ := bind_ok.mp h
    obtain rfl := Except.ok.inj h
    -- neither build wraps here, so all three sums are the plain ones
    have hsums : stop = start + len ∧ step = start * l.strides.getD dim 0 ∧
        offset = l.offset + step := by
      rcases hexact with rfl | ⟨hsum, hmove⟩
      · exact ⟨(Build.checked_add_ok.mp hstop).2, (Build.checked_mul_ok.mp hstep).2,
          (Build.checked_add_ok.mp hoffset).2⟩
      · rw [Build.add_of_le hsum] at hstop
        rw [Build.mul_of_le (Nat.le_trans (Nat.le_add_left _ _) hmove)] at hstep
        obtain rfl := Except.ok.inj hstep
        rw [Build.add_of_le hmove] at hoffset
        exact ⟨(Except.ok.inj hstop).symm, rfl, (Except.ok.inj hoffset).symm⟩
    obtain ⟨rfl, rfl, rfl⟩ := hsums
    exact ⟨hdim, assert_ok.mp hle, rfl, rfl, rfl⟩
  · cases h

theorem narrow_source {build : Build} {dim start len : Nat}
    (hexact : (ViewOp.narrow dim start len).Exact build l)
    (h : l.narrow build dim start len = .ok v) (hc : Coordinate v.shape c) :
    Coordinate l.shape (c.modify dim (start + ·)) ∧
      v.address c = l.address (c.modify dim (start + ·)) := by
  obtain ⟨hdim, hle, hshape, hstrides, hoffset⟩ := narrow_ok hexact h
  have hclen : c.length = l.strides.length := by
    rw [hc.length_eq, v.rank_eq, hstrides]
  refine ⟨coordinate_modify (hshape ▸ hc) hdim hle, ?_⟩
  rw [address, address, hoffset, hstrides, dot_modify hclen (l.rank_eq ▸ hdim),
    Nat.add_assoc]

end Layout

/-- One view names the elements its operation says. -/
theorem ViewOp.run_source {build : Build} {op : ViewOp} {l v : Layout} {c : List Nat}
    (h : op.run build l = .ok v) (hexact : op.Exact build l) (hc : Coordinate v.shape c) :
    Coordinate l.shape (op.source l.shape c) ∧ v.address c = l.address (op.source l.shape c) := by
  cases op with
  | permute axes => exact Layout.permute_source h hexact hc
  | broadcastTo shape => exact Layout.broadcastTo_source h hc
  | narrow dim start len => exact Layout.narrow_source hexact h hc

/-! ## Chains of views -/

/-- `v` comes out of a chain of accepted views of `l`, and coordinate `c` of it names
coordinate `f c` of `l`. -/
inductive ViewChain (build : Build) (l : Layout) : Layout → (List Nat → List Nat) → Prop where
  | parent : ViewChain build l l id
  | view {v w : Layout} {f : List Nat → List Nat} {op : ViewOp} (chain : ViewChain build l v f)
      (hrun : op.run build v = .ok w) (hexact : op.Exact build v) :
      ViewChain build l w (f ∘ op.source v.shape)

theorem ViewChain.source {build : Build} {l v : Layout} {f : List Nat → List Nat}
    (h : ViewChain build l v f) {c : List Nat} (hc : Coordinate v.shape c) :
    Coordinate l.shape (f c) ∧ v.address c = l.address (f c) := by
  induction h generalizing c with
  | parent => exact ⟨hc, rfl⟩
  | view _ hrun hexact ih =>
    obtain ⟨hmid, haddress⟩ := ViewOp.run_source hrun hexact hc
    obtain ⟨hparent, hrest⟩ := ih hmid
    exact ⟨hparent, haddress.trans hrest⟩

namespace Layout

variable {l : Layout}

/-- Every coordinate is sent to the offset plus its row-major index. -/
def Packed (l : Layout) : Prop :=
  ∀ c, Coordinate l.shape c → l.address c = l.offset + rowIndex l.shape c

theorem packed_of_rowMajor (h : RowMajor l.shape l.strides) : l.Packed :=
  fun _ hc => congrArg (l.offset + ·) (h.dot_eq l.rank_eq hc)

theorem packed_iff (hpos : 0 ∉ l.shape) : l.Packed ↔ RowMajor l.shape l.strides := by
  rw [← dot_eq_rowIndex_iff l.rank_eq hpos]
  exact ⟨fun h c hc => Nat.add_left_cancel (h c hc), fun h c hc => congrArg _ (h c hc)⟩

theorem address_le_last {c : List Nat} (hc : Coordinate l.shape c) :
    l.address c ≤ l.address (lastCoordinate l.shape) :=
  Nat.add_le_add_left (dot_le_last hc l.strides) _

/-- The checked maximum index is one past the largest address, and zero for an empty
layout; it overflows when an address lies at the end of `usize` or behind it. -/
theorem checkedMaxIndex_exact (l : Layout) :
    (∀ n, l.checkedMaxIndex = some n →
      (∀ c, Coordinate l.shape c → l.address c < n) ∧
      (n = 0 ∧ (∀ c, ¬ Coordinate l.shape c) ∨
        ∃ c, Coordinate l.shape c ∧ l.address c + 1 = n)) ∧
    (l.checkedMaxIndex = none ↔ ∃ c, Coordinate l.shape c ∧ usizeMax ≤ l.address c) := by
  refine ⟨fun n h => ?_, ?_⟩
  · rcases checkedMaxIndex_some.mp h with ⟨hzero, rfl⟩ | ⟨hpos, _, rfl⟩
    · have hnone : ∀ c, ¬ Coordinate l.shape c := fun c => not_coordinate hzero
      exact ⟨fun c hc => absurd hc (hnone c), .inl ⟨rfl, hnone⟩⟩
    · exact ⟨fun c hc => Nat.lt_succ_of_le (address_le_last hc),
        .inr ⟨_, coordinate_last hpos, rfl⟩⟩
  · rw [Option.eq_none_iff_forall_ne_some]
    constructor
    · intro h
      have hpos : 0 ∉ l.shape := fun hzero => h 0 (checkedMaxIndex_some.mpr (.inl ⟨hzero, rfl⟩))
      refine ⟨_, coordinate_last hpos, Nat.le_of_not_lt fun hlt => ?_⟩
      exact h _ (checkedMaxIndex_some.mpr (.inr ⟨hpos, hlt, rfl⟩))
    · rintro ⟨c, hc, hbig⟩ n h
      rcases checkedMaxIndex_some.mp h with ⟨hzero, _⟩ | ⟨_, hfits, _⟩
      · exact not_coordinate hzero hc
      · exact absurd (Nat.le_trans hbig (address_le_last hc)) (Nat.not_le_of_lt hfits)

/-- `is_contiguous` on a layout that has coordinates. -/
theorem isContiguous_iff_packed (hpos : 0 ∉ l.shape) :
    l.isContiguous = true ↔ l.Packed ∧ l.shape.tail.prod ≤ usizeMax := by
  have htail : 0 ∉ l.shape.tail := fun h => hpos (mem_of_mem_tail h)
  rw [isContiguous_iff, packed_iff hpos, productsFit_iff htail]

/-- The coordinates of a packed layout whose maximum index fits can be counted. -/
theorem Packed.prod_le {n : Nat} (h : l.Packed) (hpos : 0 ∉ l.shape)
    (hmax : l.checkedMaxIndex = some n) : l.shape.prod ≤ usizeMax := by
  obtain ⟨hzero, _⟩ | ⟨_, hfits, _⟩ := checkedMaxIndex_some.mp hmax
  · exact absurd hzero hpos
  · rw [h _ (coordinate_last hpos), Nat.add_assoc, rowIndex_last hpos] at hfits
    exact Nat.le_trans (Nat.le_add_left _ _) hfits

theorem prod_tail_le {shape : List Nat} (hpos : 0 ∉ shape) : shape.tail.prod ≤ shape.prod := by
  cases shape with
  | nil => exact Nat.le_refl _
  | cons d shape =>
    rw [tail_cons, prod_cons]
    exact Nat.le_mul_of_pos_left _ (Nat.pos_of_ne_zero fun h => hpos (h ▸ mem_cons_self))

end Layout

/-- Every coordinate of a view of a view names the element its operations say, the checked
maximum index is one past the largest address, and `is_contiguous` tells whether the
addresses are the offset plus the row-major index. -/
theorem viewChain_exact {build : Build} {l v : Layout} {f : List Nat → List Nat}
    (h : ViewChain build l v f) :
    (∀ c, Coordinate v.shape c → Coordinate l.shape (f c) ∧ v.address c = l.address (f c)) ∧
    ((∀ n, v.checkedMaxIndex = some n →
        (∀ c, Coordinate v.shape c → v.address c < n) ∧
        (n = 0 ∧ (∀ c, ¬ Coordinate v.shape c) ∨
          ∃ c, Coordinate v.shape c ∧ v.address c + 1 = n)) ∧
      (v.checkedMaxIndex = none ↔ ∃ c, Coordinate v.shape c ∧ usizeMax ≤ v.address c)) ∧
    (v.isContiguous = true → v.Packed) ∧
    (0 ∉ v.shape → (v.isContiguous = true ↔ v.Packed ∧ v.shape.tail.prod ≤ usizeMax)) ∧
    (0 ∉ v.shape → v.checkedMaxIndex ≠ none → (v.isContiguous = true ↔ v.Packed)) := by
  refine ⟨fun c hc => h.source hc, v.checkedMaxIndex_exact, fun hcontiguous =>
    Layout.packed_of_rowMajor (Layout.isContiguous_iff.mp hcontiguous).1,
    Layout.isContiguous_iff_packed, fun hpos hmax => ?_⟩
  rw [Layout.isContiguous_iff_packed hpos, and_iff_left_iff_imp]
  intro hpacked
  obtain ⟨n, hn⟩ := Option.ne_none_iff_exists'.mp hmax
  exact Nat.le_trans (Layout.prod_tail_le hpos) (hpacked.prod_le hpos hn)

/-- Rows one and two of a transposed matrix of three columns. -/
theorem transposed_rows :
    ∃ l v f, Layout.contiguous [2, 3] = .ok l ∧ ViewChain .wrapping l v f ∧
      v.shape = [2, 2] ∧ f [1, 0] = [0, 2] ∧ v.address [1, 0] = l.address [0, 2] := by
  have hturn : (ViewOp.permute [1, 0]).Exact .wrapping ⟨[2, 3], [3, 1], 0, rfl⟩ :=
    show [1, 0].Nodup by decide
  have hrows : (ViewOp.narrow 0 1 2).Exact .wrapping ⟨[3, 2], [1, 3], 0, rfl⟩ :=
    Or.inr ⟨by decide, by decide⟩
  have hchain : ViewChain .wrapping ⟨[2, 3], [3, 1], 0, rfl⟩ ⟨[2, 2], [1, 3], 1, rfl⟩
      ((id ∘ (ViewOp.permute [1, 0]).source [2, 3]) ∘ (ViewOp.narrow 0 1 2).source [3, 2]) :=
    .view (.view .parent rfl hturn) rfl hrows
  exact ⟨_, _, _, rfl, hchain, rfl, rfl,
    ((viewChain_exact hchain).1 [1, 0] (by decide)).2⟩

/-- An empty view may keep the strides of its parent, a permutation may name a dimension
twice, and a running product may overflow on a packed view. -/
theorem views_inexact :
    (∃ l v, Layout.contiguous [3, 4] = .ok l ∧ l.narrow .checked 1 0 0 = .ok v ∧
      v.Packed ∧ v.isContiguous = false) ∧
    (∃ l v, Layout.contiguous [2, 3] = .ok l ∧ l.permute [0, 0] = .ok v ∧
      Coordinate v.shape [1, 1] ∧ ∀ c, Coordinate l.shape c → v.address [1, 1] ≠ l.address c) ∧
    (∃ l v, Layout.contiguous [2 ^ 40, 2 ^ 40] = .ok l ∧
      l.broadcastTo [1, 2 ^ 40, 2 ^ 40] = .ok v ∧ v.Packed ∧ v.isContiguous = false) := by
  refine ⟨⟨⟨[3, 4], [4, 1], 0, rfl⟩, ⟨[3, 0], [4, 1], 0, rfl⟩, rfl, rfl, ?_, rfl⟩,
    ⟨⟨[2, 3], [3, 1], 0, rfl⟩, ⟨[2, 2], [3, 3], 0, rfl⟩, rfl, rfl, by decide, ?_⟩,
    ⟨⟨[2 ^ 40, 2 ^ 40], [2 ^ 40, 1], 0, rfl⟩, ⟨[1, 2 ^ 40, 2 ^ 40], [0, 2 ^ 40, 1], 0, rfl⟩,
      rfl, rfl, ?_, rfl⟩⟩
  · exact fun c hc => absurd hc (not_coordinate (by decide))
  · intro c hc
    have hlast : Layout.address ⟨[2, 3], [3, 1], 0, rfl⟩ c ≤ 5 := Layout.address_le_last hc
    exact Nat.ne_of_gt (Nat.lt_of_le_of_lt hlast (by decide))
  · exact Layout.packed_of_rowMajor ⟨.inl rfl, .inr (by decide), .inr rfl, trivial⟩

/-! ## The common shape -/

/-- A shape with leading ones up to `rank` dimensions. -/
def padded (rank : Nat) (shape : List Nat) : List Nat :=
  List.replicate (rank - shape.length) 1 ++ shape

/-- The dimensions of two shapes in pairs, aligned from the right. -/
def aligned (a b : List Nat) : List (Nat × Nat) :=
  (padded (max a.length b.length) a).zip (padded (max a.length b.length) b)

/-- Each pair of dimensions is equal or has a one. -/
def Compatible (a b : List Nat) : Prop :=
  ∀ p ∈ aligned a b, p.1 = p.2 ∨ p.1 = 1 ∨ p.2 = 1

instance (a b : List Nat) : Decidable (Compatible a b) :=
  inferInstanceAs (Decidable (∀ p ∈ aligned a b, p.1 = p.2 ∨ p.1 = 1 ∨ p.2 = 1))

/-- The dimension of each pair that is not one. -/
def numpyShape (a b : List Nat) : List Nat :=
  (aligned a b).map fun p => if p.1 = 1 then p.2 else p.1

/-- A dimension of zero meets a dimension of one. -/
def ZeroMeetsOne (a b : List Nat) : Prop :=
  ∃ p ∈ aligned a b, p = (0, 1) ∨ p = (1, 0)

section Common

variable {a b : List Nat} {rank : Nat}

@[simp] theorem length_padded {shape : List Nat} (h : shape.length ≤ rank) :
    (padded rank shape).length = rank := by
  simp [padded, h]

theorem getD_padded {shape : List Nat} {d : Nat} (h : shape.length ≤ rank) (hd : d < rank) :
    (padded rank shape)[d]? =
      some (if d < rank - shape.length then 1 else shape.getD (d - (rank - shape.length)) 0) := by
  unfold padded
  rw [List.getElem?_append, length_replicate]
  split
  · next hlt => simp [hlt]
  · next hge =>
    have hin : d - (rank - shape.length) < shape.length := by omega
    simp [hin]

theorem getElem?_aligned {d : Nat} (hd : d < max a.length b.length) :
    (aligned a b)[d]? = some
      (if d < max a.length b.length - a.length then 1
        else a.getD (d - (max a.length b.length - a.length)) 0,
       if d < max a.length b.length - b.length then 1
        else b.getD (d - (max a.length b.length - b.length)) 0) := by
  unfold aligned
  rw [List.getElem?_zip_eq_some]
  exact ⟨getD_padded (Nat.le_max_left _ _) hd, getD_padded (Nat.le_max_right _ _) hd⟩

@[simp] theorem length_aligned : (aligned a b).length = max a.length b.length := by
  simp [aligned]

/-- One turn of `broadcast_shape`. -/
def broadcastPair (a b : List Nat) (p : Nat × Nat) : Fallible Empty Nat := do
  assert (p.1 = p.2 ∨ p.1 = 1 ∨ p.2 = 1)
    ("shape mismatch: " ++ toString a ++ " vs " ++ toString b)
  .ok (max p.1 p.2)

/-- The loop visits the pairs from left to right. -/
theorem broadcastShape_eq : broadcastShape a b = (aligned a b).mapM (broadcastPair a b) := by
  have hpairs : aligned a b = (List.range (max a.length b.length)).map fun d =>
      (if d < max a.length b.length - a.length then 1
        else a.getD (d - (max a.length b.length - a.length)) 0,
       if d < max a.length b.length - b.length then 1
        else b.getD (d - (max a.length b.length - b.length)) 0) := by
    refine ext_getElem? fun d => ?_
    by_cases hd : d < max a.length b.length
    · rw [getElem?_aligned hd, List.getElem?_map, List.getElem?_range hd]
      rfl
    · rw [List.getElem?_eq_none (by simpa using hd), List.getElem?_eq_none (by simpa using hd)]
  rw [hpairs, mapM_map]
  rfl

theorem broadcastPair_ok {p : Nat × Nat} {d : Nat} :
    broadcastPair a b p = .ok d ↔ (p.1 = p.2 ∨ p.1 = 1 ∨ p.2 = 1) ∧ d = max p.1 p.2 := by
  unfold broadcastPair
  rw [bind_ok]
  simp only [assert_ok, Except.ok.injEq]
  exact ⟨fun ⟨_, h, hd⟩ => ⟨h, hd.symm⟩, fun ⟨h, hd⟩ => ⟨(), h, hd.symm⟩⟩

theorem broadcastShape_ok {out : List Nat} :
    broadcastShape a b = .ok out ↔
      Compatible a b ∧ out = (aligned a b).map fun p => max p.1 p.2 := by
  rw [broadcastShape_eq, mapM_forall₂]
  unfold Compatible
  generalize aligned a b = pairs
  induction pairs generalizing out with
  | nil => simp
  | cons p pairs ih =>
    rw [forall₂_cons_left_iff, forall_mem_cons, map_cons]
    constructor
    · rintro ⟨d, rest, hd, hrest, rfl⟩
      obtain ⟨hp, rfl⟩ := broadcastPair_ok.mp hd
      obtain ⟨hpairs, rfl⟩ := ih.mp hrest
      exact ⟨⟨hp, hpairs⟩, rfl⟩
    · rintro ⟨⟨hp, hpairs⟩, rfl⟩
      exact ⟨_, _, broadcastPair_ok.mpr ⟨hp, rfl⟩, ih.mpr ⟨hpairs, rfl⟩, rfl⟩

theorem broadcastShape_panics (h : ¬ Compatible a b) :
    broadcastShape a b =
      .error (.panic ("shape mismatch: " ++ toString a ++ " vs " ++ toString b)) := by
  cases hout : broadcastShape a b with
  | ok out => exact absurd (broadcastShape_ok.mp hout).1 h
  | error e =>
    rw [broadcastShape_eq] at hout
    obtain ⟨p, _, hp⟩ := mapM_error hout
    unfold broadcastPair assert at hp
    split at hp
    · cases hp
    · exact congrArg _ (Except.error.inj hp).symm

/-- What every pair keeps or repeats, the two lists do. -/
theorem repeats_map_zip {f : Nat × Nat → Nat} {xs ys : List Nat} (hlen : xs.length = ys.length)
    (h : ∀ p ∈ xs.zip ys, (p.1 = f p ∨ p.1 = 1) ∧ (p.2 = f p ∨ p.2 = 1)) :
    Repeats xs ((xs.zip ys).map f) ∧ Repeats ys ((xs.zip ys).map f) := by
  induction xs generalizing ys with
  | nil =>
    obtain rfl := length_eq_zero_iff.mp hlen.symm
    exact ⟨.nil, .nil⟩
  | cons x xs ih =>
    cases ys with
    | nil => cases hlen
    | cons y ys =>
      rw [zip_cons_cons, forall_mem_cons] at h
      obtain ⟨hxs, hys⟩ := ih (Nat.succ.inj hlen) h.2
      exact ⟨.cons h.1.1 hxs, .cons h.1.2 hys⟩

/-- A layout of shape `shape` broadcasts to what the padded shape repeats to. -/
theorem broadcastTo_of_padded {l : Layout} {out : List Nat} (hle : l.rank ≤ rank)
    (hlen : out.length = rank) (h : Repeats (padded rank l.shape) out) :
    ∃ v, l.broadcastTo out = .ok v := by
  subst hlen
  refine Layout.broadcastTo_returns hle ?_
  have hdrop := forall₂_drop (out.length - l.rank) h
  rwa [padded, drop_left' (by rw [length_replicate, Layout.rank])] at hdrop

theorem numpyShape_repeats (h : Compatible a b) :
    Repeats (padded (max a.length b.length) a) (numpyShape a b) ∧
      Repeats (padded (max a.length b.length) b) (numpyShape a b) := by
  refine repeats_map_zip (by simp) fun p hp => ?_
  by_cases hone : p.1 = 1
  · simp [hone]
  · rcases h p hp with heq | hone' | hone'
    · simp [heq]
    · exact absurd hone' hone
    · simp [hone, hone']

theorem numpyShape_broadcasts (h : Compatible a b) {l : Layout}
    (hl : l.shape = a ∨ l.shape = b) : ∃ v, l.broadcastTo (numpyShape a b) = .ok v := by
  have hlen : (numpyShape a b).length = max a.length b.length := by simp [numpyShape]
  rcases hl with rfl | rfl
  · exact broadcastTo_of_padded (Nat.le_max_left _ _) hlen (numpyShape_repeats h).1
  · exact broadcastTo_of_padded (Nat.le_max_right _ _) hlen (numpyShape_repeats h).2

/-- The maximum of a compatible pair is its dimension that is not one, unless that is
zero. -/
theorem max_eq_numpy {p : Nat × Nat} (h : p.1 = p.2 ∨ p.1 = 1 ∨ p.2 = 1) :
    max p.1 p.2 = (if p.1 = 1 then p.2 else p.1) ↔ ¬ (p = (0, 1) ∨ p = (1, 0)) := by
  obtain ⟨x, y⟩ := p
  simp only [Prod.mk.injEq]
  dsimp only at h
  split
  · next hone =>
    subst hone
    have hmax : max 1 y = y ↔ 1 ≤ y := max_eq_right_iff
    rw [hmax, Nat.one_le_iff_ne_zero]
    simp
  · next hone =>
    have hmax : max x y = x ↔ y ≤ x := max_eq_left_iff
    rw [hmax]
    rcases h with rfl | rfl | rfl
    · refine iff_of_true (Nat.le_refl x) ?_
      rintro (⟨rfl, h⟩ | ⟨rfl, h⟩)
      · cases h
      · cases h
    · exact absurd rfl hone
    · rw [Nat.one_le_iff_ne_zero]
      simp [hone]

end Common

/-- The common shape is the one of NumPy and both operands broadcast to it, or the shapes
are reported as incompatible, unless a zero meets a one in compatible shapes. -/
theorem broadcastShape_numpy_iff (a b : List Nat) :
    (Compatible a b → broadcastShape a b = .ok (numpyShape a b) ∧
        ∀ l : Layout, l.shape = a ∨ l.shape = b → ∃ v, l.broadcastTo (numpyShape a b) = .ok v) ∧
      (¬ Compatible a b → broadcastShape a b =
        .error (.panic ("shape mismatch: " ++ toString a ++ " vs " ++ toString b))) ↔
    ¬ (Compatible a b ∧ ZeroMeetsOne a b) := by
  by_cases hcompatible : Compatible a b
  · have hnumpy : broadcastShape a b = .ok (numpyShape a b) ↔ ¬ ZeroMeetsOne a b := by
      rw [broadcastShape_ok, and_iff_right hcompatible, numpyShape, eq_comm, map_inj_left]
      simp only [ZeroMeetsOne, not_exists, not_and]
      exact forall₂_congr fun p hp => max_eq_numpy (hcompatible p hp)
    simp only [hcompatible, true_and, true_implies, not_true, false_implies, and_true]
    exact ⟨fun h => hnumpy.mp h.1,
      fun h => ⟨hnumpy.mpr h, fun l hl => numpyShape_broadcasts hcompatible hl⟩⟩
  · simp only [hcompatible, false_and, not_false_eq_true, iff_true]
    exact ⟨nofun, fun _ => broadcastShape_panics hcompatible⟩

/-- A dimension of zero meets a dimension of one: the common shape is not empty, and the
empty operand does not broadcast to it. -/
theorem broadcastShape_zero_one :
    Compatible [0] [1] ∧ numpyShape [0] [1] = [0] ∧ broadcastShape [0] [1] = .ok [1] ∧
    ∃ l, Layout.contiguous [0] = .ok l ∧
      l.broadcastTo [1] = .error (.panic "cannot broadcast 0 to 1") :=
  ⟨by decide, rfl, rfl, ⟨[0], [1], 0, rfl⟩, rfl, rfl⟩

end EffectTorch
