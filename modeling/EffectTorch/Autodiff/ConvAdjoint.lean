import EffectTorch.Graph.ValueOps
import EffectTorch.Lib.Convolution

/-!
# The adjoints of convolutions

The cotangent of the input is a transposed convolution with the output padding that brings it back
to the size of the input. In two dimensions it has the smaller of two output paddings, and strips of
zeros for the rest.

Results:
1. `conv1d_adjoint`, `conv2d_adjoint`: the transposed convolution is the adjoint of the convolution.
2. `convAdjoint_exact_iff`: for which geometries the rules give this adjoint.
-/

namespace EffectTorch
open List Lib

variable {K : Type} [CommRing K]

/-! ## Convolutions as sums over hits -/

namespace Value

variable {stride padding dilation groups n c o oGroup cGroup : Nat}

/-- The tap `u` of the output `t` reads the input `y`. -/
def Hits (stride padding dilation t u y : Nat) : Prop := t * stride + u * dilation = y + padding

instance (stride padding dilation t u y : Nat) : Decidable (Hits stride padding dilation t u y) :=
  inferInstanceAs (Decidable (_ = _))

theorem tapAt_eq {size t u y : Nat} : tapAt stride padding dilation size t u = some y ↔
    y < size ∧ Hits stride padding dilation t u y := by
  rw [tapAt, Hits]
  split
  · next h =>
    rw [Option.some.injEq]
    omega
  · next h =>
    refine iff_of_false nofun ?_
    omega

theorem tapAt_sum {M : Type} [AddCommMonoid M] {size t u : Nat} (f : Nat → M) :
    (tapAt stride padding dilation size t u).elim 0 f =
      ∑ y ∈ Finset.range size, if Hits stride padding dilation t u y then f y else 0 := by
  cases h : tapAt stride padding dilation size t u with
  | none =>
    refine (Finset.sum_eq_zero fun y hy => if_neg fun hits => ?_).symm
    exact nomatch h.symm.trans (tapAt_eq.mpr ⟨Finset.mem_range.mp hy, hits⟩)
  | some y =>
    obtain ⟨hlt, hits⟩ := tapAt_eq.mp h
    rw [Finset.sum_eq_single_of_mem y (Finset.mem_range.mpr hlt) fun y' _ hne => if_neg fun hits' =>
      hne (Nat.add_right_cancel (hits'.symm.trans hits)), if_pos hits]
    rfl

section OneDimension

variable {x w g : Value K} {l k size : Nat}

theorem conv1d_eq (hx : x.shape = [n, c, l]) (hw : w.shape = [o, cGroup, k]) (ho : o / groups = oGroup)
    (i a t : Nat) : x.conv1d stride padding dilation groups w [i, a, t] =
      groupedConv oGroup cGroup (Finset.range k) (Finset.range l) (Hits stride padding dilation)
        (fun ch y => x.data [i, ch, y]) (fun b ch u => w.data [b, ch, u]) a t := by
  rw [conv1d, hx, hw]
  subst ho
  exact Finset.sum_congr rfl fun ch _ => Finset.sum_congr rfl fun u _ => tapAt_sum _

theorem convTranspose1d_eq (hg : g.shape = [n, o, size]) (hw : w.shape = [o, cGroup, k])
    (ho : o / groups = oGroup) (i a y : Nat) : g.convTranspose1d stride padding dilation groups w [i, a, y] =
      groupedConvTranspose oGroup cGroup (Finset.range size) (Finset.range k) (Hits stride padding dilation)
        (fun ch t => g.data [i, ch, t]) (fun b ch u => w.data [b, ch, u]) a y := by
  rw [convTranspose1d, hg, hw]
  subst ho
  rfl

/-- The transposed convolution is the adjoint of the convolution. -/
theorem conv1d_adjoint (hx : x.shape = [n, c, l]) (hw : w.shape = [o, cGroup, k]) (hg : g.shape = [n, o, size])
    (hc : c = groups * cGroup) (ho : o = groups * (o / groups)) :
    sumOver [n, o, size] (fun k => g.data k * x.conv1d stride padding dilation groups w k) =
      sumOver [n, c, l] fun k => g.convTranspose1d stride padding dilation groups w k * x.data k := by
  refine Finset.sum_congr rfl fun i _ => ?_
  have hadjoint := groupedConv_adjoint (o / groups) cGroup (Finset.range size) (Finset.range k)
    (Finset.range l) (Hits stride padding dilation) groups
    (fun ch t => g.data [i, ch, t]) (fun ch y => x.data [i, ch, y]) fun b ch u => w.data [b, ch, u]
  rw [← ho, ← hc] at hadjoint
  refine Eq.trans ?_ (hadjoint.trans ?_)
  · refine Finset.sum_congr rfl fun a _ => Finset.sum_congr rfl fun t _ => ?_
    exact congrArg (g.data [i, a, t] * ·) (conv1d_eq hx hw rfl i a t)
  · refine Finset.sum_congr rfl fun a _ => Finset.sum_congr rfl fun y _ => ?_
    exact congrArg (· * x.data [i, a, y]) (convTranspose1d_eq hg hw rfl i a y).symm

end OneDimension

section TwoDimensions

variable {x w g : Value K} {lh lw kh kw sh sw : Nat}

/-- Hits along both axes. -/
def Hits2 (stride padding dilation : Nat) (t u y : Nat × Nat) : Prop :=
  Hits stride padding dilation t.1 u.1 y.1 ∧ Hits stride padding dilation t.2 u.2 y.2

instance (stride padding dilation : Nat) (t u y : Nat × Nat) : Decidable (Hits2 stride padding dilation t u y) :=
  inferInstanceAs (Decidable (_ ∧ _))

theorem conv2d_eq (hx : x.shape = [n, c, lh, lw]) (hw : w.shape = [o, cGroup, kh, kw])
    (ho : o / groups = oGroup) (i a ty tx : Nat) :
    x.conv2d stride padding dilation groups w [i, a, ty, tx] =
      groupedConv oGroup cGroup (Finset.range kh ×ˢ Finset.range kw) (Finset.range lh ×ˢ Finset.range lw)
        (Hits2 stride padding dilation) (fun ch y => x.data [i, ch, y.1, y.2])
        (fun b ch u => w.data [b, ch, u.1, u.2]) a (ty, tx) := by
  rw [conv2d, hx, hw]
  subst ho
  refine Finset.sum_congr rfl fun ch _ => ?_
  rw [Finset.sum_product]
  refine Finset.sum_congr rfl fun ky _ => Finset.sum_congr rfl fun kx _ => ?_
  rw [Finset.sum_product, tapAt_sum]
  refine Finset.sum_congr rfl fun y _ => ?_
  rw [tapAt_sum]
  by_cases hy : Hits stride padding dilation ty ky y
  · rw [if_pos hy]
    exact Finset.sum_congr rfl fun x' _ => if_congr (and_iff_right hy).symm rfl rfl
  · rw [if_neg hy]
    exact (Finset.sum_eq_zero fun x' _ => if_neg fun hits => hy hits.1).symm

theorem convTranspose2d_eq (hg : g.shape = [n, o, sh, sw]) (hw : w.shape = [o, cGroup, kh, kw])
    (ho : o / groups = oGroup) (i a y x' : Nat) :
    g.convTranspose2d stride padding dilation groups w [i, a, y, x'] =
      groupedConvTranspose oGroup cGroup (Finset.range sh ×ˢ Finset.range sw)
        (Finset.range kh ×ˢ Finset.range kw) (Hits2 stride padding dilation)
        (fun ch t => g.data [i, ch, t.1, t.2]) (fun b ch u => w.data [b, ch, u.1, u.2]) a (y, x') := by
  rw [convTranspose2d, hg, hw]
  subst ho
  refine Finset.sum_congr rfl fun ch _ => ?_
  rw [Finset.sum_product]
  refine Finset.sum_congr rfl fun ty _ => Finset.sum_congr rfl fun tx _ => ?_
  rw [Finset.sum_product]
  rfl

/-- The transposed convolution is the adjoint of the convolution. -/
theorem conv2d_adjoint (hx : x.shape = [n, c, lh, lw]) (hw : w.shape = [o, cGroup, kh, kw])
    (hg : g.shape = [n, o, sh, sw]) (hc : c = groups * cGroup) (ho : o = groups * (o / groups)) :
    sumOver [n, o, sh, sw] (fun k => g.data k * x.conv2d stride padding dilation groups w k) =
      sumOver [n, c, lh, lw] fun k => g.convTranspose2d stride padding dilation groups w k * x.data k := by
  refine Finset.sum_congr rfl fun i _ => ?_
  have hadjoint := groupedConv_adjoint (o / groups) cGroup (Finset.range sh ×ˢ Finset.range sw)
    (Finset.range kh ×ˢ Finset.range kw) (Finset.range lh ×ˢ Finset.range lw)
    (Hits2 stride padding dilation) groups
    (fun ch t => g.data [i, ch, t.1, t.2]) (fun ch y => x.data [i, ch, y.1, y.2])
    fun b ch u => w.data [b, ch, u.1, u.2]
  rw [← ho, ← hc] at hadjoint
  refine Eq.trans ?_ (hadjoint.trans ?_)
  · refine Finset.sum_congr rfl fun a _ => ?_
    rw [Finset.sum_product]
    refine Finset.sum_congr rfl fun ty _ => Finset.sum_congr rfl fun tx _ => ?_
    exact congrArg (g.data [i, a, ty, tx] * ·) (conv2d_eq hx hw rfl i a ty tx)
  · refine Finset.sum_congr rfl fun a _ => ?_
    rw [Finset.sum_product]
    refine Finset.sum_congr rfl fun y _ => Finset.sum_congr rfl fun x' _ => ?_
    exact congrArg (· * x.data [i, a, y, x']) (convTranspose2d_eq hg hw rfl i a y x').symm

end TwoDimensions

end Value

/-! ## Sizes -/

namespace Adjoint

section Sizes

variable {build : Build} {size gSize kernel stride padding dilation : Nat}

/-- What the taps of all outputs cover of an axis of the padded input. -/
def reach (gSize kernel stride dilation : Nat) : Nat := (gSize - 1) * stride + dilation * (kernel - 1) + 1

/-- What the strides leave over at the end of an axis. -/
def leftOver (size gSize kernel stride padding dilation : Nat) : Nat :=
  size + 2 * padding - reach gSize kernel stride dilation

/-- The arithmetic of the output padding stays within the machine words of the build. -/
def AxisFits (build : Build) (size gSize kernel stride padding dilation : Nat) : Prop :=
  2 * padding ≤ reach gSize kernel stride dilation ∨
    build = .wrapping ∧ leftOver size gSize kernel stride padding dilation < 2 ^ 64

/-- Two subtractions that wrap give what the exact ones do, if this is a machine word. -/
theorem wrapping_twice {a b : Nat} (hle : ¬ b ≤ a) :
    (Except.ok ((a + 2 ^ 64 - b) % 2 ^ 64) >>= usizeSub .wrapping size) = .ok (size + b - a) ↔
      b ≤ a ∨ Build.wrapping = .wrapping ∧ size + b - a < 2 ^ 64 := by
  rw [ok_bind, usizeSub]
  generalize hm : (2 : Nat) ^ 64 = m
  have hmod : (a + m - b) % m = a + m - b := Nat.mod_eq_of_lt (by have : 0 < m := hm ▸ Nat.two_pow_pos 64; omega)
  rw [hmod]
  split
  · next h =>
    rw [Except.ok.injEq]
    omega
  · next h =>
    have hsum : size + m - (a + m - b) = size + b - a := by omega
    rw [Except.ok.injEq, hsum]
    refine iff_of_true (Nat.mod_eq_of_lt ?_) (.inr ⟨rfl, ?_⟩) <;> omega

/-- The output padding is what is left over if and only if the arithmetic fits. -/
theorem outputPadding_eq (hg : 1 ≤ gSize) (hkernel : 1 ≤ kernel)
    (hreach : reach gSize kernel stride dilation ≤ size + 2 * padding) :
    outputPadding build size gSize kernel stride padding dilation =
      .ok (leftOver size gSize kernel stride padding dilation) ↔
      AxisFits build size gSize kernel stride padding dilation := by
  have hsub : ∀ a b, b ≤ a → usizeSub build a b = .ok (a - b) := fun a b h => if_pos h
  have hcovered : outputPadding build size gSize kernel stride padding dilation =
      usizeSub build (reach gSize kernel stride dilation) (2 * padding) >>= usizeSub build size := by
    rw [outputPadding, hsub gSize 1 hg, ok_bind, hsub kernel 1 hkernel]
    rfl
  rw [hcovered, AxisFits, leftOver]
  generalize reach gSize kernel stride dilation = covered at hreach
  by_cases hle : 2 * padding ≤ covered
  · refine iff_of_true ?_ (.inl hle)
    rw [hsub covered _ hle, ok_bind, hsub size _ (by omega)]
    exact congrArg Except.ok (by omega)
  · cases build with
    | checked =>
      refine iff_of_false ?_ fun h => h.elim hle fun h => nomatch h.1
      rw [usizeSub, if_neg hle]
      exact nofun
    | wrapping =>
      rw [usizeSub, if_neg hle]
      exact wrapping_twice hle

end Sizes

/-! ## One dimension -/

variable [Trigonometric K] {build : Build}

def inner (a b : Value K) : Elem K := sumOver a.shape fun c => a.data c * b.data c

/-- The rule builds a cotangent of the input `x` that is the transpose of the operation at `g`. -/
def Transposed (build : Build) (kind : NodeKind (Value K)) (x g : Value K) : Prop :=
  ∃ y dx rest, denote kind = .ok y ∧ (adjoint build kind g).interpret denote = .ok ((x, dx) :: rest) ∧
    dx.shape = x.shape ∧ inner g y = inner dx x

variable {g w : Value K} {stride padding outPad dilation n o cGroup sh sw kh kw : Nat}

theorem denote_convTranspose1d {v : Value K} {size k : Nat} (groups : Nat) (hg : g.shape = [n, o, size])
    (hw : w.shape = [o, cGroup, k]) (hdevice : w.device = g.device) :
    denote (.convTranspose1d g w stride padding outPad dilation groups) = .ok v ↔
      ∃ out, Metadata.convTransposeDim size k stride padding outPad dilation = .ok out ∧
        v = g.alike [n, cGroup * groups, out] (g.convTranspose1d stride padding dilation groups w) := by
  have hoperation : Metadata.operation (.convTranspose1d g w stride padding outPad dilation groups) =
      Metadata.convTransposeDim size k stride padding outPad dilation >>= fun out =>
        .ok ([n, cGroup * groups, out], g.dtype, g.device) := by
    rw [Metadata.operation, shapeOf_value, shapeOf_value, hg, hw]
    rfl
  have hok : ∀ out, Metadata.convTransposeDim size k stride padding outPad dilation = .ok out →
      denote (.convTranspose1d g w stride padding outPad dilation groups) =
        .ok (g.alike [n, cGroup * groups, out] (g.convTranspose1d stride padding dilation groups w)) := by
    intro out hout
    refine denote_ok (hoperation.trans (bind_ok.mpr ⟨out, hout, rfl⟩)) ?_ g.supported rfl
    simp [nodeChildren, hdevice]
  constructor
  · intro h
    obtain ⟨out, hout, _⟩ := bind_ok.mp (hoperation.symm.trans (inferMetadata_iff.mp (denote_iff.mp h).1).1)
    exact ⟨out, hout, Except.ok.inj (h.symm.trans (hok out hout))⟩
  · rintro ⟨out, hout, rfl⟩
    exact hok out hout

/-- The transposed convolution is as large as the input if what is left over is put behind it. -/
theorem convTransposeDim_leftOver {size gSize kernel : Nat} (hg : 1 ≤ gSize) (hkernel : 1 ≤ kernel)
    (hreach : reach gSize kernel stride dilation ≤ size + 2 * padding) :
    Metadata.convTransposeDim gSize kernel stride padding outPad dilation = .ok size ↔
      2 * padding ≤ reach gSize kernel stride dilation + outPad ∧
        outPad = leftOver size gSize kernel stride padding dilation := by
  rw [Metadata.convTransposeDim_ok, leftOver]
  have hsum : (gSize - 1) * stride + dilation * (kernel - 1) + outPad + 1 =
      reach gSize kernel stride dilation + outPad := by
    rw [reach]
    omega
  rw [hsum]
  generalize reach gSize kernel stride dilation = covered at hreach
  constructor
  · rintro ⟨_, _, hle, hsize⟩
    exact ⟨hle, by omega⟩
  · rintro ⟨hle, rfl⟩
    exact ⟨hg, hkernel, hle, by omega⟩

theorem conv1d_transposed_iff {x : Value K} {groups : Nat}
    (hinfer : inferMetadata (.conv1d x w stride padding dilation groups) = .ok g.toSignature) :
    Transposed build (.conv1d x w stride padding dilation groups) x g ↔
      AxisFits build (x.shape.getD 2 0) (g.shape.getD 2 0) (w.shape.getD 2 0) stride padding dilation := by
  obtain ⟨hoperation, hdevice⟩ := inferMetadata_iff.mp hinfer
  obtain ⟨n, c, o, cGroup, l, k, size, haccepts, hout, hresult⟩ := Metadata.conv1d_ok hoperation
  obtain ⟨hgshape, hgdtype, hgdevice⟩ : g.shape = [n, o, size] ∧ g.dtype = x.dtype ∧ g.device = x.device :=
    ⟨congrArg Prod.fst hresult, congrArg (·.2.1) hresult, congrArg (·.2.2) hresult⟩
  have hx : x.shape = [n, c, l] := haccepts.input
  have hw : w.shape = [o, cGroup, k] := haccepts.weight
  obtain ⟨hsize, hreach⟩ := Metadata.convOutDim_reach hout
  have hkernel := (Metadata.convOutDim_ok.mp hout).1
  have hweight : w.device = g.device := haccepts.device.symm.trans hgdevice.symm
  have hforward : denote (.conv1d x w stride padding dilation groups) =
      .ok (x.alike [n, o, size] (x.conv1d stride padding dilation groups w)) :=
    denote_ok (hoperation.trans (congrArg Except.ok hresult)) (fun child hmem => (hdevice child hmem).trans hgdevice)
      x.supported rfl
  obtain ⟨dw, hdw⟩ : ∃ dw, denote (.conv1dBackwardW x g ((shapeOf w).getD 2 0) ((shapeOf w).getD 0 0) stride padding
      dilation groups) = .ok dw :=
    ⟨_, denote_ok rfl (by simp [nodeChildren, hgdevice]) x.supported rfl⟩
  have hrun : (adjoint build (.conv1d x w stride padding dilation groups) g).interpret denote =
      outputPadding build l size k stride padding dilation >>= fun outPad =>
        denote (.convTranspose1d g w stride padding outPad dilation groups) >>= fun dx => .ok [(x, dx), (w, dw)] := by
    rw [adjoint, NodeProgram.interpret_bind, conv1d, NodeProgram.interpret_bind, NodeProgram.interpret_lift,
      bind_assoc, shapeOf_value, shapeOf_value, shapeOf_value, hx, hw, hgshape]
    refine congrArg _ (funext fun outPad => ?_)
    rw [NodeProgram.interpret_newNode]
    refine congrArg _ (funext fun dx => ?_)
    rw [NodeProgram.interpret_bind, NodeProgram.interpret_newNode]
    rw [shapeOf_value, hw] at hdw
    rw [hdw]
    rfl
  rw [hx, hw, hgshape]
  show _ ↔ AxisFits build l size k stride padding dilation
  rw [← outputPadding_eq hsize hkernel hreach]
  constructor
  · rintro ⟨y, dx, rest, _, hreceived, hshape, _⟩
    obtain ⟨outPad, hpad, hrest⟩ := bind_ok.mp (hrun.symm.trans hreceived)
    obtain ⟨dx', hdx, hrest⟩ := bind_ok.mp hrest
    cases hrest
    obtain ⟨out, hdim, rfl⟩ := (denote_convTranspose1d groups hgshape hw hweight).mp hdx
    obtain rfl : out = l := by
      rw [hx] at hshape
      exact (List.cons.inj (List.cons.inj (List.cons.inj hshape).2).2).1
    rw [hpad, ((convTransposeDim_leftOver hsize hkernel hreach).mp hdim).2]
  · intro hpad
    have hdim := (convTransposeDim_leftOver hsize hkernel hreach).mpr
      ⟨by rw [leftOver]; omega, rfl⟩
    have hdx := (denote_convTranspose1d groups hgshape hw hweight).mpr ⟨l, hdim, rfl⟩
    have hchannels : cGroup * groups = c := (Nat.mul_comm _ _).trans haccepts.channels.symm
    rw [hchannels] at hdx
    refine ⟨_, g.alike [n, c, l] (g.convTranspose1d stride padding dilation groups w), [(w, dw)], hforward,
      ?_, hx.symm, ?_⟩
    · rw [hrun, hpad, ok_bind, hdx]
      rfl
    · rw [inner, hgshape]
      exact Value.conv1d_adjoint hx hw hgshape haccepts.channels haccepts.outputs

/-! ## Two dimensions -/

theorem denote_convTranspose2d {v : Value K} (groups : Nat) (hg : g.shape = [n, o, sh, sw])
    (hw : w.shape = [o, cGroup, kh, kw]) (hdevice : w.device = g.device) :
    denote (.convTranspose2d g w stride padding outPad dilation groups) = .ok v ↔
      ∃ oh ow, Metadata.convTransposeDim sh kh stride padding outPad dilation = .ok oh ∧
        Metadata.convTransposeDim sw kw stride padding outPad dilation = .ok ow ∧
        v = g.alike [n, cGroup * groups, oh, ow] (g.convTranspose2d stride padding dilation groups w) := by
  have hoperation : Metadata.operation (.convTranspose2d g w stride padding outPad dilation groups) =
      Metadata.convTransposeDim sh kh stride padding outPad dilation >>= fun oh =>
        Metadata.convTransposeDim sw kw stride padding outPad dilation >>= fun ow =>
          .ok ([n, cGroup * groups, oh, ow], g.dtype, g.device) := by
    rw [Metadata.operation, shapeOf_value, shapeOf_value, hg, hw]
    rfl
  have hok : ∀ oh ow, Metadata.convTransposeDim sh kh stride padding outPad dilation = .ok oh →
      Metadata.convTransposeDim sw kw stride padding outPad dilation = .ok ow →
      denote (.convTranspose2d g w stride padding outPad dilation groups) =
        .ok (g.alike [n, cGroup * groups, oh, ow] (g.convTranspose2d stride padding dilation groups w)) := by
    intro oh ow hoh how
    refine denote_ok (hoperation.trans (bind_ok.mpr ⟨oh, hoh, bind_ok.mpr ⟨ow, how, rfl⟩⟩)) ?_ g.supported rfl
    simp [nodeChildren, hdevice]
  constructor
  · intro h
    obtain ⟨oh, hoh, hrest⟩ := bind_ok.mp (hoperation.symm.trans (inferMetadata_iff.mp (denote_iff.mp h).1).1)
    obtain ⟨ow, how, _⟩ := bind_ok.mp hrest
    exact ⟨oh, ow, hoh, how, Except.ok.inj (h.symm.trans (hok oh ow hoh how))⟩
  · rintro ⟨oh, ow, hoh, how, rfl⟩
    exact hok oh ow hoh how

/-- What the rule builds from the two output paddings. -/
theorem conv2d_strips {oh ow : Nat} (groups : Nat) (hg : g.shape = [n, o, sh, sw])
    (hw : w.shape = [o, cGroup, kh, kw]) (hdevice : w.device = g.device) (outPadH outPadW : Nat)
    (hoh : Metadata.convTransposeDim sh kh stride padding (min outPadH outPadW) dilation = .ok oh)
    (how : Metadata.convTransposeDim sw kw stride padding (min outPadH outPadW) dilation = .ok ow) :
    ∃ dx, (do
        let dx ← newNode (.convTranspose2d g w stride padding (min outPadH outPadW) dilation groups)
        let dx ← appendStrip g dx 2 (outPadH - min outPadH outPadW)
        appendStrip g dx 3 (outPadW - min outPadH outPadW)).interpret denote = .ok dx ∧
      (g.alike [n, cGroup * groups, oh, ow] (g.convTranspose2d stride padding dilation groups w)).Spread
        [n, cGroup * groups, oh + (outPadH - min outPadH outPadW), ow + (outPadW - min outPadH outPadW)]
        id dx := by
  have hnode := (denote_convTranspose2d groups hg hw hdevice).mpr ⟨oh, ow, hoh, how, rfl⟩
  obtain ⟨tall, htall, htallSpread⟩ := Value.Spread.appendStrip (g := g)
    (a := g.alike [n, cGroup * groups, oh, ow] (g.convTranspose2d stride padding dilation groups w))
    [n, cGroup * groups] [ow] rfl rfl rfl (outPadH - min outPadH outPadW)
  obtain ⟨dx, hdx, hdxSpread⟩ := Value.Spread.appendStrip (g := g) (a := tall)
    [n, cGroup * groups, oh + (outPadH - min outPadH outPadW)] []
    htallSpread.shape htallSpread.dtype.symm htallSpread.device.symm (outPadW - min outPadH outPadW)
  refine ⟨dx, ?_, htallSpread.trans hdxSpread⟩
  rw [NodeProgram.interpret_bind, NodeProgram.interpret_newNode, hnode, ok_bind, NodeProgram.interpret_bind]
  exact bind_ok.mpr ⟨tall, htall, hdx⟩

/-- A convolution that is accepted, with its sizes, and a value of its signature. -/
structure Conv2dNode (x w g : Value K) (stride padding dilation groups n c o cGroup lh lw kh kw sh sw : Nat) :
    Prop where
  operation : Metadata.operation (.conv2d x w stride padding dilation groups) =
    .ok ([n, o, sh, sw], x.dtype, x.device)
  accepts : Metadata.ConvAccepts x w stride dilation groups n c o cGroup [lh, lw] [kh, kw]
  height : Metadata.convOutDim lh kh stride padding dilation = .ok sh
  width : Metadata.convOutDim lw kw stride padding dilation = .ok sw
  shape : g.shape = [n, o, sh, sw]
  dtype : g.dtype = x.dtype
  device : g.device = x.device

/-- The sizes of the transposed convolution stay within machine words. -/
def PaddingFits (build : Build) (lh lw sh sw kh kw stride padding dilation : Nat) : Prop :=
  AxisFits build lh sh kh stride padding dilation ∧ AxisFits build lw sw kw stride padding dilation ∧
    2 * padding ≤ reach sh kh stride dilation +
      min (leftOver lh sh kh stride padding dilation) (leftOver lw sw kw stride padding dilation) ∧
    2 * padding ≤ reach sw kw stride dilation +
      min (leftOver lh sh kh stride padding dilation) (leftOver lw sw kw stride padding dilation)

/-- The size of an axis of the transposed convolution with the smaller output padding. -/
def coreSize (gSize kernel stride padding dilation minPad : Nat) : Nat :=
  reach gSize kernel stride dilation + minPad - 2 * padding

section Conv2d

variable {x w g : Value K} {stride padding dilation groups n c o cGroup lh lw kh kw sh sw : Nat}

omit [CommRing K] [Trigonometric K] in
theorem conv2dNode_of {x w g : Value K} {stride padding dilation groups : Nat}
    (hinfer : inferMetadata (.conv2d x w stride padding dilation groups) = .ok g.toSignature) :
    ∃ n c o cGroup lh lw kh kw sh sw,
      Conv2dNode x w g stride padding dilation groups n c o cGroup lh lw kh kw sh sw := by
  obtain ⟨hoperation, hdevice⟩ := inferMetadata_iff.mp hinfer
  obtain ⟨n, c, o, cGroup, lh, lw, kh, kw, sh, sw, haccepts, hsh, hsw, hresult⟩ := Metadata.conv2d_ok hoperation
  exact ⟨n, c, o, cGroup, lh, lw, kh, kw, sh, sw, hoperation.trans (congrArg Except.ok hresult), haccepts, hsh,
    hsw, congrArg Prod.fst hresult,
    congrArg (·.2.1) hresult, congrArg (·.2.2) hresult⟩

theorem conv2d_run (build : Build) (h : Conv2dNode x w g stride padding dilation groups n c o cGroup lh lw kh kw sh sw) :
    ∃ dw, (adjoint build (.conv2d x w stride padding dilation groups) g).interpret denote =
      outputPadding build lh sh kh stride padding dilation >>= fun outPadH =>
        outputPadding build lw sw kw stride padding dilation >>= fun outPadW =>
          (do
            let dx ← newNode (.convTranspose2d g w stride padding (min outPadH outPadW) dilation groups)
            let dx ← appendStrip g dx 2 (outPadH - min outPadH outPadW)
            appendStrip g dx 3 (outPadW - min outPadH outPadW)).interpret denote >>= fun dx =>
              .ok [(x, dx), (w, dw)] := by
  have hx : x.shape = [n, c, lh, lw] := h.accepts.input
  have hw : w.shape = [o, cGroup, kh, kw] := h.accepts.weight
  obtain ⟨dw, hdw⟩ : ∃ dw, denote (.conv2dBackwardW x g ((shapeOf w).getD 2 0, (shapeOf w).getD 3 0)
      ((shapeOf w).getD 0 0) stride padding dilation groups) = .ok dw :=
    ⟨_, denote_ok rfl (by simp [nodeChildren, h.device]) x.supported rfl⟩
  refine ⟨dw, ?_⟩
  rw [adjoint, NodeProgram.interpret_bind, conv2d, NodeProgram.interpret_bind, NodeProgram.interpret_lift,
    bind_assoc, shapeOf_value, shapeOf_value, shapeOf_value, hx, hw, h.shape]
  refine congrArg _ (funext fun outPadH => ?_)
  rw [NodeProgram.interpret_bind, NodeProgram.interpret_lift, bind_assoc]
  refine congrArg _ (funext fun outPadW => ?_)
  refine congrArg _ (funext fun dx => ?_)
  rw [NodeProgram.interpret_bind, NodeProgram.interpret_newNode]
  rw [shapeOf_value, hw] at hdw
  rw [hdw]
  rfl

/-- A transposed convolution and its strip are as large as the input. -/
theorem core_strip {size gSize kernel outPad minPad out : Nat}
    (hreach : reach gSize kernel stride dilation ≤ size + 2 * padding) (hmin : minPad ≤ outPad)
    (hout : Metadata.convTransposeDim gSize kernel stride padding minPad dilation = .ok out) :
    2 * padding ≤ reach gSize kernel stride dilation + minPad ∧
      out = coreSize gSize kernel stride padding dilation minPad ∧
      (out + (outPad - minPad) = size ↔ outPad = leftOver size gSize kernel stride padding dilation) := by
  obtain ⟨_, _, hle, rfl⟩ := Metadata.convTransposeDim_ok.mp hout
  have hsum : (gSize - 1) * stride + dilation * (kernel - 1) + minPad + 1 =
      reach gSize kernel stride dilation + minPad := by
    rw [reach]
    omega
  rw [hsum] at hle ⊢
  rw [coreSize, leftOver]
  exact ⟨hle, rfl, by omega⟩

theorem convTransposeDim_core {gSize kernel minPad : Nat} (hg : 1 ≤ gSize) (hkernel : 1 ≤ kernel)
    (hle : 2 * padding ≤ reach gSize kernel stride dilation + minPad) :
    Metadata.convTransposeDim gSize kernel stride padding minPad dilation =
      .ok (coreSize gSize kernel stride padding dilation minPad) := by
  refine Metadata.convTransposeDim_ok.mpr ⟨hg, hkernel, ?_, ?_⟩
  · rw [reach] at hle
    omega
  · rw [coreSize, reach]
    omega

/-- The rule builds a value of the shape of the input only if the sizes fit. -/
theorem paddingFits_of_run (h : Conv2dNode x w g stride padding dilation groups n c o cGroup lh lw kh kw sh sw)
    {dx : Value K} {rest : List (Value K × Value K)}
    (hrun : (adjoint build (.conv2d x w stride padding dilation groups) g).interpret denote = .ok ((x, dx) :: rest))
    (hshape : dx.shape = x.shape) : PaddingFits build lh lw sh sw kh kw stride padding dilation := by
  obtain ⟨hsh, hreachH⟩ := Metadata.convOutDim_reach h.height
  obtain ⟨hsw, hreachW⟩ := Metadata.convOutDim_reach h.width
  have hkh := (Metadata.convOutDim_ok.mp h.height).1
  have hkw := (Metadata.convOutDim_ok.mp h.width).1
  obtain ⟨dw, hall⟩ := conv2d_run build h
  obtain ⟨outPadH, hpadH, hrest⟩ := bind_ok.mp (hall.symm.trans hrun)
  obtain ⟨outPadW, hpadW, hrest⟩ := bind_ok.mp hrest
  obtain ⟨dx', hstrips, hrest⟩ := bind_ok.mp hrest
  cases hrest
  have hnode := hstrips
  rw [NodeProgram.interpret_bind, NodeProgram.interpret_newNode] at hnode
  obtain ⟨core, hcore, _⟩ := bind_ok.mp hnode
  have hweight : w.device = g.device := h.accepts.device.symm.trans h.device.symm
  obtain ⟨oh, ow, hoh, how, _⟩ := (denote_convTranspose2d groups h.shape h.accepts.weight hweight).mp hcore
  obtain ⟨dx', hstrips', hspread⟩ := conv2d_strips groups h.shape h.accepts.weight hweight
    outPadH outPadW hoh how
  obtain rfl := Except.ok.inj (hstrips.symm.trans hstrips')
  have hsizes := hspread.shape.symm.trans (hshape.trans h.accepts.input)
  obtain ⟨hleH, _, heqH⟩ := core_strip hreachH (Nat.min_le_left outPadH outPadW) hoh
  obtain ⟨hleW, _, heqW⟩ := core_strip hreachW (Nat.min_le_right outPadH outPadW) how
  obtain rfl := heqH.mp (List.cons.inj (List.cons.inj (List.cons.inj hsizes).2).2).1
  obtain rfl := heqW.mp (List.cons.inj (List.cons.inj (List.cons.inj (List.cons.inj hsizes).2).2).2).1
  exact ⟨(outputPadding_eq hsh hkh hreachH).mp hpadH, (outputPadding_eq hsw hkw hreachW).mp hpadW, hleH, hleW⟩

/-- If the sizes fit, it builds the transposed convolution, with zeros in the strips. -/
theorem run_of_paddingFits (h : Conv2dNode x w g stride padding dilation groups n c o cGroup lh lw kh kw sh sw)
    (hfits : PaddingFits build lh lw sh sw kh kw stride padding dilation) :
    ∃ dx dw, (adjoint build (.conv2d x w stride padding dilation groups) g).interpret denote =
        .ok [(x, dx), (w, dw)] ∧ dx.shape = x.shape ∧
      Places [n, c,
          coreSize sh kh stride padding dilation (min (leftOver lh sh kh stride padding dilation)
            (leftOver lw sw kw stride padding dilation)),
          coreSize sw kw stride padding dilation (min (leftOver lh sh kh stride padding dilation)
            (leftOver lw sw kw stride padding dilation))]
        [n, c, lh, lw] id (g.convTranspose2d stride padding dilation groups w) dx.data := by
  obtain ⟨hsh, hreachH⟩ := Metadata.convOutDim_reach h.height
  obtain ⟨hsw, hreachW⟩ := Metadata.convOutDim_reach h.width
  have hkh := (Metadata.convOutDim_ok.mp h.height).1
  have hkw := (Metadata.convOutDim_ok.mp h.width).1
  obtain ⟨hfitsH, hfitsW, hleH, hleW⟩ := hfits
  have hoh := convTransposeDim_core hsh hkh hleH
  have how := convTransposeDim_core hsw hkw hleW
  obtain ⟨_, _, heqH⟩ := core_strip hreachH (Nat.min_le_left _ _) hoh
  obtain ⟨_, _, heqW⟩ := core_strip hreachW (Nat.min_le_right _ _) how
  have hweight : w.device = g.device := h.accepts.device.symm.trans h.device.symm
  obtain ⟨dx, hstrips, hspread⟩ := conv2d_strips groups h.shape h.accepts.weight hweight _ _ hoh how
  have hchannels : cGroup * groups = c := (Nat.mul_comm _ _).trans h.accepts.channels.symm
  rw [heqH.mpr rfl, heqW.mpr rfl, hchannels] at hspread
  obtain ⟨dw, hall⟩ := conv2d_run build h
  refine ⟨dx, dw, ?_, hspread.shape.trans h.accepts.input.symm, hspread.places⟩
  rw [hall, (outputPadding_eq hsh hkh hreachH).mpr hfitsH, ok_bind, (outputPadding_eq hsw hkw hreachW).mpr hfitsW,
    ok_bind, hstrips]
  rfl

theorem conv2d_forward (h : Conv2dNode x w g stride padding dilation groups n c o cGroup lh lw kh kw sh sw) :
    denote (.conv2d x w stride padding dilation groups) =
      .ok (x.alike [n, o, sh, sw] (x.conv2d stride padding dilation groups w)) := by
  refine denote_ok h.operation ?_ x.supported rfl
  have hdevice : w.device = x.device := h.accepts.device.symm
  simp [nodeChildren, hdevice]

/-- No tap reads an input that is behind the transposed convolution. -/
def CoreReads (stride padding dilation : Nat) (gShape wShape : List Nat) (lh lw coreH coreW : Nat) : Prop :=
  ∀ i a ty tx ch ky kx y x', Coordinate gShape [i, a, ty, tx] → Coordinate wShape [a, ch, ky, kx] →
    Value.tapAt stride padding dilation lh ty ky = some y →
    Value.tapAt stride padding dilation lw tx kx = some x' → y < coreH ∧ x' < coreW

omit [Trigonometric K] in
/-- The transposed convolution is zero where no tap reads. -/
theorem convTranspose2d_zero (h : Conv2dNode x w g stride padding dilation groups n c o cGroup lh lw kh kw sh sw)
    {coreH coreW i a y x' : Nat} (hreads : CoreReads stride padding dilation g.shape w.shape lh lw coreH coreW)
    (hc : Coordinate [n, c, lh, lw] [i, a, y, x']) (hbehind : ¬ (y < coreH ∧ x' < coreW)) :
    g.convTranspose2d stride padding dilation groups w [i, a, y, x'] = 0 := by
  rw [Value.convTranspose2d_eq h.shape h.accepts.weight rfl]
  refine Finset.sum_eq_zero fun ch hch => Finset.sum_eq_zero fun t ht => Finset.sum_eq_zero fun u hu =>
    if_neg fun hits => hbehind ?_
  obtain ⟨hi, ha, hy, hx⟩ := coordinate_four.mp hc
  obtain ⟨hty, htx⟩ := Finset.mem_product.mp ht
  obtain ⟨hky, hkx⟩ := Finset.mem_product.mp hu
  rw [h.accepts.channels] at ha
  have hpos : 0 < cGroup := Nat.pos_of_mul_pos_left (Nat.zero_lt_of_lt ha)
  have houtput : a / cGroup * (o / groups) + ch < o :=
    Nat.lt_of_lt_of_eq (block_lt ha (Finset.mem_range.mp hch)) h.accepts.outputs.symm
  refine hreads i (a / cGroup * (o / groups) + ch) t.1 t.2 (a % cGroup) u.1 u.2 y x' ?_ ?_
    (Value.tapAt_eq.mpr ⟨hy, hits.1⟩) (Value.tapAt_eq.mpr ⟨hx, hits.2⟩)
  · rw [h.shape]
    exact coordinate_four.mpr ⟨hi, houtput, Finset.mem_range.mp hty, Finset.mem_range.mp htx⟩
  · rw [show w.shape = _ from h.accepts.weight]
    exact coordinate_four.mpr ⟨houtput, Nat.mod_lt _ hpos, Finset.mem_range.mp hky, Finset.mem_range.mp hkx⟩

/-- The sizes and taps for which the rule for two dimensions is exact. -/
def StripsFit (build : Build) (gShape wShape : List Nat) (lh lw sh sw kh kw stride padding dilation : Nat) : Prop :=
  PaddingFits build lh lw sh sw kh kw stride padding dilation ∧
    CoreReads stride padding dilation gShape wShape lh lw
      (coreSize sh kh stride padding dilation (min (leftOver lh sh kh stride padding dilation)
        (leftOver lw sw kw stride padding dilation)))
      (coreSize sw kw stride padding dilation (min (leftOver lh sh kh stride padding dilation)
        (leftOver lw sw kw stride padding dilation)))

theorem conv2d_transposed (h : Conv2dNode x w g stride padding dilation groups n c o cGroup lh lw kh kw sh sw)
    (hfits : StripsFit build g.shape w.shape lh lw sh sw kh kw stride padding dilation) :
    Transposed build (.conv2d x w stride padding dilation groups) x g := by
  obtain ⟨dx, dw, hrun, hshape, hplaces⟩ := run_of_paddingFits h hfits.1
  have hx : x.shape = [n, c, lh, lw] := h.accepts.input
  have hdata : ∀ k, Coordinate [n, c, lh, lw] k →
      dx.data k = g.convTranspose2d stride padding dilation groups w k := by
    intro k hk
    obtain ⟨i, a, y, x', rfl⟩ := length_eq_four.mp hk.length_eq
    obtain ⟨hi, ha, hy, hx'⟩ := coordinate_four.mp hk
    by_cases hcore : y < coreSize sh kh stride padding dilation (min (leftOver lh sh kh stride padding dilation)
          (leftOver lw sw kw stride padding dilation)) ∧
        x' < coreSize sw kw stride padding dilation (min (leftOver lh sh kh stride padding dilation)
          (leftOver lw sw kw stride padding dilation))
    · exact hplaces.placed _ (coordinate_four.mpr ⟨hi, ha, hcore⟩)
    · rw [convTranspose2d_zero h hfits.2 hk hcore]
      exact hplaces.zero _ hk fun k' hk' heq => hcore (coordinate_four.mp ((show k' = _ from heq) ▸ hk')).2.2
  refine ⟨_, dx, [(w, dw)], conv2d_forward h, hrun, hshape, ?_⟩
  rw [inner, inner, hshape, hx, h.shape]
  refine (Value.conv2d_adjoint hx h.accepts.weight h.shape h.accepts.channels h.accepts.outputs).trans ?_
  exact sumOver_congr fun k hk => congrArg (· * x.data k) (hdata k hk).symm

/-- One at a coordinate and zero elsewhere. -/
def indicator (k : List Nat) : List Nat → Elem K := fun k' => if k' = k then 1 else 0

omit [Trigonometric K] in
theorem conv2d_indicators {i a ty tx ch ky kx y x' : Nat} (hx : x.shape = [n, c, lh, lw])
    (hw : w.shape = [o, cGroup, kh, kw]) (hweight : Coordinate [o, cGroup, kh, kw] [a, ch, ky, kx])
    (hy : Value.tapAt stride padding dilation lh ty ky = some y)
    (hx' : Value.tapAt stride padding dilation lw tx kx = some x')
    (hxdata : x.data = indicator [i, a / (o / groups) * cGroup + ch, y, x'])
    (hwdata : w.data = indicator [a, ch, ky, kx]) :
    x.conv2d stride padding dilation groups w [i, a, ty, tx] = 1 := by
  obtain ⟨_, hch, hky, hkx⟩ := coordinate_four.mp hweight
  -- every other tap has the weight zero
  have hother : ∀ ch' ky' kx', [a, ch', ky', kx'] ≠ [a, ch, ky, kx] →
      ((Value.tapAt stride padding dilation lh ty ky').elim 0 fun y =>
        (Value.tapAt stride padding dilation lw tx kx').elim 0 fun x' =>
          x.data [i, a / (o / groups) * cGroup + ch', y, x'] * w.data [a, ch', ky', kx']) = 0 := by
    intro ch' ky' kx' hne
    rw [hwdata, indicator, if_neg hne]
    cases Value.tapAt stride padding dilation lh ty ky' with
    | none => rfl
    | some y' =>
      cases Value.tapAt stride padding dilation lw tx kx' with
      | none => rfl
      | some x'' => exact mul_zero _
  rw [Value.conv2d, hx, hw]
  refine (Finset.sum_eq_single_of_mem ch (Finset.mem_range.mpr hch) fun ch' _ hne => ?_).trans ?_
  · exact Finset.sum_eq_zero fun ky' _ => Finset.sum_eq_zero fun kx' _ => hother ch' ky' kx' (by simp [hne])
  refine (Finset.sum_eq_single_of_mem ky (Finset.mem_range.mpr hky) fun ky' _ hne => ?_).trans ?_
  · exact Finset.sum_eq_zero fun kx' _ => hother ch ky' kx' (by simp [hne])
  refine (Finset.sum_eq_single_of_mem kx (Finset.mem_range.mpr hkx) fun kx' _ hne => ?_).trans ?_
  · exact hother ch ky kx' (by simp [hne])
  show ((Value.tapAt stride padding dilation lh ty ky).elim 0 fun y =>
    (Value.tapAt stride padding dilation lw tx kx).elim 0 fun x' =>
      x.data [i, a / (o / groups) * cGroup + ch, y, x'] * w.data [a, ch, ky, kx]) = 1
  rw [hy, hx', Option.elim_some, Option.elim_some, hxdata, hwdata]
  show indicator _ _ * indicator _ _ = 1
  rw [indicator, indicator, if_pos rfl, if_pos rfl, mul_one]

/-- If the rule is exact for the values of one input, one weight and one cotangent, the tap between
them does not read behind the transposed convolution. -/
theorem coreReads_of_transposed
    (h : Conv2dNode x w g stride padding dilation groups n c o cGroup lh lw kh kw sh sw)
    (i a ty tx ch ky kx y x' : Nat) (hout : Coordinate [n, o, sh, sw] [i, a, ty, tx])
    (hweight : Coordinate [o, cGroup, kh, kw] [a, ch, ky, kx])
    (hy : Value.tapAt stride padding dilation lh ty ky = some y)
    (hx' : Value.tapAt stride padding dilation lw tx kx = some x')
    (hxdata : x.data = indicator [i, a / (o / groups) * cGroup + ch, y, x'])
    (hwdata : w.data = indicator [a, ch, ky, kx]) (hgdata : g.data = indicator [i, a, ty, tx])
    (htransposed : Transposed build (.conv2d x w stride padding dilation groups) x g) :
    y < coreSize sh kh stride padding dilation (min (leftOver lh sh kh stride padding dilation)
        (leftOver lw sw kw stride padding dilation)) ∧
      x' < coreSize sw kw stride padding dilation (min (leftOver lh sh kh stride padding dilation)
        (leftOver lw sw kw stride padding dilation)) := by
  by_contra hbehind
  obtain ⟨out, dx, rest, hforward, hrun, hshape, hinner⟩ := htransposed
  obtain rfl := Except.ok.inj (hforward.symm.trans (conv2d_forward h))
  obtain ⟨dx', dw, hrun', _, hplaces⟩ := run_of_paddingFits h (paddingFits_of_run h hrun hshape)
  obtain rfl : dx = dx' :=
    congrArg Prod.snd (List.cons.inj (Except.ok.inj (hrun.symm.trans hrun'))).1
  obtain ⟨hi, ha, _, _⟩ := coordinate_four.mp hout
  obtain ⟨_, hch, _, _⟩ := coordinate_four.mp hweight
  rw [h.accepts.outputs] at ha
  have hinput : Coordinate [n, c, lh, lw] [i, a / (o / groups) * cGroup + ch, y, x'] :=
    coordinate_four.mpr ⟨hi, Nat.lt_of_lt_of_eq (block_lt ha hch) h.accepts.channels.symm,
      (Value.tapAt_eq.mp hy).1, (Value.tapAt_eq.mp hx').1⟩
  have hdx : dx.data [i, a / (o / groups) * cGroup + ch, y, x'] = 0 :=
    hplaces.zero _ hinput fun k hk heq => hbehind (coordinate_four.mp ((show k = _ from heq) ▸ hk)).2.2
  have hone : inner g (x.alike [n, o, sh, sw] (x.conv2d stride padding dilation groups w)) = 1 := by
    rw [inner, h.shape, hgdata, sumOver_single hout fun k _ hne => by rw [indicator, if_neg hne, zero_mul], indicator,
      if_pos rfl, one_mul]
    exact conv2d_indicators h.accepts.input h.accepts.weight hweight hy hx' hxdata hwdata
  have hzero : inner dx x = 0 := by
    rw [inner, hshape, show x.shape = _ from h.accepts.input, hxdata, sumOver_single hinput fun k _ hne => by
      rw [indicator, if_neg hne, mul_zero], hdx, zero_mul]
  exact one_ne_zero (congrArg Prod.snd (hone.symm.trans (hinner.trans hzero)))

end Conv2d

/-- A value of a signature. -/
def valued (s : Signature) (data : List Nat → Elem K) : Value K := { s with data }

omit [CommRing K] [Trigonometric K] in
theorem Conv2dNode.other {x w g : Signature} {groups c lh lw : Nat} {fx fw fg : List Nat → Elem K}
    (h : Conv2dNode (valued x fx) (valued w fw) (valued g fg) stride padding dilation groups n c o cGroup lh lw kh kw sh sw)
    (fx' fw' fg' : List Nat → Elem K) :
    Conv2dNode (valued x fx') (valued w fw') (valued g fg') stride padding dilation groups n c o cGroup lh lw
      kh kw sh sw where
  operation := h.operation
  accepts := { h.accepts with }
  height := h.height
  width := h.width
  shape := h.shape
  dtype := h.dtype
  device := h.device

/-- The rule for a convolution gives its transpose, whatever the values of the input, the weight and
the cotangent `g`. -/
def ConvExact (K : Type) [CommRing K] [Trigonometric K] (build : Build) : NodeKind Signature → Signature → Prop
  | .conv1d x w stride padding dilation groups, g => ∀ fx fw fg : List Nat → Elem K,
    Transposed build (.conv1d (valued x fx) (valued w fw) stride padding dilation groups) (valued x fx)
      (valued g fg)
  | .conv2d x w stride padding dilation groups, g => ∀ fx fw fg : List Nat → Elem K,
    Transposed build (.conv2d (valued x fx) (valued w fw) stride padding dilation groups) (valued x fx)
      (valued g fg)
  | _, _ => True

/-- The geometries of convolutions for which the rules are exact. -/
def ConvFits (build : Build) : NodeKind Signature → Signature → Prop
  | .conv1d x w stride padding dilation _, g =>
    AxisFits build (x.shape.getD 2 0) (g.shape.getD 2 0) (w.shape.getD 2 0) stride padding dilation
  | .conv2d x w stride padding dilation _, g =>
    StripsFit build g.shape w.shape (x.shape.getD 2 0) (x.shape.getD 3 0) (g.shape.getD 2 0) (g.shape.getD 3 0)
      (w.shape.getD 2 0) (w.shape.getD 3 0) stride padding dilation
  | _, _ => True

end Adjoint

variable [Trigonometric K]

/-- The rule for a convolution is exact if and only if its sizes stay within machine words and, in two
dimensions, no tap reads where the smaller output padding leaves a strip of zeros. -/
theorem convAdjoint_exact_iff {build : Build} {kind : NodeKind Signature} {g : Signature}
    (hinfer : inferMetadata kind = .ok g) : Adjoint.ConvExact K build kind g ↔ Adjoint.ConvFits build kind g := by
  obtain ⟨hoperation, hdevice⟩ := inferMetadata_iff.mp hinfer
  cases kind with
  | conv1d x w stride padding dilation groups =>
    have hvalued : ∀ fx fw fg : List Nat → Elem K,
        inferMetadata (.conv1d (Adjoint.valued x fx) (Adjoint.valued w fw) stride padding dilation groups) =
          .ok (Adjoint.valued g fg).toSignature := by
      intro fx fw fg
      refine inferMetadata_iff.mpr ⟨hoperation, ?_⟩
      simp only [nodeChildren, forall_mem_cons, not_mem_nil] at hdevice ⊢
      exact ⟨hdevice.1, hdevice.2.1, fun _ h => h.elim⟩
    constructor
    · intro hexact
      exact (Adjoint.conv1d_transposed_iff (hvalued (fun _ => 0) (fun _ => 0) fun _ => 0)).mp (hexact _ _ _)
    · intro hfits fx fw fg
      exact (Adjoint.conv1d_transposed_iff (hvalued fx fw fg)).mpr hfits
  | conv2d x w stride padding dilation groups =>
    have hvalued : ∀ fx fw fg : List Nat → Elem K,
        inferMetadata (.conv2d (Adjoint.valued x fx) (Adjoint.valued w fw) stride padding dilation groups) =
          .ok (Adjoint.valued g fg).toSignature := by
      intro fx fw fg
      refine inferMetadata_iff.mpr ⟨hoperation, ?_⟩
      simp only [nodeChildren, forall_mem_cons, not_mem_nil] at hdevice ⊢
      exact ⟨hdevice.1, hdevice.2.1, fun _ h => h.elim⟩
    obtain ⟨n, c, o, cGroup, lh, lw, kh, kw, sh, sw, h⟩ :=
      Adjoint.conv2dNode_of (hvalued (fun _ => 0) (fun _ => 0) fun _ => 0)
    have hx : x.shape = [n, c, lh, lw] := h.accepts.input
    have hw : w.shape = [o, cGroup, kh, kw] := h.accepts.weight
    have hg : g.shape = [n, o, sh, sw] := h.shape
    have hfits : Adjoint.ConvFits build (.conv2d x w stride padding dilation groups) g ↔
        Adjoint.StripsFit build [n, o, sh, sw] [o, cGroup, kh, kw] lh lw sh sw kh kw stride padding dilation := by
      rw [Adjoint.ConvFits, hx, hw, hg]
      exact Iff.rfl
    rw [hfits]
    constructor
    · intro hexact
      refine ⟨?_, fun i a ty tx ch ky kx y x' hout hweight hy hx' => ?_⟩
      · obtain ⟨_, dx, rest, _, hrun, hshape, _⟩ := hexact (fun _ => 0) (fun _ => 0) fun _ => 0
        exact Adjoint.paddingFits_of_run h hrun hshape
      · exact Adjoint.coreReads_of_transposed (h.other _ _ _) _ _ _ _ _ _ _ _ _ hout hweight hy hx' rfl rfl rfl (hexact _ _ _)
    · intro hstrips fx fw fg
      refine Adjoint.conv2d_transposed (h.other fx fw fg) ?_
      rw [(h.other fx fw fg).shape, show (Adjoint.valued w fw).shape = _ from hw]
      exact hstrips
  | _ => exact Iff.rfl

/-- Floats on the CPU. -/
def floats (shape : List Nat) : Signature := ⟨shape, .f32, .cpu 0, supported_f32⟩

/-- Both axes have the same size, and nothing is left over. -/
theorem convAdjoint_exact_square : Adjoint.ConvExact Int .wrapping
    (.conv2d (floats [1, 1, 3, 3]) (floats [1, 1, 3, 3]) 2 1 1 1) (floats [1, 1, 2, 2]) := by
  refine (@convAdjoint_exact_iff Int _ _ _
    (.conv2d (floats [1, 1, 3, 3]) (floats [1, 1, 3, 3]) 2 1 1 1) _ rfl).mpr
    ⟨⟨.inl ?_, .inl ?_, ?_, ?_⟩, ?_⟩
  · decide
  · decide
  · decide
  · decide
  · intro i a ty tx ch ky kx y x' _ _ hy hx'
    exact ⟨(Value.tapAt_eq.mp hy).1, (Value.tapAt_eq.mp hx').1⟩

/-- The last column of the input is read by the last tap of the last output, but it is in the strip. -/
theorem convAdjoint_three_by_four :
    inferMetadata (.conv2d (floats [1, 1, 3, 4]) (floats [1, 1, 3, 3]) 2 1 1 1) = .ok (floats [1, 1, 2, 2]) ∧
    ¬ Adjoint.ConvExact Int .wrapping (.conv2d (floats [1, 1, 3, 4]) (floats [1, 1, 3, 3]) 2 1 1 1)
      (floats [1, 1, 2, 2]) := by
  have hinfer : inferMetadata (.conv2d (floats [1, 1, 3, 4]) (floats [1, 1, 3, 3]) 2 1 1 1) =
      .ok (floats [1, 1, 2, 2]) := rfl
  refine ⟨hinfer, fun hexact => ?_⟩
  have hnode : ∀ fx fw fg : List Nat → Elem Int, Adjoint.Conv2dNode (Adjoint.valued (floats [1, 1, 3, 4]) fx)
      (Adjoint.valued (floats [1, 1, 3, 3]) fw) (Adjoint.valued (floats [1, 1, 2, 2]) fg)
      2 1 1 1 1 1 1 1 3 4 3 3 2 2 := by
    intro fx fw fg
    exact ⟨(inferMetadata_iff.mp hinfer).1, ⟨rfl, rfl, by decide, by decide, rfl, rfl, rfl, rfl⟩, rfl, rfl, rfl,
      rfl, rfl⟩
  have hbehind := Adjoint.coreReads_of_transposed (hnode _ _ _) 0 0 0 1 0 1 2 0 3 (by decide) (by decide) rfl rfl
    rfl rfl rfl (hexact _ _ _)
  exact absurd hbehind.2 (by decide)

end EffectTorch
