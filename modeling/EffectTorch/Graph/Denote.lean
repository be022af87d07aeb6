import EffectTorch.Graph.Metadata
import EffectTorch.Lib.Tensor
import Mathlib.Algebra.Ring.Prod
import Mathlib.Algebra.Ring.Int.Defs

/-!
# Values of the tensor operations

What the operations of `Graph.Metadata` compute, with exact arithmetic in a ring. An operation on
values returns the node that it builds with its value; it stops where the node is not accepted. The
value is the one that the kernels return where they accept the operands.
-/

namespace EffectTorch
open Lib

/-- An element: its value, if its tensor has a float dtype, else its integer. -/
abbrev Elem (K : Type) := K × Int

/-- The value of a node. -/
structure Value (K : Type) extends Signature where
  data : List Nat → Elem K

instance {K : Type} : Described (Value K) where
  metadata := fun v => ⟨v.shape, v.dtype, v.device, .dense⟩

/-- The sine and the cosine of a ring. -/
class Trigonometric (K : Type) where
  sin : K → K
  cos : K → K

/-- Every angle of the integers is a full turn. -/
instance : Trigonometric Int := ⟨fun _ => 0, fun _ => 1⟩

namespace Value

variable {K : Type}

/-- The element of a repetition of `a`. -/
def repeated (a : Value K) (c : List Nat) : Elem K :=
  a.data (squash a.shape (c.drop (c.length - a.shape.length)))

/-- The position that an index tensor names. -/
def index (indexes : Value K) (c : List Nat) : Nat := (indexes.data c).2.toNat

def InBounds (indexes : Value K) (extent : Nat) (c : List Nat) : Prop :=
  0 ≤ (indexes.data c).2 ∧ (indexes.data c).2 < extent

/-- The kernel of an operation accepts its operands: the indices that it reads are in bounds, and
what is scattered is not larger than the target. -/
def Evaluates : NodeKind (Value K) → Prop
  | .indexSelect a dim indexes => ∀ c, Coordinate (a.shape.set dim (indexes.shape.getD 0 0)) c →
    indexes.InBounds (a.shape.getD dim 0) [c.getD dim 0]
  | .gather a dim indexes => ∀ c, Coordinate indexes.shape c →
    indexes.InBounds (a.shape.getD dim 0) c
  | .scatterAdd a dim indexes src => src.shape.length = a.shape.length ∧
    (∀ i < a.shape.length, i ≠ dim → src.shape.getD i 0 ≤ a.shape.getD i 0) ∧
    ∀ c, Coordinate src.shape c → indexes.InBounds (a.shape.getD dim 0) c
  | _ => True

section Convolution

variable [CommRing K] (stride padding dilation groups : Nat)

/-- The component of the input that a kernel tap of an output reads, if it is not padding. -/
def tapAt (size t tap : Nat) : Option Nat :=
  let expanded := t * stride + tap * dilation
  if padding ≤ expanded ∧ expanded - padding < size then some (expanded - padding) else none

def conv1d (x w : Value K) : List Nat → Elem K
  | [n, o, t] =>
    let cGroup := w.shape.getD 1 0
    let group := o / (w.shape.getD 0 0 / groups)
    ∑ ch ∈ Finset.range cGroup, ∑ tap ∈ Finset.range (w.shape.getD 2 0),
      (tapAt stride padding dilation (x.shape.getD 2 0) t tap).elim 0 fun position =>
        x.data [n, group * cGroup + ch, position] * w.data [o, ch, tap]
  | _ => 0

def conv2d (x w : Value K) : List Nat → Elem K
  | [n, o, ty, tx] =>
    let cGroup := w.shape.getD 1 0
    let group := o / (w.shape.getD 0 0 / groups)
    ∑ ch ∈ Finset.range cGroup, ∑ ky ∈ Finset.range (w.shape.getD 2 0),
      ∑ kx ∈ Finset.range (w.shape.getD 3 0),
        (tapAt stride padding dilation (x.shape.getD 2 0) ty ky).elim 0 fun y =>
          (tapAt stride padding dilation (x.shape.getD 3 0) tx kx).elim 0 fun x' =>
            x.data [n, group * cGroup + ch, y, x'] * w.data [o, ch, ky, kx]
  | _ => 0

/-- Each input is scattered to the outputs that its taps name. -/
def convTranspose1d (x w : Value K) : List Nat → Elem K
  | [n, o, out] =>
    let oGroup := w.shape.getD 1 0
    let iGroup := x.shape.getD 1 0 / groups
    ∑ ch ∈ Finset.range iGroup, ∑ t ∈ Finset.range (x.shape.getD 2 0),
      ∑ tap ∈ Finset.range (w.shape.getD 2 0),
        if t * stride + tap * dilation = out + padding then
          x.data [n, o / oGroup * iGroup + ch, t] * w.data [o / oGroup * iGroup + ch, o % oGroup, tap]
        else 0
  | _ => 0

def convTranspose2d (x w : Value K) : List Nat → Elem K
  | [n, o, outY, outX] =>
    let oGroup := w.shape.getD 1 0
    let iGroup := x.shape.getD 1 0 / groups
    ∑ ch ∈ Finset.range iGroup, ∑ ty ∈ Finset.range (x.shape.getD 2 0),
      ∑ tx ∈ Finset.range (x.shape.getD 3 0), ∑ ky ∈ Finset.range (w.shape.getD 2 0),
        ∑ kx ∈ Finset.range (w.shape.getD 3 0),
          if ty * stride + ky * dilation = outY + padding ∧ tx * stride + kx * dilation = outX + padding then
            x.data [n, o / oGroup * iGroup + ch, ty, tx] *
              w.data [o / oGroup * iGroup + ch, o % oGroup, ky, kx]
          else 0
  | _ => 0

def conv1dBackwardW (outChannels : Nat) (x g : Value K) : List Nat → Elem K
  | [o, ch, tap] =>
    let cGroup := x.shape.getD 1 0 / groups
    let group := o / (outChannels / groups)
    ∑ n ∈ Finset.range (x.shape.getD 0 0), ∑ t ∈ Finset.range (g.shape.getD 2 0),
      (tapAt stride padding dilation (x.shape.getD 2 0) t tap).elim 0 fun position =>
        x.data [n, group * cGroup + ch, position] * g.data [n, o, t]
  | _ => 0

def conv2dBackwardW (outChannels : Nat) (x g : Value K) : List Nat → Elem K
  | [o, ch, ky, kx] =>
    let cGroup := x.shape.getD 1 0 / groups
    let group := o / (outChannels / groups)
    ∑ n ∈ Finset.range (x.shape.getD 0 0), ∑ ty ∈ Finset.range (g.shape.getD 2 0),
      ∑ tx ∈ Finset.range (g.shape.getD 3 0),
        (tapAt stride padding dilation (x.shape.getD 2 0) ty ky).elim 0 fun y =>
          (tapAt stride padding dilation (x.shape.getD 3 0) tx kx).elim 0 fun x' =>
            x.data [n, group * cGroup + ch, y, x'] * g.data [n, o, ty, tx]
  | _ => 0

end Convolution

variable [CommRing K] [Trigonometric K]

/-- The elements of the result of an operation. -/
def compute : NodeKind (Value K) → Fallible String (List Nat → Elem K)
  | .zeros _ _ _ => .ok fun _ => 0
  | .add a b => .ok fun c => a.repeated c + b.repeated c
  | .mul a b => .ok fun c => a.repeated c * b.repeated c
  | .neg a => .ok fun c => - a.data c
  | .sin a => .ok fun c => (Trigonometric.sin (a.data c).1, 0)
  | .cos a => .ok fun c => (Trigonometric.cos (a.data c).1, 0)
  | .cast a dtype =>
    match a.dtype.isFloat, dtype.isFloat with
    | false, true => .ok fun c => (((a.data c).2 : Int), 0)
    | true, false => fail "a cast that rounds to integers"
    | _, _ => .ok a.data
  | .indexSelect a dim indexes => .ok fun c => a.data (c.set dim (indexes.index [c.getD dim 0]))
  | .gather a dim indexes => .ok fun c => a.data (c.set dim (indexes.index c))
  | .scatterAdd a dim indexes src => .ok fun c => a.data c + sumOver src.shape fun k =>
    if k.set dim (indexes.index k) = c then src.data k else 0
  | .conv1d x w stride padding dilation groups => .ok (x.conv1d stride padding dilation groups w)
  | .conv2d x w stride padding dilation groups => .ok (x.conv2d stride padding dilation groups w)
  | .convTranspose1d x w stride padding _ dilation groups =>
    .ok (x.convTranspose1d stride padding dilation groups w)
  | .convTranspose2d x w stride padding _ dilation groups =>
    .ok (x.convTranspose2d stride padding dilation groups w)
  | .conv1dBackwardW x g _ outChannels stride padding dilation groups =>
    .ok (x.conv1dBackwardW stride padding dilation groups outChannels g)
  | .conv2dBackwardW x g _ outChannels stride padding dilation groups =>
    .ok (x.conv2dBackwardW stride padding dilation groups outChannels g)
  | .reshape a shape => .ok (reshaped a.shape shape a.data)
  | .slice a ranges => .ok fun c =>
    a.data (List.zipWith (fun (start, _, stride) x => start + x * stride) ranges c)
  | .concat a b dim => .ok fun c =>
    let size := a.shape.getD dim 0
    if c.getD dim 0 < size then a.data c else b.data (c.set dim (c.getD dim 0 - size))
  | .broadcastTo a _ => .ok a.repeated
  | _ => fail "an operation that is not among those of this module"

end Value

/-- `Node::new`, with the value of the node. -/
def denote {K : Type} [CommRing K] [Trigonometric K] (kind : NodeKind (Value K)) :
    Fallible String (Value K) := do
  let signature ← inferMetadata kind
  let data ← Value.compute kind
  return { signature with data }

/-- The kernels accept every node of a program. -/
def NodeProgram.Evaluates {K α : Type} [CommRing K] [Trigonometric K] : NodeProgram (Value K) α → Prop
  | .done _ => True
  | .error _ => False
  | .new kind next => Value.Evaluates kind ∧ ∀ v, denote kind = .ok v → (next v).Evaluates

end EffectTorch
