import EffectTorch.Lib.Postorder
import EffectTorch.Runtime.Storage

/-!
# Semantic graphs

`NodeKind`, `Node` and `node_children` of `graph/src/lib.rs`. A node is known by its id;
`NodeKind ν` has operands in `ν`, which is ids in a graph. Nodes are built after their
operands, so a graph is acyclic.
-/

namespace EffectTorch
open Lib

/-! ## Attributes -/

inductive CrossEntropyReduction where
  | mean
  | sum
deriving DecidableEq, Repr

inductive PositionOffset where
  | absolute
  | cursor
deriving DecidableEq, Repr

/-- How a local attention window is declared. `Inherit` takes the default. -/
inductive AttentionWindow where
  | inherit
  | full
  | localTo (window : Nat)
deriving DecidableEq, Repr

/-- `AttentionWindow::resolve`. -/
def AttentionWindow.resolve (inherited : Option Nat) : AttentionWindow → Option Nat
  | inherit => inherited
  | full => none
  | localTo window => some window

inductive AttentionRounding where
  | fused
  | stepwise
deriving DecidableEq, Repr

inductive RotaryLayout where
  | halfSplit
  | interleavedPairs
deriving DecidableEq, Repr

inductive KvAttentionMode where
  | causal
  | bidirectionalBlock
deriving DecidableEq, Repr

/-! ## Nodes -/

/-- The operations; a leaf is known by the address of its slot. -/
inductive NodeKind (ν : Type) where
  | leaf (slot : Nat)
  | input (slot : Nat) (shape : List Nat) (dtype : DType) (device : Device)
      (storage : StorageMetadata)
  | scalarInput (slot : Nat) (dtype : DType) (device : Device)
  | fromBytes (data : List UInt8) (shape : List Nat) (dtype : DType) (device : Device)
  | zeros (shape : List Nat) (dtype : DType) (device : Device)
  | ones (shape : List Nat) (dtype : DType) (device : Device)
  | full (shape : List Nat) (value : F64) (dtype : DType) (device : Device)
  | randn (shape : List Nat) (dtype : DType) (device : Device)
  | uniform (lo hi : F64) (shape : List Nat) (dtype : DType) (device : Device)
  | arange (start stop step : F64) (dtype : DType) (device : Device)
  | eye (n : Nat) (dtype : DType) (device : Device)
  | add (a b : ν)
  | sub (a b : ν)
  | mul (a b : ν)
  | div (a b : ν)
  | eq (a b : ν)
  | gt (a b : ν)
  | lt (a b : ν)
  | ge (a b : ν)
  | le (a b : ν)
  | maximum (a b : ν)
  | minimum (a b : ν)
  | neg (a : ν)
  | abs (a : ν)
  | sqrt (a : ν)
  | exp (a : ν)
  | log (a : ν)
  | sin (a : ν)
  | cos (a : ν)
  | tanh (a : ν)
  | relu (a : ν)
  | erf (a : ν)
  | gelu (a : ν) (approximate : Bool)
  | floor (a : ν)
  | ceil (a : ν)
  | round (a : ν)
  | sign (a : ν)
  | «where» (cond a b : ν)
  | pow (a : ν) (exp : F64)
  | cast (a : ν) (dtype : DType)
  | sum (a : ν) (dims : List Nat) (keepdims : Bool)
  | mean (a : ν) (dims : List Nat) (keepdims : Bool)
  | max (a : ν) (dims : List Nat) (keepdims : Bool)
  | min (a : ν) (dims : List Nat) (keepdims : Bool)
  | prod (a : ν) (dims : List Nat) (keepdims : Bool)
  | argmax (a : ν) (dim : Nat)
  | topKIndices (a : ν) (k : Nat)
  | argmin (a : ν) (dim : Nat)
  | cumsum (a : ν) (dim : Nat)
  | indexSelect (a : ν) (dim : Nat) (indexes : ν)
  | scatterAdd (a : ν) (dim : Nat) (indexes src : ν)
  | gather (a : ν) (dim : Nat) (indexes : ν)
  | crossEntropy (logits target : ν) (ignoreIndex : Int) (reduction : CrossEntropyReduction)
  | crossEntropyBackward (logits target : ν) (ignoreIndex : Int)
      (reduction : CrossEntropyReduction)
  | sdpa (q k v : ν) (scale : F64) (causal : Bool) (window : AttentionWindow)
  | sdpaConfigured (q k v : ν) (scale : F64) (causal : Bool) (window : AttentionWindow)
      (rounding : AttentionRounding) (layerId : Option Nat) (retention : AttentionWindow)
  | sdpaBackward (q k v g fwd : ν) (scale : F64) (causal : Bool) (window : AttentionWindow)
  | sdpaBackwardOut (of : ν) (index : Nat)
  | positionEmbedding (weight : ν) (seqLen : Nat)
  | kvAttention (q k v : ν) (scale : F64) (layer : Nat) (window : Option Nat)
      (mode : KvAttentionMode) (rounding : AttentionRounding)
  | kdaChunk (q k v logDecay beta : ν) (scale : F64)
  | kdaRecurrence (q k v logDecay beta : ν) (scale : F64) (layer : Nat)
  | kdaBackward (q k v logDecay beta g : ν) (scale : F64)
  | kdaBackwardOut (of : ν) (index : Nat)
  | shortConv1d (x weight : ν)
  | convState (x weight : ν) (layer : Nat)
  | lastTokenRow (a : ν)
  | chunkedHeadCe (x weight bias target : ν) (ignoreIndex : Int)
  | chunkedHeadCeBackward (x weight bias target g : ν) (ignoreIndex : Int)
  | chunkedHeadCeBackwardOut (of : ν) (index : Nat)
  | shortConv1dBackwardX (x weight g : ν)
  | shortConv1dBackwardW (x weight g : ν)
  | rotaryEmbedding (x : ν) (seqLen : Nat) (theta : F64) (offset : PositionOffset)
      (layout : RotaryLayout)
  | rotaryEmbeddingExplicit (x positions inverseFrequencies : ν) (layout : RotaryLayout)
  | rotaryEmbeddingBackward (g : ν) (shape : List Nat) (seqLen : Nat) (theta : F64)
      (layout : RotaryLayout)
  | layerNorm (x weight bias : ν) (eps : F64)
  | rmsNorm (x : ν) (weight : Option ν) (eps : F64)
  | layerNormBackward (x weight g : ν) (eps : F64)
  | layerNormBackwardOut (of : ν) (index : Nat)
  | linear (x weight bias : ν)
  | expertLinearRows (x weight indexes : ν)
  | groupedExpertLinearRows (x weight indexes : ν)
  | quantizedLinear (x weight : ν) (bias : Option ν)
  | quantizedEmbedding (indexes weight : ν) (paddingIndex : Option Nat)
  | conv1d (x w : ν) (stride padding dilation groups : Nat)
  | conv2d (x w : ν) (stride padding dilation groups : Nat)
  | convTranspose1d (x w : ν) (stride padding outputPadding dilation groups : Nat)
  | convTranspose2d (x w : ν) (stride padding outputPadding dilation groups : Nat)
  | conv1dBackwardW (x g : ν) (kernel outChannels stride padding dilation groups : Nat)
  | conv2dBackwardW (x g : ν) (kernel : Nat × Nat)
      (outChannels stride padding dilation groups : Nat)
  | reshape (a : ν) (shape : List Nat)
  | permute (a : ν) (dims : List Nat)
  | slice (a : ν) (ranges : List (Nat × Nat × Nat))
  | concat (a b : ν) (dim : Nat)
  | broadcastTo (a : ν) (shape : List Nat)
  | matmul (a b : ν)
  | inverse (a : ν)
  | det (a : ν)
  | solve (a b : ν)
  | adamWStep (param grad m v lr c1 c2 : ν) (beta1 beta2 eps weightDecay : F64)
  | adamWOut (step : ν) (index : Nat)
  | sgdStep (param grad velocity first lr : ν) (momentum dampening : F64) (nesterov : Bool)
      (weightDecay : F64)
  | sgdOut (step : ν) (index : Nat)
  | stopGradient (a : ν)
  | checkpoint (a : ν)
  | expose (a : ν) (name : String)

/-- `node_children`: the operands of a node, in operand order. -/
def nodeChildren {ν : Type} : NodeKind ν → List ν
  | .leaf _ | .input _ _ _ _ _ | .scalarInput _ _ _ | .fromBytes _ _ _ _ | .zeros _ _ _
  | .ones _ _ _ | .full _ _ _ _ | .randn _ _ _ | .uniform _ _ _ _ _ | .arange _ _ _ _ _
  | .eye _ _ _ => []
  | .add a b | .sub a b | .mul a b | .div a b | .eq a b | .gt a b | .lt a b | .ge a b | .le a b
  | .maximum a b | .minimum a b | .concat a b _ | .matmul a b | .solve a b => [a, b]
  | .neg a | .abs a | .sqrt a | .exp a | .log a | .sin a | .cos a | .tanh a | .relu a | .erf a
  | .gelu a _ | .floor a | .ceil a | .round a | .sign a | .pow a _ | .cast a _ | .sum a _ _
  | .mean a _ _ | .max a _ _ | .min a _ _ | .prod a _ _ | .argmax a _ | .topKIndices a _
  | .argmin a _ | .cumsum a _ | .lastTokenRow a | .reshape a _ | .permute a _ | .slice a _
  | .broadcastTo a _ | .inverse a | .det a | .stopGradient a | .checkpoint a | .expose a _ => [a]
  | .«where» cond a b => [cond, a, b]
  | .indexSelect a _ indexes | .gather a _ indexes => [a, indexes]
  | .scatterAdd a _ indexes src => [a, indexes, src]
  | .crossEntropy logits target _ _ | .crossEntropyBackward logits target _ _ => [logits, target]
  | .sdpa q k v _ _ _ | .sdpaConfigured q k v _ _ _ _ _ _ | .kvAttention q k v _ _ _ _ _
    => [q, k, v]
  | .sdpaBackward q k v g fwd _ _ _ => [q, k, v, g, fwd]
  | .sdpaBackwardOut of _ | .kdaBackwardOut of _ | .chunkedHeadCeBackwardOut of _
  | .layerNormBackwardOut of _ => [of]
  | .positionEmbedding weight _ => [weight]
  | .kdaChunk q k v logDecay beta _ | .kdaRecurrence q k v logDecay beta _ _
    => [q, k, v, logDecay, beta]
  | .kdaBackward q k v logDecay beta g _ => [q, k, v, logDecay, beta, g]
  | .shortConv1d x weight | .convState x weight _ => [x, weight]
  | .chunkedHeadCe x weight bias target _ => [x, weight, bias, target]
  | .chunkedHeadCeBackward x weight bias target g _ => [x, weight, bias, target, g]
  | .shortConv1dBackwardX x weight g | .shortConv1dBackwardW x weight g
  | .layerNormBackward x weight g _ => [x, weight, g]
  | .rotaryEmbedding x _ _ _ _ => [x]
  | .rotaryEmbeddingExplicit x positions inverseFrequencies _
    => [x, positions, inverseFrequencies]
  | .rotaryEmbeddingBackward g _ _ _ _ => [g]
  | .layerNorm x weight bias _ | .linear x weight bias => [x, weight, bias]
  | .rmsNorm x weight _ => [x] ++ weight.toList
  | .expertLinearRows x weight indexes | .groupedExpertLinearRows x weight indexes
    => [x, weight, indexes]
  | .quantizedLinear x weight bias => [x, weight] ++ bias.toList
  | .quantizedEmbedding indexes weight _ => [indexes, weight]
  | .conv1d x w _ _ _ _ | .conv2d x w _ _ _ _ | .convTranspose1d x w _ _ _ _ _
  | .convTranspose2d x w _ _ _ _ _ => [x, w]
  | .conv1dBackwardW x g _ _ _ _ _ _ | .conv2dBackwardW x g _ _ _ _ _ _ => [x, g]
  | .adamWStep param grad m v lr c1 c2 _ _ _ _ => [param, grad, m, v, lr, c1, c2]
  | .adamWOut step _ | .sgdOut step _ => [step]
  | .sgdStep param grad velocity first lr _ _ _ _ => [param, grad, velocity, first, lr]

/-- A node with the metadata it caches. -/
structure Node where
  shape : List Nat
  dtype : DType
  device : Device
  storage : StorageMetadata
  kind : NodeKind Nat

/-- The nodes of a process by id. `age` says that a node was built after its operands. -/
structure Graph where
  node : Nat → Node
  age : Nat → Nat
  children_older : ∀ id, ∀ child ∈ nodeChildren (node id).kind, age child < age id

namespace Graph

def children (G : Graph) (id : Nat) : List Nat := nodeChildren (G.node id).kind

def dag (G : Graph) : Dag Nat where
  children := G.children
  rank := G.age
  rank_lt := G.children_older

end Graph

end EffectTorch
