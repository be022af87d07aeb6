import EffectTorch.Graph.Node

/-!
# Nodes with other operands

`remap_children` and `Node::new` of `graph/src/lib.rs`.

Results:
1. `nodeChildren_remapChildren`: the operands of the copy are the images, in operand order.
2. `remapChildren_congr`: only the images of the operands matter.
3. `Nodes.new_ok`: building a node leaves those that exist as they are.
-/

namespace EffectTorch
open Lib

/-- `remap_children`: the operation with the images of its operands. -/
def remapChildren {ν μ : Type} (f : ν → μ) : NodeKind ν → NodeKind μ
  | .leaf slot => .leaf slot
  | .input slot shape dtype device storage => .input slot shape dtype device storage
  | .scalarInput slot dtype device => .scalarInput slot dtype device
  | .fromBytes data shape dtype device => .fromBytes data shape dtype device
  | .zeros shape dtype device => .zeros shape dtype device
  | .ones shape dtype device => .ones shape dtype device
  | .full shape value dtype device => .full shape value dtype device
  | .randn shape dtype device => .randn shape dtype device
  | .uniform lo hi shape dtype device => .uniform lo hi shape dtype device
  | .arange start stop step dtype device => .arange start stop step dtype device
  | .eye n dtype device => .eye n dtype device
  | .add a b => .add (f a) (f b)
  | .sub a b => .sub (f a) (f b)
  | .mul a b => .mul (f a) (f b)
  | .div a b => .div (f a) (f b)
  | .eq a b => .eq (f a) (f b)
  | .gt a b => .gt (f a) (f b)
  | .lt a b => .lt (f a) (f b)
  | .ge a b => .ge (f a) (f b)
  | .le a b => .le (f a) (f b)
  | .maximum a b => .maximum (f a) (f b)
  | .minimum a b => .minimum (f a) (f b)
  | .neg a => .neg (f a)
  | .abs a => .abs (f a)
  | .sqrt a => .sqrt (f a)
  | .exp a => .exp (f a)
  | .log a => .log (f a)
  | .sin a => .sin (f a)
  | .cos a => .cos (f a)
  | .tanh a => .tanh (f a)
  | .relu a => .relu (f a)
  | .erf a => .erf (f a)
  | .gelu a approximate => .gelu (f a) approximate
  | .floor a => .floor (f a)
  | .ceil a => .ceil (f a)
  | .round a => .round (f a)
  | .sign a => .sign (f a)
  | .«where» cond a b => .«where» (f cond) (f a) (f b)
  | .pow a exp => .pow (f a) exp
  | .cast a dtype => .cast (f a) dtype
  | .sum a dims keepdims => .sum (f a) dims keepdims
  | .mean a dims keepdims => .mean (f a) dims keepdims
  | .max a dims keepdims => .max (f a) dims keepdims
  | .min a dims keepdims => .min (f a) dims keepdims
  | .prod a dims keepdims => .prod (f a) dims keepdims
  | .argmax a dim => .argmax (f a) dim
  | .topKIndices a k => .topKIndices (f a) k
  | .argmin a dim => .argmin (f a) dim
  | .cumsum a dim => .cumsum (f a) dim
  | .indexSelect a dim indexes => .indexSelect (f a) dim (f indexes)
  | .scatterAdd a dim indexes src => .scatterAdd (f a) dim (f indexes) (f src)
  | .gather a dim indexes => .gather (f a) dim (f indexes)
  | .crossEntropy logits target ignoreIndex reduction =>
    .crossEntropy (f logits) (f target) ignoreIndex reduction
  | .crossEntropyBackward logits target ignoreIndex reduction =>
    .crossEntropyBackward (f logits) (f target) ignoreIndex reduction
  | .sdpa q k v scale causal window => .sdpa (f q) (f k) (f v) scale causal window
  | .sdpaConfigured q k v scale causal window rounding layerId retention =>
    .sdpaConfigured (f q) (f k) (f v) scale causal window rounding layerId retention
  | .sdpaBackward q k v g fwd scale causal window =>
    .sdpaBackward (f q) (f k) (f v) (f g) (f fwd) scale causal window
  | .sdpaBackwardOut of index => .sdpaBackwardOut (f of) index
  | .positionEmbedding weight seqLen => .positionEmbedding (f weight) seqLen
  | .kvAttention q k v scale layer window mode rounding =>
    .kvAttention (f q) (f k) (f v) scale layer window mode rounding
  | .kdaChunk q k v logDecay beta scale => .kdaChunk (f q) (f k) (f v) (f logDecay) (f beta) scale
  | .kdaRecurrence q k v logDecay beta scale layer =>
    .kdaRecurrence (f q) (f k) (f v) (f logDecay) (f beta) scale layer
  | .kdaBackward q k v logDecay beta g scale =>
    .kdaBackward (f q) (f k) (f v) (f logDecay) (f beta) (f g) scale
  | .kdaBackwardOut of index => .kdaBackwardOut (f of) index
  | .shortConv1d x weight => .shortConv1d (f x) (f weight)
  | .convState x weight layer => .convState (f x) (f weight) layer
  | .lastTokenRow a => .lastTokenRow (f a)
  | .chunkedHeadCe x weight bias target ignoreIndex =>
    .chunkedHeadCe (f x) (f weight) (f bias) (f target) ignoreIndex
  | .chunkedHeadCeBackward x weight bias target g ignoreIndex =>
    .chunkedHeadCeBackward (f x) (f weight) (f bias) (f target) (f g) ignoreIndex
  | .chunkedHeadCeBackwardOut of index => .chunkedHeadCeBackwardOut (f of) index
  | .shortConv1dBackwardX x weight g => .shortConv1dBackwardX (f x) (f weight) (f g)
  | .shortConv1dBackwardW x weight g => .shortConv1dBackwardW (f x) (f weight) (f g)
  | .rotaryEmbedding x seqLen theta offset layout =>
    .rotaryEmbedding (f x) seqLen theta offset layout
  | .rotaryEmbeddingExplicit x positions inverseFrequencies layout =>
    .rotaryEmbeddingExplicit (f x) (f positions) (f inverseFrequencies) layout
  | .rotaryEmbeddingBackward g shape seqLen theta layout =>
    .rotaryEmbeddingBackward (f g) shape seqLen theta layout
  | .layerNorm x weight bias eps => .layerNorm (f x) (f weight) (f bias) eps
  | .rmsNorm x weight eps => .rmsNorm (f x) (weight.map f) eps
  | .layerNormBackward x weight g eps => .layerNormBackward (f x) (f weight) (f g) eps
  | .layerNormBackwardOut of index => .layerNormBackwardOut (f of) index
  | .linear x weight bias => .linear (f x) (f weight) (f bias)
  | .expertLinearRows x weight indexes => .expertLinearRows (f x) (f weight) (f indexes)
  | .groupedExpertLinearRows x weight indexes =>
    .groupedExpertLinearRows (f x) (f weight) (f indexes)
  | .quantizedLinear x weight bias => .quantizedLinear (f x) (f weight) (bias.map f)
  | .quantizedEmbedding indexes weight paddingIndex =>
    .quantizedEmbedding (f indexes) (f weight) paddingIndex
  | .conv1d x w stride padding dilation groups => .conv1d (f x) (f w) stride padding dilation groups
  | .conv2d x w stride padding dilation groups => .conv2d (f x) (f w) stride padding dilation groups
  | .convTranspose1d x w stride padding outputPadding dilation groups =>
    .convTranspose1d (f x) (f w) stride padding outputPadding dilation groups
  | .convTranspose2d x w stride padding outputPadding dilation groups =>
    .convTranspose2d (f x) (f w) stride padding outputPadding dilation groups
  | .conv1dBackwardW x g kernel outChannels stride padding dilation groups =>
    .conv1dBackwardW (f x) (f g) kernel outChannels stride padding dilation groups
  | .conv2dBackwardW x g kernel outChannels stride padding dilation groups =>
    .conv2dBackwardW (f x) (f g) kernel outChannels stride padding dilation groups
  | .reshape a shape => .reshape (f a) shape
  | .permute a dims => .permute (f a) dims
  | .slice a ranges => .slice (f a) ranges
  | .concat a b dim => .concat (f a) (f b) dim
  | .broadcastTo a shape => .broadcastTo (f a) shape
  | .matmul a b => .matmul (f a) (f b)
  | .inverse a => .inverse (f a)
  | .det a => .det (f a)
  | .solve a b => .solve (f a) (f b)
  | .adamWStep param grad m v lr c1 c2 beta1 beta2 eps weightDecay =>
    .adamWStep (f param) (f grad) (f m) (f v) (f lr) (f c1) (f c2) beta1 beta2 eps weightDecay
  | .adamWOut step index => .adamWOut (f step) index
  | .sgdStep param grad velocity first lr momentum dampening nesterov weightDecay =>
    .sgdStep (f param) (f grad) (f velocity) (f first) (f lr) momentum dampening nesterov
      weightDecay
  | .sgdOut step index => .sgdOut (f step) index
  | .stopGradient a => .stopGradient (f a)
  | .checkpoint a => .checkpoint (f a)
  | .expose a name => .expose (f a) name

section Remap

variable {ν μ : Type} {f g : ν → μ}

theorem nodeChildren_remapChildren (f : ν → μ) (kind : NodeKind ν) :
    nodeChildren (remapChildren f kind) = (nodeChildren kind).map f := by
  cases kind with
  | rmsNorm x weight eps => cases weight <;> rfl
  | quantizedLinear x weight bias => cases bias <;> rfl
  | _ => rfl

theorem remapChildren_congr {kind : NodeKind ν} (h : ∀ child ∈ nodeChildren kind, f child = g child) :
    remapChildren f kind = remapChildren g kind := by
  cases kind with
  | rmsNorm x weight eps => cases weight <;> simp_all [nodeChildren, remapChildren]
  | quantizedLinear x weight bias => cases bias <;> simp_all [nodeChildren, remapChildren]
  | _ => simp_all [nodeChildren, remapChildren]

end Remap

/-! ## Building nodes -/

/-- What `NodeKind::metadata` infers. -/
structure NodeMetadata where
  shape : List Nat
  dtype : DType
  device : Device
  storage : StorageMetadata

/-- `NodeKind::metadata`, which may look at the operands; its errors are texts. -/
abbrev Inference := (Nat → Node) → NodeKind Nat → Except String NodeMetadata

/-- The nodes of a process that builds more of them. `next` is the next id. -/
structure Nodes where
  node : Nat → Node
  next : Nat

/-- `Node::new`. -/
def Nodes.new (infer : Inference) (nodes : Nodes) (kind : NodeKind Nat) :
    Fallible String (Nat × Nodes) :=
  match infer nodes.node kind with
  | .error message => fail message
  | .ok metadata => .ok (nodes.next, {
      node := Function.update nodes.node nodes.next
        ⟨metadata.shape, metadata.dtype, metadata.device, metadata.storage, kind⟩
      next := nodes.next + 1 })

namespace Nodes

/-- `id` names a node with the operation `kind`. -/
def At (nodes : Nodes) (id : Nat) (kind : NodeKind Nat) : Prop :=
  id < nodes.next ∧ (nodes.node id).kind = kind

/-- More nodes are built; those that exist stay as they are. -/
structure Grows (nodes nodes' : Nodes) : Prop where
  next_le : nodes.next ≤ nodes'.next
  node_eq : ∀ id < nodes.next, nodes'.node id = nodes.node id

variable {infer : Inference} {nodes nodes' nodes'' : Nodes} {id : Nat} {kind : NodeKind Nat}

theorem Grows.refl (nodes : Nodes) : nodes.Grows nodes := ⟨Nat.le_refl _, fun _ _ => rfl⟩

theorem Grows.trans (h : nodes.Grows nodes') (h' : nodes'.Grows nodes'') : nodes.Grows nodes'' where
  next_le := Nat.le_trans h.next_le h'.next_le
  node_eq := fun id hid => by
    rw [h'.node_eq id (Nat.lt_of_lt_of_le hid h.next_le), h.node_eq id hid]

theorem At.mono (h : nodes.At id kind) (hgrows : nodes.Grows nodes') : nodes'.At id kind :=
  ⟨Nat.lt_of_lt_of_le h.1 hgrows.next_le, by rw [hgrows.node_eq id h.1, h.2]⟩

/-- What building a node does. -/
structure Built (nodes : Nodes) (kind : NodeKind Nat) (id : Nat) (nodes' : Nodes) : Prop where
  fresh : nodes.next ≤ id
  at_new : nodes'.At id kind
  grows : nodes.Grows nodes'

theorem new_ok (h : nodes.new infer kind = .ok (id, nodes')) : nodes.Built kind id nodes' := by
  unfold new at h
  split at h
  · cases h
  · cases h
    refine ⟨Nat.le_refl _, ⟨Nat.lt_succ_self _, ?_⟩, Nat.le_succ _, fun id hid => ?_⟩
    · exact congrArg Node.kind (Function.update_self nodes.next _ nodes.node)
    · exact Function.update_of_ne (Nat.ne_of_lt hid) _ _

end Nodes

end EffectTorch
