import EffectTorch.Graph.Remap

/-!
# Copies of an operation

What `remap_children` of `graph/src/lib.rs` keeps: the operation and its attributes, which are
the fields that are not operands.

Results:
1. `remapChildren_copies`: the result is the operation with the attributes of the original, and
   its operands are the images of the original ones.
2. `remapChildren_id`: images that are the operands themselves change nothing.
-/

namespace EffectTorch

/-- A field of an operation that is not an operand. -/
inductive Attribute where
  | nat (value : Nat)
  | int (value : Int)
  | float (value : F64)
  | flag (value : Bool)
  | text (value : String)
  | bytes (value : List UInt8)
  | optional (value : Option Nat)
  | dims (value : List Nat)
  | ranges (value : List (Nat × Nat × Nat))
  | kernel (value : Nat × Nat)
  | dtype (value : DType)
  | device (value : Device)
  | storage (value : StorageMetadata)
  | reduction (value : CrossEntropyReduction)
  | window (value : AttentionWindow)
  | rounding (value : AttentionRounding)
  | mode (value : KvAttentionMode)
  | offset (value : PositionOffset)
  | layout (value : RotaryLayout)

/-- The attributes of an operation, in the order of its fields. -/
def attributes {ν : Type} : NodeKind ν → List Attribute
  | .leaf slot => [.nat slot]
  | .input slot shape dtype device storage =>
    [.nat slot, .dims shape, .dtype dtype, .device device, .storage storage]
  | .scalarInput slot dtype device => [.nat slot, .dtype dtype, .device device]
  | .fromBytes data shape dtype device =>
    [.bytes data, .dims shape, .dtype dtype, .device device]
  | .zeros shape dtype device | .ones shape dtype device | .randn shape dtype device =>
    [.dims shape, .dtype dtype, .device device]
  | .full shape value dtype device => [.dims shape, .float value, .dtype dtype, .device device]
  | .uniform lo hi shape dtype device =>
    [.float lo, .float hi, .dims shape, .dtype dtype, .device device]
  | .arange start stop step dtype device =>
    [.float start, .float stop, .float step, .dtype dtype, .device device]
  | .eye n dtype device => [.nat n, .dtype dtype, .device device]
  | .add _ _ | .sub _ _ | .mul _ _ | .div _ _ | .eq _ _ | .gt _ _ | .lt _ _ | .ge _ _ | .le _ _
  | .maximum _ _ | .minimum _ _ | .neg _ | .abs _ | .sqrt _ | .exp _ | .log _ | .sin _ | .cos _
  | .tanh _ | .relu _ | .erf _ | .floor _ | .ceil _ | .round _ | .sign _ | .«where» _ _ _ => []
  | .gelu _ approximate => [.flag approximate]
  | .pow _ exp => [.float exp]
  | .cast _ dtype => [.dtype dtype]
  | .sum _ dims keepdims | .mean _ dims keepdims | .max _ dims keepdims | .min _ dims keepdims
  | .prod _ dims keepdims => [.dims dims, .flag keepdims]
  | .argmax _ dim | .argmin _ dim | .cumsum _ dim => [.nat dim]
  | .topKIndices _ k => [.nat k]
  | .indexSelect _ dim _ | .scatterAdd _ dim _ _ | .gather _ dim _ => [.nat dim]
  | .crossEntropy _ _ ignoreIndex reduction | .crossEntropyBackward _ _ ignoreIndex reduction =>
    [.int ignoreIndex, .reduction reduction]
  | .sdpa _ _ _ scale causal window | .sdpaBackward _ _ _ _ _ scale causal window =>
    [.float scale, .flag causal, .window window]
  | .sdpaConfigured _ _ _ scale causal window rounding layerId retention =>
    [.float scale, .flag causal, .window window, .rounding rounding, .optional layerId,
      .window retention]
  | .sdpaBackwardOut _ index | .kdaBackwardOut _ index | .chunkedHeadCeBackwardOut _ index
  | .layerNormBackwardOut _ index | .adamWOut _ index | .sgdOut _ index => [.nat index]
  | .positionEmbedding _ seqLen => [.nat seqLen]
  | .kvAttention _ _ _ scale layer window mode rounding =>
    [.float scale, .nat layer, .optional window, .mode mode, .rounding rounding]
  | .kdaChunk _ _ _ _ _ scale | .kdaBackward _ _ _ _ _ _ scale => [.float scale]
  | .kdaRecurrence _ _ _ _ _ scale layer => [.float scale, .nat layer]
  | .shortConv1d _ _ | .lastTokenRow _ | .shortConv1dBackwardX _ _ _ | .shortConv1dBackwardW _ _ _
  | .linear _ _ _ | .expertLinearRows _ _ _ | .groupedExpertLinearRows _ _ _
  | .quantizedLinear _ _ _ | .matmul _ _ | .inverse _ | .det _ | .solve _ _ | .stopGradient _
  | .checkpoint _ => []
  | .convState _ _ layer => [.nat layer]
  | .chunkedHeadCe _ _ _ _ ignoreIndex | .chunkedHeadCeBackward _ _ _ _ _ ignoreIndex =>
    [.int ignoreIndex]
  | .rotaryEmbedding _ seqLen theta offset layout =>
    [.nat seqLen, .float theta, .offset offset, .layout layout]
  | .rotaryEmbeddingExplicit _ _ _ layout => [.layout layout]
  | .rotaryEmbeddingBackward _ shape seqLen theta layout =>
    [.dims shape, .nat seqLen, .float theta, .layout layout]
  | .layerNorm _ _ _ eps | .rmsNorm _ _ eps | .layerNormBackward _ _ _ eps => [.float eps]
  | .quantizedEmbedding _ _ paddingIndex => [.optional paddingIndex]
  | .conv1d _ _ stride padding dilation groups | .conv2d _ _ stride padding dilation groups =>
    [.nat stride, .nat padding, .nat dilation, .nat groups]
  | .convTranspose1d _ _ stride padding outputPadding dilation groups
  | .convTranspose2d _ _ stride padding outputPadding dilation groups =>
    [.nat stride, .nat padding, .nat outputPadding, .nat dilation, .nat groups]
  | .conv1dBackwardW _ _ kernel outChannels stride padding dilation groups =>
    [.nat kernel, .nat outChannels, .nat stride, .nat padding, .nat dilation, .nat groups]
  | .conv2dBackwardW _ _ kernel outChannels stride padding dilation groups =>
    [.kernel kernel, .nat outChannels, .nat stride, .nat padding, .nat dilation, .nat groups]
  | .reshape _ shape | .broadcastTo _ shape => [.dims shape]
  | .permute _ dims => [.dims dims]
  | .slice _ ranges => [.ranges ranges]
  | .concat _ _ dim => [.nat dim]
  | .adamWStep _ _ _ _ _ _ _ beta1 beta2 eps weightDecay =>
    [.float beta1, .float beta2, .float eps, .float weightDecay]
  | .sgdStep _ _ _ _ _ momentum dampening nesterov weightDecay =>
    [.float momentum, .float dampening, .flag nesterov, .float weightDecay]
  | .expose _ name => [.text name]

/-- `kind'` is `kind` with the images of its operands. -/
structure Copies {ν μ : Type} (f : ν → μ) (kind : NodeKind ν) (kind' : NodeKind μ) : Prop where
  operation : kind'.ctorIdx = kind.ctorIdx
  attributes : attributes kind' = attributes kind
  children : nodeChildren kind' = (nodeChildren kind).map f

section Remap

variable {ν μ : Type}

theorem remapChildren_copies (f : ν → μ) (kind : NodeKind ν) : Copies f kind (remapChildren f kind) where
  operation := by cases kind <;> rfl
  attributes := by cases kind <;> rfl
  children := nodeChildren_remapChildren f kind

theorem remapChildren_id (kind : NodeKind ν) : remapChildren id kind = kind := by
  cases kind with
  | rmsNorm x weight eps => cases weight <;> rfl
  | quantizedLinear x weight bias => cases bias <;> rfl
  | _ => rfl

/-- Only the images of the operands matter. -/
theorem Copies.congr {f g : ν → μ} {kind : NodeKind ν} {kind' : NodeKind μ} (h : Copies f kind kind')
    (hfg : ∀ child ∈ nodeChildren kind, g child = f child) : Copies g kind kind' where
  operation := h.operation
  attributes := h.attributes
  children := h.children.trans (List.map_congr_left fun child hchild => (hfg child hchild).symm)

end Remap

/-! ## Passes -/

/-- What a pass that rebuilds nodes has built, and the node it has for each id that it is done
with. -/
structure Rewriting where
  nodes : Nodes
  mapped : Nat → Option Nat

namespace Rewriting

/-- The image of an operand, which is itself where the pass has no other node for it. -/
def image (s : Rewriting) (child : Nat) : Nat := (s.mapped child).getD child

def put (s : Rewriting) (n id : Nat) (nodes : Nodes) : Rewriting :=
  ⟨nodes, Function.update s.mapped n (some id)⟩

variable {s : Rewriting} {n m id : Nat} {nodes : Nodes}

theorem put_mapped_self : (s.put n id nodes).mapped n = some id := Function.update_self _ _ _

theorem put_mapped_of_ne (h : m ≠ n) : (s.put n id nodes).mapped m = s.mapped m :=
  Function.update_of_ne h _ _

theorem put_image_of_ne (h : m ≠ n) : (s.put n id nodes).image m = s.image m := by
  rw [image, image, put_mapped_of_ne h]

end Rewriting

end EffectTorch
