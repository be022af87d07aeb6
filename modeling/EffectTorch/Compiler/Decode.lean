import EffectTorch.Graph.Remap
import EffectTorch.Lib.StackWalk
import Mathlib.Data.List.Sort

/-!
# Decode specialization

`specialize_decode_layout_outputs_with_attention` of `compiler/src/decode.rs`: one pass over
an inference graph that builds its stateful copy and the geometry of its state, and the
selection of output rows behind it.

`infer` is `NodeKind::metadata`; the pass only passes its errors on and reads the shapes of
the rewritten roots.
-/

namespace EffectTorch

namespace Decode
open Lib

/-! ## Arguments and results -/

structure KvLayerDescriptor where
  layerId : Nat
  kvHeads : Nat
  headDim : Nat
  dtype : DType
  retention : Option Nat
deriving DecidableEq, Repr

structure KdaGeometry where
  layers : Nat
  heads : Nat
  headDim : Nat
  valueDim : Nat
  dtype : DType
deriving DecidableEq, Repr

structure ConvGeometry where
  layers : Nat
  channels : Nat
  kernel : Nat
deriving DecidableEq, Repr

structure DecodeGeometry where
  kvLayers : List KvLayerDescriptor
  layers : Nat
  kvHeads : Nat
  headDim : Nat
  allowsWindowEviction : Bool
  kda : KdaGeometry
  conv : ConvGeometry
  cursorSlot : Nat
  cursorTensor : Bool
deriving DecidableEq, Repr

inductive DecodeLayout where
  | dense (batch : Nat)
  | packedCausalChains (batch rowsPerSequence : Nat)
deriving DecidableEq, Repr

namespace DecodeLayout

def batch : DecodeLayout → Nat
  | dense batch | packedCausalChains batch _ => batch

def rowsPerSequence : DecodeLayout → Nat
  | dense _ => 1
  | packedCausalChains _ rows => rows

def packed : DecodeLayout → Bool
  | dense _ => false
  | packedCausalChains _ _ => true

def graphRows (layout : DecodeLayout) : Fallible String Nat :=
  if layout.batch = 0 ∨ layout.rowsPerSequence = 0 then
    fail "decode: batch and rows per sequence must be positive"
  else if layout.batch * layout.rowsPerSequence ≤ usizeMax then
    .ok (layout.batch * layout.rowsPerSequence)
  else fail "decode: packed causal-chain graph row count overflow"

end DecodeLayout

inductive DecodeOutputSelection where
  | allRows
  | splitLastTokenRow
  | batchedLastTokenRow
deriving DecidableEq, Repr

inductive CurrentBlockAttention where
  | causal
  | bidirectional
deriving DecidableEq, Repr

def CurrentBlockAttention.kvMode : CurrentBlockAttention → KvAttentionMode
  | causal => .causal
  | bidirectional => .bidirectionalBlock

/-- The arguments that the pass over the nodes reads. -/
structure Options where
  window : Option Nat
  layout : DecodeLayout
  attention : CurrentBlockAttention

/-- `n as u32`. -/
def asU32 (n : Nat) : Nat := n % 2 ^ 32

/-! ## The cursor slot -/

/-- What the first traversal does at a node. -/
def scanSlot (G : Graph) (maximum : Option Nat) (node : Nat) : Fallible String (Option Nat) :=
  match (G.node node).kind with
  | .input slot _ _ _ _ => .ok (some (maximum.elim slot fun current => max current slot))
  | .scalarInput _ _ _ =>
    fail "decode: runtime scalar inputs are not supported in inference graphs"
  | _ => .ok maximum

/-- The slot behind the highest one. A release build wraps. -/
def cursorSlot (maximum : Option Nat) : Nat := maximum.elim 0 fun slot => asU32 (slot + 1)

/-! ## The pass -/

/-- The variables of the pass. -/
structure State where
  nodes : Nodes
  remapped : Nat → Option Nat
  layers : Nat
  kdaLayers : Nat
  convLayers : Nat
  cursorTensor : Bool
  kvLayers : List KvLayerDescriptor
  explicitLayerIds : Option Bool
  layerIds : List Nat
  allowsWindowEviction : Bool
  maximumAttentionWindow : Option Nat
  kdaGeometry : Option (Nat × Nat × Nat × DType)
  convGeometry : Option (Nat × Nat)

def State.start (nodes : Nodes) : State :=
  ⟨nodes, fun _ => none, 0, 0, 0, false, [], none, [], true, none, none, none⟩

def State.remap (s : State) (child : Nat) : Nat := (s.remapped child).getD child

/-- The fields of `Sdpa`; `configured` are the further ones of `SdpaConfigured`. -/
structure Attention where
  q : Nat
  k : Nat
  v : Nat
  scale : F64
  causal : Bool
  window : AttentionWindow
  configured : Option (AttentionRounding × Option Nat × AttentionWindow)

namespace Attention

def rounding (a : Attention) : AttentionRounding := a.configured.elim .fused (·.1)

def layerId (a : Attention) : Option Nat := a.configured.bind (·.2.1)

/-- The rows that the layer keeps, where its window is resolved to `window`. -/
def retention (a : Attention) (window : Option Nat) : Option Nat :=
  a.configured.elim window fun configured => configured.2.2.resolve window

/-- The layer keeps what its window sees. -/
def legacyRetention (a : Attention) : Bool :=
  a.configured.elim true fun configured => configured.2.2 = .inherit

/-- The widest window of the layers that rely on it for their retention, with this layer. -/
def widen (a : Attention) (window maximum : Option Nat) : Option Nat :=
  match window with
  | some required =>
    if a.legacyRetention then some (maximum.elim required fun current => max current required)
    else maximum
  | none => maximum

end Attention

namespace State

/-- The bookkeeping for an attention layer. -/
def attend (s : State) (a : Attention) (window : Option Nat) (layer : KvLayerDescriptor) : State :=
  { s with
    explicitLayerIds := some a.layerId.isSome
    layerIds := layer.layerId :: s.layerIds
    kvLayers := s.kvLayers ++ [layer]
    layers := s.layers + 1
    allowsWindowEviction := s.allowsWindowEviction && layer.retention.isSome
    maximumAttentionWindow := a.widen window s.maximumAttentionWindow }

end State

section Pass

variable (infer : Inference) (G : Graph) (o : Options) (rows slot : Nat)

def attention (s : State) (a : Attention) : Fallible String (NodeKind Nat × State) :=
  if a.causal = false ∧ o.attention ≠ .bidirectional then
    fail "decode: only causal attention is cacheable, found a non-causal sdpa"
  else match (G.node a.k).shape with
    | [batch, kvHeads, tokens, headDim] =>
      if batch ≠ rows then
        fail s!"decode: kv caching expects attention of shape [{rows}, H, T, D], got {[batch, kvHeads, tokens, headDim]}"
      else
        let window := a.window.resolve o.window
        let layer := a.layerId.getD (asU32 s.layers)
        if s.explicitLayerIds.any (· ≠ a.layerId.isSome) then
          fail "decode: attention layer identities must be explicit on every layer or none"
        else if layer ∈ s.layerIds then fail s!"decode: duplicate attention layer identity {layer}"
        else .ok (.kvAttention (s.remap a.q) (s.remap a.k) (s.remap a.v) a.scale layer window
            o.attention.kvMode a.rounding,
          s.attend a window ⟨layer, kvHeads, headDim, (G.node a.k).dtype, a.retention window⟩)
    | shape =>
      fail s!"decode: kv caching expects attention of shape [{rows}, H, T, D], got {shape}"

/-- The panic of `shape[index]`. -/
def shapeAt (shape : List Nat) (index : Nat) : Fallible String Nat :=
  expect shape[index]? s!"index out of bounds: the len is {shape.length} but the index is {index}"

/-- `{:?}` of a dtype. -/
def debugDType : DType → String
  | .f32 => "F32"
  | .f64 => "F64"
  | .f16 => "F16"
  | .bf16 => "BF16"
  | .u8 => "U8"
  | .u32 => "U32"
  | .i64 => "I64"

/-- `{:?}` of a KDA geometry; a Metal device leaves the dtype out. -/
def debugKda (device : Device) (geometry : Nat × Nat × Nat × DType) : String :=
  match geometry with
  | (heads, headDim, valueDim, dtype) =>
    if device.isMetal then s!"({heads}, {headDim}, {valueDim})"
    else s!"({heads}, {headDim}, {valueDim}, " ++ debugDType dtype ++ ")"

/-- The layers disagree; only a CPU wants one dtype. -/
def kdaDisagrees (device : Device) (previous current : Nat × Nat × Nat × DType) : Prop :=
  previous.1 ≠ current.1 ∨ previous.2.1 ≠ current.2.1 ∨ previous.2.2.1 ≠ current.2.2.1 ∨
    device.isCpu ∧ previous.2.2.2 ≠ current.2.2.2

instance (device : Device) (previous current : Nat × Nat × Nat × DType) :
    Decidable (kdaDisagrees device previous current) :=
  inferInstanceAs (Decidable (_ ∨ _ ∨ _ ∨ _))

def kda (s : State) (q k v logDecay beta : Nat) (scale : F64) :
    Fallible String (NodeKind Nat × State) :=
  let node := G.node q
  match node.shape with
  | [batch, heads, tokens, headDim] =>
    if batch ≠ rows then
      fail s!"decode: kda state caching expects layers of shape [{rows}, H, T, D], got {[batch, heads, tokens, headDim]}"
    else if node.device.isCpu ∧ node.dtype ≠ .f32 ∧ node.dtype ≠ .f64 then
      fail ("decode: stateful KDA requires f32 or f64, got " ++ node.dtype.name)
    else do
      let valueDim ← shapeAt (G.node v).shape 3
      let current := (heads, headDim, valueDim, node.dtype)
      rejectIf (s.kdaGeometry.any fun previous => kdaDisagrees node.device previous current)
        ("decode: kda layers disagree on head geometry (" ++
          (s.kdaGeometry.elim "" (debugKda node.device)) ++ " vs " ++
          debugKda node.device current ++ ")")
      return (.kdaRecurrence (s.remap q) (s.remap k) (s.remap v) (s.remap logDecay) (s.remap beta)
          scale (asU32 s.kdaLayers),
        { s with
          kdaGeometry := some (s.kdaGeometry.getD current)
          kdaLayers := s.kdaLayers + 1 })
  | shape =>
    fail s!"decode: kda state caching expects layers of shape [{rows}, H, T, D], got {shape}"

def conv (s : State) (x weight : Nat) : Fallible String (NodeKind Nat × State) :=
  match (G.node x).shape with
  | [batch, tokens, channels] =>
    if batch ≠ rows then
      fail s!"decode: conv state caching expects layers of shape [{rows}, T, C], got {[batch, tokens, channels]}"
    else do
      let kernel ← shapeAt (G.node weight).shape 1
      let current := (channels, kernel)
      rejectIf (s.convGeometry.any (· ≠ current))
        ("decode: short conv layers disagree on geometry (" ++
          (s.convGeometry.elim "" fun previous => s!"({previous.1}, {previous.2})") ++ " vs " ++
          s!"({channels}, {kernel}))")
      return (.convState (s.remap x) (s.remap weight) (asU32 s.convLayers),
        { s with
          convGeometry := some (s.convGeometry.getD current)
          convLayers := s.convLayers + 1 })
  | shape =>
    fail s!"decode: conv state caching expects layers of shape [{rows}, T, C], got {shape}"

/-- The positions of a learned embedding behind the cursors of several rows. -/
def rowPositions (nodes : Nodes) (tokens width : Nat) (device : Device) :
    Fallible String (Nat × Nodes) := do
  let (cursors, nodes) ← nodes.new infer (.input slot [rows] .i64 device .dense)
  let (column, nodes) ← nodes.new infer (.reshape cursors [rows, 1])
  let (range, nodes) ← nodes.new infer (.arange (.ofNat 0) (.ofNat tokens) (.ofNat 1) .i64 device)
  let (row, nodes) ← nodes.new infer (.reshape range [1, tokens])
  let (block, nodes) ← nodes.new infer (.broadcastTo row [rows, tokens])
  let (positions, nodes) ← nodes.new infer (.add column block)
  let (flat, nodes) ← nodes.new infer (.reshape positions [rows * tokens, 1])
  nodes.new infer (.broadcastTo flat [rows * tokens, width])

/-- The positions of a learned embedding behind the cursor of one row. -/
def onePositions (nodes : Nodes) (tokens width : Nat) (device : Device) :
    Fallible String (Nat × Nodes) := do
  let (range, nodes) ← nodes.new infer (.arange (.ofNat 0) (.ofNat tokens) (.ofNat 1) .i64 device)
  let (cursor, nodes) ← nodes.new infer (.scalarInput slot .i64 device)
  let (positions, nodes) ← nodes.new infer (.add range cursor)
  let (flat, nodes) ← nodes.new infer (.reshape positions [tokens, 1])
  nodes.new infer (.broadcastTo flat [tokens, width])

def positionEmbedding (s : State) (weight tokens : Nat) : Fallible String (NodeKind Nat × State) := do
  let width ← shapeAt (G.node weight).shape 1
  let device := (G.node weight).device
  if 1 < rows then do
    let (indexes, nodes) ← rowPositions infer rows slot s.nodes tokens width device
    let (gathered, nodes) ← nodes.new infer (.gather (s.remap weight) 0 indexes)
    return (.reshape gathered [rows, tokens, width], { s with nodes, cursorTensor := true })
  else do
    let (indexes, nodes) ← onePositions infer slot s.nodes tokens width device
    return (.gather (s.remap weight) 0 indexes, { s with nodes })

/-- The operation that takes the place of that of a node. -/
def specializeKind (s : State) (kind : NodeKind Nat) : Fallible String (NodeKind Nat × State) :=
  match kind with
  | .sdpa q k v scale causal window => attention G o rows s ⟨q, k, v, scale, causal, window, none⟩
  | .sdpaConfigured q k v scale causal window rounding layerId retention =>
    attention G o rows s ⟨q, k, v, scale, causal, window, some (rounding, layerId, retention)⟩
  | .kdaChunk q k v logDecay beta scale => kda G rows s q k v logDecay beta scale
  | .shortConv1d x weight => conv G rows s x weight
  | .rotaryEmbedding x seqLen theta _ layout =>
    .ok (.rotaryEmbedding (s.remap x) seqLen theta .cursor layout, s)
  | .positionEmbedding weight seqLen => positionEmbedding infer G rows slot s weight seqLen
  | kind => .ok (remapChildren s.remap kind, s)

/-- One turn of the loop over the order. -/
def specializeNode (s : State) (node : Nat) : Fallible String State := do
  let (kind, s) ← specializeKind infer G o rows slot s (G.node node).kind
  let (id, nodes) ← s.nodes.new infer kind
  return { s with nodes, remapped := Function.update s.remapped node (some id) }

end Pass

/-! ## Output rows -/

section Selection

variable (infer : Inference)

/-- Another node on top of the pushed selector, if there is one. -/
def rebuild (kind : Nat → NodeKind Nat) : Option Nat × Nodes → Fallible String (Option Nat × Nodes)
  | (some a, nodes) => do
    let (id, nodes) ← nodes.new infer (kind a)
    return (some id, nodes)
  | (none, nodes) => .ok (none, nodes)

/-- A linear layer over the last row of `x`, if `x` has one batch row. -/
def selectBelow (kind : Nat → NodeKind Nat) (nodes : Nodes) (x : Nat) :
    Fallible String (Option Nat × Nodes) :=
  match (nodes.node x).shape with
  | [1, _, columns] => do
    let (row, nodes) ← nodes.new infer (.lastTokenRow x)
    let (selected, nodes) ← nodes.new infer (.reshape row [1, columns])
    rebuild infer kind (some selected, nodes)
  | _ => .ok (none, nodes)

/-- `descend`: the head with its selector below the linear layer. The fuel bounds the depth
of the head. -/
def descend : Nat → Nodes → Nat → Fallible String (Option Nat × Nodes)
  | 0, _, _ => .error (.panic "stack overflow")
  | fuel + 1, nodes, node =>
    match (nodes.node node).kind with
    | .quantizedLinear x weight bias =>
      selectBelow infer (fun x => .quantizedLinear x weight bias) nodes x
    | .linear x weight bias => selectBelow infer (fun x => .linear x weight bias) nodes x
    | .tanh a => descend fuel nodes a >>= rebuild infer .tanh
    | .mul a b =>
      if (nodes.node a).shape = [] then descend fuel nodes b >>= rebuild infer (.mul a)
      else if (nodes.node b).shape = [] then descend fuel nodes a >>= rebuild infer (.mul · b)
      else .ok (none, nodes)
    | .div a b =>
      if (nodes.node a).shape = [] then descend fuel nodes b >>= rebuild infer (.div a)
      else if (nodes.node b).shape = [] then descend fuel nodes a >>= rebuild infer (.div · b)
      else .ok (none, nodes)
    | _ => .ok (none, nodes)

def pushLastTokenRowThroughHead (nodes : Nodes) (root : Nat) (batched : Bool) :
    Fallible String (Option Nat × Nodes) := do
  let (pushed, nodes) ← descend infer nodes.next nodes root
  match pushed with
  | some pushed =>
    match (nodes.node pushed).shape with
    | [1, width] =>
      rebuild infer (.reshape · (if batched then [1, width] else [width])) (some pushed, nodes)
    | _ => return (none, nodes)
  | none => return (none, nodes)

/-- The rows of one lane. -/
def laneRows (batch tokens width root row : Nat) (nodes : Nodes) : Fallible String (Nat × Nodes) :=
  if batch = 1 then .ok (root, nodes)
  else nodes.new infer (.slice root [(row, row + 1, 1), (0, tokens, 1), (0, width, 1)])

/-- The selector of the last valid row of one lane. -/
def selectRow (batch tokens width root : Nat) (selected : List Nat × Nodes) (row : Nat) :
    Fallible String (List Nat × Nodes) := do
  let (source, nodes) ← laneRows infer batch tokens width root row selected.2
  let (last, nodes) ← nodes.new infer (.lastTokenRow source)
  return (selected.1 ++ [last], nodes)

/-- The turn of the loop that puts one more row behind a batch. -/
def concatRow (width : Nat) (batched : Nat × Nodes) (row : Nat) : Fallible String (Nat × Nodes) := do
  let (row, nodes) ← batched.2.new infer (.reshape row [1, width])
  nodes.new infer (.concat batched.1 row 0)

def concatRows (width : Nat) (nodes : Nodes) : List Nat → Fallible String (Nat × Nodes)
  | [] => .error (.panic "decode batch is positive")
  | first :: rows => do
    let batched ← nodes.new infer (.reshape first [1, width])
    rows.foldlM (concatRow infer width) batched

/-- The outputs of a root that keeps its last rows. -/
def selectLastRows (batch tokens width : Nat) (batched : Bool) (nodes : Nodes) (root : Nat) :
    Fallible String (List Nat × Nodes) := do
  let (rows, nodes) ← (List.range batch).foldlM (selectRow infer batch tokens width root) ([], nodes)
  if batched then do
    let (row, nodes) ← concatRows infer width nodes rows
    return ([row], nodes)
  else return (rows, nodes)

/-- The outputs of one root. -/
def selectRoot (batch : Nat) (nodes : Nodes) (root : Nat) (selection : DecodeOutputSelection) :
    Fallible String (List Nat × Nodes) :=
  if selection = .allRows then .ok ([root], nodes)
  else
    let batched := decide (selection = .batchedLastTokenRow)
    match (nodes.node root).shape with
    | [rows, tokens, width] => do
      rejectIf (rows ≠ batch)
        s!"decode: last-token-row roots must be [{batch}, T, V], got {[rows, tokens, width]}"
      if batch = 1 then do
        let (pushed, nodes) ← pushLastTokenRowThroughHead infer nodes root batched
        match pushed with
        | some pushed => return ([pushed], nodes)
        | none => selectLastRows infer batch tokens width batched nodes root
      else selectLastRows infer batch tokens width batched nodes root
    | shape => fail s!"decode: last-token-row roots must be [{batch}, T, V], got {shape}"

def selectOutputs (batch : Nat) (selected : List Nat × Nodes)
    (root : Nat × DecodeOutputSelection) : Fallible String (List Nat × Nodes) := do
  let (outputs, nodes) ← selectRoot infer batch selected.2 root.1 root.2
  return (selected.1 ++ outputs, nodes)

end Selection

/-! ## The whole specialization -/

/-- `sort_by_key` by the layer id. -/
def sortLayers (layers : List KvLayerDescriptor) : List KvLayerDescriptor :=
  layers.insertionSort fun a b => a.layerId ≤ b.layerId

/-- The geometry that every layer shares, or zeros. -/
def summary (layers : List KvLayerDescriptor) : Nat × Nat :=
  match layers with
  | [] => (0, 0)
  | first :: _ =>
    if layers.all fun layer => layer.kvHeads = first.kvHeads ∧ layer.headDim = first.headDim then
      (first.kvHeads, first.headDim)
    else (0, 0)

def kdaSummary (layers : Nat) (geometry : Option (Nat × Nat × Nat × DType)) : KdaGeometry :=
  geometry.elim ⟨0, 0, 0, 0, .f32⟩ fun (heads, headDim, valueDim, dtype) =>
    ⟨layers, heads, headDim, valueDim, dtype⟩

def convSummary (layers : Nat) (geometry : Option (Nat × Nat)) : ConvGeometry :=
  geometry.elim ⟨0, 0, 0⟩ fun (channels, kernel) => ⟨layers, channels, kernel⟩

/-- The window of the pool is smaller than that of a layer which relies on it. -/
def tooNarrow (window required : Option Nat) : Bool :=
  window.any fun retained => required.any fun required => retained < required

/-- What the checks before the traversals reject. -/
def checkRequest (o : Options) (roots : Nat) (selections : List DecodeOutputSelection) :
    Fallible String Nat := do
  let rows ← o.layout.graphRows
  rejectIf (selections.length ≠ roots)
    s!"decode: expected one output selection per root ({roots}), got {selections.length}"
  rejectIf (o.layout.packed ∧ selections.any (· ≠ .allRows))
    "decode: packed causal-chain verification requires all-row outputs"
  rejectIf (o.layout.packed ∧ o.attention = .bidirectional)
    "decode: packed causal-chain verification requires causal current-block attention"
  return rows

def checkPackedRoot (rows : Nat) (nodes : Nodes) (root : Nat) : Fallible String Unit :=
  let shape := (nodes.node root).shape
  rejectIf (shape.length ≠ 3 ∨ shape[0]? ≠ some rows ∨ shape[1]? ≠ some 1)
    s!"decode: packed causal-chain roots must be [{rows}, 1, V], got {shape}"

def checkPackedRoots (layout : DecodeLayout) (rows : Nat) (nodes : Nodes) (roots : List Nat) :
    Fallible String Unit :=
  if layout.packed then roots.foldlM (fun _ root => checkPackedRoot rows nodes root) () else .ok ()

/-- The order of the pass: the last root and the last operand first. -/
def order (G : Graph) (roots : List Nat) : List Nat :=
  G.dag.reversed.walk [] [] (roots.reverse.map (·, false))

/-- What the pass reports, once the layers are sorted. -/
def State.geometry (s : State) (slot : Nat) : DecodeGeometry :=
  let kvLayers := sortLayers s.kvLayers
  { kvLayers
    layers := s.layers
    kvHeads := (summary kvLayers).1
    headDim := (summary kvLayers).2
    allowsWindowEviction := s.allowsWindowEviction
    kda := kdaSummary s.kdaLayers s.kdaGeometry
    conv := convSummary s.convLayers s.convGeometry
    cursorSlot := slot
    cursorTensor := s.cursorTensor }

/-- What the checks behind the pass reject. -/
def State.check (s : State) (window : Option Nat) : Fallible String Unit := do
  rejectIf ((sortLayers s.kvLayers).zipIdx.any fun (layer, ordinal) => layer.layerId ≠ ordinal)
    "decode: explicit attention layer identities must be zero-based and gap-free"
  rejectIf (s.allowsWindowEviction && tooNarrow window s.maximumAttentionWindow)
    s!"decode: global attention window {window.getD 0} cannot retain explicit local window {s.maximumAttentionWindow.getD 0}"

/-- `specialize_decode_layout_outputs_with_attention` in a process whose nodes are those of
`G`, with ids below `next`. -/
def specializeDecodeLayoutOutputsWithAttention (infer : Inference) (G : Graph) (next : Nat)
    (roots : List Nat) (o : Options) (selections : List DecodeOutputSelection) :
    Fallible String (List Nat × Nodes × DecodeGeometry) := do
  let rows ← checkRequest o roots.length selections
  let maximum ← (G.dag.reversed.sweep [] roots.reverse).foldlM (scanSlot G) none
  let slot := cursorSlot maximum
  let s ← (order G roots).foldlM (specializeNode infer G o rows slot) (.start ⟨G.node, next⟩)
  s.check o.window
  let roots := roots.map s.remap
  checkPackedRoots o.layout rows s.nodes roots
  let (selected, nodes) ← (roots.zip selections).foldlM (selectOutputs infer o.layout.batch) ([], s.nodes)
  return (selected, nodes, s.geometry slot)

end Decode

end EffectTorch
