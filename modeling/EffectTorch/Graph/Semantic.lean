import EffectTorch.Graph.NodeProgram

/-!
# Decompositions of semantic operations

`graph/src/semantic.rs`: the programs that build an attention layer and a rotary embedding from
ordinary operations. They read the shapes of operands that were validated, so an axis they name
exists.
-/

namespace EffectTorch

/-- `AttentionWindow::local`. -/
def AttentionWindow.localWindow (window : AttentionWindow) : Option Nat := window.resolve none

namespace Semantic

variable {ν : Type}

def reshape (a : ν) (shape : List Nat) : NodeProgram ν ν := newNode (.reshape a shape)

def cast (a : ν) (dtype : DType) : NodeProgram ν ν := newNode (.cast a dtype)

variable [Described ν]

def scalar (like : ν) (value : F64) (dtype : DType) : NodeProgram ν ν :=
  newNode (.full [] value dtype (deviceOf like))

/-- The size of the axis that is `back` axes before the end. -/
def axis (a : ν) (back : Nat) : Nat := (shapeOf a).getD ((shapeOf a).length - back) 0

/-- `repeat_heads`. -/
def repeatHeads (a : ν) (heads : Nat) : NodeProgram ν ν :=
  let rank := (shapeOf a).length
  if rank < 3 ∨ axis a 3 = heads then return a
  else do
    let grouped := (shapeOf a).insertIdx (rank - 2) 1
    let value ← reshape a grouped
    let value ← newNode (.broadcastTo value (grouped.set (rank - 2) (heads / axis a 3)))
    reshape value ((shapeOf a).set (rank - 3) heads)

/-- The most negative finite value that masks a score. -/
def minimum : DType → F64
  | .bf16 => ⟨0xc7efe00000000000⟩
  | .f16 => ⟨0xc0effc0000000000⟩
  | _ => ⟨0xc7efffffe0000000⟩

/-- The scores with the keys behind a query, or out of its window, masked. -/
def masked (q scores : ν) (queries keys : Nat) (window : AttentionWindow) : NodeProgram ν ν := do
  let offset := keys - queries
  let rows ← newNode (.arange (.ofNat offset) (.ofNat (offset + queries)) (.ofNat 1) .i64 (deviceOf q))
  let columns ← newNode (.arange (.ofNat 0) (.ofNat keys) (.ofNat 1) .i64 (deviceOf q))
  let row ← reshape rows [queries, 1]
  let column ← reshape columns [1, keys]
  let causal ← newNode (.le column row)
  let allowed ← match window.localWindow with
    | some window => do
      let distance ← newNode (.sub row column)
      let limit ← scalar q (.ofNat window) .i64
      let inside ← newNode (.lt distance limit)
      newNode (.mul causal inside)
    | none => return causal
  let zero ← scalar q (.ofNat 0) (dtypeOf q)
  let least ← scalar q (minimum (dtypeOf q)) (dtypeOf q)
  let mask ← newNode (.«where» allowed zero least)
  newNode (.add scores mask)

/-- `attention`. -/
def attention (q k v : ν) (scale : F64) (causal : Bool) (window : AttentionWindow) : NodeProgram ν ν := do
  let rank := (shapeOf q).length
  let heads := if 3 ≤ rank then axis q 3 else 1
  let repeated ← repeatHeads k heads
  let dims := ((List.range rank).set (rank - 2) (rank - 1)).set (rank - 1) (rank - 2)
  let kt ← newNode (.permute repeated dims)
  let product ← newNode (.matmul q kt)
  let scores ← if scale = .ofNat 1 then pure product else do
    let float ← cast product .f32
    let multiplier ← scalar q scale .f32
    let scaled ← newNode (.mul float multiplier)
    cast scaled (dtypeOf q)
  let scores ← if causal then masked q scores (axis q 2) (axis k 2) window else pure scores
  let scores ← cast scores .f32
  let max ← newNode (.max scores [rank - 1] true)
  let shifted ← newNode (.sub scores max)
  let exp ← newNode (.exp shifted)
  let sum ← newNode (.sum exp [rank - 1] true)
  let quotient ← newNode (.div exp sum)
  let probabilities ← cast quotient (dtypeOf q)
  let values ← repeatHeads v heads
  newNode (.matmul probabilities values)

/-- The angles of a table row, once for each member of a pair. -/
def doubledAngles (angles : ν) (width : Nat) : RotaryLayout → NodeProgram ν ν
  | .halfSplit => newNode (.concat angles angles ((shapeOf angles).length - 1))
  | .interleavedPairs => do
    let columns ← reshape angles (shapeOf angles ++ [1])
    let pairs ← newNode (.broadcastTo columns (shapeOf angles ++ [2]))
    reshape pairs ((shapeOf angles).set ((shapeOf angles).length - 1) width)

/-- The input with the pairs along its last axis. -/
def pairInput (x : ν) (width : Nat) : RotaryLayout → NodeProgram ν ν
  | .halfSplit => return x
  | .interleavedPairs => reshape x ((shapeOf x).set ((shapeOf x).length - 1) (width / 2) ++ [2])

/-- `rotary`. -/
def rotary (x positions frequencies : ν) (layout : RotaryLayout) : NodeProgram ν ν := do
  let rank := (shapeOf x).length
  let width := axis x 1
  let float ← cast positions .f32
  let column ← reshape float (shapeOf positions ++ [1])
  let factors ← cast frequencies .f32
  let angles ← newNode (.mul column factors)
  let doubled ← doubledAngles angles width layout
  let heads := if 3 ≤ rank then
    (shapeOf positions).insertIdx ((shapeOf positions).length - 1) 1 else shapeOf positions
  let tableShape := heads ++ [width]
  let cosines ← newNode (.cos doubled)
  let cosines ← cast cosines (dtypeOf x)
  let cosine ← reshape cosines tableShape
  let sines ← newNode (.sin doubled)
  let sines ← cast sines (dtypeOf x)
  let sine ← reshape sines tableShape
  let pairs ← pairInput x width layout
  let dim := (shapeOf pairs).length - 1
  let half := axis pairs 1 / 2
  let ranges := (shapeOf pairs).map fun size => (0, size, 1)
  let first ← newNode (.slice pairs (ranges.set dim (0, half, 1)))
  let second ← newNode (.slice pairs (ranges.set dim (half, half * 2, 1)))
  let negated ← newNode (.neg second)
  let turned ← newNode (.concat negated first dim)
  let rotated ← reshape turned (shapeOf x)
  let direct ← newNode (.mul x cosine)
  let cross ← newNode (.mul rotated sine)
  newNode (.add direct cross)

end Semantic

/-- `decompose_semantic`. -/
def decomposeSemantic {ν : Type} [Described ν] : NodeKind ν → NodeProgram ν (Option ν)
  | .sdpaConfigured q k v scale causal window .fused _ _ =>
    return some (← newNode (.sdpa q k v scale causal window))
  | .sdpaConfigured q k v scale causal window .stepwise _ _ =>
    return some (← Semantic.attention q k v scale causal window)
  | .rotaryEmbeddingExplicit x positions inverseFrequencies layout =>
    return some (← Semantic.rotary x positions inverseFrequencies layout)
  | _ => return none

end EffectTorch
