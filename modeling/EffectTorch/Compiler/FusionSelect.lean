import EffectTorch.Compiler.FusionReduce
import EffectTorch.Compiler.FusionRewrite
import Mathlib.Data.List.Dedup

/-!
# Selection of fused regions

`select_elementwise` and `emit_elementwise` of `compiler/src/optimization.rs` with `OpenRegion`, and what they call. The
open chains are a list in the order of their endpoints, which is the order of the slots of `open`; `reserved` is a
function. What the target says of a region (`classify_region`) and the rounding of constants are parameters. Regions that
other passes select are known by their nodes. Work counters are left out. An index out of range reads 0.
-/

namespace EffectTorch
open List Lib

def maxLanes : Nat := 30

/-! ## Expressions -/

inductive UnaryOperation where
  | neg | sqrt | exp | log | sin | cos | relu | tanh
  | gelu (approximate : Bool)
  | abs | erf | floor | ceil | round
  | pow (exponent : F64)
  | sign
  | cast (dtype : DType)

inductive BinaryOperation where
  | add | sub | mul | div | maximum | minimum

inductive ComparisonOperation where
  | eq | gt | lt | ge | le

inductive ElementOperation where
  | unary (operation : UnaryOperation)
  | binary (operation : BinaryOperation)
  | select (comparison : ComparisonOperation)
  | reduce (op : ReduceOp) (dims : List Nat) (keepdims : Bool)
  | argReduce (maximum : Bool) (dim : Nat)

namespace KernelExpr

def cst (v : F64) : KernelExpr := const v.bits

def zero : KernelExpr := const 0
def one : KernelExpr := const 0x3ff0000000000000
def minusOne : KernelExpr := const 0xbff0000000000000

/-- `pow_expr`. Both zeros match `0.0`. -/
def powExpr (x : KernelExpr) (e : F64) : KernelExpr :=
  if e.bits = 0 ∨ e.bits = 0x8000000000000000 then one
  else if e.bits = 0x3ff0000000000000 then x
  else if e.bits = 0xbff0000000000000 then div one x
  else if e.bits = 0x4000000000000000 then mul x x
  else if e.bits = 0x4008000000000000 then mul (mul x x) x
  else if e.bits = 0x3fe0000000000000 then sqrt x
  else if e.bits = 0xbfe0000000000000 then div one (sqrt x)
  else powf x e.bits

end KernelExpr

def UnaryOperation.apply (input : KernelExpr) : UnaryOperation → KernelExpr
  | neg => .neg input
  | sqrt => .sqrt input
  | exp => .exp input
  | log => .log input
  | sin => .sin input
  | cos => .cos input
  | relu => .max input .zero
  | tanh => .tanh input
  | gelu true => .geluTanh input
  | gelu false => .gelu input
  | abs => .abs input
  | erf => .erf input
  | floor => .floor input
  | ceil => .ceil input
  | round => .round input
  | pow exponent => input.powExpr exponent
  | sign => .select (.gt input .zero) .one (.select (.lt input .zero) .minusOne .zero)
  | cast dtype => .cast input dtype

def BinaryOperation.apply (left right : KernelExpr) : BinaryOperation → KernelExpr
  | add => .add left right
  | sub => .sub left right
  | mul => .mul left right
  | div => .div left right
  | maximum => .max left right
  | minimum => .min left right

def ComparisonOperation.apply (left right : KernelExpr) : ComparisonOperation → KernelExpr
  | eq => .eq left right
  | gt => .gt left right
  | lt => .lt left right
  | ge => .ge left right
  | le => .le left right

def NodeKind.unary? : NodeKind Nat → Option UnaryOperation
  | neg _ => some .neg
  | .sqrt _ => some .sqrt
  | .exp _ => some .exp
  | log _ => some .log
  | sin _ => some .sin
  | cos _ => some .cos
  | relu _ => some .relu
  | tanh _ => some .tanh
  | gelu _ approximate => some (.gelu approximate)
  | abs _ => some .abs
  | erf _ => some .erf
  | floor _ => some .floor
  | ceil _ => some .ceil
  | round _ => some .round
  | pow _ exponent => some (.pow exponent)
  | sign _ => some .sign
  | _ => none

def NodeKind.binary? : NodeKind Nat → Option (BinaryOperation × Nat × Nat)
  | add a b => some (.add, a, b)
  | sub a b => some (.sub, a, b)
  | mul a b => some (.mul, a, b)
  | div a b => some (.div, a, b)
  | maximum a b => some (.maximum, a, b)
  | minimum a b => some (.minimum, a, b)
  | _ => none

def NodeKind.comparison? : NodeKind Nat → Option (ComparisonOperation × Nat × Nat)
  | eq a b => some (.eq, a, b)
  | gt a b => some (.gt, a, b)
  | lt a b => some (.lt, a, b)
  | ge a b => some (.ge, a, b)
  | le a b => some (.le, a, b)
  | _ => none

/-! ## Regions -/

/-- An elementwise chain under construction. -/
structure OpenRegion where
  expression : KernelExpr
  inputs : List DenseNodeId
  nodes : List DenseNodeId
  ops : Nat

namespace OpenRegion

def empty : OpenRegion := ⟨.zero, [], [], 0⟩

/-- `lane_of`: the lane of an input is its position. -/
def laneOf (r : OpenRegion) (node : DenseNodeId) : Option Nat := r.inputs.idxOf? node

/-- The lane of a node, allocated on first use. -/
def lane (r : OpenRegion) (node : DenseNodeId) : KernelExpr × OpenRegion :=
  match r.laneOf node with
  | some lane => (.input lane, r)
  | none => (.input r.inputs.length, { r with inputs := r.inputs ++ [node] })

/-- A turn of the loop of `absorb`: the lane of one more input of the other chain. -/
def internLane (found : List DenseNodeId × (Nat → Option Nat)) (entry : DenseNodeId × Nat) :
    List DenseNodeId × (Nat → Option Nat) :=
  let (inputs, remap) := found
  let (input, lane) := entry
  match inputs.idxOf? input with
  | some merged => (inputs, Function.update remap lane (some merged))
  | none => (inputs ++ [input], Function.update remap lane (some inputs.length))

/-- Merges another chain into this one; its expression in the lanes of the result. -/
def absorb (r other : OpenRegion) : Fallible Empty (KernelExpr × OpenRegion) := do
  let (inputs, remap) := other.inputs.zipIdx.foldl internLane (r.inputs, fun _ => none)
  let expression ← other.expression.remapLanes remap
  pure (expression, { r with inputs, nodes := r.nodes ++ other.nodes, ops := r.ops + other.ops })

end OpenRegion

structure ElementwiseOutput where
  semanticNode : DenseNodeId
  expression : KernelExpr

inductive FusedKind where
  | elementwise
  | reduce (op : ReduceOp) (dims : List Nat) (keepdims : Bool) (inputShape : List Nat)
  | argReduce (maximum : Bool) (dim : Nat) (inputShape : List Nat)

structure FusedRegion where
  nodes : List DenseNodeId
  inputs : List DenseNodeId
  laneStrides : List (List Nat)
  shape : List Nat
  dtype : DType
  device : Device

inductive NativeRegion where
  | fused (kind : FusedKind) (region : FusedRegion) (output : ElementwiseOutput)
  | other (nodes : List DenseNodeId)

def NativeRegion.nodes : NativeRegion → List DenseNodeId
  | fused _ region _ => region.nodes
  | other nodes => nodes

structure DraftRegion (Plan : Type) where
  region : NativeRegion
  disposition : Plan
  active : Bool

/-- The state of selection, with the open chains of `select_elementwise` by their endpoints. -/
structure RegionSelector (Plan : Type) where
  error : Option String
  reserved : DenseNodeId → Bool
  drafts : List (DraftRegion Plan)
  opened : List (DenseNodeId × OpenRegion)

def RegionSelector.new {Plan : Type} : RegionSelector Plan := ⟨none, fun _ => false, [], []⟩

def normalizeNodes (nodes : List DenseNodeId) : List DenseNodeId := (nodes.mergeSort fun a b => a ≤ b).dedup

def broadcastCompatible (lane out : List Nat) : Bool := (laneStrides lane out).isSome

/-- What selection reads. -/
structure SelectionContext (Plan : Type) where
  graph : Graph
  index : GraphIndex
  castF64 : F64 → DType → F64
  classify : NativeRegion → Except String (Option Plan)

section Selection

variable {Plan : Type} (X : SelectionContext Plan)

namespace SelectionContext

def node (d : DenseNodeId) : Node := X.graph.node (X.index.order.getD d 0)

def childrenOf (d : DenseNodeId) : List DenseNodeId := X.index.children.getD d []

def consumersOf (d : DenseNodeId) : List DenseNodeId := X.index.consumers.getD d []

def operand (d : DenseNodeId) (i : Nat) : DenseNodeId := (X.childrenOf d).getD i 0

/-- The strides of all inputs over a shape. -/
def stridesOver (inputs : List DenseNodeId) (shape : List Nat) : Option (List (List Nat)) :=
  inputs.mapM fun input => laneStrides (X.node input).shape shape

end SelectionContext

/-- The dtype that an operand of a mixed scalar and tensor operation is converted to. -/
def scalarCoercion (kind : NodeKind Nat) (operand : Nat) : Option DType :=
  match (kind.binary?.map Prod.snd).or (kind.comparison?.map Prod.snd) with
  | none => none
  | some (a, b) =>
    let a := X.graph.node a
    let b := X.graph.node b
    if a.dtype = b.dtype || !a.dtype.isFloat || !b.dtype.isFloat || a.shape.isEmpty = b.shape.isEmpty then none
    else if operand = 0 && a.shape.isEmpty then some b.dtype
    else if operand = 1 && b.shape.isEmpty then some a.dtype
    else none

def semanticOperand (expression : KernelExpr) (node : DenseNodeId) (operand : Nat) : KernelExpr :=
  match scalarCoercion X (X.node node).kind operand with
  | some destination => .cast expression destination
  | none => expression

def constValue (child : DenseNodeId) (outputShape : List Nat) : Option F64 :=
  match (X.node child).kind with
  | .full shape value .. => if broadcastCompatible shape outputShape then some value else none
  | .zeros shape .. => if broadcastCompatible shape outputShape then some ⟨0⟩ else none
  | _ => none

/-- `typed_constant` with the dtype of a node. -/
def typedConstant (value : F64) (child : DenseNodeId) : KernelExpr :=
  .cast (.cst (X.castF64 value (X.node child).dtype)) (X.node child).dtype

def elementOperand (region : OpenRegion) (child : DenseNodeId) (outputShape : List Nat) : KernelExpr × OpenRegion :=
  match constValue X child outputShape with
  | some value => (typedConstant X value child, region)
  | none => region.lane child

/-- How a node fuses, if it does. -/
def elementOperation (reserved : DenseNodeId → Bool) (dense : DenseNodeId) : Option ElementOperation :=
  let node := X.node dense
  let inputOk := fun child => broadcastCompatible (X.graph.node child).shape node.shape
  if reserved dense then none
  else match node.kind with
  | .cast a dtype => if (X.graph.node a).dtype.isFloat && dtype.isFloat then some (.unary (.cast dtype)) else none
  | .where cond a b =>
    if (X.consumersOf ((X.index.denseByNode.lookup cond).getD 0)).length = 1 && inputOk a && inputOk b then
      match (X.graph.node cond).kind.comparison? with
      | some (comparison, a, b) => if inputOk a && inputOk b then some (.select comparison) else none
      | none => none
    else none
  | .argmax _ dim => some (.argReduce true dim)
  | .argmin _ dim => some (.argReduce false dim)
  | .sum _ dims keepdims => if dims = [] then none else some (.reduce .sum dims keepdims)
  | .mean _ dims keepdims => if dims = [] then none else some (.reduce .mean dims keepdims)
  | .max _ dims keepdims => if dims = [] then none else some (.reduce .max dims keepdims)
  | .min _ dims keepdims => if dims = [] then none else some (.reduce .min dims keepdims)
  | kind => match kind.binary? with
    | some (operation, a, b) => if inputOk a && inputOk b then some (.binary operation) else none
    | none => kind.unary?.map .unary

namespace RegionSelector

variable (s : RegionSelector Plan)

/-- The plan of a region the target supports. The first error is kept. -/
def classifyRegion (region : NativeRegion) : Option Plan × RegionSelector Plan :=
  match X.classify region with
  | .ok plan => (plan, s)
  | .error e => (none, { s with error := s.error.or (some e) })

/-- Adds a region that the target supports, and says whether it does. -/
def addRegion (region : NativeRegion) : Bool × RegionSelector Plan :=
  match s.classifyRegion X region with
  | (some disposition, s) => (true, { s with
      reserved := fun node => s.reserved node || node ∈ region.nodes
      drafts := s.drafts ++ [⟨region, disposition, true⟩] })
  | (none, s) => (false, s)

/-- `open[node].take()`, without what was there. -/
def take (node : DenseNodeId) : RegionSelector Plan :=
  { s with opened := s.opened.filter (·.1 ≠ node) }

/-- `open[dense] = Some(region)` with the expression of `dense` and the nodes it adds. -/
def put (dense : DenseNodeId) (region : OpenRegion) (expression : KernelExpr) (nodes : List DenseNodeId) :
    RegionSelector Plan :=
  { s with opened := s.opened ++ [(dense, { region with
      expression := .semantic expression dense (X.node dense).dtype
      nodes := region.nodes ++ nodes
      ops := region.ops + 1 })] }

/-- Emits a closed chain of at least two operations with an input. -/
def emitElementwise (endpoint : DenseNodeId) (region : OpenRegion) : RegionSelector Plan :=
  let node := X.node endpoint
  match X.stridesOver region.inputs node.shape with
  | some strides =>
    if 2 ≤ region.ops ∧ region.inputs ≠ [] then
      (s.addRegion X (.fused .elementwise ⟨normalizeNodes region.nodes, region.inputs, strides, node.shape,
        node.dtype, node.device⟩ ⟨endpoint, region.expression⟩)).2
    else s
  | none => s

/-- Closes an open child that does not go on with its only consumer. -/
def closeChild (operation : Option ElementOperation) (child : DenseNodeId) : RegionSelector Plan :=
  match s.opened.lookup child with
  | some region =>
    if operation.isNone || (X.consumersOf child).length ≠ 1 || child ∈ X.index.roots then
      (s.take child).emitElementwise X child region
    else s
  | none => s

def growUnary (dense : DenseNodeId) (operation : UnaryOperation) : RegionSelector Plan :=
  let child := X.operand dense 0
  match s.opened.lookup child with
  | some region => (s.take child).put X dense region (operation.apply region.expression) [dense]
  | none =>
    let (lane, region) := elementOperand X .empty child (X.node dense).shape
    s.put X dense region (operation.apply lane) [dense]

/-- Emits a full chain that would need a lane for the other operand. -/
def spill (child : DenseNodeId) (region other : Option OpenRegion) (operand : DenseNodeId) (shape : List Nat) :
    Option OpenRegion × RegionSelector Plan :=
  match region with
  | some r =>
    if other.isNone && (constValue X operand shape).isNone && (r.laneOf operand).isNone &&
        maxLanes ≤ r.inputs.length then
      (none, s.emitElementwise X child r)
    else (some r, s)
  | none => (none, s)

/-- `Binary` with the chains of its operands. -/
def joinOperands (dense : DenseNodeId) (operation : BinaryOperation) (left right : Option OpenRegion) :
    Fallible Empty (RegionSelector Plan) := do
  let a := X.operand dense 0
  let b := X.operand dense 1
  let shape := (X.node dense).shape
  let (left, s) := s.spill X a left right b shape
  let (right, s) := s.spill X b right left a shape
  let (region, l, r) ← match left, right with
    | some left, some right => do
      let (expression, region) ← left.absorb right
      pure (region, left.expression, expression)
    | some region, none => do
      let (expression, region') := elementOperand X region b shape
      pure (region', region.expression, expression)
    | none, some region => do
      let (expression, region') := elementOperand X region a shape
      pure (region', expression, region.expression)
    | none, none => do
      let (l, region) := elementOperand X .empty a shape
      let (r, region) := elementOperand X region b shape
      pure (region, l, r)
  pure (s.put X dense region (operation.apply (semanticOperand X l dense 0) (semanticOperand X r dense 1)) [dense])

def growBinary (dense : DenseNodeId) (operation : BinaryOperation) : Fallible Empty (RegionSelector Plan) :=
  let a := X.operand dense 0
  let b := X.operand dense 1
  let left := s.opened.lookup a
  let s := s.take a
  let right := s.opened.lookup b
  let s := s.take b
  match left, right with
  | some l, some r =>
    if maxLanes < l.inputs.length + r.inputs.length then (s.emitElementwise X b r).joinOperands X dense operation left none
    else s.joinOperands X dense operation left right
  | _, _ => s.joinOperands X dense operation left right

/-- The loop over the operands of a comparison and a select. It stops when there is no lane left. -/
def gatherOperands (shape : List Nat) : List DenseNodeId → RegionSelector Plan → OpenRegion → List KernelExpr →
    Fallible Empty (RegionSelector Plan × Option (OpenRegion × List KernelExpr))
  | [], s, region, expressions => pure (s, some (region, expressions))
  | child :: rest, s, region, expressions =>
    let full := (region.laneOf child).isNone && maxLanes ≤ region.inputs.length
    match s.opened.lookup child with
    | some r =>
      if maxLanes < region.inputs.length + r.inputs.length then
        let s := (s.take child).emitElementwise X child r
        if full then pure (s, none)
        else gatherOperands shape rest s (region.lane child).2 (expressions ++ [(region.lane child).1])
      else do
        let (expression, region) ← region.absorb r
        gatherOperands shape rest (s.take child) region (expressions ++ [expression])
    | none => match constValue X child shape with
      | some value => gatherOperands shape rest s region (expressions ++ [typedConstant X value child])
      | none =>
        if full then pure (s, none)
        else gatherOperands shape rest s (region.lane child).2 (expressions ++ [(region.lane child).1])

def growSelect (dense : DenseNodeId) (comparison : ComparisonOperation) : Fallible Empty (RegionSelector Plan) := do
  let cond := X.operand dense 0
  let logical := [X.operand cond 0, X.operand cond 1, X.operand dense 1, X.operand dense 2]
  match ← gatherOperands X (X.node dense).shape logical s .empty [] with
  | (s, none) => pure s
  | (s, some (region, expressions)) =>
    let operand := fun i => expressions.getD i .zero
    let condition := comparison.apply (semanticOperand X (operand 0) cond 0)
      (semanticOperand X (operand 1) cond 1)
    let nodes := if (X.consumersOf cond).length = 1 ∧ cond ∉ X.index.roots then [cond, dense] else [dense]
    pure (s.put X dense region
      (.select (.semantic condition cond (X.node cond).dtype) (operand 2) (operand 3)) nodes)

/-- `Reduce` and `ArgReduce`: the input chain becomes a fused reduction, or is closed. -/
def fuseReduction (dense : DenseNodeId) (guardsOk : Bool) (kind : FusedKind) (shape : List Nat) (emitRejected : Bool) :
    RegionSelector Plan :=
  let input := X.operand dense 0
  let node := X.node dense
  match s.opened.lookup input with
  | none => s
  | some region =>
    let s := s.take input
    match X.stridesOver region.inputs (X.node input).shape with
    | some strides =>
      if guardsOk && region.inputs ≠ [] then
        let (added, s) := s.addRegion X (.fused kind ⟨normalizeNodes (region.nodes ++ [dense]), region.inputs,
          strides, shape, node.dtype, node.device⟩ ⟨dense, region.expression⟩)
        if !added && emitRejected then s.emitElementwise X input region else s
      else s.emitElementwise X input region
    | none => s.emitElementwise X input region

def elementwiseTurn (dense : DenseNodeId) : Fallible Empty (RegionSelector Plan) :=
  let operation := elementOperation X s.reserved dense
  let s := (X.childrenOf dense).foldl (fun s child => s.closeChild X operation child) s
  let inputShape := (X.node (X.operand dense 0)).shape
  match operation with
  | none => pure s
  | some (.unary operation) => pure (s.growUnary X dense operation)
  | some (.binary operation) => s.growBinary X dense operation
  | some (.select comparison) => s.growSelect X dense comparison
  | some (.argReduce maximum dim) => pure (s.fuseReduction X dense
      (dim < inputShape.length && 0 < inputShape.getD dim 0) (.argReduce maximum dim inputShape)
      (X.node dense).shape true)
  | some (.reduce op dims keepdims) =>
    let dims := normalizeNodes dims
    pure (s.fuseReduction X dense
      (dims ≠ [] && dims.all (· < inputShape.length) && 0 < (dims.map (inputShape.getD · 0)).prod)
      (.reduce op dims keepdims inputShape) (reducedShape inputShape dims keepdims) false)

/-- One pass in postorder; what is open at the end is closed in order. -/
def selectElementwise : Fallible Empty (RegionSelector Plan) := do
  let s ← (range X.index.order.length).foldlM (fun s dense => s.elementwiseTurn X dense)
    { s with opened := [] }
  pure (s.opened.foldl (fun s (endpoint, region) => s.emitElementwise X endpoint region)
    { s with opened := [] })

end RegionSelector

end Selection

end EffectTorch
