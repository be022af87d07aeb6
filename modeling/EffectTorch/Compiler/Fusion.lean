import EffectTorch.Compiler.ScheduleIndex
import EffectTorch.Lib.Fill
import EffectTorch.Runtime.Layout
import Mathlib.Algebra.Order.BigOperators.Group.List

/-!
# Fused scalar expressions

`KernelExpr` of `compiler/src/ir.rs` with its recursive value, the postorder plans of
`flatten_into`, and `CpuFusionProgram`: its preparation, and the evaluation of a plan on a
slice of scratch values. `debug_assert!`s are kept as panics. A `usize` that would go below
zero panics.

Result: `flattenInto_eq`: the traversal with a stack appends the recursive postorder.
-/

namespace EffectTorch
open List Lib

/-! ## Expressions -/

/-- Scalar expression tree for one fused value. -/
inductive KernelExpr where
  | input (lane : Nat)
  | scalar (lane : Nat)
  | const (bits : UInt64)
  /-- Explicit graph-level conversion to a scalar dtype. -/
  | cast (a : KernelExpr) (dtype : DType)
  /-- Round to a semantic dtype while retaining the evaluator register type. -/
  | roundTo (a : KernelExpr) (dtype : DType)
  /-- Semantic result marker, removed by checked expression legalization. -/
  | semantic (a : KernelExpr) (node : DenseNodeId) (dtype : DType)
  | add (a b : KernelExpr)
  | sub (a b : KernelExpr)
  | mul (a b : KernelExpr)
  | div (a b : KernelExpr)
  | min (a b : KernelExpr)
  | max (a b : KernelExpr)
  | lt (a b : KernelExpr)
  | le (a b : KernelExpr)
  | gt (a b : KernelExpr)
  | ge (a b : KernelExpr)
  | eq (a b : KernelExpr)
  | ne (a b : KernelExpr)
  | select (cond a b : KernelExpr)
  | neg (a : KernelExpr)
  | sqrt (a : KernelExpr)
  | exp (a : KernelExpr)
  | sin (a : KernelExpr)
  | cos (a : KernelExpr)
  | tanh (a : KernelExpr)
  | abs (a : KernelExpr)
  | log (a : KernelExpr)
  | floor (a : KernelExpr)
  | ceil (a : KernelExpr)
  | round (a : KernelExpr)
  | powf (a : KernelExpr) (exponent : UInt64)
  | erf (a : KernelExpr)
  | gelu (a : KernelExpr)
  | geluTanh (a : KernelExpr)

/-- One operation of a plan. -/
inductive Flat where
  | input (lane : Nat)
  | scalar (lane : Nat)
  | const (bits : UInt64)
  | cast (dtype : DType)
  | roundTo (dtype : DType)
  | semantic (node : DenseNodeId) (dtype : DType)
  | add | sub | mul | div | min | max | lt | le | gt | ge | eq | ne
  | select
  | neg | sqrt | exp | sin | cos | tanh | abs | log | floor | ceil | round
  | powf (exponent : UInt64)
  | erf | gelu | geluTanh
deriving DecidableEq, Repr

/-- Scalar arithmetic interface for fusion IR evaluators. -/
class Scalar (T : Type) where
  fromF64 : F64 → T
  cast : T → DType → T
  add : T → T → T
  sub : T → T → T
  mul : T → T → T
  div : T → T → T
  min : T → T → T
  max : T → T → T
  lt : T → T → T
  le : T → T → T
  gt : T → T → T
  ge : T → T → T
  eq : T → T → T
  ne : T → T → T
  neg : T → T
  sqrt : T → T
  exp : T → T
  sin : T → T
  cos : T → T
  tanh : T → T
  abs : T → T
  log : T → T
  floor : T → T
  ceil : T → T
  round : T → T
  powf : T → F64 → T
  erf : T → T
  pick : T → T → T → T

variable {T : Type}

namespace Scalar

variable [Scalar T]

/-- `FRAC_1_SQRT_2`. -/
def frac1Sqrt2 : T := fromF64 ⟨0x3fe6a09e667f3bcd⟩

def half : T := fromF64 ⟨0x3fe0000000000000⟩

def one : T := fromF64 ⟨0x3ff0000000000000⟩

/-- The exact form of GELU. -/
def gelu (x : T) : T :=
  let inner := erf (mul x frac1Sqrt2)
  mul (mul x half) (add one inner)

/-- The tanh approximation of GELU, with `0.044715` and `0.7978845608028654`. -/
def geluTanh (x : T) : T :=
  let u := mul (add x (mul (mul (mul x x) x) (fromF64 ⟨0x3fa6e4e26d4801f7⟩)))
    (fromF64 ⟨0x3fe9884533d43651⟩)
  mul (mul x half) (add one (tanh u))

end Scalar

namespace KernelExpr

/-- The value of an expression, by recursion. A marker stands for its operand. -/
def value [Scalar T] (lane scalar : Nat → T) : KernelExpr → T
  | input k => lane k
  | .scalar k => scalar k
  | const bits => Scalar.fromF64 ⟨bits⟩
  | cast a dtype | roundTo a dtype => Scalar.cast (a.value lane scalar) dtype
  | semantic a _ _ => a.value lane scalar
  | add a b => Scalar.add (a.value lane scalar) (b.value lane scalar)
  | sub a b => Scalar.sub (a.value lane scalar) (b.value lane scalar)
  | mul a b => Scalar.mul (a.value lane scalar) (b.value lane scalar)
  | div a b => Scalar.div (a.value lane scalar) (b.value lane scalar)
  | min a b => Scalar.min (a.value lane scalar) (b.value lane scalar)
  | max a b => Scalar.max (a.value lane scalar) (b.value lane scalar)
  | lt a b => Scalar.lt (a.value lane scalar) (b.value lane scalar)
  | le a b => Scalar.le (a.value lane scalar) (b.value lane scalar)
  | gt a b => Scalar.gt (a.value lane scalar) (b.value lane scalar)
  | ge a b => Scalar.ge (a.value lane scalar) (b.value lane scalar)
  | eq a b => Scalar.eq (a.value lane scalar) (b.value lane scalar)
  | ne a b => Scalar.ne (a.value lane scalar) (b.value lane scalar)
  | select cond a b =>
    Scalar.pick (cond.value lane scalar) (a.value lane scalar) (b.value lane scalar)
  | neg a => Scalar.neg (a.value lane scalar)
  | sqrt a => Scalar.sqrt (a.value lane scalar)
  | exp a => Scalar.exp (a.value lane scalar)
  | sin a => Scalar.sin (a.value lane scalar)
  | cos a => Scalar.cos (a.value lane scalar)
  | tanh a => Scalar.tanh (a.value lane scalar)
  | abs a => Scalar.abs (a.value lane scalar)
  | log a => Scalar.log (a.value lane scalar)
  | floor a => Scalar.floor (a.value lane scalar)
  | ceil a => Scalar.ceil (a.value lane scalar)
  | round a => Scalar.round (a.value lane scalar)
  | powf a exponent => Scalar.powf (a.value lane scalar) ⟨exponent⟩
  | erf a => Scalar.erf (a.value lane scalar)
  | gelu a => Scalar.gelu (a.value lane scalar)
  | geluTanh a => Scalar.geluTanh (a.value lane scalar)

/-- The operation of the root. -/
def op : KernelExpr → Flat
  | input k => .input k
  | scalar k => .scalar k
  | const bits => .const bits
  | cast _ dtype => .cast dtype
  | roundTo _ dtype => .roundTo dtype
  | semantic _ node dtype => .semantic node dtype
  | add _ _ => .add
  | sub _ _ => .sub
  | mul _ _ => .mul
  | div _ _ => .div
  | min _ _ => .min
  | max _ _ => .max
  | lt _ _ => .lt
  | le _ _ => .le
  | gt _ _ => .gt
  | ge _ _ => .ge
  | eq _ _ => .eq
  | ne _ _ => .ne
  | select _ _ _ => .select
  | neg _ => .neg
  | sqrt _ => .sqrt
  | exp _ => .exp
  | sin _ => .sin
  | cos _ => .cos
  | tanh _ => .tanh
  | abs _ => .abs
  | log _ => .log
  | floor _ => .floor
  | ceil _ => .ceil
  | round _ => .round
  | powf _ exponent => .powf exponent
  | erf _ => .erf
  | gelu _ => .gelu
  | geluTanh _ => .geluTanh

/-- The operands of the root, from left to right. -/
def children : KernelExpr → List KernelExpr
  | input _ | scalar _ | const _ => []
  | select cond a b => [cond, a, b]
  | add a b | sub a b | mul a b | div a b | min a b | max a b
  | lt a b | le a b | gt a b | ge a b | eq a b | ne a b => [a, b]
  | cast a _ | roundTo a _ | semantic a _ _ | powf a _ | erf a | gelu a | geluTanh a
  | neg a | sqrt a | exp a | sin a | cos a | tanh a | abs a | log a | floor a | ceil a | round a => [a]

theorem sizeOf_children (e : KernelExpr) : (e.children.map sizeOf).sum + 1 ≤ sizeOf e := by
  cases e <;> simp [children] <;> omega

theorem sizeOf_child {e child : KernelExpr} (h : child ∈ e.children) : sizeOf child < sizeOf e :=
  Nat.lt_of_lt_of_le (Nat.lt_succ_of_le (le_sum_of_mem (mem_map_of_mem h)))
    e.sizeOf_children

/-- The operations of an expression, the operands of each before it. -/
def postorder (e : KernelExpr) : List Flat :=
  (e.children.attach.flatMap fun child => postorder child.1) ++ [e.op]
termination_by sizeOf e
decreasing_by exact sizeOf_child child.2

theorem postorder_eq (e : KernelExpr) : e.postorder = e.children.flatMap postorder ++ [e.op] := by
  rw [postorder, ← flatMap_map Subtype.val postorder, attach_map_subtype_val]

end KernelExpr

/-! ## Flattening -/

/-- Two turns for a node and for each node below it. -/
noncomputable def pendingTurns (entry : KernelExpr × Bool) : Nat :=
  if entry.2 then 1 else 2 * sizeOf entry.1

theorem pendingTurns_children (node : KernelExpr) :
    ((node.children.map fun child => (child, false)).map pendingTurns).sum + 2 ≤
      pendingTurns (node, false) := by
  have hsum : ((node.children.map fun child => (child, false)).map pendingTurns).sum =
      2 * (node.children.map sizeOf).sum := by
    rw [map_map, ← sum_map_mul_left]
    rfl
  have hsize := node.sizeOf_children
  rw [hsum, pendingTurns, if_neg Bool.false_ne_true]
  dsimp only
  omega

/-- The loop of `flatten_into`. A processed node has its operands behind it; one that is not
pushes itself, and its operands with the first on top. -/
def flattenLoop : List (KernelExpr × Bool) → List Flat → List Flat
  | [], out => out
  | (node, true) :: stack, out => flattenLoop stack (out ++ [node.op])
  | (node, false) :: stack, out =>
    flattenLoop (node.children.map (fun child => (child, false)) ++ (node, true) :: stack) out
termination_by stack => (stack.map pendingTurns).sum
decreasing_by
  · simp [pendingTurns]
  · have h := pendingTurns_children node
    simp only [map_append, map_cons, sum_append, sum_cons]
    have hone : pendingTurns (node, true) = 1 := rfl
    omega

/-- `flatten_into`. -/
def flattenInto (e : KernelExpr) (out : List Flat) : List Flat :=
  flattenLoop [(e, false)] out

theorem flattenLoop_visit (e : KernelExpr) (stack : List (KernelExpr × Bool)) (out : List Flat) :
    flattenLoop ((e, false) :: stack) out = flattenLoop stack (out ++ e.postorder) := by
  -- the operands are smaller, and stand on the stack from left to right
  have hchildren : ∀ (children : List KernelExpr), (∀ child ∈ children, child ∈ e.children) →
      ∀ stack out, flattenLoop (children.map (fun child => (child, false)) ++ stack) out =
        flattenLoop stack (out ++ children.flatMap KernelExpr.postorder) := by
    intro children hsub
    induction children with
    | nil => intro stack out; simp
    | cons child children ih =>
      intro stack out
      rw [map_cons, cons_append, flattenLoop_visit child,
        ih fun c hc => hsub c (mem_cons_of_mem child hc), flatMap_cons, append_assoc]
  rw [flattenLoop, hchildren e.children fun _ h => h, flattenLoop, e.postorder_eq, append_assoc]
termination_by sizeOf e
decreasing_by exact KernelExpr.sizeOf_child (hsub child mem_cons_self)

/-- The traversal appends the recursive postorder. -/
theorem flattenInto_eq (e : KernelExpr) (out : List Flat) :
    flattenInto e out = out ++ e.postorder := by
  rw [flattenInto, flattenLoop_visit, flattenLoop]

/-! ## Preparation -/

/-- What the walk over a plan counts. -/
structure Measure where
  inputCount : Nat
  scalarCount : Nat
  valueScratchLen : Nat
  depth : Nat

namespace Measure

/-- An operation that leaves one value for its operands. -/
def pop (m : Measure) (operands : Nat) : Fallible Empty Measure := do
  assert (operands ≤ m.depth) ("assertion failed: depth >= " ++ toString operands)
  .ok { m with depth := m.depth - (operands - 1) }

def count (m : Measure) : Flat → Fallible Empty Measure
  | .input k => .ok { m with inputCount := max m.inputCount (k + 1), depth := m.depth + 1 }
  | .scalar k => .ok { m with scalarCount := max m.scalarCount (k + 1), depth := m.depth + 1 }
  | .const _ => .ok { m with depth := m.depth + 1 }
  | .add | .sub | .mul | .div | .min | .max | .lt | .le | .gt | .ge | .eq | .ne => m.pop 2
  | .select => m.pop 3
  | .semantic _ _ =>
    .error (.panic "unlegalized semantic boundary reached CPU fusion preparation")
  | .cast _ | .roundTo _ | .neg | .sqrt | .exp | .sin | .cos | .tanh | .abs | .log | .floor | .ceil | .round
  | .powf _ | .erf | .gelu | .geluTanh => m.pop 1

def step (m : Measure) (op : Flat) : Fallible Empty Measure := do
  let m ← m.count op
  .ok { m with valueScratchLen := max m.valueScratchLen m.depth }

end Measure

/-- Immutable flattened expression plans retained by a compiled CPU command. -/
structure CpuFusionProgram where
  ops : List Flat
  planEnds : List Nat
  inputCount : Nat
  scalarCount : Nat
  valueScratchLen : Nat

namespace CpuFusionProgram

/-- One turn of `CpuFusionProgram::new`. -/
def addPlan (program : CpuFusionProgram) (expr : KernelExpr) : Fallible Empty CpuFusionProgram := do
  let start := program.ops.length
  let ops := flattenInto expr program.ops
  let m ← (ops.drop start).foldlM Measure.step
    ⟨program.inputCount, program.scalarCount, program.valueScratchLen, 0⟩
  assert (m.depth = 1) "assertion `left == right` failed"
  .ok ⟨ops, program.planEnds ++ [ops.length], m.inputCount, m.scalarCount, m.valueScratchLen⟩

/-- `CpuFusionProgram::new`. -/
def new (exprs : List KernelExpr) : Fallible Empty CpuFusionProgram :=
  exprs.foldlM addPlan ⟨[], [], 0, 0, 0⟩

/-- `plan_ends[index]`. -/
def planEnd (program : CpuFusionProgram) (index : Nat) : Fallible Empty Nat :=
  expect program.planEnds[index]? "index out of bounds"

def plan (program : CpuFusionProgram) (output : Nat) : Fallible Empty (List Flat) := do
  let stop ← program.planEnd output
  let start ← (checkedSub output 1).elim (.ok 0) program.planEnd
  assert (start ≤ stop ∧ stop ≤ program.ops.length) "range out of bounds"
  .ok ((program.ops.take stop).drop start)

end CpuFusionProgram

/-! ## Evaluation -/

section Evaluation

variable [Scalar T] {n : Nat}

/-- The scratch values and how many of them are on the stack. -/
abbrev Scratch (T : Type) (n : Nat) := Slice T n × Nat

namespace Scratch

def push (s : Scratch T n) (value : T) : Fallible Empty (Scratch T n) := do
  let values ← s.1.write s.2 value
  .ok (values, s.2 + 1)

def unary (s : Scratch T n) (f : T → T) : Fallible Empty (Scratch T n) := do
  assert (1 ≤ s.2) "assertion failed: depth >= 1"
  let a ← s.1.read (s.2 - 1)
  let values ← s.1.write (s.2 - 1) (f a)
  .ok (values, s.2)

def binary (s : Scratch T n) (f : T → T → T) : Fallible Empty (Scratch T n) := do
  assert (2 ≤ s.2) "assertion failed: depth >= 2"
  let a ← s.1.read (s.2 - 2)
  let b ← s.1.read (s.2 - 1)
  let values ← s.1.write (s.2 - 2) (f a b)
  .ok (values, s.2 - 1)

def select (s : Scratch T n) : Fallible Empty (Scratch T n) := do
  assert (3 ≤ s.2) "assertion failed: depth >= 3"
  let cond ← s.1.read (s.2 - 3)
  let a ← s.1.read (s.2 - 2)
  let b ← s.1.read (s.2 - 1)
  let values ← s.1.write (s.2 - 3) (Scalar.pick cond a b)
  .ok (values, s.2 - 2)

/-- One turn of `eval_plan`. -/
def step (lane scalar : Nat → T) (s : Scratch T n) : Flat → Fallible Empty (Scratch T n)
  | .input k => s.push (lane k)
  | .scalar k => s.push (scalar k)
  | .const bits => s.push (Scalar.fromF64 ⟨bits⟩)
  | .add => s.binary Scalar.add
  | .sub => s.binary Scalar.sub
  | .mul => s.binary Scalar.mul
  | .div => s.binary Scalar.div
  | .min => s.binary Scalar.min
  | .max => s.binary Scalar.max
  | .lt => s.binary Scalar.lt
  | .le => s.binary Scalar.le
  | .gt => s.binary Scalar.gt
  | .ge => s.binary Scalar.ge
  | .eq => s.binary Scalar.eq
  | .ne => s.binary Scalar.ne
  | .select => s.select
  | .semantic _ _ =>
    .error (.panic "internal error: entered unreachable code: fusion preparation rejected semantic markers")
  | .cast dtype | .roundTo dtype => s.unary (Scalar.cast · dtype)
  | .neg => s.unary Scalar.neg
  | .sqrt => s.unary Scalar.sqrt
  | .exp => s.unary Scalar.exp
  | .sin => s.unary Scalar.sin
  | .cos => s.unary Scalar.cos
  | .tanh => s.unary Scalar.tanh
  | .abs => s.unary Scalar.abs
  | .log => s.unary Scalar.log
  | .floor => s.unary Scalar.floor
  | .ceil => s.unary Scalar.ceil
  | .round => s.unary Scalar.round
  | .powf exponent => s.unary (Scalar.powf · ⟨exponent⟩)
  | .erf => s.unary Scalar.erf
  | .gelu => s.unary Scalar.gelu
  | .geluTanh => s.unary Scalar.geluTanh

/-- The loop of `eval_plan`. -/
def run (lane scalar : Nat → T) (s : Scratch T n) (plan : List Flat) :
    Fallible Empty (Scratch T n) :=
  plan.foldlM (step lane scalar) s

end Scratch

def evalPlan (plan : List Flat) (lane scalar : Nat → T) (values : Slice T n) : Fallible Empty T := do
  let s ← Scratch.run lane scalar (values, 0) plan
  assert (s.2 = 1) "assertion `left == right` failed"
  s.1.read 0

def CpuFusionProgram.evaluate (program : CpuFusionProgram) (output : Nat) (lane scalar : Nat → T)
    (values : Slice T n) : Fallible Empty T := do
  assert (program.valueScratchLen ≤ n) "assertion failed: values.len() >= self.value_scratch_len"
  let plan ← program.plan output
  evalPlan plan lane scalar values

end Evaluation

end EffectTorch
