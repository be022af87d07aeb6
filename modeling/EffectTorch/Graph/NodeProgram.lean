import EffectTorch.Graph.Remap

/-!
# Programs that build nodes

A function of the source that only calls `Node::new`, and reads the metadata of what it builds,
is a program: it asks for a node and goes on with what it gets. In a process it gets the node.

Results:
1. `NodeProgram.run_grows`: a program leaves the nodes that exist as they are.
-/

namespace EffectTorch
open Lib

/-- Programs over nodes of type `ν`. -/
inductive NodeProgram (ν α : Type) where
  | done (a : α)
  | error (fault : Fault String)
  | new (kind : NodeKind ν) (next : ν → NodeProgram ν α)

namespace NodeProgram

variable {ν α β : Type}

def bind : NodeProgram ν α → (α → NodeProgram ν β) → NodeProgram ν β
  | done a, f => f a
  | error fault, _ => error fault
  | new kind next, f => new kind fun node => (next node).bind f

instance : Monad (NodeProgram ν) where
  pure := done
  bind := bind

end NodeProgram

/-- `Node::new` in a program. -/
def newNode {ν : Type} (kind : NodeKind ν) : NodeProgram ν ν := .new kind .done

/-- What a program reads of a node. -/
class Described (ν : Type) where
  metadata : ν → NodeMetadata

section Described

variable {ν : Type} [Described ν]

def shapeOf (node : ν) : List Nat := (Described.metadata node).shape

def dtypeOf (node : ν) : DType := (Described.metadata node).dtype

def deviceOf (node : ν) : Device := (Described.metadata node).device

end Described

/-- A node of a process: `Arc<Node>`. -/
structure NodeRef where
  id : Nat
  node : Node

def Nodes.ref (nodes : Nodes) (id : Nat) : NodeRef := ⟨id, nodes.node id⟩

instance : Described NodeRef where
  metadata := fun ref => ⟨ref.node.shape, ref.node.dtype, ref.node.device, ref.node.storage⟩

namespace NodeProgram

variable {α : Type}

/-- The run of a program in a process. -/
def run (infer : Inference) (nodes : Nodes) : NodeProgram NodeRef α → Fallible String (α × Nodes)
  | done a => .ok (a, nodes)
  | error fault => .error fault
  | new kind next => do
    let (id, nodes) ← nodes.new infer (remapChildren NodeRef.id kind)
    (next (nodes.ref id)).run infer nodes

theorem run_bind {infer : Inference} {nodes : Nodes} {β : Type} (program : NodeProgram NodeRef α)
    (f : α → NodeProgram NodeRef β) :
    (program >>= f).run infer nodes = program.run infer nodes >>= fun (a, nodes) => (f a).run infer nodes := by
  induction program generalizing nodes with
  | done a => rfl
  | error fault => rfl
  | new kind next ih =>
    change (nodes.new infer _ >>= fun (id, nodes) => (next (nodes.ref id) >>= f).run infer nodes) =
      (nodes.new infer _ >>= fun (id, nodes) => (next (nodes.ref id)).run infer nodes) >>= _
    rw [bind_assoc]
    exact congrArg _ (funext fun built => ih _)

theorem run_grows {infer : Inference} {nodes nodes' : Nodes} {program : NodeProgram NodeRef α} {a : α}
    (h : program.run infer nodes = .ok (a, nodes')) : nodes.Grows nodes' := by
  induction program generalizing nodes with
  | done b =>
    cases h
    exact .refl _
  | error fault => cases h
  | new kind next ih =>
    obtain ⟨⟨id, built⟩, hnew, hrest⟩ := bind_ok.mp h
    exact (Nodes.new_ok hnew).grows.trans (ih _ hrest)

end NodeProgram

end EffectTorch
