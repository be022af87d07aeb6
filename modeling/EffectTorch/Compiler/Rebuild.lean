import EffectTorch.Autodiff.Checkpoint
import EffectTorch.Compiler.DecodeFaithful
import EffectTorch.Compiler.Prepare
import EffectTorch.Graph.Building

/-!
# Passes that rebuild nodes

The passes that call `remap_children`: native preparation, decode specialization and the copies
of checkpoint regions. What they rebuild keeps its operation and its attributes.

Results:
1. `remapChildren_faithful`: what `remap_children` keeps, when a node can be built again, and what
   the three passes make of a graph.
-/

namespace EffectTorch
open Lib

namespace Decode

variable {G : Graph} {o : Options} {rows slot next : Nat} {infer : Inference} {s : State}

/-- An operation without a rule of its own is copied. -/
theorem Specializes.copies {nodes : Nodes} {r : Nat → Nat} {layer : Nat} {kind kind' : NodeKind Nat}
    (h : Specializes G o rows slot nodes r layer kind kind') (hplain : isPlain kind = true) :
    Copies r kind kind' := by
  cases h with
  | attention a ha =>
    revert hplain ha
    cases kind <;> simp [isPlain, attentionOf]
  | kda => cases hplain
  | conv => cases hplain
  | rotary => cases hplain
  | position => cases hplain
  | positions => cases hplain
  | plain => exact remapChildren_copies r kind

theorem pass_copies {roots : List Nat}
    (h : (order G roots).foldlM (specializeNode infer G o rows slot) (.start ⟨G.node, next⟩) = .ok s) :
    ∀ n ∈ below G roots, isPlain (G.node n).kind = true →
      ∃ kind, s.nodes.At (s.remap n) kind ∧ Copies s.remap (G.node n).kind kind := by
  intro n hn hplain
  obtain ⟨layerOf, hpassed⟩ := pass_passed (order_ordered G roots) h
  obtain ⟨kind, hat, hspec⟩ := hpassed.copied.copies n (mem_order.mpr hn)
  exact ⟨kind, hat, hspec.copies hplain⟩

end Decode

/-- A node whose slot was cleared cannot be built again. -/
theorem Process.rebuild_cleared {validation : Validation} {p : Process} {n : Nat} (h : p.Cleared n) :
    p.build validation (remapChildren id (p.nodes.node n).kind) = fail "tensor was cleared" := by
  obtain ⟨slot, hkind, hslot⟩ := h
  rw [hkind]
  simp only [remapChildren, build, Nodes.new, Validation.metadata, hslot]
  rfl

/-- `remap_children` keeps the operation and its attributes and takes the images of the operands
in their order. A node is built again with the same metadata unless it is a leaf whose slot was
cleared. So preparation, specialization and checkpoints rebuild what they do not replace. -/
theorem remapChildren_faithful (validation : Validation) (infer : Inference) (G : Graph) (next : Nat) :
    (∀ (ν μ : Type) (f : ν → μ) (kind : NodeKind ν), Copies f kind (remapChildren f kind)) ∧
    (∀ p, (Process.system validation).Reachable p → ∀ n < p.nodes.next,
      (¬ p.Cleared n → ∃ p',
        p.build validation (remapChildren id (p.nodes.node n).kind) = .ok (p.nodes.next, p') ∧
          p'.nodes.node p.nodes.next = p.nodes.node n) ∧
      (p.Cleared n →
        p.build validation (remapChildren id (p.nodes.node n).kind) = fail "tensor was cleared")) ∧
    (∀ roots prepared nodes, Prepare.prepareSemantics infer G next roots = .ok (prepared, nodes) →
      ∃ r, Prepare.Preparation infer G next roots prepared nodes r) ∧
    (∀ o rows slot roots s,
      (Decode.order G roots).foldlM (Decode.specializeNode infer G o rows slot)
        (.start ⟨G.node, next⟩) = .ok s →
      ∀ n ∈ Decode.below G roots, Decode.isPlain (G.node n).kind = true →
        ∃ kind, s.nodes.At (s.remap n) kind ∧ Copies s.remap (G.node n).kind kind) ∧
    (∀ order checkpoint a s, Checkpoint.copyRegion infer G next order checkpoint a = .ok s →
      Checkpoint.Copied G next (Checkpoint.outsideSet G order checkpoint) s (Checkpoint.topo G a)) :=
  ⟨fun _ _ => remapChildren_copies,
    fun _ hp _ hn => ⟨Process.rebuild_ok (Process.reachable_sound hp) hn, Process.rebuild_cleared⟩,
    fun _ _ _ => Prepare.prepareSemantics_prepared, fun _ _ _ _ _ => Decode.pass_copies,
    fun _ _ _ _ => Checkpoint.copyRegion_copied⟩

/-! ## A leaf whose slot was cleared -/

def acceptAll : Validation where
  leaf := fun _ => .ok ()
  infer := fun _ _ => .error "unsupported operation"
  reads_existing := fun _ _ _ _ _ _ => rfl

def leafNode : Node := ⟨[4], .f32, .cpu 0, .dense, .leaf 0⟩

def noNodes : Process := ⟨⟨fun _ => leafNode, 0⟩, fun _ => none, 0⟩

/-- A slot and the leaf that is built on it. -/
def oneLeaf : Process where
  nodes := ⟨Function.update (fun _ => leafNode) 0 leafNode, 1⟩
  slots := Function.update (fun _ => none) 0 (some leafNode.metadata)
  nextSlot := 1

/-- The leaf is still a node of the process, and it cannot be built again. -/
theorem oneLeaf_cleared :
    (Process.system acceptAll).Reachable (oneLeaf.clearSlot 0) ∧
      (oneLeaf.clearSlot 0).build acceptAll (remapChildren id (oneLeaf.nodes.node 0).kind) =
        fail "tensor was cleared" := by
  have hstart : (Process.system acceptAll).Reachable noNodes := .init ⟨rfl, rfl, rfl⟩
  have hslot := hstart.step (.addSlot leafNode.metadata)
  have hbuild : (noNodes.addSlot leafNode.metadata).build acceptAll (.leaf 0) = .ok (0, oneLeaf) := rfl
  have hleaf : (Process.system acceptAll).Reachable oneLeaf :=
    hslot.step (.build (fun _ h => absurd h List.not_mem_nil) hbuild)
  exact ⟨hleaf.step (.clearSlot 0), Process.rebuild_cleared ⟨0, rfl, rfl⟩⟩

end EffectTorch
