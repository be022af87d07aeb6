import EffectTorch.Graph.Attributes
import EffectTorch.Lib.Transition

/-!
# A process that builds nodes

`Node::new` of `graph/src/lib.rs` with the slots of leaves, which can be cleared. A leaf takes
its metadata from its slot; what else `NodeKind::metadata` does with the operands is left to a
`Validation`, which sees nothing but the nodes that exist.

Results:
1. `Process.reachable_sound`: at any time the cached metadata of a node is what validation
   returns for it, unless the node is a leaf with a cleared slot.
2. `Process.rebuild_ok`: such a node can be built again, with the same metadata.
-/

namespace EffectTorch
open Function Lib

namespace Nodes

/-- The operands exist. -/
def Holds (nodes : Nodes) (kind : NodeKind Nat) : Prop :=
  ∀ child ∈ nodeChildren kind, child < nodes.next

def Closed (nodes : Nodes) : Prop := ∀ n < nodes.next, nodes.Holds (nodes.node n).kind

end Nodes

/-- The branches of `NodeKind::metadata`: `leaf` checks the metadata of a slot and `infer` takes
every other operation. -/
structure Validation where
  leaf : NodeMetadata → Except String Unit
  infer : Inference
  reads_existing : ∀ (nodes nodes' : Nodes) kind, nodes.Closed → nodes.Grows nodes' →
    nodes.Holds kind → infer nodes'.node kind = infer nodes.node kind

/-- The slots of leaves by address; a slot without a value is cleared. -/
abbrev Slots := Nat → Option NodeMetadata

/-- `NodeKind::metadata`. -/
def Validation.metadata (validation : Validation) (slots : Slots) : Inference
  | _, .leaf slot =>
    match slots slot with
    | none => .error "tensor was cleared"
    | some metadata => (validation.leaf metadata).map fun _ => metadata
  | node, kind => validation.infer node kind

def Node.metadata (node : Node) : NodeMetadata := ⟨node.shape, node.dtype, node.device, node.storage⟩

structure Process where
  nodes : Nodes
  slots : Slots
  nextSlot : Nat

namespace Process

/-- `Node::new`. -/
def build (validation : Validation) (p : Process) (kind : NodeKind Nat) :
    Fallible String (Nat × Process) := do
  let (n, nodes) ← p.nodes.new (validation.metadata p.slots) kind
  return (n, { p with nodes })

/-- `LeafSlot::new`. -/
def addSlot (p : Process) (metadata : NodeMetadata) : Process :=
  { p with slots := Function.update p.slots p.nextSlot (some metadata), nextSlot := p.nextSlot + 1 }

/-- `LeafSlot::clear`. -/
def clearSlot (p : Process) (slot : Nat) : Process :=
  { p with slots := Function.update p.slots slot none }

inductive Step (validation : Validation) (p : Process) : Process → Prop
  | build {kind : NodeKind Nat} {n : Nat} {p' : Process} (hholds : p.nodes.Holds kind)
    (h : p.build validation kind = .ok (n, p')) : Step validation p p'
  | addSlot (metadata : NodeMetadata) : Step validation p (p.addSlot metadata)
  | clearSlot (slot : Nat) : Step validation p (p.clearSlot slot)

/-- Nothing is built yet. -/
def Empty (p : Process) : Prop := p.nodes.next = 0 ∧ p.nextSlot = 0 ∧ p.slots = fun _ => none

def system (validation : Validation) : System Process := ⟨Empty, Step validation⟩

/-- The node `n` is a leaf whose slot was cleared. -/
def Cleared (p : Process) (n : Nat) : Prop :=
  ∃ slot, (p.nodes.node n).kind = .leaf slot ∧ p.slots slot = none

structure Sound (validation : Validation) (p : Process) : Prop where
  closed : p.nodes.Closed
  slots_fresh : ∀ slot, p.nextSlot ≤ slot → p.slots slot = none
  leaf_lt : ∀ n < p.nodes.next, ∀ slot, (p.nodes.node n).kind = .leaf slot → slot < p.nextSlot
  cached : ∀ n < p.nodes.next, ¬ p.Cleared n →
    validation.metadata p.slots p.nodes.node (p.nodes.node n).kind = .ok (p.nodes.node n).metadata

variable {validation : Validation} {p p' : Process} {kind : NodeKind Nat} {n : Nat}

/-! ## Validation -/

theorem metadata_leaf {slots : Slots} {slot : Nat} {node : Nat → Node} {metadata : NodeMetadata}
    (h : validation.metadata slots node (.leaf slot) = .ok metadata) : slots slot = some metadata := by
  simp only [Validation.metadata] at h
  split at h
  · cases h
  · next found hslot =>
    obtain ⟨u, -, rfl⟩ := map_ok.mp h
    exact hslot

/-- Slots and nodes that come later do not matter, except to a leaf that loses its slot. -/
theorem metadata_eq {slots slots' : Slots} {nodes nodes' : Nodes} (hclosed : nodes.Closed)
    (hgrows : nodes.Grows nodes') (hholds : nodes.Holds kind)
    (hslots : ∀ slot, kind = .leaf slot → slots' slot = slots slot) :
    validation.metadata slots' nodes'.node kind = validation.metadata slots nodes.node kind := by
  cases kind with
  | leaf slot => simp only [Validation.metadata, hslots slot rfl]
  | _ => exact validation.reads_existing _ _ _ hclosed hgrows hholds

theorem new_metadata {infer : Inference} {nodes nodes' : Nodes}
    (h : nodes.new infer kind = .ok (n, nodes')) :
    ∃ metadata, infer nodes.node kind = .ok metadata ∧ n = nodes.next ∧ nodes'.next = nodes.next + 1 ∧
      nodes'.node n = ⟨metadata.shape, metadata.dtype, metadata.device, metadata.storage, kind⟩ := by
  unfold Nodes.new at h
  split at h
  · cases h
  · next metadata hmetadata =>
    cases h
    exact ⟨metadata, hmetadata, rfl, rfl, update_self _ _ _⟩

/-! ## Steps -/

theorem closed_grows {nodes nodes' : Nodes} (hclosed : nodes.Closed) (hgrows : nodes.Grows nodes')
    (hn : n < nodes.next) : nodes'.Holds (nodes'.node n).kind := by
  intro child hchild
  rw [hgrows.node_eq n hn] at hchild
  exact Nat.lt_of_lt_of_le (hclosed n hn child hchild) hgrows.next_le

theorem Sound.build (h : p.Sound validation) (hholds : p.nodes.Holds kind)
    (hbuild : p.build validation kind = .ok (n, p')) : p'.Sound validation := by
  obtain ⟨⟨built, nodes'⟩, hnew, hrest⟩ := bind_ok.mp hbuild
  cases hrest
  have hgrows := (Nodes.new_ok hnew).grows
  obtain ⟨metadata, hmetadata, rfl, hnext, hnode⟩ := new_metadata hnew
  have hsplit : ∀ m < nodes'.next, m < p.nodes.next ∨ m = p.nodes.next := by
    rw [hnext]
    exact fun m hm => Nat.lt_or_eq_of_le (Nat.le_of_lt_succ hm)
  have hold : ∀ m < p.nodes.next, nodes'.node m = p.nodes.node m := hgrows.node_eq
  refine ⟨fun m hm => ?_, h.slots_fresh, fun m hm slot hslot => ?_, fun m hm hcleared => ?_⟩
  · rcases hsplit m hm with hm | rfl
    · exact closed_grows h.closed hgrows hm
    · intro child hchild
      rw [hnode] at hchild
      exact Nat.lt_of_lt_of_le (hholds child hchild) hgrows.next_le
  · rcases hsplit m hm with hm | rfl
    · exact h.leaf_lt m hm slot (by rw [← hslot, hold m hm])
    · -- a slot that was read has a value
      rw [hnode] at hslot
      obtain rfl : kind = .leaf slot := hslot
      by_contra hge
      have hsome := metadata_leaf hmetadata
      rw [h.slots_fresh slot (Nat.le_of_not_lt hge)] at hsome
      cases hsome
  · rcases hsplit m hm with hm | rfl
    · change validation.metadata p.slots nodes'.node _ = _
      rw [hold m hm]
      rw [metadata_eq h.closed hgrows (h.closed m hm) fun _ _ => rfl]
      refine h.cached m hm fun ⟨slot, hkind, hslot⟩ => hcleared ⟨slot, ?_, hslot⟩
      rw [← hkind, hold m hm]
    · change validation.metadata p.slots nodes'.node _ = _
      rw [hnode]
      rw [metadata_eq h.closed hgrows hholds fun _ _ => rfl]
      exact hmetadata

theorem Sound.addSlot (h : p.Sound validation) (metadata : NodeMetadata) :
    (p.addSlot metadata).Sound validation := by
  have hold : ∀ m < p.nodes.next, ∀ slot, (p.nodes.node m).kind = .leaf slot →
      (p.addSlot metadata).slots slot = p.slots slot := fun m hm slot hslot =>
    update_of_ne (Nat.ne_of_lt (h.leaf_lt m hm slot hslot)) _ _
  refine ⟨h.closed, fun slot hslot => ?_, fun m hm slot hslot => ?_, fun m hm hcleared => ?_⟩
  · have hne : slot ≠ p.nextSlot := Nat.ne_of_gt hslot
    exact (update_of_ne hne _ _).trans (h.slots_fresh slot (Nat.le_of_succ_le hslot))
  · exact Nat.lt_succ_of_lt (h.leaf_lt m hm slot hslot)
  · refine (metadata_eq h.closed (.refl _) (h.closed m hm) (hold m hm)).trans
      (h.cached m hm fun ⟨slot, hkind, hslot⟩ => hcleared ⟨slot, hkind, ?_⟩)
    rw [hold m hm slot hkind, hslot]

theorem Sound.clearSlot (h : p.Sound validation) (slot : Nat) : (p.clearSlot slot).Sound validation := by
  refine ⟨h.closed, fun slot' hslot' => ?_, h.leaf_lt, fun m hm hcleared => ?_⟩
  · change Function.update p.slots slot none slot' = none
    by_cases heq : slot' = slot
    · rw [heq, update_self]
    · rw [update_of_ne heq, h.slots_fresh slot' hslot']
  · -- the leaves of the slot are cleared now
    have hold : ∀ slot', (p.nodes.node m).kind = .leaf slot' →
        (p.clearSlot slot).slots slot' = p.slots slot' := by
      intro slot' hkind
      refine update_of_ne (fun heq => hcleared ⟨slot', hkind, ?_⟩) _ _
      rw [heq]
      exact update_self _ _ _
    refine (metadata_eq h.closed (.refl _) (h.closed m hm) hold).trans
      (h.cached m hm fun ⟨slot', hkind, hslot'⟩ => hcleared ⟨slot', hkind, ?_⟩)
    rw [hold slot' hkind, hslot']

theorem reachable_sound (h : (system validation).Reachable p) : p.Sound validation := by
  refine System.invariant (fun p hp => ?_) (fun p p' hp hstep => ?_) h
  · obtain ⟨hnext, -, hslots⟩ := hp
    have hnone : ∀ n, ¬ n < p.nodes.next := fun n hn => Nat.not_lt_zero n (hnext ▸ hn)
    exact ⟨fun n hn => absurd hn (hnone n), fun slot _ => by rw [hslots],
      fun n hn => absurd hn (hnone n), fun n hn => absurd hn (hnone n)⟩
  · cases hstep with
    | build hholds hbuild => exact hp.build hholds hbuild
    | addSlot metadata => exact hp.addSlot metadata
    | clearSlot slot => exact hp.clearSlot slot

/-- A node that keeps its slot, if it has one, can be built again from its own operands. -/
theorem rebuild_ok (h : p.Sound validation) (hn : n < p.nodes.next) (hcleared : ¬ p.Cleared n) :
    ∃ p', p.build validation (remapChildren id (p.nodes.node n).kind) = .ok (p.nodes.next, p') ∧
      p'.nodes.node p.nodes.next = p.nodes.node n := by
  have hcached := h.cached n hn hcleared
  rw [remapChildren_id]
  refine ⟨⟨⟨Function.update p.nodes.node p.nodes.next (p.nodes.node n), p.nodes.next + 1⟩, p.slots,
    p.nextSlot⟩, ?_, update_self _ _ _⟩
  unfold build Nodes.new
  rw [hcached]
  rfl

end Process

end EffectTorch
