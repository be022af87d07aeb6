import EffectTorch.Graph.Attributes
import EffectTorch.Lib.StackWalk

/-!
# Checkpoint regions

The `Checkpoint` rule of `autodiff/src/lib.rs` copies the nodes below a checkpoint that are
used nowhere else, so that the backward phase recomputes them.

Results:
1. `copyRegion_copied`: every node of the region that has operands and is not used outside has a
   copy of its own over the copies of its operands; the others are shared.
-/

namespace EffectTorch

namespace Checkpoint
open List Lib

/-- `topo`: the nodes below `loss`, operands first. -/
def topo (G : Graph) (loss : Nat) : List Nat := G.dag.reversed.walk [] [] [(loss, false)]

/-- The graph without what is reached through a checkpoint only. -/
def withoutNode (G : Graph) (checkpoint : Nat) : Dag Nat where
  children := fun n => (G.children n).filter (· ≠ checkpoint)
  rank := G.age
  rank_lt := fun n child hchild => G.children_older n child (mem_of_mem_filter hchild)

/-- `outside_set`: the nodes that the last node of `order` reaches around the checkpoint. -/
def outsideSet (G : Graph) (order : List Nat) (checkpoint : Nat) : List Nat :=
  (withoutNode G checkpoint).reversed.sweep []
    (order.getLast?.toList.filter (· ≠ checkpoint))

section Copy

variable (infer : Inference) (G : Graph)

/-- The nodes that a region shares with the rest of the graph. -/
def Shared (outside : List Nat) (n : Nat) : Prop :=
  n ∈ outside ∨ nodeChildren (G.node n).kind = []

instance (outside : List Nat) (n : Nat) : Decidable (Shared G outside n) :=
  inferInstanceAs (Decidable (_ ∨ (_ : List Nat) = _))

def copyNode (outside : List Nat) (s : Rewriting) (n : Nat) : Fallible String Rewriting :=
  if Shared G outside n then .ok s
  else do
    let (id, nodes) ← s.nodes.new infer (remapChildren s.image (G.node n).kind)
    return s.put n id nodes

/-- The copies that the rule makes for the checkpoint of `a`, in a process whose next node is
`next`. -/
def copyRegion (next : Nat) (order : List Nat) (checkpoint a : Nat) : Fallible String Rewriting :=
  (topo G a).foldlM (copyNode infer G (outsideSet G order checkpoint)) ⟨⟨G.node, next⟩, fun _ => none⟩

end Copy

/-- What has become of the nodes of `done`. -/
structure Copied (G : Graph) (next : Nat) (outside : List Nat) (s : Rewriting) (done : List Nat) :
    Prop where
  grows : Nodes.Grows ⟨G.node, next⟩ s.nodes
  closed : ∀ n ∈ done, ∀ child ∈ G.children n, child ∈ done
  mapped : ∀ n, (s.mapped n).isSome ↔ n ∈ done ∧ ¬ Shared G outside n
  fresh : ∀ n id, s.mapped n = some id → next ≤ id ∧ id < s.nodes.next
  injective : ∀ n m id, s.mapped n = some id → s.mapped m = some id → n = m
  copies : ∀ n id, s.mapped n = some id →
    ∃ kind, s.nodes.At id kind ∧ Copies s.image (G.node n).kind kind

variable {infer : Inference} {G : Graph} {next n : Nat} {outside done : List Nat} {s s' : Rewriting}

theorem Copied.turn (h : Copied G next outside s done) (hnew : n ∉ done)
    (hchildren : ∀ child ∈ G.children n, child ∈ done) (hstep : copyNode infer G outside s n = .ok s') :
    Copied G next outside s' (done ++ [n]) := by
  have hclosed : ∀ k ∈ done ++ [n], ∀ child ∈ G.children k, child ∈ done ++ [n] := by
    intro k hk child hchild
    rcases mem_append.mp hk with hk | hk
    · exact mem_append_left _ (h.closed k hk child hchild)
    · rw [mem_singleton.mp hk] at hchild
      exact mem_append_left _ (hchildren child hchild)
  unfold copyNode at hstep
  split at hstep
  · next hshared =>
    cases hstep
    refine ⟨h.grows, hclosed, fun k => ?_, h.fresh, h.injective, h.copies⟩
    rw [h.mapped, mem_append, mem_singleton]
    refine and_congr_left fun hk => ⟨.inl, fun hmem => hmem.resolve_right fun heq => hk ?_⟩
    rw [heq]
    exact hshared
  · next hown =>
    obtain ⟨⟨id, nodes⟩, hbuild, hrest⟩ := bind_ok.mp hstep
    cases hrest
    have hbuilt := Nodes.new_ok hbuild
    have hnone : s.mapped n = none := Option.not_isSome_iff_eq_none.mp fun hsome =>
      hnew ((h.mapped n).mp hsome).1
    have hsplit : ∀ k id', (s.put n id nodes).mapped k = some id' →
        k = n ∧ id' = id ∨ k ≠ n ∧ s.mapped k = some id' := by
      intro k id' hk
      by_cases heq : k = n
      · rw [heq, Rewriting.put_mapped_self] at hk
        exact .inl ⟨heq, (Option.some.inj hk).symm⟩
      · rw [Rewriting.put_mapped_of_ne heq] at hk
        exact .inr ⟨heq, hk⟩
    -- `n` is no operand of a node that was copied before, nor of itself
    have himage : ∀ k ∈ done ++ [n], ∀ child ∈ G.children k, (s.put n id nodes).image child = s.image child := by
      intro k hk child hchild
      refine Rewriting.put_image_of_ne fun heq => hnew ?_
      rw [← heq]
      rcases mem_append.mp hk with hk | hk
      · exact h.closed k hk child hchild
      · rw [mem_singleton.mp hk] at hchild
        exact hchildren child hchild
    refine ⟨h.grows.trans hbuilt.grows, hclosed, fun k => ?_, fun k id' hk => ?_, fun k m id' hk hm => ?_,
      fun k id' hk => ?_⟩
    · by_cases heq : k = n
      · rw [heq, Rewriting.put_mapped_self]
        exact ⟨fun _ => ⟨mem_append_right _ (mem_singleton_self n), hown⟩, fun _ => rfl⟩
      · rw [Rewriting.put_mapped_of_ne heq, h.mapped, mem_append, mem_singleton]
        exact and_congr_left' ⟨.inl, fun hk => hk.resolve_right heq⟩
    · rcases hsplit k id' hk with ⟨-, rfl⟩ | ⟨-, hk⟩
      · exact ⟨Nat.le_trans h.grows.next_le hbuilt.fresh, hbuilt.at_new.1⟩
      · obtain ⟨hle, hlt⟩ := h.fresh k id' hk
        exact ⟨hle, Nat.lt_of_lt_of_le hlt hbuilt.grows.next_le⟩
    · have hold : ∀ l, s.mapped l = some id' → id' < id := fun l hl =>
        Nat.lt_of_lt_of_le (h.fresh l id' hl).2 hbuilt.fresh
      rcases hsplit k id' hk with ⟨hkn, hk⟩ | ⟨-, hk⟩ <;>
        rcases hsplit m id' hm with ⟨hmn, hm⟩ | ⟨-, hm⟩
      · rw [hkn, hmn]
      · exact absurd hk (Nat.ne_of_lt (hold m hm))
      · exact absurd hm (Nat.ne_of_lt (hold k hk))
      · exact h.injective k m id' hk hm
    · rcases hsplit k id' hk with ⟨rfl, rfl⟩ | ⟨-, hk⟩
      · exact ⟨_, hbuilt.at_new, (remapChildren_copies _ _).congr
          (himage k (mem_append_right _ (mem_singleton_self k)))⟩
      · obtain ⟨kind, hat, hcopies⟩ := h.copies k id' hk
        have hk' := (h.mapped k).mp (by rw [hk]; rfl)
        exact ⟨kind, hat.mono hbuilt.grows, hcopies.congr (himage k (mem_append_left _ hk'.1))⟩

/-- The region of a checkpoint is copied. -/
theorem copyRegion_copied {order : List Nat} {checkpoint a : Nat}
    (h : copyRegion infer G next order checkpoint a = .ok s) :
    Copied G next (outsideSet G order checkpoint) s (topo G a) := by
  have horder : G.dag.reversed.Ordered (topo G a) := by
    rw [topo, show [(a, false)] = [a].map (·, false) from rfl, Dag.walk_postorder]
    exact Dag.postorder_ordered _ _
  refine foldlM_invariant (fun done s => Copied G next _ s done) (topo G a) ?_ ?_ h
  · rintro done n rest s s' hsplit hs hstep
    rw [hsplit] at horder
    obtain ⟨hnew, hchildren⟩ := horder.split
    exact hs.turn hnew (fun child hchild => hchildren child (mem_reverse.mpr hchild)) hstep
  · exact ⟨.refl _, nofun, fun n => ⟨nofun, fun hn => absurd hn.1 not_mem_nil⟩, nofun, nofun, nofun⟩

end Checkpoint

end EffectTorch
