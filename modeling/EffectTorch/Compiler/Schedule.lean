import EffectTorch.Graph.Node
import Mathlib.Data.List.AList

/-!
# Graph discovery

`compiler/src/schedule.rs`: the walk over a semantic graph and the dense tables that the
later stages share. The walk keeps a stack of nodes with a mark; a marked node has its
children behind it.

Results:
1. `discover_visit`: popping an unmarked node is visiting it by recursion.
2. `discoverGraph_walked`: the walk finds the recursive postorder of its roots.
-/

namespace EffectTorch
open List Lib

/-! ## The walk -/

structure GraphDiscovery where
  visited : List Nat
  order : List Nat
  childrenByNode : AList fun _ : Nat => List Nat
  edgeVisits : Nat

namespace Graph

variable (G : Graph)

/-- The first visit of a node. -/
def expand (d : GraphDiscovery) (node : Nat) : GraphDiscovery where
  visited := node :: d.visited
  order := d.order
  childrenByNode := d.childrenByNode.insert node (G.children node)
  edgeVisits := min (d.edgeVisits + (G.children node).length) usizeMax

/-- What is left to do for an entry of the stack, at most. -/
def entryWeight : Nat × Bool → Nat
  | (_, true) => 1
  | (node, false) => 2 * G.dag.weight node

theorem entryWeight_pos (entry : Nat × Bool) : 0 < G.entryWeight entry := by
  obtain ⟨node, processed⟩ := entry
  cases processed with
  | true => exact Nat.one_pos
  | false =>
    rw [entryWeight, Dag.weight_eq]
    exact Nat.mul_pos Nat.two_pos (Nat.lt_of_lt_of_le Nat.one_pos (Nat.le_add_right _ _))

theorem expand_weight (node : Nat) :
    (((G.children node).map (·, false)).map G.entryWeight).sum + 1 <
      G.entryWeight (node, false) := by
  have hsum : (((G.children node).map (·, false)).map G.entryWeight).sum =
      2 * ((G.dag.children node).map G.dag.weight).sum := by
    rw [map_map, ← sum_map_mul_left]
    rfl
  rw [hsum, entryWeight, Dag.weight_eq, Nat.mul_add, Nat.add_comm]
  exact Nat.add_lt_add_right (by decide) _

/-- The loop of `discover_graph`; the head of the list is the top of the stack. -/
def discover (d : GraphDiscovery) : List (Nat × Bool) → GraphDiscovery
  | [] => d
  | (node, true) :: stack => discover { d with order := d.order ++ [node] } stack
  | (node, false) :: stack =>
    if node ∈ d.visited then discover d stack
    else discover (G.expand d node) ((G.children node).map (·, false) ++ (node, true) :: stack)
termination_by stack => (stack.map G.entryWeight).sum
decreasing_by
  · rw [map_cons, sum_cons]
    exact Nat.lt_add_of_pos_left (G.entryWeight_pos _)
  · rw [map_cons, sum_cons]
    exact Nat.lt_add_of_pos_left (G.entryWeight_pos _)
  · rw [map_append, sum_append, map_cons, sum_cons, map_cons,
      sum_cons, ← Nat.add_assoc]
    exact Nat.add_lt_add_right (G.expand_weight node) _

def discoverGraph (roots : List Nat) : GraphDiscovery :=
  G.discover ⟨[], [], ∅, 0⟩ (roots.map (·, false))

/-- What the walk keeps, whichever nodes it is in the middle of. -/
structure WalkOk (d : GraphDiscovery) : Prop where
  ordered : G.dag.Ordered d.order
  visited : ∀ x ∈ d.order, x ∈ d.visited
  table : ∀ x ∈ d.visited, d.childrenByNode.lookup x = some (G.children x)

/-- Nodes that are visited and not in the order yet are on the stack, behind their
children; so they were built after `a` when `a` is popped. -/
def Above (d : GraphDiscovery) (a : Nat) : Prop :=
  ∀ x ∈ d.visited, x ∈ d.order ∨ G.age a < G.age x

/-- `d'` is `d` after the visits that make `order`. -/
structure Walked (d d' : GraphDiscovery) (order : List Nat) : Prop where
  ok : G.WalkOk d'
  order_eq : d'.order = order
  visited_iff : ∀ x, x ∈ d'.visited ↔ x ∈ d.visited ∨ x ∈ d'.order

variable {G} {d : GraphDiscovery}

theorem WalkOk.expand (h : G.WalkOk d) (node : Nat) : G.WalkOk (G.expand d node) where
  ordered := h.ordered
  visited x hx := mem_cons_of_mem _ (h.visited x hx)
  table x hx := by
    change (d.childrenByNode.insert node (G.children node)).lookup x = some (G.children x)
    rcases Decidable.eq_or_ne x node with rfl | hne
    · rw [AList.lookup_insert]
    · rw [AList.lookup_insert_ne hne]
      exact h.table x ((mem_cons.mp hx).resolve_left hne)

theorem Walked.above {d' : GraphDiscovery} {order : List Nat} (h : G.Walked d d' order) {a : Nat}
    (ha : G.Above d a) (hgrows : d.order <+: d'.order) : G.Above d' a := by
  intro x hx
  rcases (h.visited_iff x).mp hx with hx | hx
  · exact (ha x hx).imp (hgrows.subset ·) id
  · exact .inl hx

/-- Popping some unmarked nodes visits them in turn, if popping each of them does. -/
theorem discover_visitAll (nodes : List Nat)
    (hvisit : ∀ a ∈ nodes, ∀ d stack, G.WalkOk d → G.Above d a →
      ∃ d', G.discover d ((a, false) :: stack) = G.discover d' stack ∧
        G.Walked d d' (G.dag.visit d.order a))
    (stack : List (Nat × Bool)) (h : G.WalkOk d) (habove : ∀ a ∈ nodes, G.Above d a) :
    ∃ d', G.discover d (nodes.map (·, false) ++ stack) = G.discover d' stack ∧
      G.Walked d d' (nodes.foldl G.dag.visit d.order) := by
  induction nodes generalizing d with
  | nil => exact ⟨d, rfl, h, rfl, fun x => ⟨.inl, fun hx => hx.elim id (h.visited x)⟩⟩
  | cons a nodes ih =>
    obtain ⟨d₁, hrun, hwalked⟩ := hvisit a mem_cons_self d
      (nodes.map (·, false) ++ stack) h (habove a mem_cons_self)
    have hgrows : d.order <+: d₁.order := by
      rw [hwalked.order_eq]
      exact (Dag.visit_visited h.ordered).grows
    obtain ⟨d₂, hrun', hwalked'⟩ := ih (fun b hb => hvisit b (mem_cons_of_mem _ hb))
      hwalked.ok fun b hb => hwalked.above (habove b (mem_cons_of_mem _ hb)) hgrows
    have horder : d₂.order = nodes.foldl G.dag.visit d₁.order := hwalked'.order_eq
    refine ⟨d₂, ?_, hwalked'.ok, ?_, fun x => ?_⟩
    · rw [map_cons, cons_append, hrun, hrun']
    · rw [horder, hwalked.order_eq, foldl_cons]
    · have hsub : ∀ x ∈ d₁.order, x ∈ d₂.order := by
        rw [horder]
        exact fun x hx => (Dag.visitAll_visited nodes hwalked.ok.ordered).grows.subset hx
      rw [hwalked'.visited_iff, hwalked.visited_iff, or_assoc]
      exact or_congr_right ⟨fun hx => hx.elim (hsub x) id, .inr⟩

/-- Popping an unmarked node visits it and leaves the rest of the stack. -/
theorem discover_visit (a : Nat) (d : GraphDiscovery) (stack : List (Nat × Bool))
    (h : G.WalkOk d) (habove : G.Above d a) :
    ∃ d', G.discover d ((a, false) :: stack) = G.discover d' stack ∧
      G.Walked d d' (G.dag.visit d.order a) := by
  -- by induction on the age: the children of a node are older
  induction hage : G.age a using Nat.strong_induction_on generalizing a d stack with
  | _ age ih =>
    by_cases hmem : a ∈ d.visited
    · have horder : a ∈ d.order := (habove a hmem).resolve_right (Nat.lt_irrefl _)
      refine ⟨d, ?_, h, (Dag.visit_mem horder).symm, fun x => ⟨.inl, fun hx => ?_⟩⟩
      · rw [discover, if_pos hmem]
      · exact hx.elim id (h.visited x)
    · have hnew : a ∉ d.order := fun hx => hmem (h.visited a hx)
      have hbelow : ∀ b ∈ G.children a, G.Above (G.expand d a) b := by
        intro b hb x hx
        have hlt := G.children_older a b hb
        rcases mem_cons.mp hx with rfl | hx
        · exact .inr hlt
        · exact (habove x hx).imp_right (Nat.lt_trans hlt)
      obtain ⟨d₁, hrun, hwalked⟩ := discover_visitAll (G.children a)
        (fun b hb d stack h habove =>
          ih (G.age b) (hage ▸ G.children_older a b hb) b d stack h habove rfl)
        ((a, true) :: stack) (h.expand a) hbelow
      have horder : d₁.order = (G.dag.children a).foldl G.dag.visit d.order := hwalked.order_eq
      have hvisit : G.dag.visit d.order a = d₁.order ++ [a] := by
        rw [Dag.visit_eq, if_neg hnew, horder]
      refine ⟨{ d₁ with order := d₁.order ++ [a] }, ?_, ⟨?_, fun x hx => ?_, hwalked.ok.table⟩,
        hvisit.symm, fun x => ?_⟩
      · rw [discover, if_neg hmem, hrun, discover]
      · change G.dag.Ordered (d₁.order ++ [a])
        rw [← hvisit]
        exact (Dag.visit_visited h.ordered).ordered
      · refine (hwalked.visited_iff x).mpr ?_
        rcases mem_append.mp hx with hx | hx
        · exact .inr hx
        · rw [mem_singleton.mp hx]
          exact .inl mem_cons_self
      · change x ∈ d₁.visited ↔ x ∈ d.visited ∨ x ∈ d₁.order ++ [a]
        rw [hwalked.visited_iff, mem_append, mem_singleton]
        change x ∈ a :: d.visited ∨ x ∈ d₁.order ↔ _
        rw [mem_cons, or_comm (a := x = a), or_assoc, or_comm (a := x = a)]

/-- The walk finds the recursive postorder of its roots, and the children of its nodes. -/
theorem discoverGraph_walked (G : Graph) (roots : List Nat) :
    (G.discoverGraph roots).order = G.dag.postorder roots ∧
      ∀ x ∈ (G.discoverGraph roots).order,
        (G.discoverGraph roots).childrenByNode.lookup x = some (G.children x) := by
  have hstart : G.WalkOk ⟨[], [], ∅, 0⟩ :=
    ⟨.nil, fun _ h => absurd h not_mem_nil, fun _ h => absurd h not_mem_nil⟩
  obtain ⟨d, hrun, hwalked⟩ := discover_visitAll roots
    (fun a _ d stack h habove => discover_visit a d stack h habove) [] hstart
    fun a _ x hx => absurd hx not_mem_nil
  rw [append_nil, discover] at hrun
  rw [discoverGraph, hrun]
  exact ⟨hwalked.order_eq, fun x hx => hwalked.ok.table x (hwalked.ok.visited x hx)⟩

end Graph

end EffectTorch
