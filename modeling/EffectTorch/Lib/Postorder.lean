import Mathlib

/-!
# Postorders of acyclic graphs

A `Dag` lists the children of each node, and a rank says why following them ends. The
left-to-right postorder of some roots is defined by recursion.

Results:
1. `Dag.postorder_nodup`, `Dag.mem_postorder`, `Dag.postorder_before`: it lists the nodes
   below the roots, each once and after its children.
2. `Dag.weight_eq`: a weight that pays for every path, so that walks with a stack end.
-/

namespace Lib
open List

structure Dag (α : Type) where
  children : α → List α
  rank : α → Nat
  rank_lt : ∀ a, ∀ b ∈ children a, rank b < rank a

namespace Dag

variable {α : Type}

/-- `b` is `a` or below it. -/
def Reaches (G : Dag α) : α → α → Prop :=
  Relation.ReflTransGen fun a b => b ∈ G.children a

/-- One for the node and one for each path down from it. -/
def weight (G : Dag α) (a : α) : Nat :=
  1 + ((G.children a).attach.map fun b => G.weight b.1).sum
termination_by G.rank a
decreasing_by exact G.rank_lt a b.1 b.2

variable [DecidableEq α]

/-- `order` with the nodes below `a` that it lacks, children first, from left to right. -/
def visit (G : Dag α) (order : List α) (a : α) : List α :=
  if a ∈ order then order
  else (G.children a).attach.foldl (fun order b => G.visit order b.1) order ++ [a]
termination_by G.rank a
decreasing_by exact G.rank_lt a b.1 b.2

def postorder (G : Dag α) (roots : List α) : List α := roots.foldl G.visit []

/-- Each node once and after its children. -/
structure Ordered (G : Dag α) (order : List α) : Prop where
  nodup : order.Nodup
  before : ∀ (i : Nat) a, order[i]? = some a → ∀ b ∈ G.children a,
    ∃ j, j < i ∧ order[j]? = some b

section Facts

variable {G : Dag α} {order : List α} {a : α}

omit [DecidableEq α] in
theorem weight_eq (G : Dag α) (a : α) :
    G.weight a = 1 + ((G.children a).map G.weight).sum := by
  rw [weight, attach_map_val (f := G.weight)]

theorem visit_eq (G : Dag α) (order : List α) (a : α) :
    G.visit order a =
      if a ∈ order then order else (G.children a).foldl G.visit order ++ [a] := by
  rw [visit, foldl_attach (f := G.visit)]

theorem visit_mem (h : a ∈ order) : G.visit order a = order := by
  rw [visit_eq, if_pos h]

omit [DecidableEq α] in
theorem Reaches.rank_le {b : α} (h : G.Reaches a b) : G.rank b ≤ G.rank a := by
  induction h with
  | refl => exact Nat.le_refl _
  | tail _ hchild ih => exact Nat.le_trans (Nat.le_of_lt (G.rank_lt _ _ hchild)) ih

omit [DecidableEq α] in
theorem Ordered.closed (h : G.Ordered order) (ha : a ∈ order) {b : α} (hb : G.Reaches a b) :
    b ∈ order := by
  induction hb with
  | refl => exact ha
  | tail _ hchild ih =>
    obtain ⟨i, hi⟩ := mem_iff_getElem?.mp ih
    obtain ⟨j, _, hj⟩ := h.before i _ hi _ hchild
    exact mem_of_getElem? hj

omit [DecidableEq α] in
theorem Ordered.nil : G.Ordered [] := ⟨.nil, fun i a h => by cases i <;> cases h⟩

omit [DecidableEq α] in
/-- A node may come next when its children are there. -/
theorem Ordered.snoc (h : G.Ordered order) (hnew : a ∉ order)
    (hchildren : ∀ b ∈ G.children a, b ∈ order) : G.Ordered (order ++ [a]) where
  nodup := nodup_append.mpr ⟨h.nodup, nodup_singleton _, fun x hx y hy heq => by
    rw [mem_singleton.mp hy] at heq
    exact hnew (heq ▸ hx)⟩
  before := fun i x hx b hb => by
    rcases Nat.lt_trichotomy i order.length with hlt | rfl | hgt
    · rw [List.getElem?_append_left hlt] at hx
      obtain ⟨j, hj, hbj⟩ := h.before i x hx b hb
      exact ⟨j, hj, by rw [List.getElem?_append_left (Nat.lt_trans hj hlt), hbj]⟩
    · rw [List.getElem?_concat_length] at hx
      obtain rfl := Option.some.inj hx
      obtain ⟨j, hj⟩ := mem_iff_getElem?.mp (hchildren b hb)
      have hlt : j < order.length := (List.getElem?_eq_some_iff.mp hj).1
      exact ⟨j, hlt, by rw [List.getElem?_append_left hlt, hj]⟩
    · rw [List.getElem?_eq_none (by
        rw [length_append, length_singleton]
        exact hgt)] at hx
      cases hx

omit [DecidableEq α] in
/-- Where the order arrives at a node, the node is new and its children are not. -/
theorem Ordered.split {done rest : List α} (h : G.Ordered (done ++ a :: rest)) :
    a ∉ done ∧ ∀ b ∈ G.children a, b ∈ done := by
  refine ⟨fun ha => (nodup_append.mp h.nodup).2.2 a ha a mem_cons_self rfl, fun b hb => ?_⟩
  obtain ⟨j, hj, hbj⟩ := h.before done.length a
    (by rw [List.getElem?_append_right (Nat.le_refl _), Nat.sub_self]; rfl) b hb
  rw [List.getElem?_append_left hj] at hbj
  exact mem_of_getElem? hbj

/-- What visiting some nodes makes of an order. -/
structure Visited (G : Dag α) (order : List α) (nodes : List α) (order' : List α) : Prop where
  grows : order <+: order'
  ordered : G.Ordered order'
  visited : ∀ a ∈ nodes, a ∈ order'
  below : ∀ x ∈ order', x ∈ order ∨ ∃ a ∈ nodes, G.Reaches a x

omit [DecidableEq α] in
theorem Visited.trans {nodes nodes' order' order'' : List α} (h : G.Visited order nodes order')
    (h' : G.Visited order' nodes' order'') : G.Visited order (nodes ++ nodes') order'' where
  grows := h.grows.trans h'.grows
  ordered := h'.ordered
  visited := fun a ha => by
    rcases mem_append.mp ha with ha | ha
    · exact h'.grows.subset (h.visited a ha)
    · exact h'.visited a ha
  below := fun x hx => by
    rcases h'.below x hx with hx | ⟨a, ha, hreach⟩
    · rcases h.below x hx with hx | ⟨a, ha, hreach⟩
      · exact .inl hx
      · exact .inr ⟨a, mem_append_left _ ha, hreach⟩
    · exact .inr ⟨a, mem_append_right _ ha, hreach⟩

/-- Visiting a list of nodes, given what visiting each of them does. -/
theorem visitAll_of (nodes : List α)
    (hvisit : ∀ a ∈ nodes, ∀ order, G.Ordered order → G.Visited order [a] (G.visit order a))
    (h : G.Ordered order) : G.Visited order nodes (nodes.foldl G.visit order) := by
  induction nodes generalizing order with
  | nil => exact ⟨prefix_refl _, h, fun _ h => absurd h not_mem_nil, fun _ hx => .inl hx⟩
  | cons a nodes ih =>
    have ha := hvisit a mem_cons_self order h
    exact ha.trans (ih (fun b hb => hvisit b (mem_cons_of_mem _ hb)) ha.ordered)

theorem visit_visited (h : G.Ordered order) : G.Visited order [a] (G.visit order a) := by
  -- the children of a node have smaller ranks
  induction hr : G.rank a using Nat.strong_induction_on generalizing a order with
  | _ r ih =>
    by_cases hmem : a ∈ order
    · rw [visit_mem hmem]
      refine ⟨prefix_refl _, h, fun b hb => ?_, fun _ hx => .inl hx⟩
      rw [mem_singleton.mp hb]
      exact hmem
    · rw [visit_eq, if_neg hmem]
      have hall := visitAll_of (G.children a) (fun b hb order' horder =>
        ih (G.rank b) (hr ▸ G.rank_lt a b hb) horder rfl) h
      have hnew : a ∉ (G.children a).foldl G.visit order := by
        intro ha
        rcases hall.below a ha with ha | ⟨b, hb, hreach⟩
        · exact hmem ha
        · exact absurd hreach.rank_le (Nat.not_le_of_lt (G.rank_lt a b hb))
      refine ⟨hall.grows.trans (prefix_append _ _),
        hall.ordered.snoc hnew hall.visited, fun b hb => ?_, fun x hx => ?_⟩
      · rw [mem_singleton.mp hb]
        exact mem_append_right _ (mem_singleton_self _)
      · rcases mem_append.mp hx with hx | hx
        · rcases hall.below x hx with hx | ⟨b, hb, hreach⟩
          · exact .inl hx
          · exact .inr ⟨a, mem_singleton_self _, .head hb hreach⟩
        · rw [mem_singleton.mp hx]
          exact .inr ⟨a, mem_singleton_self _, .refl⟩

theorem visitAll_visited (nodes : List α) (h : G.Ordered order) :
    G.Visited order nodes (nodes.foldl G.visit order) :=
  visitAll_of nodes (fun _ _ _ horder => visit_visited horder) h

theorem postorder_ordered (G : Dag α) (roots : List α) : G.Ordered (G.postorder roots) :=
  (visitAll_visited roots .nil).ordered

theorem postorder_nodup (G : Dag α) (roots : List α) : (G.postorder roots).Nodup :=
  (postorder_ordered G roots).nodup

/-- The postorder of some roots lists the nodes below them. -/
theorem mem_postorder {roots : List α} {x : α} :
    x ∈ G.postorder roots ↔ ∃ a ∈ roots, G.Reaches a x := by
  have h := visitAll_visited (G := G) roots .nil
  constructor
  · intro hx
    rcases h.below x hx with hx | hx
    · exact absurd hx not_mem_nil
    · exact hx
  · rintro ⟨a, ha, hreach⟩
    exact h.ordered.closed (h.visited a ha) hreach

/-- A node comes after its children. -/
theorem postorder_before {roots : List α} {i : Nat} {a b : α}
    (h : (G.postorder roots)[i]? = some a) (hb : b ∈ G.children a) :
    ∃ j, j < i ∧ (G.postorder roots)[j]? = some b :=
  (postorder_ordered G roots).before i a h b hb

end Facts

end Dag

end Lib
