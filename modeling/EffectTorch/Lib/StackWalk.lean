import EffectTorch.Lib.Postorder
import Mathlib.Algebra.BigOperators.Ring.List
import Mathlib.Algebra.Ring.Nat

/-!
# Postorders by a stack

An iterative traversal keeps a stack of nodes with a mark; a marked node has its children
behind it. `walk` lists nodes in the order in which their marked entries are popped;
`sweep` has no marks and lists them as they are popped first.

Results:
1. `Dag.walk_visit`: popping an unmarked node is visiting it by recursion.
2. `Dag.walk_postorder`: the traversal finds the recursive postorder of its roots.
3. `Dag.mem_sweep`: the traversal without marks finds every node below the stack.
-/

namespace Lib
open List

namespace Dag

variable {α : Type} (G : Dag α)

/-- What is left to do for an entry of the stack, at most. -/
def entryWeight : α × Bool → Nat
  | (_, true) => 1
  | (a, false) => 2 * G.weight a

theorem entryWeight_pos (entry : α × Bool) : 0 < G.entryWeight entry := by
  obtain ⟨a, processed⟩ := entry
  cases processed with
  | true => exact Nat.one_pos
  | false =>
    rw [entryWeight, weight_eq]
    exact Nat.mul_pos Nat.two_pos (Nat.lt_of_lt_of_le Nat.one_pos (Nat.le_add_right _ _))

theorem expand_weight (a : α) :
    (((G.children a).map (·, false)).map G.entryWeight).sum + 1 < G.entryWeight (a, false) := by
  have hsum : (((G.children a).map (·, false)).map G.entryWeight).sum =
      2 * ((G.children a).map G.weight).sum := by
    rw [map_map, ← sum_map_mul_left]
    rfl
  rw [hsum, entryWeight, weight_eq, Nat.mul_add, Nat.add_comm]
  exact Nat.add_lt_add_right (by decide) _

/-- So do some of the children. -/
theorem expand_filter_weight (a : α) (p : α → Bool) :
    ((((G.children a).filter p).map (·, false)).map G.entryWeight).sum + 1 <
      G.entryWeight (a, false) := by
  refine Nat.lt_of_le_of_lt (Nat.succ_le_succ ?_) (G.expand_weight a)
  induction G.children a with
  | nil => exact Nat.le_refl _
  | cons b rest ih =>
    rw [map_cons, map_cons, sum_cons]
    rw [filter_cons]
    split
    · rw [map_cons, map_cons, sum_cons]
      exact Nat.add_le_add_left ih _
    · exact Nat.le_trans ih (Nat.le_add_left _ _)

variable [DecidableEq α]

/-- The order behind a stack; the head of the list is the top of the stack. -/
def walk (visited order : List α) : List (α × Bool) → List α
  | [] => order
  | (a, true) :: stack => walk visited (order ++ [a]) stack
  | (a, false) :: stack =>
    if a ∈ visited then walk visited order stack
    else walk (a :: visited) order ((G.children a).map (·, false) ++ (a, true) :: stack)
termination_by stack => (stack.map G.entryWeight).sum
decreasing_by
  · rw [map_cons, sum_cons]
    exact Nat.lt_add_of_pos_left (G.entryWeight_pos _)
  · rw [map_cons, sum_cons]
    exact Nat.lt_add_of_pos_left (G.entryWeight_pos _)
  · rw [attach_map_val (f := (·, false)), map_append, sum_append, map_cons,
      sum_cons, map_cons, sum_cons, ← Nat.add_assoc]
    exact Nat.add_lt_add_right (G.expand_weight a) _

/-- Nodes that are visited and not in the order yet are on the stack, behind their
children; so they have a higher rank than `a` when `a` is popped. -/
def Above (visited order : List α) (a : α) : Prop :=
  ∀ x ∈ visited, x ∈ order ∨ G.rank a < G.rank x

/-- The visited nodes behind the visits that made `order'` of `order`. -/
def Walked (visited visited' order' : List α) : Prop :=
  ∀ x, x ∈ visited' ↔ x ∈ visited ∨ x ∈ order'

variable {G} {visited order : List α}

/-- Popping some unmarked nodes visits them in turn, if popping each of them does. -/
theorem walk_visitAll (nodes : List α)
    (hvisit : ∀ a ∈ nodes, ∀ visited order stack, G.Ordered order → (∀ x ∈ order, x ∈ visited) →
      G.Above visited order a → ∃ visited', G.walk visited order ((a, false) :: stack) =
        G.walk visited' (G.visit order a) stack ∧ Walked visited visited' (G.visit order a))
    (stack : List (α × Bool)) (h : G.Ordered order) (hsub : ∀ x ∈ order, x ∈ visited)
    (habove : ∀ a ∈ nodes, G.Above visited order a) :
    ∃ visited', G.walk visited order (nodes.map (·, false) ++ stack) =
      G.walk visited' (nodes.foldl G.visit order) stack ∧
        Walked visited visited' (nodes.foldl G.visit order) := by
  induction nodes generalizing visited order with
  | nil => exact ⟨visited, rfl, fun x => ⟨.inl, fun hx => hx.elim id (hsub x)⟩⟩
  | cons a nodes ih =>
    obtain ⟨visited₁, hrun, hwalked⟩ := hvisit a mem_cons_self visited order
      (nodes.map (·, false) ++ stack) h hsub (habove a mem_cons_self)
    have hone := visit_visited (a := a) h
    have habove' : ∀ b ∈ nodes, G.Above visited₁ (G.visit order a) b := by
      intro b hb x hx
      rcases (hwalked x).mp hx with hx | hx
      · exact (habove b (mem_cons_of_mem _ hb) x hx).imp_left (hone.grows.subset ·)
      · exact .inl hx
    obtain ⟨visited₂, hrun', hwalked'⟩ := ih (fun b hb => hvisit b (mem_cons_of_mem _ hb))
      hone.ordered (fun x hx => (hwalked x).mpr (.inr hx)) habove'
    have hgrows := (visitAll_visited nodes hone.ordered).grows
    refine ⟨visited₂, ?_, fun x => ?_⟩
    · rw [map_cons, cons_append, hrun, hrun', foldl_cons]
    · rw [hwalked', hwalked, or_assoc, foldl_cons]
      exact or_congr_right ⟨fun hx => hx.elim (hgrows.subset ·) id, .inr⟩

/-- Popping an unmarked node visits it and leaves the rest of the stack. -/
theorem walk_visit (a : α) (visited order : List α) (stack : List (α × Bool)) (h : G.Ordered order)
    (hsub : ∀ x ∈ order, x ∈ visited) (habove : G.Above visited order a) :
    ∃ visited', G.walk visited order ((a, false) :: stack) =
      G.walk visited' (G.visit order a) stack ∧ Walked visited visited' (G.visit order a) := by
  -- by induction on the rank: the children of a node have smaller ranks
  induction hrank : G.rank a using Nat.strong_induction_on generalizing a visited order stack with
  | _ rank ih =>
    by_cases hmem : a ∈ visited
    · have horder : a ∈ order := (habove a hmem).resolve_right (Nat.lt_irrefl _)
      rw [visit_mem horder]
      refine ⟨visited, ?_, fun x => ⟨.inl, fun hx => hx.elim id (hsub x)⟩⟩
      rw [walk, if_pos hmem]
    · have hnew : a ∉ order := fun hx => hmem (hsub a hx)
      have hbelow : ∀ b ∈ G.children a, G.Above (a :: visited) order b := by
        intro b hb x hx
        have hlt := G.rank_lt a b hb
        rcases mem_cons.mp hx with rfl | hx
        · exact .inr hlt
        · exact (habove x hx).imp_right (Nat.lt_trans hlt)
      obtain ⟨visited₁, hrun, hwalked⟩ := walk_visitAll (G.children a)
        (fun b hb visited order stack h hsub habove =>
          ih (G.rank b) (hrank ▸ G.rank_lt a b hb) b visited order stack h hsub habove rfl)
        ((a, true) :: stack) h (fun x hx => mem_cons_of_mem _ (hsub x hx)) hbelow
      have hvisit : G.visit order a = (G.children a).foldl G.visit order ++ [a] := by
        rw [visit_eq, if_neg hnew]
      refine ⟨visited₁, ?_, fun x => ?_⟩
      · rw [walk, if_neg hmem, hrun, walk, hvisit]
      · rw [hwalked, hvisit, mem_append, mem_singleton, mem_cons,
          or_comm (a := x = a), or_assoc, or_comm (a := x = a)]

/-- The traversal finds the recursive postorder of its roots. -/
theorem walk_postorder (G : Dag α) (roots : List α) :
    G.walk [] [] (roots.map (·, false)) = G.postorder roots := by
  obtain ⟨visited, hrun, -⟩ := walk_visitAll roots
    (fun a _ visited order stack h hsub habove => walk_visit a visited order stack h hsub habove) []
    .nil (fun _ h => h) fun a _ x hx => absurd hx not_mem_nil
  rw [append_nil, walk] at hrun
  exact hrun

/-- The nodes behind a stack in the order in which they are popped first. -/
def sweep (G : Dag α) (seen : List α) : List α → List α
  | [] => seen
  | a :: stack =>
    if a ∈ seen then sweep G seen stack else sweep G (seen ++ [a]) (G.children a ++ stack)
termination_by stack => (stack.map G.weight).sum
decreasing_by
  · rw [map_cons, sum_cons, weight_eq]
    exact Nat.lt_add_of_pos_left (Nat.lt_of_lt_of_le Nat.one_pos (Nat.le_add_right _ _))
  · rw [map_append, sum_append, map_cons, sum_cons, G.weight_eq a]
    exact Nat.add_lt_add_right (Nat.lt_add_of_pos_left Nat.one_pos) _

/-- Nothing is lost: what is seen or on the stack is found, and so are the children of
what is found. -/
theorem sweep_closed (seen stack : List α)
    (hseen : ∀ a ∈ seen, ∀ b ∈ G.children a, b ∈ seen ∨ b ∈ stack) :
    (∀ a, a ∈ seen ∨ a ∈ stack → a ∈ G.sweep seen stack) ∧
      ∀ a ∈ G.sweep seen stack, ∀ b ∈ G.children a, b ∈ G.sweep seen stack := by
  fun_induction sweep G seen stack with
  | case1 seen =>
    exact ⟨fun a ha => ha.resolve_right not_mem_nil,
      fun a ha b hb => (hseen a ha b hb).resolve_right not_mem_nil⟩
  | case2 seen a stack ha ih =>
    have hdrop : ∀ b, b ∈ seen ∨ b ∈ a :: stack → b ∈ seen ∨ b ∈ stack := by
      rintro b (hb | hb)
      · exact .inl hb
      · rcases mem_cons.mp hb with rfl | hb
        · exact .inl ha
        · exact .inr hb
    obtain ⟨hfound, hchildren⟩ := ih fun x hx b hb => hdrop b (hseen x hx b hb)
    exact ⟨fun b hb => hfound b (hdrop b hb), hchildren⟩
  | case3 seen a stack ha ih =>
    have hmove : ∀ b, b ∈ seen ∨ b ∈ a :: stack → b ∈ seen ++ [a] ∨ b ∈ G.children a ++ stack := by
      rintro b (hb | hb)
      · exact .inl (mem_append_left _ hb)
      · rcases mem_cons.mp hb with rfl | hb
        · exact .inl (mem_append_right _ (mem_singleton_self _))
        · exact .inr (mem_append_right _ hb)
    obtain ⟨hfound, hchildren⟩ := ih fun x hx b hb => by
      rcases mem_append.mp hx with hx | hx
      · exact hmove b (hseen x hx b hb)
      · rw [mem_singleton.mp hx] at hb
        exact .inr (mem_append_left _ hb)
    exact ⟨fun b hb => hfound b (hmove b hb), hchildren⟩

/-- Nothing else is found. -/
theorem sweep_below (seen stack : List α) {x : α} (hx : x ∈ G.sweep seen stack) :
    x ∈ seen ∨ ∃ a ∈ stack, G.Reaches a x := by
  fun_induction sweep G seen stack with
  | case1 seen => exact .inl hx
  | case2 seen a stack ha ih =>
    exact (ih hx).imp_right fun ⟨b, hb, hreach⟩ => ⟨b, mem_cons_of_mem _ hb, hreach⟩
  | case3 seen a stack ha ih =>
    rcases ih hx with hx | ⟨b, hb, hreach⟩
    · rcases mem_append.mp hx with hx | hx
      · exact .inl hx
      · exact .inr ⟨a, mem_cons_self, mem_singleton.mp hx ▸ .refl⟩
    · rcases mem_append.mp hb with hb | hb
      · exact .inr ⟨a, mem_cons_self, .head hb hreach⟩
      · exact .inr ⟨b, mem_cons_of_mem _ hb, hreach⟩

/-- The traversal without marks finds the nodes below its roots. -/
theorem mem_sweep {roots : List α} {x : α} :
    x ∈ G.sweep [] roots ↔ ∃ a ∈ roots, G.Reaches a x := by
  constructor
  · exact fun hx => (sweep_below [] roots hx).resolve_left not_mem_nil
  · rintro ⟨a, ha, hreach⟩
    obtain ⟨hfound, hchildren⟩ := sweep_closed (G := G) [] roots fun _ h => absurd h not_mem_nil
    induction hreach with
    | refl => exact hfound a (.inr ha)
    | tail _ hchild ih => exact hchildren _ ih _ hchild

omit [DecidableEq α] in
/-- The same graph with its children from right to left. -/
def reversed (G : Dag α) : Dag α where
  children := fun a => (G.children a).reverse
  rank := G.rank
  rank_lt := fun a b hb => G.rank_lt a b (mem_reverse.mp hb)

omit [DecidableEq α] in
theorem reversed_reaches {a b : α} : G.reversed.Reaches a b ↔ G.Reaches a b := by
  have hstep : (fun x y => y ∈ G.reversed.children x) = fun x y => y ∈ G.children x := by
    funext x y
    exact propext mem_reverse
  unfold Reaches
  rw [hstep]

end Dag

end Lib
