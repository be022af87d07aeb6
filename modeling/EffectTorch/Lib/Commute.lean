import EffectTorch.Lib.Actions

/-!
# Reordering actions

Two actions commute if neither writes a cell that the other reads or writes. A
run then gives the same memory in every order that keeps the order of the
actions that do not commute.

Results:
1. `Action.exec_comm`: actions with separate cells commute.
2. `execAll_reorder`: an order that only exchanges commuting actions gives the
   same memory.
-/

namespace Lib
open List

variable {V A β : Type}

/-- Neither action writes a cell that the other reads or writes, in any memory. -/
structure Separate (addr : V → A) (a b : Action V β) : Prop where
  writes : ∀ m m', ∀ w ∈ a.emit m, ∀ w' ∈ b.emit m', addr w.1 ≠ addr w'.1
  left : ∀ m m', ∀ w ∈ a.emit m, ∀ x ∈ b.reads m', addr w.1 ≠ addr x
  right : ∀ m m', ∀ w ∈ b.emit m, ∀ x ∈ a.reads m', addr w.1 ≠ addr x

theorem Separate.symm {addr : V → A} {a b : Action V β} (h : Separate addr a b) :
    Separate addr b a where
  writes m m' w hw w' hw' := Ne.symm (h.writes m' m w' hw' w hw)
  left := h.right
  right := h.left

variable [DecidableEq A]

/-- An action sees the same cells after a separate one. -/
theorem Separate.emit_eq {addr : V → A} {a b : Action V β} (h : Separate addr a b)
    (memory : A → β) : a.emit (b.exec addr memory ∘ addr) = a.emit (memory ∘ addr) :=
  Action.emit_eq fun x hx => Action.exec_eq fun w hw => h.right _ _ w hw x hx

/-- The contents of a cell after an action, if the action writes it, do not
depend on what the cell held. -/
theorem store_of_mem {addr : V → A} {memory memory' : A → β} {x : A} {writes : List (V × β)}
    (h : ∃ w ∈ writes, addr w.1 = x) :
    store addr memory writes x = store addr memory' writes x :=
  store_congr (fun _ _ => Iff.rfl) (.inl h)

theorem Action.exec_comm {addr : V → A} {a b : Action V β} (h : Separate addr a b)
    (memory : A → β) :
    a.exec addr (b.exec addr memory) = b.exec addr (a.exec addr memory) := by
  have ha := h.emit_eq memory
  have hb := h.symm.emit_eq memory
  funext x
  by_cases hwa : ∃ w ∈ a.emit (memory ∘ addr), addr w.1 = x
  · -- Only `a` writes the cell.
    obtain ⟨w, hw, hx⟩ := hwa
    have hkeep : b.exec addr (a.exec addr memory) x = a.exec addr memory x :=
      Action.exec_eq fun w' hw' => hx ▸ h.symm.writes _ _ w' hw' w hw
    rw [hkeep]
    unfold Action.exec at ha ⊢
    rw [ha]
    exact store_of_mem ⟨w, hw, hx⟩
  · have hmiss : a.exec addr (b.exec addr memory) x = b.exec addr memory x := by
      refine Action.exec_eq fun w hw hx => hwa ?_
      rw [ha] at hw
      exact ⟨w, hw, hx⟩
    rw [hmiss]
    unfold Action.exec at hb ⊢
    rw [hb]
    refine store_congr (fun _ _ => Iff.rfl) (.inr ?_)
    exact (store_of_not_mem fun w hw hx => hwa ⟨w, hw, hx⟩).symm

/-- An action moves to the front of a run over actions that it is separate from. -/
theorem execAll_move {addr : V → A} {a : Action V β} : ∀ {before : List (Action V β)}
    {memory : A → β} {after : List (Action V β)}, (∀ b ∈ before, Separate addr a b) →
    execAll addr (before ++ a :: after) memory = execAll addr (a :: before ++ after) memory := by
  intro before
  induction before with
  | nil => exact fun _ => rfl
  | cons b before ih =>
    intro memory after h
    rw [cons_append, execAll_cons, ih fun c hc => h c (mem_cons_of_mem _ hc)]
    rw [cons_append, execAll_cons, cons_append, cons_append, execAll_cons,
      execAll_cons, Action.exec_comm (h b mem_cons_self)]

/-- A run in an order that only exchanges actions of separate cells gives the same
memory. -/
theorem execAll_reorder {addr : V → A} {action : Nat → Action V β} :
    ∀ {positions order : List Nat} {memory : A → β}, positions.Pairwise (· < ·) →
      order.Perm positions →
      order.Pairwise (fun i j => i < j ∨ Separate addr (action i) (action j)) →
      execAll addr (order.map action) memory = execAll addr (positions.map action) memory := by
  intro positions
  induction positions with
  | nil =>
    intro order memory _ hperm _
    rw [hperm.eq_nil]
  | cons i positions ih =>
    intro order memory hsorted hperm hpair
    obtain ⟨before, after, rfl⟩ := append_of_mem (hperm.mem_iff.mpr mem_cons_self)
    have hrest : (before ++ after).Perm positions :=
      (List.perm_middle.symm.trans hperm).cons_inv
    have hlt : ∀ j ∈ positions, i < j := fun j hj => rel_of_pairwise_cons hsorted hj
    -- Everything that runs before the least position is separate from it.
    have hmove : ∀ b ∈ before.map action, Separate addr (action i) b := by
      intro b hb
      obtain ⟨j, hj, rfl⟩ := mem_map.mp hb
      have hij : i < j := hlt j (hrest.mem_iff.mp (mem_append_left _ hj))
      have hji := (pairwise_append.mp hpair).2.2 j hj i mem_cons_self
      exact (hji.resolve_left (by omega)).symm
    rw [map_append, map_cons, execAll_move hmove, cons_append, execAll_cons,
      ← map_append, map_cons, execAll_cons]
    refine ih (List.Pairwise.of_cons hsorted) hrest ?_
    exact hpair.sublist (List.Sublist.append_left (sublist_cons_self i after) before)

end Lib
