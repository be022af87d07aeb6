import EffectTorch.Lib.Fault

/-!
# Cells that accumulate

A loop whose turns each fold a value into one cell.

Results:
1. `getElem?_accumulate`: a cell folds the values of the turns that name it, in their order.
2. `foldlM_accumulate`: a loop of fallible turns that do so.
3. `foldlM_sweep`, `foldlM_sweeps`: loops that update adjacent cells, once each or again and again.
-/

namespace Lib
open List

variable {ι α β φ : Type}

/-- Each turn folds its value into the cell that it names. -/
def accumulate (target : ι → Nat) (fold : α → β → α) (value : ι → β) (cells : List α) (turns : List ι) : List α :=
  turns.foldl (fun cells i => cells.modify (target i) (fold · (value i))) cells

section Accumulate

variable {target : ι → Nat} {fold : α → β → α} {value : ι → β} {cells : List α} {turns : List ι}

@[simp] theorem length_accumulate : (accumulate target fold value cells turns).length = cells.length := by
  induction turns generalizing cells with
  | nil => rfl
  | cons i turns ih => exact ih.trans (length_modify _ _ _)

/-- A cell folds the values of the turns that name it. -/
theorem getElem?_accumulate (o : Nat) : (accumulate target fold value cells turns)[o]? =
    cells[o]?.map fun a => ((turns.filter fun i => target i = o).map value).foldl fold a := by
  induction turns generalizing cells with
  | nil => exact Option.map_id'.symm
  | cons i turns ih =>
    have hstep := @ih (cells.modify (target i) (fold · (value i)))
    refine hstep.trans ?_
    rw [List.getElem?_modify, Option.map_eq_map, Option.map_map]
    refine congrArg (Option.map · cells[o]?) (funext fun a => ?_)
    rw [Function.comp_apply]
    by_cases h : target i = o
    · rw [if_pos h, filter_cons_of_pos (by simpa using h)]
      rfl
    · rw [if_neg h, filter_cons_of_neg (by simpa using h)]

/-- Turns that each read the cell and write what they fold. -/
theorem foldlM_accumulate {body : List α → ι → Except φ (List α)}
    (h : ∀ i ∈ turns, ∀ cells', cells'.length = cells.length →
      body cells' i = .ok (cells'.modify (target i) (fold · (value i)))) :
    turns.foldlM body cells = .ok (accumulate target fold value cells turns) := by
  induction turns generalizing cells with
  | nil => rfl
  | cons i turns ih =>
    rw [foldlM_cons, h i mem_cons_self cells rfl, ok_bind, ih fun j hj cells' hlen =>
      h j (mem_cons_of_mem i hj) cells' (hlen.trans (length_modify _ _ _))]
    rfl

end Accumulate

/-- A loop whose turns do not fail. -/
theorem foldlM_plain {body : α → ι → Except φ α} {f : α → ι → α} {turns : List ι} {a : α}
    (h : ∀ i ∈ turns, ∀ a, body a i = .ok (f a i)) : turns.foldlM body a = .ok (turns.foldl f a) := by
  induction turns generalizing a with
  | nil => rfl
  | cons i turns ih =>
    rw [foldlM_cons, h i mem_cons_self, ok_bind, ih fun j hj => h j (mem_cons_of_mem i hj), foldl_cons]

/-- The cells with `n` of them updated, from `start` on. -/
def sweep (start n : Nat) (update : Nat → α → α) (cells : List α) : List α :=
  cells.mapIdx fun i a => if start ≤ i ∧ i < start + n then update (i - start) a else a

section Sweep

variable {start n : Nat} {update : Nat → α → α} {cells : List α} {turns : List ι}

@[simp] theorem length_sweep : (sweep start n update cells).length = cells.length := length_mapIdx

theorem getElem?_sweep (i : Nat) : (sweep start n update cells)[i]? =
    cells[i]?.map fun a => if start ≤ i ∧ i < start + n then update (i - start) a else a :=
  List.getElem?_mapIdx

theorem sweep_congr {update' : Nat → α → α} (h : ∀ j < n, ∀ a, update j a = update' j a) :
    sweep start n update cells = sweep start n update' cells := by
  refine ext_getElem? fun i => ?_
  rw [getElem?_sweep, getElem?_sweep]
  refine congrArg (Option.map · cells[i]?) (funext fun a => ?_)
  split
  · next hin => exact h _ (Nat.sub_lt_left_of_lt_add hin.1 hin.2) a
  · rfl

/-- A loop whose turns update the cells one after another. -/
theorem foldlM_sweep {body : List α → Nat → Except φ (List α)}
    (h : ∀ j < n, ∀ cells', cells'.length = cells.length → body cells' j = .ok (cells'.modify (start + j) (update j))) :
    (List.range n).foldlM body cells = .ok (sweep start n update cells) := by
  induction n with
  | zero =>
    refine congrArg Except.ok (ext_getElem? fun i => ?_)
    have hnone : ¬ (start ≤ i ∧ i < start + 0) := fun h => Nat.not_lt.mpr h.1 h.2
    rw [getElem?_sweep, funext fun a => if_neg hnone, Option.map_id']
  | succ n ih =>
    have hlast := h n (Nat.lt_succ_self n) (sweep start n update cells) length_sweep
    rw [range_succ, foldlM_append, ih fun j hj => h j (Nat.lt_succ_of_lt hj), ok_bind, foldlM_cons, hlast]
    refine congrArg Except.ok (ext_getElem? fun i => ?_)
    rw [List.getElem?_modify, getElem?_sweep, getElem?_sweep, Option.map_eq_map, Option.map_map]
    refine congrArg (Option.map · cells[i]?) (funext fun a => ?_)
    rw [Function.comp_apply]
    by_cases heq : start + n = i
    · subst heq
      rw [if_pos rfl, if_neg (fun h => Nat.lt_irrefl _ h.2), if_pos ⟨Nat.le_add_right _ _, Nat.lt_succ_self _⟩,
        Nat.add_sub_cancel_left]
    · have hsame : (start ≤ i ∧ i < start + n) ↔ (start ≤ i ∧ i < start + (n + 1)) := by omega
      rw [if_neg heq, if_congr hsame rfl rfl]

/-- A loop whose turns each update all the cells. -/
theorem foldlM_sweeps {updates : ι → Nat → α → α} {body : List α → ι → Except φ (List α)}
    (h : ∀ i ∈ turns, ∀ cells', cells'.length = cells.length → body cells' i = .ok (sweep start n (updates i) cells')) :
    turns.foldlM body cells = .ok (sweep start n (fun j a => turns.foldl (fun a i => updates i j a) a) cells) := by
  induction turns generalizing cells with
  | nil =>
    refine congrArg Except.ok (ext_getElem? fun i => ?_)
    rw [getElem?_sweep]
    simp
  | cons i turns ih =>
    rw [foldlM_cons, h i mem_cons_self cells rfl, ok_bind, ih fun j hj cells' hlength =>
      h j (mem_cons_of_mem i hj) cells' (hlength.trans length_sweep)]
    refine congrArg Except.ok (ext_getElem? fun o => ?_)
    rw [getElem?_sweep, getElem?_sweep, getElem?_sweep, Option.map_map]
    refine congrArg (Option.map · cells[o]?) (funext fun a => ?_)
    rw [Function.comp_apply]
    by_cases hin : start ≤ o ∧ o < start + n
    · rw [if_pos hin, if_pos hin, if_pos hin]
      rfl
    · rw [if_neg hin, if_neg hin, if_neg hin]

end Sweep

/-- A list with some elements replaced. -/
theorem getElem?_splice {l mid : List α} {start : Nat} (h : start + mid.length ≤ l.length) (i : Nat) :
    (l.take start ++ mid ++ l.drop (start + mid.length))[i]? =
      if start ≤ i ∧ i < start + mid.length then mid[i - start]? else l[i]? := by
  have hstart : (l.take start).length = start := length_take_of_le (Nat.le_trans (Nat.le_add_right _ _) h)
  rw [append_assoc]
  by_cases hbefore : i < start
  · rw [List.getElem?_append_left (hstart.symm ▸ hbefore), List.getElem?_take_of_lt hbefore,
      if_neg fun hin => Nat.not_le.mpr hbefore hin.1]
  · have hle := Nat.not_lt.mp hbefore
    rw [List.getElem?_append_right (hstart.symm ▸ hle), hstart]
    by_cases hin : i < start + mid.length
    · rw [List.getElem?_append_left (Nat.sub_lt_left_of_lt_add hle hin), if_pos ⟨hle, hin⟩]
    · have hafter := Nat.not_lt.mp hin
      rw [List.getElem?_append_right (Nat.le_sub_of_add_le' hafter), List.getElem?_drop, Nat.sub_sub,
        Nat.add_sub_cancel' hafter, if_neg fun h => hin h.2]

end Lib
