import Mathlib.Data.List.Perm.Basic
import Mathlib.Data.List.Pairwise
import Mathlib.Data.List.Nodup
import Mathlib.Order.Basic

/-!
# Stable sorting by insertion

Entries are inserted one after the other, each behind the entries that may stand before it. The
result is the stable sort, and its first `k` entries can be kept alone all along.

Results:
1. `take_insertBehind`: an insertion into the first `k` entries.
2. `insertAll_eq_mergeSort`: inserting the numbers below `n` in order sorts them stably.
3. `mergeSort_ordered`: in a stable sort of the numbers below `n`, ties are in numeric order.
-/

namespace Lib
open List

section Insertion

variable {α : Type} (le : α → α → Bool)

/-- Inserts `x` behind the entries at the front that may stand before it. -/
def insertBehind (x : α) : List α → List α
  | [] => [x]
  | y :: ys => if le y x then y :: insertBehind x ys else x :: y :: ys

theorem insertBehind_perm (x : α) (l : List α) : (insertBehind le x l).Perm (x :: l) := by
  induction l with
  | nil => exact .refl _
  | cons y ys ih =>
    rw [insertBehind]
    split
    · exact (ih.cons y).trans (.swap x y ys)
    · exact .refl _

/-- The insertion is behind the entries that stay in front. -/
theorem insertBehind_eq_insertIdx (x : α) (l : List α) :
    insertBehind le x l = l.insertIdx (l.takeWhile (le · x)).length x := by
  induction l with
  | nil => rfl
  | cons y ys ih =>
    rw [insertBehind, takeWhile_cons]
    split
    · rw [ih, length_cons, insertIdx_succ_cons]
    · rfl

/-- The first `k` entries after an insertion depend on the first `k` before it. -/
theorem take_insertBehind (x : α) (l : List α) (k : Nat) :
    (insertBehind le x (l.take k)).take k = (insertBehind le x l).take k := by
  induction l generalizing k with
  | nil => rw [take_nil]
  | cons y ys ih =>
    cases k with
    | zero => rw [take_zero, take_zero]
    | succ k =>
      rw [take_succ_cons, insertBehind, insertBehind]
      split
      · rw [take_succ_cons, take_succ_cons, ih]
      · rw [take_succ_cons, take_succ_cons]
        cases k with
        | zero => rw [take_zero, take_zero]
        | succ k => rw [take_succ_cons, take_succ_cons, take_take, Nat.min_eq_left (Nat.le_succ k)]

end Insertion

section Indices

variable {le : Nat → Nat → Bool}

/-- `i` stands before `j` in a stable sort of numbers in order. -/
def Before (le : Nat → Nat → Bool) (i j : Nat) : Prop :=
  le i j ∧ (le j i → i < j)

theorem Before.asymm {i j : Nat} (h : Before le i j) (h' : Before le j i) : i = j :=
  absurd (h.2 h'.1) (Nat.not_lt.mpr (Nat.le_of_lt (h'.2 h.1)))

theorem not_sublist_swap {α : Type} {l : List α} {a b : α} (hnodup : l.Nodup) (hab : [a, b].Sublist l) :
    ¬ [b, a].Sublist l := by
  intro hba
  induction l with
  | nil => cases hab
  | cons c l ih =>
    obtain ⟨hc, hrest⟩ := nodup_cons.mp hnodup
    rcases sublist_cons_iff.mp hab with h | ⟨_, ⟨⟩, h⟩
    · rcases sublist_cons_iff.mp hba with h' | ⟨_, ⟨⟩, _⟩
      · exact ih hrest h h'
      · exact hc (h.subset (mem_cons_of_mem _ mem_cons_self))
    · rcases sublist_cons_iff.mp hba with h' | ⟨_, ⟨⟩, _⟩
      · exact hc (h'.subset (mem_cons_of_mem _ mem_cons_self))
      · exact hc (h.subset mem_cons_self)

theorem pair_sublist_range {n i j : Nat} (hij : i < j) (hj : j < n) : [i, j].Sublist (List.range n) := by
  induction n with
  | zero => cases hj
  | succ n ih =>
    rw [range_succ]
    rcases Nat.lt_or_eq_of_le (Nat.le_of_lt_succ hj) with hlt | rfl
    · exact (ih hlt).trans (sublist_append_left _ _)
    · exact List.Sublist.append (singleton_sublist.mpr (mem_range.mpr hij)) (.refl [j])

/-- In a stable sort of the numbers below `n`, ties are in numeric order. -/
theorem mergeSort_ordered (htrans : ∀ a b c, le a b → le b c → le a c) (htotal : ∀ a b, le a b || le b a)
    (n : Nat) : ((List.range n).mergeSort le).Pairwise (Before le) := by
  have hsorted := pairwise_mergeSort htrans htotal (List.range n)
  have hnodup : ((List.range n).mergeSort le).Nodup :=
    (mergeSort_perm _ _).nodup_iff.mpr nodup_range
  refine pairwise_iff_forall_sublist.mpr fun {a b} hsub => ⟨?_, fun hba => ?_⟩
  · exact pairwise_iff_forall_sublist.mp hsorted hsub
  · have ha : a < n := mem_range.mp (mem_mergeSort.mp (hsub.subset mem_cons_self))
    by_contra hlt
    have hne : a ≠ b := by
      rintro rfl
      exact absurd (hnodup.sublist hsub) (by simp)
    -- a tie in numeric order is kept, so the two would stand both ways
    have hpair : [b, a].Sublist (List.range n) := 
      pair_sublist_range (Nat.lt_of_le_of_ne (Nat.not_lt.mp hlt) hne.symm) ha
    exact not_sublist_swap hnodup hsub (pair_sublist_mergeSort htrans htotal hba hpair)

/-- The numbers below `n`, inserted in order. -/
def insertAll (le : Nat → Nat → Bool) (n : Nat) : List Nat :=
  (List.range n).foldl (fun sorted i => insertBehind le i sorted) []

theorem insertAll_succ (n : Nat) : insertAll le (n + 1) = insertBehind le n (insertAll le n) := by
  rw [insertAll, range_succ, foldl_append]
  rfl

theorem insertAll_perm (n : Nat) : (insertAll le n).Perm (List.range n) := by
  induction n with
  | zero => exact .refl _
  | succ n ih =>
    rw [insertAll_succ, range_succ]
    exact (insertBehind_perm le n _).trans ((ih.cons n).trans (perm_append_singleton n _).symm)

/-- A larger number behind its ties keeps them in numeric order. -/
theorem insertBehind_ordered (htrans : ∀ a b c, le a b → le b c → le a c) (htotal : ∀ a b, le a b || le b a)
    {n : Nat} {l : List Nat} (hl : l.Pairwise (Before le)) (hlt : ∀ i ∈ l, i < n) :
    (insertBehind le n l).Pairwise (Before le) := by
  induction l with
  | nil => exact pairwise_singleton _ _
  | cons y ys ih =>
    obtain ⟨hy, hys⟩ := pairwise_cons.mp hl
    rw [insertBehind]
    split
    · next hle =>
      refine pairwise_cons.mpr ⟨fun z hz => ?_, ih hys fun i hi => hlt i (mem_cons_of_mem _ hi)⟩
      rcases mem_cons.mp ((insertBehind_perm le n ys).mem_iff.mp hz) with rfl | hz
      · exact ⟨hle, fun _ => hlt y mem_cons_self⟩
      · exact hy z hz
    · next hle =>
      have hny : le n y := ((Bool.or_eq_true _ _).mp (htotal n y)).resolve_right hle
      refine pairwise_cons.mpr ⟨fun z hz => ?_, hl⟩
      rcases mem_cons.mp hz with rfl | hz
      · exact ⟨hny, fun h => absurd h hle⟩
      · have hyz := (hy z hz).1
        exact ⟨htrans n y z hny hyz, fun h => absurd (htrans y z n hyz h) hle⟩

theorem insertAll_ordered (htrans : ∀ a b c, le a b → le b c → le a c) (htotal : ∀ a b, le a b || le b a)
    (n : Nat) : (insertAll le n).Pairwise (Before le) := by
  induction n with
  | zero => exact .nil
  | succ n ih =>
    rw [insertAll_succ]
    exact insertBehind_ordered htrans htotal ih fun i hi =>
      mem_range.mp ((insertAll_perm n).mem_iff.mp hi)

/-- Inserting the numbers below `n` in order sorts them stably. -/
theorem insertAll_eq_mergeSort (htrans : ∀ a b c, le a b → le b c → le a c)
    (htotal : ∀ a b, le a b || le b a) (n : Nat) : insertAll le n = (List.range n).mergeSort le :=
  ((insertAll_perm n).trans (mergeSort_perm _ _).symm).eq_of_pairwise
    (fun _ _ _ _ h h' => h.asymm h') (insertAll_ordered htrans htotal n) (mergeSort_ordered htrans htotal n)

end Indices

end Lib
