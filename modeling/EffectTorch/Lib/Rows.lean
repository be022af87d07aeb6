import Mathlib.Data.List.Basic
import Mathlib.Data.List.Flatten
import Mathlib.Algebra.BigOperators.Group.List.Basic

/-!
# Rows of one length

Rows of one length laid one after the other, slices of a list at multiples of a length, and buckets
that collect the entries of a list by two indices.

Results:
1. `take_drop_flatten`: the slice of a row is the row.
2. `flatten_slices`: the slices of a list are the list.
3. `filter_mod_flatten`: the entries at a column, by the remainder of their index.
4. `bucketAt_pushAll`: what a bucket collects.
-/

namespace Lib
open List

section Rows

variable {α : Type} {rows : List (List α)} {width : Nat}

theorem length_flatten_rows (hlen : ∀ row ∈ rows, row.length = width) :
    rows.flatten.length = rows.length * width := by
  rw [length_flatten, map_congr_left hlen, map_const', sum_replicate]
  rfl

/-- The slice of a row is the row. -/
theorem take_drop_flatten (hlen : ∀ row ∈ rows, row.length = width) {r : Nat} {row : List α}
    (h : rows[r]? = some row) : (rows.flatten.drop (r * width)).take width = row := by
  induction rows generalizing r with
  | nil => cases h
  | cons first rows ih =>
    obtain ⟨hfirst, hrest⟩ := forall_mem_cons.mp hlen
    cases r with
    | zero =>
      cases h
      rw [Nat.zero_mul, drop_zero, flatten_cons, take_left' hfirst]
    | succ r =>
      rw [Nat.succ_mul, Nat.add_comm, ← drop_drop, flatten_cons, drop_left' hfirst]
      exact ih hrest h

theorem filter_zipIdx_eq (l : List α) (n j : Nat) :
    ((l.zipIdx n).filter (·.2 = n + j)).map (·.1) = l[j]?.toList := by
  induction l generalizing n j with
  | nil => rfl
  | cons a l ih =>
    rw [zipIdx_cons]
    cases j with
    | zero =>
      have hrest : (l.zipIdx (n + 1)).filter (·.2 = n + 0) = [] := by
        refine filter_eq_nil_iff.mpr fun p hp => ?_
        have hlo := le_snd_of_mem_zipIdx hp
        rw [decide_eq_true_eq]
        omega
      rw [filter_cons_of_pos (by simp), map_cons, hrest]
      rfl
    | succ j =>
      rw [filter_cons_of_neg (by simp), ← Nat.add_assoc, Nat.add_right_comm, ih]
      rfl

/-- What one entry of a list contributes, picked by its index. -/
theorem flatMap_zipIdx_eq {β : Type} (l : List α) (f : α → List β) (i : Nat) :
    (l.zipIdx.flatMap fun p => if p.2 = i then f p.1 else []) = l[i]?.toList.flatMap f := by
  have hpick : ∀ ps : List (α × Nat), (ps.flatMap fun p => if p.2 = i then f p.1 else []) =
      ((ps.filter (·.2 = i)).map (·.1)).flatMap f := by
    intro ps
    induction ps with
    | nil => rfl
    | cons p ps ih =>
      rw [flatMap_cons, ih, filter_cons]
      by_cases hp : p.2 = i
      · rw [if_pos hp, if_pos (decide_eq_true hp), map_cons, flatMap_cons]
      · rw [if_neg hp, if_neg (by rwa [decide_eq_true_eq]), nil_append]
  have hfilter := filter_zipIdx_eq l 0 i
  simp only [Nat.zero_add] at hfilter
  rw [hpick, hfilter]

/-- The entries at column `j`, by the remainder of their index. -/
theorem filter_mod_flatten (hlen : ∀ row ∈ rows, row.length = width) {j : Nat} (hj : j < width) (default : α)
    (start : Nat) : ((rows.flatten.zipIdx (start * width)).filter (·.2 % width = j)).map (·.1) =
      rows.map (·.getD j default) := by
  induction rows generalizing start with
  | nil => rfl
  | cons row rows ih =>
    obtain ⟨hrow, hrest⟩ := forall_mem_cons.mp hlen
    have hfront : ((row.zipIdx (start * width)).filter (·.2 % width = j)).map (·.1) = [row.getD j default] := by
      have hindex : ∀ p ∈ row.zipIdx (start * width), decide (p.2 % width = j) = decide (p.2 = start * width + j) := by
        intro p hp
        obtain ⟨k, hk⟩ := Nat.exists_eq_add_of_le (le_snd_of_mem_zipIdx hp)
        have hlt : k < width := by
          have hhi := snd_lt_add_of_mem_zipIdx hp
          rw [hk, hrow] at hhi
          exact Nat.lt_of_add_lt_add_left hhi
        refine decide_eq_decide.mpr ?_
        rw [hk, Nat.add_comm, Nat.add_mul_mod_self_right, Nat.mod_eq_of_lt hlt, Nat.add_comm, Nat.add_left_cancel_iff]
      rw [filter_congr hindex, filter_zipIdx_eq, getD_eq_getElem?_getD, List.getElem?_eq_getElem (hrow ▸ hj)]
      rfl
    rw [flatten_cons, zipIdx_append, filter_append, map_append, hfront, hrow, ← Nat.succ_mul,
      ih hrest]
    rfl

end Rows

/-! ## Slices -/

section Slices

variable {α : Type} {size : Nat}

/-- `slice(start, stop)`. -/
def slice (l : List α) (start stop : Nat) : List α := (l.drop start).take (stop - start)

/-- The slices of a list at the offsets that are multiples of `size`. -/
def slices (size : Nat) (l : List α) : List (List α) :=
  (List.range ((l.length + size - 1) / size)).map fun i => slice l (i * size) (i * size + size)

/-- The slices of a list are the list. -/
theorem flatten_slices (hsize : 0 < size) (l : List α) : (slices size l).flatten = l := by
  have hfront : ∀ n, ((List.range n).map fun i => slice l (i * size) (i * size + size)).flatten = l.take (n * size) := by
    intro n
    induction n with
    | zero => rw [Nat.zero_mul, take_zero]; rfl
    | succ n ih =>
      rw [range_succ, map_append, flatten_append, ih, map_singleton, flatten_singleton, slice,
        Nat.add_sub_cancel_left, Nat.succ_mul, take_add]
  rw [slices, hfront, take_of_length_le]
  have hdiv := Nat.div_add_mod' (l.length + size - 1) size
  have hmod := Nat.mod_lt (l.length + size - 1) hsize
  omega

/-- No slice is empty. -/
theorem ne_nil_of_mem_slices (hsize : 0 < size) {l s : List α} (hs : s ∈ slices size l) : s ≠ [] := by
  obtain ⟨i, hi, rfl⟩ := mem_map.mp hs
  have hlt : i * size < l.length := by
    have hle := Nat.mul_le_of_le_div size (i + 1) _ (mem_range.mp hi)
    rw [Nat.succ_mul] at hle
    omega
  refine ne_nil_of_length_pos ?_
  rw [slice, length_take, length_drop, Nat.add_sub_cancel_left]
  exact Nat.lt_min.mpr ⟨hsize, Nat.sub_pos_of_lt hlt⟩

end Slices

/-! ## Buckets -/

section Buckets

variable {α : Type}

def bucketAt (buckets : List (List (List α))) (i j : Nat) : Option (List α) :=
  buckets[i]?.bind (·[j]?)

/-- `buckets[i][j].push(a)`. -/
def pushBucket (buckets : List (List (List α))) (i j : Nat) (a : α) : List (List (List α)) :=
  buckets.modify i fun row => row.modify j (· ++ [a])

theorem bucketAt_push (buckets : List (List (List α))) (i j i' j' : Nat) (a : α) :
    bucketAt (pushBucket buckets i j a) i' j' =
      (bucketAt buckets i' j').map fun bucket => if i = i' ∧ j = j' then bucket ++ [a] else bucket := by
  rw [bucketAt, bucketAt, pushBucket, List.getElem?_modify]
  cases buckets[i']? with
  | none => rfl
  | some row =>
    by_cases hi : i = i'
    · subst hi
      by_cases hj : j = j'
      · subst hj
        simp
      · simp [hj]
    · simp [hi]

/-- A bucket collects the entries pushed into it, in order. -/
theorem bucketAt_pushAll (pushes : List (Nat × Nat × α)) (buckets : List (List (List α))) (i j : Nat) :
    bucketAt (pushes.foldl (fun buckets p => pushBucket buckets p.1 p.2.1 p.2.2) buckets) i j =
      (bucketAt buckets i j).map (· ++ (pushes.filter fun p => p.1 = i ∧ p.2.1 = j).map (·.2.2)) := by
  induction pushes generalizing buckets with
  | nil => simp
  | cons p pushes ih =>
    rw [foldl_cons, ih, bucketAt_push, Option.map_map]
    refine congrArg (Option.map · _) (funext fun bucket => ?_)
    by_cases hp : p.1 = i ∧ p.2.1 = j
    · simp [hp]
    · simp [hp]

theorem map_length_pushAll (pushes : List (Nat × Nat × α)) (buckets : List (List (List α))) :
    (pushes.foldl (fun buckets p => pushBucket buckets p.1 p.2.1 p.2.2) buckets).map List.length =
      buckets.map List.length := by
  induction pushes generalizing buckets with
  | nil => rfl
  | cons p pushes ih =>
    rw [foldl_cons, ih]
    refine ext_getElem? fun i => ?_
    rw [List.getElem?_map, List.getElem?_map, pushBucket, List.getElem?_modify]
    cases buckets[i]? with
    | none => rfl
    | some row =>
      by_cases hi : p.1 = i
      · simp [hi]
      · simp [hi]

/-- Buckets are what their entries say. -/
theorem eq_of_bucketAt {buckets buckets' : List (List (List α))}
    (hlen : buckets.map List.length = buckets'.map List.length)
    (h : ∀ i j, bucketAt buckets i j = bucketAt buckets' i j) : buckets = buckets' := by
  refine ext_getElem? fun i => ?_
  have hrow := congrArg (fun lengths : List Nat => lengths[i]?) hlen
  simp only [List.getElem?_map] at hrow
  have hentries := h i
  simp only [bucketAt] at hentries
  cases hi : buckets[i]? with
  | none => cases hi' : buckets'[i]? with
    | none => rfl
    | some row' => rw [hi, hi'] at hrow; cases hrow
  | some row => cases hi' : buckets'[i]? with
    | none => rw [hi, hi'] at hrow; cases hrow
    | some row' =>
      rw [hi, hi'] at hentries
      exact congrArg some (ext_getElem? hentries)

end Buckets

end Lib
