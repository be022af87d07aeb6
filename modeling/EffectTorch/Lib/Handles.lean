import Mathlib.Data.List.Perm.Basic
import Mathlib.Data.List.Perm.Subperm
import Mathlib.Data.List.Range
import Mathlib.Logic.Function.Basic

/-!
# Reference counts and handles

A reference count is right when it is the number of live handles. The handles of a
system are one list; only their multiplicities matter, so its order is free. The
handles of one owner are a sublist, the rest is the frame that the owner's
operations leave alone.

Results:
1. `Counted.acquire`, `Counted.release`: counts follow handles.
2. `perm_eraseIdx`, `set_perm`: one owner out of many.
3. `countP_set_add`: what one owner changes in a count over all of them.
4. `index_unique`: a handle that is counted once stands at one place.
-/

namespace Lib
open List Function

variable {α β : Type}

/-! ## Counts -/

/-- Every count is the number of handles. -/
def Counted [DecidableEq β] (count : β → Nat) (handles : List β) : Prop :=
  ∀ b, count b = handles.count b

section Counts

variable [DecidableEq β] {count : β → Nat} {handles handles' : List β} {b : β}

theorem Counted.perm (h : Counted count handles) (hp : handles.Perm handles') :
    Counted count handles' := fun b =>
  (h b).trans (hp.count_eq b)

theorem Counted.acquire (h : Counted count handles) :
    Counted (Function.update count b (count b + 1)) (b :: handles) := by
  intro d
  by_cases hd : d = b
  · subst hd
    rw [update_self, count_cons_self, h d]
  · rw [update_of_ne hd, count_cons_of_ne (Ne.symm hd), h d]

theorem Counted.release (h : Counted count (b :: handles)) :
    Counted (Function.update count b (count b - 1)) handles := by
  intro d
  by_cases hd : d = b
  · subst hd
    rw [update_self, h d, count_cons_self, Nat.add_sub_cancel]
  · rw [update_of_ne hd, h d, count_cons_of_ne (Ne.symm hd)]

/-- A count of zero means no handle. -/
theorem Counted.eq_zero (h : Counted count handles) : count b = 0 ↔ b ∉ handles := by
  rw [h b, count_eq_zero]

theorem Counted.pos (h : Counted count handles) : 0 < count b ↔ b ∈ handles := by
  rw [h b, count_pos_iff]

end Counts

/-! ## One owner out of many -/

variable {l : List α} {a : α} {i j : Nat}

/-- Taking an entry out leaves the others. -/
theorem perm_eraseIdx (h : l[i]? = some a) : l.Perm (a :: l.eraseIdx i) := by
  obtain ⟨hlt, rfl⟩ := List.getElem?_eq_some_iff.mp h
  exact (getElem_cons_eraseIdx_perm hlt).symm

/-- Replacing an entry leaves the others. -/
theorem set_perm (a : α) (h : i < l.length) : (l.set i a).Perm (a :: l.eraseIdx i) := by
  have hget : (l.set i a)[i]? = some a := by simp [h]
  have hp := perm_eraseIdx hget
  rwa [eraseIdx_set_eq] at hp

theorem mem_eraseIdx_of_ne (h : l[j]? = some a) (hne : j ≠ i) : a ∈ l.eraseIdx i := by
  rw [mem_eraseIdx_iff_getElem?]
  exact ⟨j, hne, h⟩

/-- The handles of one owner and of all others. -/
theorem flatMap_perm (f : α → List β) (h : l[i]? = some a) :
    (l.flatMap f).Perm (f a ++ (l.eraseIdx i).flatMap f) := by
  simpa using (perm_eraseIdx h).flatMap_right f

theorem flatMap_set_perm (f : α → List β) (a : α) (h : i < l.length) :
    ((l.set i a).flatMap f).Perm (f a ++ (l.eraseIdx i).flatMap f) := by
  simpa using (set_perm a h).flatMap_right f

/-- Replacing an entry moves it between those that are counted and the others. -/
theorem countP_set_add (p : α → Bool) (b : α) (h : l[i]? = some a) :
    (l.set i b).countP p + (if p a then 1 else 0) = l.countP p + (if p b then 1 else 0) := by
  obtain ⟨hlt, rfl⟩ := List.getElem?_eq_some_iff.mp h
  rw [(set_perm b hlt).countP_eq, (perm_eraseIdx h).countP_eq, countP_cons, countP_cons]
  exact Nat.add_right_comm _ _ _

theorem getElem?_set_other {b : α} (c : α) (hi : l[i]? = some a) (hj : l[j]? = some b) (hne : a ≠ b) :
    (l.set i c)[j]? = some b := by
  have hij : i ≠ j := fun heq => hne (Option.some.inj (hi.symm.trans (heq ▸ hj)))
  rw [List.getElem?_set_ne hij, hj]

theorem getElem?_set_cases {b : α} (h : (l.set i a)[j]? = some b) :
    i < l.length ∧ j = i ∧ b = a ∨ j ≠ i ∧ l[j]? = some b := by
  rw [List.getElem?_set] at h
  split at h
  · next hij =>
    split at h
    · next hlt => exact .inl ⟨hlt, hij.symm, (Option.some.inj h).symm⟩
    · cases h
  · next hij => exact .inr ⟨Ne.symm hij, h⟩

/-! ## Handles that are held once -/

/-- What is counted once stands at one index. -/
theorem index_unique [DecidableEq β] {l : List β} {b : β} (h : l.count b ≤ 1) (hi : l[i]? = some b)
    (hj : l[j]? = some b) : i = j := by
  by_contra hne
  have hmem : b ∈ l.eraseIdx i := mem_eraseIdx_of_ne hj (Ne.symm hne)
  have hcount : l.count b = (b :: l.eraseIdx i).count b := (perm_eraseIdx hi).count_eq b
  rw [count_cons_self] at hcount
  have := count_pos_iff.mpr hmem
  omega

/-- Numbers below a bound without repetitions are at most as many as the bound. -/
theorem nodup_length_le {l : List Nat} {n : Nat} (hn : l.Nodup) (hb : ∀ b ∈ l, b < n) :
    l.length ≤ n := by
  have hsub : l ⊆ List.range n := fun b hmem => mem_range.mpr (hb b hmem)
  simpa using (hn.subperm hsub).length_le

end Lib
