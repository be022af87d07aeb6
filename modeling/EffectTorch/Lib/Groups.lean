import Mathlib

/-!
# Groups in a sorted map

A map from keys to groups, as the list of its entries in the order of the keys. An element is pushed to the
group of its key, which is made for the first one.

Results:
1. `members_push`: a push adds its element to the members and loses none.
2. `members_groupAll`: grouping all elements of a list keeps each of them once.
3. `keyed_groupAll`: the members of a group have its key.
-/

namespace Lib
open List

variable {κ α : Type} [LinearOrder κ]

/-- Pushes an element to the group of its key. -/
def push (key : κ) (a : α) : List (κ × List α) → List (κ × List α)
  | [] => [(key, [a])]
  | (k, group) :: groups =>
    if key < k then (key, [a]) :: (k, group) :: groups
    else if key = k then (k, group ++ [a]) :: groups
    else (k, group) :: push key a groups

/-- All elements of a list, each pushed to its group. -/
def groupAll (key : α → κ) (elements : List α) : List (κ × List α) :=
  elements.foldl (fun groups a => push (key a) a groups) []

/-- The members of all groups, in the order of the keys. -/
def members (groups : List (κ × List α)) : List α := groups.flatMap Prod.snd

/-- The members of each group have its key, and no group is empty. -/
def Keyed (key : α → κ) (groups : List (κ × List α)) : Prop :=
  ∀ entry ∈ groups, entry.2 ≠ [] ∧ ∀ a ∈ entry.2, key a = entry.1

section Groups

variable {key : α → κ} {a : α} {groups : List (κ × List α)} {elements : List α}

theorem members_push (k : κ) (a : α) (groups : List (κ × List α)) : (members (push k a groups)).Perm (members groups ++ [a]) := by
  induction groups with
  | nil => exact .refl _
  | cons entry groups ih =>
    obtain ⟨k', group⟩ := entry
    rw [push]
    split
    · exact (perm_append_singleton a _).symm
    split
    · refine List.Perm.trans (.of_eq (append_assoc group [a] (members groups))) ?_
      refine List.Perm.trans ?_ (.of_eq (append_assoc group (members groups) [a]).symm)
      exact (perm_append_comm : ([a] ++ members groups).Perm (members groups ++ [a])).append_left group
    · refine List.Perm.trans (ih.append_left group) ?_
      exact .of_eq (append_assoc group (members groups) [a]).symm

theorem keyed_push (h : Keyed key groups) : Keyed key (push (key a) a groups) := by
  have hnew : [a] ≠ [] ∧ ∀ b ∈ [a], key b = key a := ⟨cons_ne_nil _ _, fun b hb => congrArg key (mem_singleton.mp hb)⟩
  induction groups with
  | nil => exact fun entry hentry => (mem_singleton.mp hentry) ▸ hnew
  | cons first groups ih =>
    obtain ⟨k, group⟩ := first
    obtain ⟨hfirst, hrest⟩ := forall_mem_cons.mp h
    rw [push]
    split
    · exact forall_mem_cons.mpr ⟨hnew, h⟩
    split
    · next hkey =>
      refine forall_mem_cons.mpr ⟨⟨by simp, fun b hb => ?_⟩, hrest⟩
      rcases mem_append.mp hb with hb | hb
      · exact hfirst.2 b hb
      · exact (hnew.2 b hb).trans hkey
    · exact forall_mem_cons.mpr ⟨hfirst, ih hrest⟩

/-- Grouping keeps each element once. -/
theorem members_groupAll (key : α → κ) (elements : List α) : (members (groupAll key elements)).Perm elements := by
  induction elements using List.reverseRecOn with
  | nil => exact .refl _
  | append_singleton elements a ih =>
    rw [groupAll, foldl_append]
    exact (members_push _ _ _).trans (ih.append_right [a])

/-- The members of a group have its key. -/
theorem keyed_groupAll (key : α → κ) (elements : List α) : Keyed key (groupAll key elements) := by
  induction elements using List.reverseRecOn with
  | nil => exact nofun
  | append_singleton elements a ih =>
    rw [groupAll, foldl_append]
    exact keyed_push ih

end Groups

end Lib
