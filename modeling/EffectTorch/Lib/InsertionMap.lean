import Mathlib.Data.List.Basic
import Mathlib.Data.List.Nodup

/-!
# Maps in the order of insertion

A map as the list of its entries. To set a key that is there keeps its place; a new key goes to the end.

Results:
1. `mem_ofEntries`: every entry of a map has been set.
2. `exists_ofEntries`: every key that has been set is there.
3. `get_eq`: what a key leads to.
-/

namespace Lib.InsertionMap
open List

variable {κ ν : Type} [DecidableEq κ]

def set : List (κ × ν) → κ × ν → List (κ × ν)
  | [], e => [e]
  | f :: entries, e => if f.1 = e.1 then e :: entries else f :: set entries e

/-- The entries are set one after another. -/
def ofEntries (entries : List (κ × ν)) : List (κ × ν) := entries.foldl set []

def get (entries : List (κ × ν)) (key : κ) : Option ν := (entries.find? fun e => e.1 = key).map Prod.snd

variable {entries : List (κ × ν)} {e f : κ × ν}

theorem mem_set (h : f ∈ set entries e) : f = e ∨ f ∈ entries := by
  induction entries with
  | nil => exact .inl (mem_singleton.mp h)
  | cons g entries ih =>
    rw [set] at h
    split at h
    · rcases mem_cons.mp h with rfl | h
      · exact .inl rfl
      · exact .inr (mem_cons_of_mem g h)
    · rcases mem_cons.mp h with rfl | h
      · exact .inr mem_cons_self
      · exact (ih h).imp_right (mem_cons_of_mem g)

theorem mem_keys_set {key : κ} : key ∈ (set entries e).map Prod.fst ↔ key = e.1 ∨ key ∈ entries.map Prod.fst := by
  induction entries with
  | nil => simp [set]
  | cons g entries ih =>
    rw [set]
    split
    · next h => simp [h]
    · rw [map_cons, mem_cons, ih, map_cons, mem_cons, or_left_comm]

theorem nodup_set (h : (entries.map Prod.fst).Nodup) : ((set entries e).map Prod.fst).Nodup := by
  induction entries with
  | nil => exact nodup_singleton _
  | cons g entries ih =>
    obtain ⟨hnew, hrest⟩ := nodup_cons.mp h
    rw [set]
    split
    · next hkey => exact nodup_cons.mpr ⟨hkey ▸ hnew, hrest⟩
    · next hkey =>
      refine nodup_cons.mpr ⟨fun hmem => ?_, ih hrest⟩
      rcases mem_keys_set.mp hmem with heq | hmem
      · exact hkey heq
      · exact hnew hmem

/-- A property of all entries that have been set. -/
theorem foldl_set_induction {P : List (κ × ν) → Prop} {start : List (κ × ν)} (hstart : P start)
    (hset : ∀ map, ∀ e ∈ entries, P map → P (set map e)) : P (entries.foldl set start) := by
  induction entries generalizing start with
  | nil => exact hstart
  | cons e entries ih =>
    exact ih (hset start e mem_cons_self hstart) fun map f hf => hset map f (mem_cons_of_mem e hf)

/-- Every entry of a map has been set. -/
theorem mem_ofEntries (h : e ∈ ofEntries entries) : e ∈ entries := by
  refine foldl_set_induction (P := fun map => ∀ e ∈ map, e ∈ entries) ?_ ?_ e h
  · exact fun e he => absurd he not_mem_nil
  · intro map f hf ih e he
    rcases mem_set he with rfl | he
    · exact hf
    · exact ih e he

/-- No key twice. -/
theorem nodup_ofEntries (entries : List (κ × ν)) : ((ofEntries entries).map Prod.fst).Nodup :=
  foldl_set_induction (P := fun map => (map.map Prod.fst).Nodup) nodup_nil fun _ _ _ h => nodup_set h

/-- Every key that has been set is there. -/
theorem exists_ofEntries {key : κ} (h : key ∈ entries.map Prod.fst) : key ∈ (ofEntries entries).map Prod.fst := by
  have hkeep : ∀ (entries start : List (κ × ν)) (key : κ), key ∈ start.map Prod.fst →
      key ∈ (entries.foldl set start).map Prod.fst := by
    intro entries start key h
    exact foldl_set_induction (P := fun map => key ∈ map.map Prod.fst) h fun map e _ h => mem_keys_set.mpr (.inr h)
  suffices hgoal : ∀ start : List (κ × ν), key ∈ (entries.foldl set start).map Prod.fst from hgoal []
  induction entries with
  | nil => exact absurd h not_mem_nil
  | cons e entries ih =>
    intro start
    rcases mem_cons.mp h with rfl | h
    · exact hkeep entries _ _ (mem_keys_set.mpr (.inl rfl))
    · exact ih h (set start e)

/-- What a key leads to. -/
theorem get_eq (h : (entries.map Prod.fst).Nodup) {key : κ} {value : ν} :
    get entries key = some value ↔ (key, value) ∈ entries := by
  induction entries with
  | nil => simp [get]
  | cons g entries ih =>
    obtain ⟨hnew, hrest⟩ := nodup_cons.mp h
    rw [get, List.find?_cons]
    split
    · next hkey =>
      rw [decide_eq_true_eq] at hkey
      subst hkey
      rw [Option.map_some, Option.some.injEq, mem_cons]
      constructor
      · rintro rfl
        exact .inl rfl
      · rintro (heq | hmem)
        · exact (congrArg Prod.snd heq).symm
        · exact absurd (mem_map_of_mem hmem) hnew
    · next hkey =>
      rw [decide_eq_false_iff_not] at hkey
      refine (ih hrest).trans ?_
      rw [mem_cons]
      constructor
      · exact .inr
      · rintro (heq | hmem)
        · exact absurd (congrArg Prod.fst heq).symm hkey
        · exact hmem

end Lib.InsertionMap
