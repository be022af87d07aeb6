import Mathlib.Algebra.BigOperators.Group.Finset.Basic
import Mathlib.Algebra.Order.BigOperators.Group.Finset
import Mathlib.Data.List.Sort
import Mathlib.Order.Interval.Finset.Nat

/-!
# Half-open ranges

Lists of half-open ranges `[start, stop)` of natural numbers, read as the set of
points they cover, and the merge that turns any list of nonempty ranges into a
sorted list of separated ones.

Results:
1. `covers_coalesce` and `coalesce_separated`: merging keeps the covered points
   and separates the ranges.
2. `sum_le_of_disjoint`: pairwise disjoint ranges below a bound have at most the
   bound's number of points in total.
3. `pairwise_apart_cons`: in the order of the starts, neighbours that are apart make all
   apart.
-/

namespace Lib
open List

/-- The points `start, …, stop - 1`. -/
structure Range where
  start : Nat
  stop : Nat
deriving DecidableEq, Repr

/-- Point `x` lies in the range. -/
def Range.Has (r : Range) (x : Nat) : Prop := r.start ≤ x ∧ x < r.stop

/-- Point `x` lies in some range of the list. -/
def Covers (l : List Range) (x : Nat) : Prop := ∃ r ∈ l, r.Has x

/-- Nonempty ranges in ascending order with a gap between any two. -/
structure Separated (l : List Range) : Prop where
  nonempty : ∀ r ∈ l, r.start < r.stop
  gaps : l.Pairwise fun a b => a.stop < b.start

/-! ## Merging -/

/-- Adds a range to a list of merged ranges, the last one first. -/
def mergeRange (merged : List Range) (range : Range) : List Range :=
  match merged with
  | [] => [range]
  | previous :: rest =>
    if range.start ≤ previous.stop then
      { previous with stop := max previous.stop range.stop } :: rest
    else range :: previous :: rest

/-- The sort key `(range.start, range.end)`. -/
def Range.le (a b : Range) : Prop :=
  a.start < b.start ∨ a.start = b.start ∧ a.stop ≤ b.stop

instance : DecidableRel Range.le := fun a b => by
  unfold Range.le
  infer_instance

/-- Sorts the ranges and joins those that touch. -/
def coalesce (ranges : List Range) : List Range :=
  ((ranges.insertionSort Range.le).foldl mergeRange []).reverse

theorem Range.le_total (a b : Range) : a.le b ∨ b.le a := by
  unfold Range.le
  omega

variable {x : Nat} {l merged : List Range} {a b range : Range}

theorem Range.le_trans {c : Range} (h1 : a.le b) (h2 : b.le c) : a.le c := by
  unfold Range.le at *
  omega

theorem Range.le_start (h : a.le b) : a.start ≤ b.start := by
  unfold Range.le at h
  omega

theorem covers_cons {r : Range} : Covers (r :: l) x ↔ r.Has x ∨ Covers l x := by
  simp [Covers]

theorem covers_append {l' : List Range} : Covers (l ++ l') x ↔ Covers l x ∨ Covers l' x := by
  simp [Covers, or_and_right, exists_or]

theorem covers_nil : ¬ Covers [] x := by
  simp [Covers]

/-- Reversed `Separated`, as the fold keeps it. -/
structure Merged (l : List Range) : Prop where
  nonempty : ∀ r ∈ l, r.start < r.stop
  gaps : l.Pairwise fun a b => b.stop < a.start

theorem mergeRange_merged (h : Merged merged) (hr : range.start < range.stop) :
    Merged (mergeRange merged range) := by
  cases merged with
  | nil =>
    exact ⟨by simpa [mergeRange] using hr, pairwise_singleton _ _⟩
  | cons previous rest =>
    obtain ⟨hne, hgap⟩ := h
    obtain ⟨hfirst, hrest⟩ := pairwise_cons.mp hgap
    have hp := hne previous mem_cons_self
    unfold mergeRange
    dsimp only
    split
    · refine ⟨?_, pairwise_cons.mpr ⟨hfirst, hrest⟩⟩
      intro r hm
      rcases mem_cons.mp hm with rfl | hm
      · dsimp only
        omega
      · exact hne r (mem_cons_of_mem _ hm)
    · next hgt =>
      refine ⟨forall_mem_cons.mpr ⟨hr, hne⟩, pairwise_cons.mpr ⟨?_, hgap⟩⟩
      intro r hm
      rcases mem_cons.mp hm with rfl | hm
      · omega
      · have := hfirst r hm
        omega

theorem covers_mergeRange (h : ∀ r ∈ merged, r.start ≤ range.start) :
    Covers (mergeRange merged range) x ↔ Covers merged x ∨ range.Has x := by
  cases merged with
  | nil => simp [mergeRange, Covers]
  | cons previous rest =>
    have hp := h previous mem_cons_self
    unfold mergeRange
    dsimp only
    split
    · rw [covers_cons, covers_cons]
      unfold Range.Has
      dsimp only
      constructor
      · rintro (hx | hx)
        · by_cases hx' : x < previous.stop
          · exact .inl (.inl ⟨hx.1, hx'⟩)
          · exact .inr (by omega)
        · exact .inl (.inr hx)
      · rintro ((hx | hx) | hx)
        · exact .inl (by omega)
        · exact .inr hx
        · exact .inl (by omega)
    · rw [covers_cons, or_comm]

/-- The fold keeps the starts below those still to come. -/
theorem mergeRange_start {b : Nat} (h : ∀ r ∈ merged, r.start ≤ b) (hb : range.start ≤ b) :
    ∀ r ∈ mergeRange merged range, r.start ≤ b := by
  cases merged with
  | nil => simpa [mergeRange] using hb
  | cons previous rest =>
    unfold mergeRange
    dsimp only
    split
    · exact forall_mem_cons.mpr ⟨h previous mem_cons_self,
        fun r hr => h r (mem_cons_of_mem _ hr)⟩
    · exact forall_mem_cons.mpr ⟨hb, h⟩

theorem mergeRanges_spec : ∀ (l merged : List Range), l.Pairwise Range.le → Merged merged →
    (∀ r ∈ l, r.start < r.stop) → (∀ r ∈ merged, ∀ r' ∈ l, r.start ≤ r'.start) →
    Merged (l.foldl mergeRange merged) ∧
      ∀ x, Covers (l.foldl mergeRange merged) x ↔ Covers merged x ∨ Covers l x := by
  intro l
  induction l with
  | nil =>
    intro merged _ h _ _
    exact ⟨h, fun x => by simp [covers_nil]⟩
  | cons range l ih =>
    intro merged hs h hne hle
    obtain ⟨hfirst, hrest⟩ := pairwise_cons.mp hs
    have hstart : ∀ r ∈ merged, r.start ≤ range.start := fun r hr => hle r hr range mem_cons_self
    obtain ⟨h1, h2⟩ := ih (mergeRange merged range) hrest
      (mergeRange_merged h (hne range mem_cons_self))
      (fun r hr => hne r (mem_cons_of_mem _ hr))
      (fun r hr r' hr' => mergeRange_start (fun q hq => hle q hq r' (mem_cons_of_mem _ hr'))
        (Range.le_start (hfirst r' hr')) r hr)
    refine ⟨h1, fun x => ?_⟩
    rw [foldl_cons, h2, covers_mergeRange hstart, covers_cons, or_assoc]

theorem insertionSort_le (l : List Range) : (l.insertionSort Range.le).Pairwise Range.le := by
  have : Std.Total Range.le := ⟨Range.le_total⟩
  have : IsTrans Range Range.le := ⟨fun _ _ _ => Range.le_trans⟩
  exact pairwise_insertionSort Range.le l

theorem coalesce_spec (h : ∀ r ∈ l, r.start < r.stop) :
    Separated (coalesce l) ∧ ∀ x, Covers (coalesce l) x ↔ Covers l x := by
  obtain ⟨h1, h2⟩ := mergeRanges_spec (l.insertionSort Range.le) [] (insertionSort_le l)
    ⟨by simp, List.Pairwise.nil⟩ (fun r hr => h r ((mem_insertionSort _).mp hr)) (by simp)
  refine ⟨⟨fun r hr => h1.nonempty r (mem_reverse.mp hr), pairwise_reverse.mpr h1.gaps⟩,
    fun x => ?_⟩
  have hperm : Covers (l.insertionSort Range.le) x ↔ Covers l x := by
    simp [Covers, mem_insertionSort]
  rw [← hperm]
  have := h2 x
  simp only [covers_nil, false_or] at this
  rw [← this]
  simp [coalesce, Covers]

/-- Merging separates the ranges. -/
theorem coalesce_separated (h : ∀ r ∈ l, r.start < r.stop) : Separated (coalesce l) :=
  (coalesce_spec h).1

/-- Merging keeps the covered points. -/
theorem covers_coalesce (h : ∀ r ∈ l, r.start < r.stop) : Covers (coalesce l) x ↔ Covers l x :=
  (coalesce_spec h).2 x

/-! ## Separated lists -/

/-- Two entries of a separated list share no point. -/
theorem Separated.eq_of_has (h : Separated l) {i j : Nat} (ha : l[i]? = some a) (hb : l[j]? = some b)
    (hax : a.Has x) (hbx : b.Has x) : i = j := by
  obtain ⟨hi, hai⟩ := List.getElem?_eq_some_iff.mp ha
  obtain ⟨hj, hbj⟩ := List.getElem?_eq_some_iff.mp hb
  have hgaps := pairwise_iff_getElem.mp h.gaps
  unfold Range.Has at hax hbx
  rcases Nat.lt_trichotomy i j with hij | hij | hij
  · have := hgaps i j hi hj hij
    rw [hai, hbj] at this
    omega
  · exact hij
  · have := hgaps j i hj hi hij
    rw [hai, hbj] at this
    omega

/-- Removing an entry of a separated list removes its points. -/
theorem Separated.covers_eraseIdx (h : Separated l) {i : Nat} {r : Range} (hr : l[i]? = some r) :
    Covers (l.eraseIdx i) x ↔ Covers l x ∧ ¬ r.Has x := by
  constructor
  · rintro ⟨a, ha, hx⟩
    obtain ⟨j, hj, hja⟩ := mem_eraseIdx_iff_getElem?.mp ha
    exact ⟨⟨a, mem_of_getElem? hja, hx⟩, fun hrx => hj (h.eq_of_has hja hr hx hrx)⟩
  · rintro ⟨⟨a, ha, hx⟩, hnot⟩
    obtain ⟨j, hlt, hja⟩ := mem_iff_getElem.mp ha
    have hj : l[j]? = some a := by rw [List.getElem?_eq_getElem hlt, hja]
    refine ⟨a, mem_eraseIdx_iff_getElem?.mpr ⟨j, ?_, hj⟩, hx⟩
    rintro rfl
    rw [hr] at hj
    cases hj
    exact hnot hx

/-! ## Total size of disjoint ranges -/

/-- Pairwise disjoint ranges below `bound` have at most `bound` points in total. -/
theorem sum_le_of_disjoint {ι : Type} [DecidableEq ι] (s : Finset ι) (range : ι → Range)
    (bound : Nat) (hb : ∀ i ∈ s, (range i).stop ≤ bound)
    (hd : ∀ i ∈ s, ∀ j ∈ s, i ≠ j → ∀ x, ¬ ((range i).Has x ∧ (range j).Has x)) :
    ∑ i ∈ s, ((range i).stop - (range i).start) ≤ bound := by
  have hcard : ∑ i ∈ s, ((range i).stop - (range i).start) =
      (s.biUnion fun i => Finset.Ico (range i).start (range i).stop).card := by
    rw [Finset.card_biUnion]
    · exact Finset.sum_congr rfl fun i _ => (Nat.card_Ico _ _).symm
    · intro i hi j hj hij
      refine Finset.disjoint_left.mpr fun x hxi hxj => ?_
      rw [Finset.mem_Ico] at hxi hxj
      exact hd i hi j hj hij x ⟨hxi, hxj⟩
  have hsub : (s.biUnion fun i => Finset.Ico (range i).start (range i).stop) ⊆
      Finset.range bound := by
    intro x hx
    obtain ⟨i, hi, hx⟩ := Finset.mem_biUnion.mp hx
    have := hb i hi
    rw [Finset.mem_Ico] at hx
    exact Finset.mem_range.mpr (by omega)
  rw [hcard]
  exact (Finset.card_le_card hsub).trans (by rw [Finset.card_range])

/-! ## Ranges in the order of their starts -/

/-- The ranges have no point in common, neither inside nor at an empty range. -/
def Range.Apart (a b : Range) : Prop := a.stop ≤ b.start ∨ b.stop ≤ a.start

theorem Range.Apart.symm (h : a.Apart b) : b.Apart a := Or.symm h

/-- A nonempty range that ends before its successor starts is apart from all behind it. -/
theorem pairwise_apart_cons {α : Type} {range : α → Range} {first second : α} {l : List α}
    (hsorted : (first :: second :: l).Pairwise fun a b => (range a).start ≤ (range b).start)
    (hnonempty : ∀ a ∈ first :: second :: l, (range a).start < (range a).stop) :
    ((first :: second :: l).Pairwise fun a b => (range a).Apart (range b)) ↔
      (range first).stop ≤ (range second).start ∧
        (second :: l).Pairwise fun a b => (range a).Apart (range b) := by
  obtain ⟨hfirst, hrest⟩ := pairwise_cons.mp hsorted
  obtain ⟨hsecond, _⟩ := pairwise_cons.mp hrest
  rw [pairwise_cons]
  refine and_congr_left fun _ => ⟨fun h => ?_, fun h b hb => .inl ?_⟩
  · rcases h second mem_cons_self with hclear | hbehind
    · exact hclear
    · have hpos := hnonempty second (mem_cons_of_mem _ mem_cons_self)
      exact absurd hbehind
        (Nat.not_le_of_lt (Nat.lt_of_le_of_lt (hfirst second mem_cons_self) hpos))
  · rcases mem_cons.mp hb with rfl | hb
    · exact h
    · exact Nat.le_trans h (hsecond b hb)

end Lib
