import EffectTorch.Lib.Chunks
import EffectTorch.Lib.Fill
import Mathlib.Algebra.BigOperators.Group.Finset.Basic

/-!
# Loops that update a memory

A body updates a memory when it never stops and changes every cell by a function of what the cell
holds. Bodies in sequence compose the changes, and a loop folds them; a loop whose turns add to the
cells adds the sums.

Results:
1. `Updates.bind`, `Updates.loop`, `Updates.both`: sequencing, loops, and two memories.
2. `Adds.loop`: a loop that adds.
3. `Slice.changesRow`, `Slice.writesRow`, `Slice.adds_write`: the writes of a slice.
-/

namespace Lib
open List

variable {φ σ τ ι κ α β : Type}

/-- `get s i` is the content of cell `i`, if memory `s` has such a cell. -/
def Updates (get : σ → ι → Option α) (change : ι → α → α) (body : σ → Except φ σ) : Prop :=
  ∀ s, ∃ s', body s = .ok s' ∧ ∀ i, get s' i = (get s i).map (change i)

section Rules

variable {get : σ → ι → Option α} {change change' : ι → α → α} {body body' : σ → Except φ σ}

theorem Updates.nothing : Updates get (fun _ a => a) (Except.ok (ε := φ)) :=
  fun s => ⟨s, rfl, fun _ => (Option.map_id' ..).symm⟩

theorem Updates.congr (h : Updates get change body) (hchange : ∀ i a, change i a = change' i a) :
    Updates get change' body := by
  obtain rfl : change = change' := funext fun i => funext (hchange i)
  exact h

theorem Updates.bind (h : Updates get change body) (h' : Updates get change' body') :
    Updates get (fun i a => change' i (change i a)) fun s => body s >>= body' := by
  intro s
  obtain ⟨s₁, hs₁, hget⟩ := h s
  obtain ⟨s₂, hs₂, hget'⟩ := h' s₁
  refine ⟨s₂, bind_ok.mpr ⟨s₁, hs₁, hs₂⟩, fun i => ?_⟩
  rw [hget', hget, Option.map_map]
  rfl

theorem Updates.loop {l : List β} {change : β → ι → α → α} {body : β → σ → Except φ σ}
    (h : ∀ b ∈ l, Updates get (change b) (body b)) :
    Updates get (fun i a => l.foldl (fun a b => change b i a) a) fun s => l.foldlM (fun s b => body b s) s := by
  induction l with
  | nil => exact Updates.nothing
  | cons b l ih =>
    have hrest := ih fun c hc => h c (mem_cons_of_mem b hc)
    exact (h b mem_cons_self).bind hrest

/-- A body over each of two memories. -/
theorem Updates.both {get' : τ → κ → Option α} {change' : κ → α → α} {body' : τ → Except φ τ}
    (h : Updates get change body) (h' : Updates get' change' body') :
    Updates (getBoth get get') (Sum.elim change change') fun s =>
      body s.1 >>= fun s' => body' s.2 >>= fun t' => .ok (s', t') := by
  rintro ⟨s, t⟩
  obtain ⟨s', hs, hget⟩ := h s
  obtain ⟨t', ht, hget'⟩ := h' t
  refine ⟨(s', t'), bind_ok.mpr ⟨s', hs, bind_ok.mpr ⟨t', ht, rfl⟩⟩, ?_⟩
  rintro (i | k)
  · exact hget i
  · exact hget' k

end Rules

/-! ## Sums -/

/-- A body that adds `amount` to every cell. -/
def Adds [Add α] (get : σ → ι → Option α) (amount : ι → α) (body : σ → Except φ σ) : Prop :=
  Updates get (fun i a => a + amount i) body

section Sums

variable [AddMonoid α] {get : σ → ι → Option α} {amount amount' : ι → α} {body body' : σ → Except φ σ}

theorem Adds.congr (h : Adds get amount body) (hamount : ∀ i, amount i = amount' i) : Adds get amount' body :=
  Updates.congr h fun i a => congrArg (a + ·) (hamount i)

/-- What is added to a cell that is zero. -/
theorem Adds.map_zero {x : Option α} (h : x = some 0) (a : α) : x.map (· + a) = some a := by
  rw [h]
  exact congrArg some (zero_add a)

theorem Adds.loop {l : List β} {amount : β → ι → α} {body : β → σ → Except φ σ}
    (h : ∀ b ∈ l, Adds get (amount b) (body b)) :
    Adds get (fun i => (l.map (amount · i)).sum) fun s => l.foldlM (fun s b => body b s) s := by
  refine Updates.congr (Updates.loop h) fun i a => ?_
  induction l generalizing a with
  | nil => exact (add_zero a).symm
  | cons b l ih =>
    show l.foldl _ (a + amount b i) = a + ((b :: l).map (amount · i)).sum
    rw [map_cons, sum_cons, ← add_assoc]
    exact ih (fun c hc => h c (mem_cons_of_mem b hc)) _

theorem Adds.rangeLoop {α : Type} [AddCommMonoid α] {get : σ → ι → Option α} {n : Nat} {amount : Nat → ι → α}
    {body : Nat → σ → Except φ σ} (h : ∀ b < n, Adds get (amount b) (body b)) :
    Adds get (fun i => ∑ b ∈ Finset.range n, amount b i) fun s => (List.range n).foldlM (fun s b => body b s) s :=
  Adds.loop fun b hb => h b (mem_range.mp hb)

theorem Adds.both {get' : τ → κ → Option α} {amount' : κ → α} {body' : τ → Except φ τ}
    (h : Adds get amount body) (h' : Adds get' amount' body') :
    Adds (getBoth get get') (Sum.elim amount amount') fun s =>
      body s.1 >>= fun s' => body' s.2 >>= fun t' => .ok (s', t') :=
  Updates.congr (Updates.both h h') fun i _ => by cases i <;> rfl

end Sums

/-! ## Slices -/

/-- The end of a row. -/
theorem row_le {rows width row : Nat} (hrow : row < rows) : row * width + width ≤ rows * width := by
  rw [← Nat.succ_mul]
  exact Nat.mul_le_mul_right width hrow

/-- The place of a column of a row. -/
theorem row_lt {rows width row column : Nat} (hrow : row < rows) (hcolumn : column < width) :
    row * width + column < rows * width :=
  Nat.lt_of_lt_of_le (Nat.add_lt_add_left hcolumn _) (row_le hrow)

/-- Rows and columns are known by their place. -/
theorem place_inj {a b width c c' : Nat} (hc : c < width) (hc' : c' < width) :
    a * width + c = b * width + c' ↔ a = b ∧ c = c' := by
  constructor
  · intro h
    have hpos := Nat.zero_lt_of_lt hc
    have hdiv := congrArg (· / width) h
    have hmod := congrArg (· % width) h
    simp only [Nat.mul_comm _ width, Nat.mul_add_div hpos, Nat.mul_add_mod, Nat.div_eq_of_lt hc, Nat.div_eq_of_lt hc',
      Nat.mod_eq_of_lt hc, Nat.mod_eq_of_lt hc', Nat.add_zero] at hdiv hmod
    exact ⟨hdiv, hmod⟩
  · rintro ⟨rfl, rfl⟩
    rfl

namespace Slice

variable {ε : Type} {n index : Nat}

theorem updates_write (h : index < n) (v : α) :
    Updates (get? (n := n)) (fun i a => if i = index then v else a) fun slice => (slice.write index v : Fallible ε _) := by
  intro slice
  refine ⟨_, if_pos h, fun i => ?_⟩
  have hlt : index < slice.data.length := by rwa [slice.length_eq]
  show (slice.data.set index v)[i]? = (slice.data[i]?).map _
  by_cases hi : i = index
  · subst hi
    rw [List.getElem?_set_self hlt, List.getElem?_eq_getElem hlt]
    exact congrArg some (if_pos rfl).symm
  · rw [List.getElem?_set_ne (Ne.symm hi)]
    simp [hi]

/-- A write, read back. -/
theorem exists_write (slice : Slice α n) (h : index < n) (v : α) :
    ∃ slice', (slice.write index v : Fallible ε _) = .ok slice' ∧ slice'.get? index = some v ∧
      ∀ i ≠ index, slice'.get? i = slice.get? i := by
  obtain ⟨slice', hwrite, hget⟩ := updates_write (ε := ε) h v slice
  obtain ⟨old, hold⟩ := Option.isSome_iff_exists.mp (slice.isSome_get? h)
  refine ⟨slice', hwrite, ?_, fun i hi => ?_⟩
  · rw [hget, hold]
    exact congrArg some (if_pos rfl)
  · rw [hget]
    simp [hi]

/-- `slice[index] = change(slice[index])`. -/
theorem updates_modify (h : index < n) (change : α → α) :
    Updates (get? (n := n)) (fun i a => if i = index then change a else a) fun slice =>
      (slice.read index >>= fun old => slice.write index (change old) : Fallible ε _) := by
  intro slice
  obtain ⟨old, hold⟩ : ∃ old, (slice.read index : Fallible ε α) = .ok old := read_total h
  obtain ⟨slice', hwrite, hget⟩ := updates_write (ε := ε) h (change old) slice
  refine ⟨slice', bind_ok.mpr ⟨old, hold, hwrite⟩, fun i => (hget i).trans ?_⟩
  by_cases hi : i = index
  · subst hi
    rw [read_ok.mp hold]
    exact congrArg some ((if_pos rfl).trans (if_pos rfl).symm)
  · simp [hi]

theorem adds_write [AddMonoid α] (h : index < n) (v : α) :
    Adds (get? (n := n)) (fun i => if i = index then v else 0) fun slice =>
      (slice.read index >>= fun old => slice.write index (old + v) : Fallible ε _) := by
  refine (updates_modify h (· + v)).congr fun i a => ?_
  show _ = a + if i = index then v else 0
  by_cases hi : i = index
  · rw [if_pos hi, if_pos hi]
  · rw [if_neg hi, if_neg hi, add_zero]

/-- A body that changes `count` elements from `base` on, and no others. -/
def ChangesRow (base count : Nat) (change : Nat → α → α) (body : Slice α n → Fallible ε (Slice α n)) : Prop :=
  ∀ slice, ∃ slice', body slice = .ok slice' ∧
    (∀ c < count, slice'.get? (base + c) = (slice.get? (base + c)).map (change c)) ∧
    ∀ i, i < base ∨ base + count ≤ i → slice'.get? i = slice.get? i

/-- A loop whose turns each change one element of a row that starts at `base`. -/
theorem changesRow {base count : Nat} {change : Nat → α → α} {body : Nat → Slice α n → Fallible ε (Slice α n)}
    (hbody : ∀ c < count, Updates get? (fun i a => if i = base + c then change c a else a) (body c)) :
    ChangesRow (n := n) base count change fun slice =>
      (List.range count).foldlM (fun slice c => body c slice) slice := by
  intro slice
  refine rangeLoop_total (fun done (slice' : Slice α n) =>
    (∀ c < done, slice'.get? (base + c) = (slice.get? (base + c)).map (change c)) ∧
      ∀ i, i < base ∨ base + done ≤ i → slice'.get? i = slice.get? i) (fun c hc s hs => ?_)
    ⟨fun c hc => absurd hc (Nat.not_lt_zero c), fun _ _ => rfl⟩
  obtain ⟨s', hrun, hget⟩ := hbody c hc s
  have hkept : ∀ i ≠ base + c, s'.get? i = s.get? i := fun i hi => by simp [hget, hi]
  refine ⟨s', hrun, fun c' hc' => ?_, fun i hi => ?_⟩
  · rcases Nat.lt_succ_iff_lt_or_eq.mp hc' with hlt | rfl
    · rw [hkept _ (Nat.ne_of_lt (Nat.add_lt_add_left hlt base)), hs.1 c' hlt]
    · simp [hget, hs.2 _ (.inr (Nat.le_refl _))]
  · rw [hkept i (by omega), hs.2 i (by omega)]

/-- A body that writes `count` elements from `base` on, and no others. -/
def WritesRow (base count : Nat) (g : Nat → α) (body : Slice α n → Fallible ε (Slice α n)) : Prop :=
  ∀ slice, ∃ slice', body slice = .ok slice' ∧ (∀ c < count, slice'.get? (base + c) = some (g c)) ∧
    ∀ i, i < base ∨ base + count ≤ i → slice'.get? i = slice.get? i

/-- The loop over a row that starts at `base`. -/
theorem writesRow {base count : Nat} (hbase : base + count ≤ n) {value : Nat → Fallible ε α} {g : Nat → α}
    (hvalue : ∀ c < count, value c = .ok (g c)) :
    WritesRow (n := n) base count g fun slice =>
      (List.range count).foldlM (fun slice c => value c >>= fun v => slice.write (base + c) v) slice := by
  intro slice
  induction count with
  | zero => exact ⟨slice, rfl, fun c hc => absurd hc (Nat.not_lt_zero c), fun _ _ => rfl⟩
  | succ count ih =>
    obtain ⟨s₁, hrun, hin, hout⟩ := ih (Nat.le_of_succ_le hbase) fun c hc => hvalue c (Nat.lt_succ_of_lt hc)
    have hroom : base + count < n := hbase
    obtain ⟨s₂, hwrite, hnew, hkept⟩ := s₁.exists_write (ε := ε) hroom (g count)
    refine ⟨s₂, ?_, fun c hc => ?_, fun i hi => ?_⟩
    · rw [range_succ]
      refine foldlM_append.trans (bind_ok.mpr ⟨s₁, hrun, ?_⟩)
      rw [foldlM_cons, hvalue count (Nat.lt_succ_self count), ok_bind,
        hwrite]
      rfl
    · rcases Nat.lt_succ_iff_lt_or_eq.mp hc with hlt | rfl
      · rw [hkept _ (Nat.ne_of_lt (Nat.add_lt_add_left hlt base)), hin c hlt]
      · exact hnew
    · rw [hkept i (by omega), hout i (by omega)]

end Slice

end Lib
