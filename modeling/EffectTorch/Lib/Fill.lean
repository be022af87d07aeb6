import EffectTorch.Lib.Fault
import Mathlib.Algebra.BigOperators.Group.List.Basic

/-!
# Loops that fill a memory

A body fills some cells of a memory when it never stops, leaves its value in each of them,
and leaves all other cells alone. The value is a function of the cell, so a cell may be
written twice and the order of the writes does not matter.

Results:
1. `Fills.bind`, `Fills.loop`: sequencing, and loops over lists.
2. `Fills.both`: a body over each of two memories.
3. `Slice.fills_write`: a write fills one cell of a slice.
4. `sum_loop`: a loop that adds what its turns compute.
-/

namespace Lib
open List

variable {φ σ τ ι κ α β : Type}

/-- `get s i` is the content of cell `i`, if memory `s` has such a cell. -/
def Fills (get : σ → ι → Option α) (value : ι → α) (cells : ι → Prop)
    (body : σ → Except φ σ) : Prop :=
  ∀ s, (∀ i, cells i → (get s i).isSome) →
    ∃ s', body s = .ok s' ∧ (∀ i, cells i → get s' i = some (value i)) ∧
      ∀ i, ¬ cells i → get s' i = get s i

section Rules

variable {get : σ → ι → Option α} {value : ι → α} {cells cells' : ι → Prop}
  {body body' : σ → Except φ σ}

theorem Fills.nothing : Fills get value (fun _ => False) (Except.ok (ε := φ)) :=
  fun s _ => ⟨s, rfl, fun _ h => h.elim, fun _ _ => rfl⟩

theorem Fills.congr (h : Fills get value cells body) (hcells : ∀ i, cells i ↔ cells' i) :
    Fills get value cells' body := by
  obtain rfl : cells = cells' := funext fun i => propext (hcells i)
  exact h

/-- A memory keeps its cells. -/
theorem Fills.isSome (h : Fills get value cells body) {s s' : σ}
    (hcells : ∀ i, cells i → (get s i).isSome) (hs : body s = .ok s') (i : ι) :
    (get s' i).isSome = (get s i).isSome := by
  obtain ⟨t, ht, hin, hout⟩ := h s hcells
  obtain rfl : s' = t := Except.ok.inj (hs.symm.trans ht)
  by_cases hi : cells i
  · rw [hin i hi, hcells i hi]
    rfl
  · rw [hout i hi]

theorem Fills.bind (h : Fills get value cells body) (h' : Fills get value cells' body') :
    Fills get value (fun i => cells i ∨ cells' i) fun s => body s >>= body' := by
  intro s hcells
  have hfirst : ∀ i, cells i → (get s i).isSome := fun i hi => hcells i (.inl hi)
  obtain ⟨s₁, hs₁, hin, hout⟩ := h s hfirst
  obtain ⟨s₂, hs₂, hin', hout'⟩ := h' s₁ fun i hi => by
    rw [h.isSome hfirst hs₁]
    exact hcells i (.inr hi)
  refine ⟨s₂, bind_ok.mpr ⟨s₁, hs₁, hs₂⟩, fun i hi => ?_, fun i hi => ?_⟩
  · by_cases hi' : cells' i
    · exact hin' i hi'
    · rw [hout' i hi', hin i (hi.resolve_right hi')]
  · obtain ⟨hi₁, hi₂⟩ := not_or.mp hi
    rw [hout' i hi₂, hout i hi₁]

theorem Fills.loop {l : List β} {cells : β → ι → Prop} {body : β → σ → Except φ σ}
    (h : ∀ a ∈ l, Fills get value (cells a) (body a)) :
    Fills get value (fun i => ∃ a ∈ l, cells a i) fun s => l.foldlM (fun s a => body a s) s := by
  induction l with
  | nil => exact Fills.nothing.congr fun i => by simp
  | cons a l ih =>
    have hrest := ih fun b hb => h b (mem_cons_of_mem a hb)
    exact ((h a mem_cons_self).bind hrest).congr fun i => by simp

end Rules

/-- A list keeps its length. -/
theorem Fills.length_eq {get : List β → Nat → Option α} {value : Nat → α} {cells : Nat → Prop}
    {body : List β → Except φ (List β)} (hget : ∀ s n, (get s n).isSome ↔ n < s.length) (h : Fills get value cells body)
    {s s' : List β} (hcells : ∀ i, cells i → (get s i).isSome) (hs : body s = .ok s') : s'.length = s.length := by
  have hsame : ∀ n, n < s'.length ↔ n < s.length := fun n => by
    rw [← hget, ← hget, h.isSome hcells hs]
  exact Nat.le_antisymm (Nat.le_of_not_lt fun hlt => Nat.lt_irrefl _ ((hsame _).mp hlt))
    (Nat.le_of_not_lt fun hlt => Nat.lt_irrefl _ ((hsame _).mpr hlt))

/-! ## Two memories -/

/-- The cells of two memories. -/
def getBoth (get : σ → ι → Option α) (get' : τ → κ → Option α) (s : σ × τ) : ι ⊕ κ → Option α
  | .inl i => get s.1 i
  | .inr k => get' s.2 k

/-- A body over each of two memories. -/
theorem Fills.both {get : σ → ι → Option α} {get' : τ → κ → Option α} {value : ι ⊕ κ → α}
    {cells : ι → Prop} {cells' : κ → Prop} {body : σ → Except φ σ} {body' : τ → Except φ τ}
    (h : Fills get (fun i => value (.inl i)) cells body)
    (h' : Fills get' (fun k => value (.inr k)) cells' body') :
    Fills (getBoth get get') value (Sum.elim cells cells') fun s =>
      body s.1 >>= fun s' => body' s.2 >>= fun t' => .ok (s', t') := by
  rintro ⟨s, t⟩ hcells
  obtain ⟨s', hs, hin, hout⟩ := h s fun i hi => hcells (.inl i) hi
  obtain ⟨t', ht, hin', hout'⟩ := h' t fun k hk => hcells (.inr k) hk
  refine ⟨(s', t'), bind_ok.mpr ⟨s', hs, bind_ok.mpr ⟨t', ht, rfl⟩⟩, ?_, ?_⟩
  · rintro (i | k) hi
    · exact hin i hi
    · exact hin' k hi
  · rintro (i | k) hi
    · exact hout i hi
    · exact hout' k hi

/-! ## Slices -/

/-- A slice of `n` elements. -/
structure Slice (α : Type) (n : Nat) where
  data : List α
  length_eq : data.length = n

namespace Slice

variable {ε : Type} {n index : Nat} {slice : Slice α n}

def get? (slice : Slice α n) (index : Nat) : Option α :=
  slice.data[index]?

/-- `slice[index]`. -/
def read (slice : Slice α n) (index : Nat) : Fallible ε α :=
  expect (slice.get? index) "index out of bounds"

/-- `slice[index] = value`. -/
def write (slice : Slice α n) (index : Nat) (value : α) : Fallible ε (Slice α n) :=
  if index < n then
    .ok ⟨slice.data.set index value, (length_set).trans slice.length_eq⟩
  else .error (.panic "index out of bounds")

theorem isSome_get? (slice : Slice α n) (h : index < n) : (slice.get? index).isSome := by
  rw [← slice.length_eq] at h
  simpa [get?] using h

theorem read_ok {a : α} : (slice.read index : Fallible ε α) = .ok a ↔ slice.get? index = some a :=
  expect_ok

theorem write_ok {slice' : Slice α n} {a : α} :
    (slice.write index a : Fallible ε _) = .ok slice' ↔
      index < n ∧ slice'.data = slice.data.set index a := by
  unfold write
  split
  · next h =>
    constructor
    · intro heq
      cases heq
      exact ⟨h, rfl⟩
    · rintro ⟨-, hdata⟩
      obtain ⟨data, hlength⟩ := slice'
      cases hdata
      rfl
  · next h => exact ⟨nofun, fun hw => absurd hw.1 h⟩

theorem read_total (h : index < n) : ∃ a, (slice.read index : Fallible ε α) = .ok a := by
  obtain ⟨a, ha⟩ := Option.isSome_iff_exists.mp (slice.isSome_get? h)
  exact ⟨a, read_ok.mpr ha⟩

theorem write_total {a : α} (h : index < n) :
    ∃ slice', (slice.write index a : Fallible ε (Slice α n)) = .ok slice' :=
  ⟨_, if_pos h⟩

theorem fills_write {value : Nat → α} {a : α} (ha : a = value index) :
    Fills (get? (n := n)) value (· = index) fun slice => (slice.write index a : Fallible ε _) := by
  intro slice hcells
  have hlt : index < slice.data.length := by simpa [get?] using hcells index rfl
  refine ⟨_, if_pos (slice.length_eq ▸ hlt), ?_, fun i hi => ?_⟩
  · rintro _ rfl
    rw [← ha]
    exact List.getElem?_set_self hlt
  · exact List.getElem?_set_ne (Ne.symm hi)

end Slice

/-! ## Sums -/

/-- A loop that adds what its turns compute. -/
theorem sum_loop [AddMonoid α] {l : List β} {body : α → β → Except φ α} {term : β → α}
    (h : ∀ a ∈ l, ∀ s, body s a = .ok (s + term a)) (s : α) :
    l.foldlM body s = .ok (s + (l.map term).sum) := by
  induction l generalizing s with
  | nil => rw [map_nil, sum_nil, add_zero]; rfl
  | cons a l ih =>
    rw [foldlM_cons, h a mem_cons_self, ok_bind,
      ih fun b hb => h b (mem_cons_of_mem a hb), map_cons, sum_cons, add_assoc]

end Lib
