import EffectTorch.Compiler.Liveness
import EffectTorch.Lib.Ranges

/-!
# Segments under construction

The working segment of `compiler/src/planner.rs` and its operations: retiring
allocations into the free list, taking a slice of a free range, growing the
tail, and opening a segment.

Results:
1. `WorkingSegment.Inv`: free ranges are separated, live allocations do not
   share bytes with each other or with a free range, and all lie below the tail.
2. Each operation keeps the invariant, and the slice it hands out is `Unclaimed`.
3. `address_overlap_iff`: the only live allocation whose range meets an
   unclaimed slice in the sense of the planner's final scan is an empty one
   strictly inside the slice.
-/

namespace EffectTorch
open List Lib

/-- An allocation with a live interval. `stop` is the end of the interval. -/
structure ActiveAllocation where
  stop : Nat
  offset : Nat
  bytes : Nat
deriving DecidableEq, Repr

namespace ActiveAllocation

/-- The address range of the allocation. -/
def range (a : ActiveAllocation) : Range := ⟨a.offset, a.offset + a.bytes⟩

/-- Byte `x` of the segment belongs to the allocation. -/
def Has (a : ActiveAllocation) (x : Nat) : Prop := a.offset ≤ x ∧ x < a.offset + a.bytes

/-- The two allocations share no byte. -/
def Apart (a b : ActiveAllocation) : Prop := ∀ x, ¬ (a.Has x ∧ b.Has x)

instance : Std.Symm Apart := ⟨fun _ _ h x hx => h x ⟨hx.2, hx.1⟩⟩

end ActiveAllocation

/-- A segment under construction. Its memory space and ownership stay fixed.
`usedEnd` is the end of the highest allocated range, `free` holds the retired
ranges, `active` the allocations with live intervals. -/
structure WorkingSegment (M : Type) where
  memorySpace : M
  ownership : SegmentOwnership
  maxBytes : Nat
  granularity : Nat
  alignment : Nat
  usedEnd : Nat
  free : List Range
  active : List ActiveAllocation
deriving DecidableEq, Repr

/-- The ranges `[o, o + b)` and `[o', o' + b')` meet in the sense of the planner's
final scan. -/
def addressOverlap (o b o' b' : Nat) : Bool := decide (o < o' + b' ∧ o' < o + b)

/-! ## Rounding -/

/-- `round_up`. -/
def roundUp (value multiple : Nat) (id : Option ValueId) : Fallible PlannerError Nat :=
  let remainder := value % multiple
  if remainder = 0 then .ok value
  else okOr (checkedAdd value (multiple - remainder)) (.byteSizeOverflow id)

/-- `align_up`. -/
def alignUp (value alignment : Nat) (id : ValueId) : Fallible PlannerError Nat :=
  roundUp value alignment (some id)

variable {multiple : Nat}

/-- Rounding up gives the next multiple. -/
theorem roundUp_ok {value r : Nat} {id : Option ValueId} (hm : 0 < multiple)
    (h : roundUp value multiple id = .ok r) : value ≤ r ∧ r < value + multiple ∧ multiple ∣ r := by
  unfold roundUp at h
  have hlt := Nat.mod_lt value hm
  have hdiv := Nat.div_add_mod value multiple
  dsimp only at h
  split at h
  · next h0 =>
    cases h
    exact ⟨Nat.le_refl _, by omega, Nat.dvd_of_mod_eq_zero h0⟩
  · next h0 =>
    obtain ⟨_, rfl⟩ := checkedAdd_some.mp (okOr_ok.mp h)
    refine ⟨by omega, by omega, ⟨value / multiple + 1, ?_⟩⟩
    rw [Nat.mul_add, Nat.mul_one]
    omega

theorem roundUp_total (value : Nat) (id : Option ValueId) (hm : 0 < multiple)
    (h : value + multiple ≤ usizeMax + 1) : ∃ r, roundUp value multiple id = .ok r := by
  have hlt := Nat.mod_lt value hm
  unfold roundUp
  dsimp only
  split
  · exact ⟨_, rfl⟩
  · next h0 => exact ⟨_, okOr_ok.mpr (checkedAdd_some.mpr ⟨by omega, rfl⟩)⟩

/-- The result of rounding up does not depend on the id in the error. -/
theorem roundUp_id {value r : Nat} {id : Option ValueId} (id' : Option ValueId)
    (h : roundUp value multiple id = .ok r) : roundUp value multiple id' = .ok r := by
  unfold roundUp at *
  dsimp only at *
  split
  · next h0 => rwa [if_pos h0] at h
  · next h0 =>
    rw [if_neg h0] at h
    exact okOr_ok.mpr (okOr_ok.mp h)

/-! ## Operations -/

section Operations

variable {M : Type}

namespace WorkingSegment

/-- Moves allocations ending at or before `before` to the free list. -/
def retire (s : WorkingSegment M) (before : Nat) : WorkingSegment M :=
  let retired := s.active.filter fun a => a.stop ≤ before ∧ a.bytes ≠ 0
  { s with
    active := s.active.filter fun a => ¬ a.stop ≤ before
    free := coalesce (s.free ++ retired.map ActiveAllocation.range) }

/-- `consume_free_range`: takes `bytes` bytes at `offset` out of free range
`rangeIndex`. -/
def consumeFreeRange (s : WorkingSegment M) (rangeIndex offset bytes : Nat) :
    WorkingSegment M :=
  match s.free[rangeIndex]? with
  | none => s
  | some range =>
    let stop := offset + bytes
    let head := if range.start < offset then [⟨range.start, offset⟩] else []
    let tail := if stop < range.stop then [⟨stop, range.stop⟩] else []
    { s with free := coalesce (s.free.eraseIdx rangeIndex ++ head ++ tail) }

/-- Moves the tail to `stop`, with `bytes` of it at `offset`; the gap below
`offset` becomes free. -/
def growTail (s : WorkingSegment M) (offset stop : Nat) : WorkingSegment M :=
  { s with
    free := if s.usedEnd < offset then coalesce (s.free ++ [⟨s.usedEnd, offset⟩]) else s.free
    usedEnd := stop }

/-- Records the new allocation and raises the segment alignment. -/
def addActive (s : WorkingSegment M) (alignment : Nat) (a : ActiveAllocation) :
    WorkingSegment M :=
  { s with alignment := max s.alignment alignment, active := s.active ++ [a] }

/-! ## Invariant -/

/-- What holds of a segment between two steps of the packer. -/
structure Inv (s : WorkingSegment M) : Prop where
  separated : Separated s.free
  free_below : ∀ x, Covers s.free x → x < s.usedEnd
  active_below : ∀ a ∈ s.active, a.offset + a.bytes ≤ s.usedEnd
  active_disjoint : s.active.Pairwise ActiveAllocation.Apart
  free_active : ∀ a ∈ s.active, ∀ x, a.Has x → ¬ Covers s.free x

/-- The slice of `bytes` bytes at `offset` holds no free byte and no live byte,
and `offset` is not strictly inside a live allocation. -/
structure Unclaimed (s : WorkingSegment M) (offset bytes : Nat) : Prop where
  below : offset + bytes ≤ s.usedEnd
  not_free : ∀ x, offset ≤ x → x < offset + bytes → ¬ Covers s.free x
  not_live : ∀ a ∈ s.active, ∀ x, offset ≤ x → x < offset + bytes → ¬ a.Has x
  not_inside : ∀ a ∈ s.active, ¬ (a.offset < offset ∧ offset < a.offset + a.bytes)

variable {s : WorkingSegment M} {range : Range} {i offset bytes : Nat}

theorem retire_inv (h : s.Inv) (before : Nat) : (s.retire before).Inv := by
  have hne : ∀ r ∈ s.free ++ (s.active.filter fun a => a.stop ≤ before ∧ a.bytes ≠ 0).map
      ActiveAllocation.range, r.start < r.stop := by
    intro r hr
    rcases mem_append.mp hr with hr | hr
    · exact h.separated.nonempty r hr
    · obtain ⟨a, ha, rfl⟩ := mem_map.mp hr
      have := (mem_filter.mp ha).2
      simp only [decide_eq_true_eq] at this
      unfold ActiveAllocation.range
      dsimp only
      omega
  -- A free byte afterwards was free before or belonged to a retired allocation.
  have hcover : ∀ x, Covers (s.retire before).free x → Covers s.free x ∨
      ∃ a ∈ s.active, a.stop ≤ before ∧ a.Has x := by
    intro x hx
    rcases covers_append.mp ((covers_coalesce hne).mp hx) with hx | ⟨r, hr, hx⟩
    · exact .inl hx
    · obtain ⟨a, ha, rfl⟩ := mem_map.mp hr
      obtain ⟨hm, hp⟩ := mem_filter.mp ha
      exact .inr ⟨a, hm, (of_decide_eq_true hp).1, hx⟩
  refine ⟨coalesce_separated hne, fun x hx => ?_, fun a ha => ?_,
    h.active_disjoint.filter _, fun a ha x hax hx => ?_⟩
  · rcases hcover x hx with hx | ⟨a, ha, _, hx⟩
    · exact h.free_below x hx
    · exact Nat.lt_of_lt_of_le hx.2 (h.active_below a ha)
  · exact h.active_below a (mem_filter.mp ha).1
  · obtain ⟨hm, hp⟩ := mem_filter.mp ha
    have hstop := of_decide_eq_true hp
    rcases hcover x hx with hx | ⟨b, hb, hbstop, hbx⟩
    · exact h.free_active a hm x hax hx
    · have hab : a ≠ b := by
        rintro rfl
        exact hstop hbstop
      exact h.active_disjoint.forall hm hb hab x ⟨hax, hbx⟩

theorem consumed_nonempty (h : s.Inv) {stop : Nat} :
    ∀ r ∈ s.free.eraseIdx i ++ (if range.start < offset then [⟨range.start, offset⟩] else []) ++
      (if stop < range.stop then [⟨stop, range.stop⟩] else []), r.start < r.stop := by
  intro r hr
  simp only [mem_append] at hr
  rcases hr with (hr | hr) | hr
  · exact h.separated.nonempty r (mem_of_mem_eraseIdx hr)
  · split at hr
    · next hlt =>
      rw [mem_singleton.mp hr]
      exact hlt
    · cases hr
  · split at hr
    · next hlt =>
      rw [mem_singleton.mp hr]
      exact hlt
    · cases hr

/-- Taking a slice out of a free range removes exactly the slice's bytes. -/
theorem covers_consumeFreeRange (h : s.Inv) (hr : s.free[i]? = some range) (hstart : range.start ≤ offset)
    (hstop : offset + bytes ≤ range.stop) {x : Nat} :
    Covers (s.consumeFreeRange i offset bytes).free x ↔
      Covers s.free x ∧ ¬ (offset ≤ x ∧ x < offset + bytes) := by
  have hrange : range.Has x → Covers s.free x := fun hx => ⟨range, mem_of_getElem? hr, hx⟩
  have hpiece : ∀ (b : Prop) [Decidable b] (r : Range), Covers (if b then [r] else []) x ↔
      b ∧ r.Has x := by
    intro b _ r
    split
    · next hb => simp [Covers, hb]
    · next hb => simp [Covers, hb]
  simp only [consumeFreeRange, hr]
  rw [covers_coalesce (consumed_nonempty h), covers_append, covers_append,
    h.separated.covers_eraseIdx hr, hpiece, hpiece]
  unfold Range.Has at *
  dsimp only at *
  constructor
  · rintro ((hx | hx) | hx)
    · exact ⟨hx.1, fun hs => hx.2 (by omega)⟩
    · exact ⟨hrange (by omega), by omega⟩
    · exact ⟨hrange (by omega), by omega⟩
  · rintro ⟨hx, hout⟩
    by_cases hin : range.start ≤ x ∧ x < range.stop
    · by_cases hlow : x < offset
      · exact .inl (.inr (by omega))
      · exact .inr (by omega)
    · exact .inl (.inl ⟨hx, hin⟩)

@[simp] theorem consumeFreeRange_active : (s.consumeFreeRange i offset bytes).active = s.active := by
  unfold consumeFreeRange
  split <;> rfl

@[simp] theorem consumeFreeRange_usedEnd : (s.consumeFreeRange i offset bytes).usedEnd = s.usedEnd := by
  unfold consumeFreeRange
  split <;> rfl

theorem consumeFreeRange_spec (h : s.Inv) (hr : s.free[i]? = some range) (hstart : range.start ≤ offset)
    (hstop : offset + bytes ≤ range.stop) :
    (s.consumeFreeRange i offset bytes).Inv ∧
      (s.consumeFreeRange i offset bytes).Unclaimed offset bytes := by
  have hcov := fun x => covers_consumeFreeRange h hr hstart hstop (x := x)
  have hm := mem_of_getElem? hr
  have hne := h.separated.nonempty range hm
  have hfree : ∀ x, range.start ≤ x → x < range.stop → Covers s.free x :=
    fun x h1 h2 => ⟨range, hm, h1, h2⟩
  have hlast := h.free_below (range.stop - 1) (hfree _ (by omega) (by omega))
  constructor
  · refine ⟨?_, fun x hx => ?_, ?_, ?_, ?_⟩
    · simp only [consumeFreeRange, hr]
      exact coalesce_separated (consumed_nonempty h)
    · rw [consumeFreeRange_usedEnd]
      exact h.free_below x ((hcov x).mp hx).1
    · simpa using h.active_below
    · simpa using h.active_disjoint
    · rw [consumeFreeRange_active]
      exact fun a ha x hax hx => h.free_active a ha x hax ((hcov x).mp hx).1
  · refine ⟨?_, ?_, ?_, ?_⟩
    · rw [consumeFreeRange_usedEnd]
      omega
    · exact fun x h1 h2 hx => ((hcov x).mp hx).2 ⟨h1, h2⟩
    · rw [consumeFreeRange_active]
      exact fun a ha x h1 h2 hax => h.free_active a ha x hax (hfree x (by omega) (by omega))
    · -- Just below the end of a free range there is a free byte, so no live
      -- allocation reaches across that end.
      rw [consumeFreeRange_active]
      rintro a ha ⟨h1, h2⟩
      by_cases hend : offset < range.stop
      · exact h.free_active a ha offset ⟨by omega, h2⟩ (hfree offset hstart hend)
      · exact h.free_active a ha (range.stop - 1) ⟨by omega, by omega⟩
          (hfree _ (by omega) (by omega))

theorem growTail_spec (h : s.Inv) (bytes : Nat) (hoff : s.usedEnd ≤ offset) :
    (s.growTail offset (offset + bytes)).Inv ∧
      (s.growTail offset (offset + bytes)).Unclaimed offset bytes := by
  have hne : s.usedEnd < offset → ∀ r ∈ s.free ++ [(⟨s.usedEnd, offset⟩ : Range)],
      r.start < r.stop := by
    intro hlt r hr
    rcases mem_append.mp hr with hr | hr
    · exact h.separated.nonempty r hr
    · rw [mem_singleton.mp hr]
      exact hlt
  -- The gap below the new allocation is all that becomes free.
  have hcov : ∀ x, Covers (s.growTail offset (offset + bytes)).free x →
      Covers s.free x ∨ s.usedEnd ≤ x ∧ x < offset := by
    intro x hx
    unfold growTail at hx
    dsimp only at hx
    split at hx
    · next hlt =>
      rcases covers_append.mp ((covers_coalesce (hne hlt)).mp hx) with hx | ⟨r, hr, hx⟩
      · exact .inl hx
      · rw [mem_singleton.mp hr] at hx
        exact .inr hx
    · exact .inl hx
  constructor
  · refine ⟨?_, fun x hx => ?_, fun a ha => ?_, h.active_disjoint, fun a ha x hax hx => ?_⟩
    · unfold growTail
      dsimp only
      split
      · next hlt => exact coalesce_separated (hne hlt)
      · exact h.separated
    · show x < offset + bytes
      rcases hcov x hx with hx | hx
      · have := h.free_below x hx
        omega
      · omega
    · have := h.active_below a ha
      show a.offset + a.bytes ≤ offset + bytes
      omega
    · have := h.active_below a ha
      rcases hcov x hx with hx | hx
      · exact h.free_active a ha x hax hx
      · unfold ActiveAllocation.Has at hax
        omega
  · refine ⟨Nat.le_refl _, fun x h1 h2 hx => ?_, fun a ha x h1 h2 hax => ?_, fun a ha hin => ?_⟩
    · rcases hcov x hx with hx | hx
      · have := h.free_below x hx
        omega
      · omega
    · have := h.active_below a ha
      unfold ActiveAllocation.Has at hax
      omega
    · have := h.active_below a ha
      omega

theorem addActive_inv (h : s.Inv) {alignment : Nat} {a : ActiveAllocation}
    (hu : s.Unclaimed a.offset a.bytes) : (s.addActive alignment a).Inv := by
  refine ⟨h.separated, h.free_below, ?_, ?_, ?_⟩
  · intro b hb
    rcases mem_append.mp hb with hb | hb
    · exact h.active_below b hb
    · rw [mem_singleton.mp hb]
      exact hu.below
  · refine pairwise_append.mpr ⟨h.active_disjoint, pairwise_singleton _ _, ?_⟩
    intro b hb c hc x hx
    rw [mem_singleton.mp hc] at hx
    exact hu.not_live b hb x hx.2.1 hx.2.2 hx.1
  · intro b hb x hbx
    rcases mem_append.mp hb with hb | hb
    · exact h.free_active b hb x hbx
    · rw [mem_singleton.mp hb] at hbx
      exact hu.not_free x hbx.1 hbx.2

/-- A fresh segment that holds nothing but a slice at its start. -/
theorem fresh_spec (hfree : s.free = []) (hactive : s.active = []) (hend : s.usedEnd = bytes) :
    s.Inv ∧ s.Unclaimed 0 bytes := by
  have hnone : ∀ x, ¬ Covers s.free x := fun x => by
    rw [hfree]
    exact covers_nil
  constructor
  · exact ⟨by rw [hfree]; exact ⟨by simp, List.Pairwise.nil⟩, fun x hx => absurd hx (hnone x),
      by simp [hactive], by rw [hactive]; exact List.Pairwise.nil, by simp [hactive]⟩
  · exact ⟨by omega, fun x _ _ => hnone x, by simp [hactive], by simp [hactive]⟩

/-- A live allocation meets an unclaimed slice exactly when it is empty and lies
strictly inside the slice. -/
theorem address_overlap_iff (hu : s.Unclaimed offset bytes) {a : ActiveAllocation} (ha : a ∈ s.active) :
    addressOverlap a.offset a.bytes offset bytes = true ↔
      a.bytes = 0 ∧ offset < a.offset ∧ a.offset < offset + bytes := by
  have hlive := hu.not_live a ha
  have hinside := hu.not_inside a ha
  unfold addressOverlap ActiveAllocation.Has at *
  rw [decide_eq_true_iff]
  constructor
  · rintro ⟨h1, h2⟩
    have hzero : a.bytes = 0 := by
      by_contra hb
      by_cases hle : offset ≤ a.offset
      · exact hlive a.offset hle h1 ⟨Nat.le_refl _, by omega⟩
      · exact hinside ⟨by omega, h2⟩
    omega
  · rintro ⟨hb, h1, h2⟩
    omega

end WorkingSegment

end Operations

end EffectTorch
