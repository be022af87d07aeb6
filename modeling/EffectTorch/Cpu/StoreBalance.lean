import EffectTorch.Cpu.StoreInvariant
import Mathlib

/-!
# What leasing and dropping do to the number of available blocks

A referenced block is worth what `available` gains when its last handle is dropped:
one for each time `by_hash` lists it, and one more if it has no hash, since it then
goes back to the free list. The available blocks and the worth of the referenced ones
have a constant sum, whatever is leased and dropped, as long as nothing is published.

Results:
1. `balanced_lawful`: that sum is a lawful invariant.
2. `Balanced.available_eq`: with the same handles, hashes and lists, as many blocks
   are available.
-/

namespace EffectTorch
open List Function Lib

/-- Blocks with a count of zero in a list, one block set apart. -/
theorem countP_idle (counts : Nat → Nat) (b : Nat) (l : List Nat) :
    l.countP (fun d => counts d = 0) =
      l.countP (fun d => counts d = 0 ∧ d ≠ b) + if counts b = 0 then l.count b else 0 := by
  induction l with
  | nil => simp
  | cons d l ih =>
    rw [countP_cons, countP_cons, count_cons, ih]
    by_cases hd : d = b
    · subst hd
      by_cases hzero : counts d = 0
      · simp [hzero]
        omega
      · simp [hzero]
    · by_cases hzero : counts b = 0
      · simp [hd, hzero]
        omega
      · simp [hd, hzero]

namespace BlockStore

variable {σ : Type} {s s' : BlockStore σ} {H : List Nat} {b d K : Nat}

/-! ## Worth -/

def worth (s : BlockStore σ) (b : Nat) : Nat :=
  s.listed.count b + if (s.hashes b).isSome then 0 else 1

def worths (s : BlockStore σ) (H : List Nat) : Nat := (H.dedup.map s.worth).sum

theorem worths_congr (h : ∀ b ∈ H, s'.worth b = s.worth b) : s'.worths H = s.worths H := by
  unfold worths
  rw [map_congr_left fun b hb => h b (mem_dedup.mp hb)]

theorem worths_perm {H' : List Nat} (h : H.Perm H') : s.worths H = s.worths H' :=
  (h.dedup.map s.worth).sum_eq

theorem worths_cons_of_mem (h : b ∈ H) : s.worths (b :: H) = s.worths H := by
  unfold worths
  rw [dedup_cons_of_mem h]

theorem worths_cons_of_not_mem (h : b ∉ H) :
    s.worths (b :: H) = s.worth b + s.worths H := by
  unfold worths
  rw [dedup_cons_of_notMem h, map_cons, sum_cons]

theorem available_eq :
    s.available = s.free.length + s.listed.countP fun d => s.refcounts d = 0 := by
  rw [available, cached_eq, countP_eq_length_filter]

/-- Listed blocks without a handle, where only the count of `b` has changed. -/
theorem countP_update {v : Nat} (l : List Nat) (counts : Nat → Nat) :
    l.countP (fun d => Function.update counts b v d = 0) =
      l.countP (fun d => counts d = 0 ∧ d ≠ b) + if v = 0 then l.count b else 0 := by
  rw [countP_idle _ b, update_self]
  congr 1
  refine countP_congr fun d _ => ?_
  by_cases hd : d = b
  · simp [hd]
  · rw [update_of_ne hd]

/-! ## Steps -/

/-- Leasing takes the worth of the leased block from the available ones. -/
theorem alloc_available (h : s.allocBlock = (some b, s')) (hzero : s.refcounts b = 0) :
    s'.available + s'.worth b = s.available := by
  have hcounts := allocBlock_refcounts h
  have hhashes := allocBlock_hashes h
  have hworth : s'.worth b = s'.listed.count b + 1 := by
    rw [worth, hhashes, update_self]
    rfl
  rw [hworth, available_eq, available_eq, hcounts, countP_update, if_neg Nat.one_ne_zero,
    countP_idle s.refcounts b, if_pos hzero]
  rcases allocBlock_some h with ⟨free, hfree, rfl⟩ |
    ⟨skipped, rest, hash, _, _, _, hmem, hfree, rfl⟩
  · rw [hfree, length_cons]
    show free.length + (s.listed.countP _ + 0) + (s.listed.count b + 1) = _
    omega
  · have hlisted := uncache_listed (s := { s with lru := rest }) hmem
    have hin : b ∈ s.listed := by
      have hlookup := lookup_of_mem_listedAt hmem
      exact (listed_perm hlookup).mem_iff.mpr (mem_append_left _ hmem)
    have hsplit := perm_cons_erase hin
    have hcount := hsplit.count_eq b
    have hidle := hsplit.countP_eq fun d => decide (s.refcounts d = 0 ∧ d ≠ b)
    rw [count_cons_self] at hcount
    rw [countP_cons_of_neg (by simp)] at hidle
    show ({ s with lru := rest }.uncache b hash).free.length +
      (({ s with lru := rest }.uncache b hash).listed.countP _ + 0) +
        (({ s with lru := rest }.uncache b hash).listed.count b + 1) = _
    rw [uncache_fields.1, hlisted.countP_eq, hlisted.count_eq]
    show s.free.length + ((s.listed.erase b).countP _ + 0) + ((s.listed.erase b).count b + 1) = _
    omega

/-- Leasing leaves the worth of other blocks alone. -/
theorem alloc_worth (h : s.allocBlock = (some b, s')) (hd : d ≠ b) : s'.worth d = s.worth d := by
  rw [worth, worth, allocBlock_listed h hd, allocBlock_hashes h, update_of_ne hd]

theorem unref_worth : (s.unrefBlock b).worth d = s.worth d := by
  rw [worth, worth, listed, unrefBlock_byHash, unrefBlock_hashes, listed]

/-- A block gives its worth back with its last handle. -/
theorem unref_available (hone : s.refcounts b = 1) :
    (s.unrefBlock b).available = s.available + s.worth b := by
  have hlisted : (s.unrefBlock b).listed = s.listed := by
    rw [listed, unrefBlock_byHash, listed]
  have hfree : (s.unrefBlock b).free.length =
      s.free.length + if (s.hashes b).isSome then 0 else 1 := by
    rw [unrefBlock_cases, hone]
    dsimp only
    rw [if_pos rfl]
    by_cases hhash : (s.hashes b).isSome
    · rw [if_pos hhash, if_pos hhash]
      rfl
    · rw [if_neg hhash, if_neg hhash]
      rfl
  have hpos : s.refcounts b ≠ 0 := by omega
  rw [available_eq, available_eq, hlisted, hfree, unrefBlock_refcounts, countP_update, hone,
    if_pos (Nat.sub_self 1), countP_idle s.refcounts b, if_neg hpos, worth]
  omega

/-- Otherwise nothing changes. -/
theorem counts_available {v : Nat} (hpos : s.refcounts b ≠ 0) (hv : v ≠ 0)
    (hfree : s'.free = s.free) (hlisted : s'.listed = s.listed)
    (hcounts : s'.refcounts = Function.update s.refcounts b v) : s'.available = s.available := by
  rw [available_eq, available_eq, hfree, hlisted, hcounts, countP_update, if_neg hv,
    countP_idle s.refcounts b, if_neg hpos]

/-! ## The invariant -/

/-- The store agrees with the handles, and available and referenced blocks are
together worth `K`. -/
structure Balanced (K : Nat) (s : BlockStore σ) (H : List Nat) : Prop where
  leased : Leased s H
  worth : s.available + s.worths H = K

theorem Balanced.ref (h : Balanced K s H) (hb : b ∈ H) :
    Balanced K (s.refBlock b) (b :: H) where
  leased := h.leased.ref hb
  worth := by
    have hpos : s.refcounts b ≠ 0 := fun hzero => h.leased.counted.eq_zero.mp hzero hb
    have hsame : (s.refBlock b).available = s.available :=
      counts_available hpos (Nat.succ_ne_zero _) rfl rfl refBlock_refcounts
    show (s.refBlock b).available + s.worths (b :: H) = K
    rw [worths_cons_of_mem hb, hsame]
    exact h.worth

theorem Balanced.unref (h : Balanced K s (b :: H)) : Balanced K (s.unrefBlock b) H where
  leased := h.leased.unref
  worth := by
    have hsum := h.worth
    have hcount := h.leased.counted b
    rw [count_cons_self] at hcount
    rw [worths_congr (s := s) fun d _ => unref_worth]
    by_cases hmem : b ∈ H
    · have hpos := count_pos_iff.mpr hmem
      rw [worths_cons_of_mem hmem] at hsum
      have hcases : s.unrefBlock b =
          { s with refcounts := Function.update s.refcounts b (s.refcounts b - 1) } := by
        rw [unrefBlock_cases]
        dsimp only
        rw [if_neg (by omega)]
      rw [counts_available (s := s) (b := b) (v := s.refcounts b - 1) (by omega) (by omega)
        (by rw [hcases]) (by rw [hcases, listed, listed]) unrefBlock_refcounts]
      exact hsum
    · rw [count_eq_zero.mpr hmem] at hcount
      rw [worths_cons_of_not_mem hmem] at hsum
      rw [unref_available hcount]
      omega

theorem Balanced.alloc (h : Balanced K s H) (ha : s.allocBlock = (some b, s')) :
    s.refcounts b = 0 ∧ Balanced K s' (b :: H) := by
  obtain ⟨hzero, hleased⟩ := h.leased.alloc ha
  have hnot : b ∉ H := h.leased.counted.eq_zero.mp hzero
  refine ⟨hzero, hleased, ?_⟩
  rw [worths_cons_of_not_mem hnot, ← Nat.add_assoc, alloc_available ha hzero,
    worths_congr (s := s) fun d hd => alloc_worth ha fun heq => hnot (heq ▸ hd)]
  exact h.worth

theorem balanced_lawful : Lawful (Balanced K : BlockStore σ → List Nat → Prop) where
  perm h hp := ⟨leased_lawful.perm h.leased hp, by rw [← worths_perm hp]; exact h.worth⟩
  counted h := h.leased.counted
  ref := Balanced.ref
  unref := Balanced.unref
  alloc := Balanced.alloc
  exhausted h ha := by
    refine ⟨leased_lawful.exhausted h.leased ha, ?_⟩
    rw [(allocBlock_none ha).2]
    exact h.worth

/-- Once the handles and what is published about them are as before, so is the number
of available blocks. -/
theorem Balanced.available_eq (h : Balanced K s H) (h' : Balanced K s' H)
    (hhashes : ∀ b ∈ H, s'.hashes b = s.hashes b)
    (hlisted : ∀ b ∈ H, s'.listed.count b = s.listed.count b) : s'.available = s.available := by
  have hsum := h.worth
  have hsum' := h'.worth
  rw [worths_congr (s := s) fun b hb => by rw [BlockStore.worth, BlockStore.worth, hhashes b hb,
    hlisted b hb]] at hsum'
  omega

end BlockStore

end EffectTorch
