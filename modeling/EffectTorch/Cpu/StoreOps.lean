import EffectTorch.Cpu.BlockStore
import EffectTorch.Lib.Handles

/-!
# What the operations of the block store do

Results:
1. `uncache_listedAt`: uncaching takes one block off one list.
2. `allocBlock_some`, `allocBlock_none`: where the returned block comes from.
3. `Lawful`: what every invariant of this development asks of the operations, and
   its consequences for loops of them.
-/

namespace EffectTorch
open List Lib

theorem swapRemove_perm {l : List Nat} {index : Nat} (h : index < l.length) :
    (swapRemove l index).Perm (l.eraseIdx index) := by
  obtain ⟨front, last, rfl⟩ : ∃ front last, l = front ++ [last] :=
    ⟨l.dropLast, l.getLast (ne_nil_of_length_pos (by omega)),
      (dropLast_append_getLast _).symm⟩
  have hlast : (front ++ [last]).getLast? = some last := by simp
  unfold swapRemove
  rw [hlast]
  dsimp only
  have hle : index ≤ front.length := by
    rw [length_append] at h
    simpa using Nat.lt_succ_iff.mp h
  rcases Nat.lt_or_eq_of_le hle with hlt | rfl
  · rw [set_append_left _ _ hlt, dropLast_concat, eraseIdx_append_of_lt_length hlt]
    exact (set_perm last hlt).trans (perm_append_singleton last _).symm
  · rw [set_append_right _ _ (Nat.le_refl _), Nat.sub_self, set_cons_zero,
      dropLast_concat, eraseIdx_append_of_length_le (Nat.le_refl _)]
    simp

theorem swapRemove_idxOf_perm {l : List Nat} {b : Nat} (h : b ∈ l) :
    (swapRemove l (l.idxOf b)).Perm (l.erase b) := by
  rw [← eraseIdx_idxOf_eq_erase]
  exact swapRemove_perm (idxOf_lt_length_iff.mpr h)

namespace BlockStore

variable {σ : Type} {s s' : BlockStore σ} {b d : Nat} {hash hash' : UInt64}

/-! ## Fields -/

@[simp] theorem refBlock_free : (s.refBlock b).free = s.free := rfl

@[simp] theorem refBlock_hashes : (s.refBlock b).hashes = s.hashes := rfl

theorem refBlock_refcounts :
    (s.refBlock b).refcounts = Function.update s.refcounts b (s.refcounts b + 1) := rfl

/-- Dropping a reference: the count goes down, and a block that nobody holds any
more goes to the queue or to the free list. -/
theorem unrefBlock_cases :
    s.unrefBlock b =
      let counted := { s with refcounts := Function.update s.refcounts b (s.refcounts b - 1) }
      if s.refcounts b - 1 = 0 then
        if (s.hashes b).isSome then { counted with lru := s.lru ++ [b] }
        else { counted with free := b :: s.free }
      else counted := by
  unfold unrefBlock
  dsimp only
  split
  · cases hb : s.hashes b <;> rfl
  · rfl

@[simp] theorem unrefBlock_refcounts :
    (s.unrefBlock b).refcounts = Function.update s.refcounts b (s.refcounts b - 1) := by
  rw [unrefBlock_cases]
  dsimp only
  split
  · split <;> rfl
  · rfl

@[simp] theorem unrefBlock_hashes : (s.unrefBlock b).hashes = s.hashes := by
  rw [unrefBlock_cases]
  dsimp only
  split
  · split <;> rfl
  · rfl

@[simp] theorem unrefBlock_byHash : (s.unrefBlock b).byHash = s.byHash := by
  rw [unrefBlock_cases]
  dsimp only
  split
  · split <;> rfl
  · rfl

@[simp] theorem unrefBlock_snapshots : (s.unrefBlock b).snapshots = s.snapshots := by
  rw [unrefBlock_cases]
  dsimp only
  split
  · split <;> rfl
  · rfl

@[simp] theorem unrefBlock_listedAt : (s.unrefBlock b).listedAt hash = s.listedAt hash := by
  rw [listedAt, unrefBlock_byHash, listedAt]

@[simp] theorem refBlocks_hashes (l : List Nat) : (s.refBlocks l).hashes = s.hashes := by
  induction l generalizing s with
  | nil => rfl
  | cons b l ih => exact ih

@[simp] theorem refBlocks_byHash (l : List Nat) : (s.refBlocks l).byHash = s.byHash := by
  induction l generalizing s with
  | nil => rfl
  | cons b l ih => exact ih

@[simp] theorem refBlocks_snapshots (l : List Nat) : (s.refBlocks l).snapshots = s.snapshots := by
  induction l generalizing s with
  | nil => rfl
  | cons b l ih => exact ih

@[simp] theorem unrefBlocks_hashes (l : List Nat) : (s.unrefBlocks l).hashes = s.hashes := by
  induction l generalizing s with
  | nil => rfl
  | cons b l ih => exact ih.trans unrefBlock_hashes

@[simp] theorem unrefBlocks_byHash (l : List Nat) : (s.unrefBlocks l).byHash = s.byHash := by
  induction l generalizing s with
  | nil => rfl
  | cons b l ih => exact ih.trans unrefBlock_byHash

@[simp] theorem unrefBlocks_snapshots (l : List Nat) :
    (s.unrefBlocks l).snapshots = s.snapshots := by
  induction l generalizing s with
  | nil => rfl
  | cons b l ih => exact ih.trans unrefBlock_snapshots

/-! ## Lists by hash -/

theorem listedAt_insert {l : List Nat} :
    ({ s with byHash := s.byHash.insert hash l } : BlockStore σ).listedAt hash' =
      if hash' = hash then l else s.listedAt hash' := by
  unfold listedAt
  split
  · next h =>
    subst h
    simp
  · next h => rw [AList.lookup_insert_ne h]

theorem listedAt_erase {snapshots : AList fun _ : UInt64 => RecurrentSnapshot σ} :
    ({ s with byHash := s.byHash.erase hash, snapshots } : BlockStore σ).listedAt hash' =
      if hash' = hash then [] else s.listedAt hash' := by
  unfold listedAt
  split
  · next h =>
    subst h
    simp
  · next h => rw [AList.lookup_erase_ne h]

theorem lookup_of_mem_listedAt (h : b ∈ s.listedAt hash) :
    s.byHash.lookup hash = some (s.listedAt hash) := by
  unfold listedAt at h ⊢
  cases hl : s.byHash.lookup hash with
  | none =>
    rw [hl] at h
    cases h
  | some l => rfl

theorem mem_listedAt_setHash :
    d ∈ (s.setHash b hash).listedAt hash' ↔ d ∈ s.listedAt hash' ∨ hash' = hash ∧ d = b := by
  unfold setHash listedAt
  by_cases h : hash' = hash
  · subst h
    simp
  · rw [AList.lookup_insert_ne h]
    simp [h]

theorem uncache_fields :
    (s.uncache b hash).free = s.free ∧ (s.uncache b hash).refcounts = s.refcounts ∧
      (s.uncache b hash).hashes = s.hashes ∧ (s.uncache b hash).lru = s.lru := by
  unfold uncache
  split
  · exact ⟨rfl, rfl, rfl, rfl⟩
  · next blocks _ =>
    dsimp only
    generalize (if b ∈ blocks then swapRemove blocks (blocks.idxOf b) else blocks) = left
    split
    · exact ⟨rfl, rfl, rfl, rfl⟩
    · exact ⟨rfl, rfl, rfl, rfl⟩

/-- What is left of the list that a block is taken off. -/
theorem uncache_lookup (h : b ∈ s.listedAt hash) :
    ∃ left, left.Perm ((s.listedAt hash).erase b) ∧
      ((left = [] ∧ s.uncache b hash =
          { s with
            byHash := s.byHash.erase hash
            snapshots := s.snapshots.erase hash }) ∨
        (left ≠ [] ∧ s.uncache b hash = { s with byHash := s.byHash.insert hash left })) := by
  refine ⟨swapRemove (s.listedAt hash) ((s.listedAt hash).idxOf b), swapRemove_idxOf_perm h, ?_⟩
  unfold uncache
  rw [lookup_of_mem_listedAt h]
  dsimp only
  rw [if_pos h]
  split
  · next hleft => exact .inl ⟨hleft, rfl⟩
  · next hleft => exact .inr ⟨hleft, rfl⟩

/-- Uncaching takes one block off one list. -/
theorem uncache_listedAt (h : b ∈ s.listedAt hash) :
    ((s.uncache b hash).listedAt hash').Perm
      (if hash' = hash then (s.listedAt hash).erase b else s.listedAt hash') := by
  obtain ⟨left, hperm, ⟨hleft, heq⟩ | ⟨_, heq⟩⟩ := uncache_lookup h
  · rw [heq, listedAt_erase]
    split
    · rw [← hleft]
      exact hperm
    · exact .refl _
  · rw [heq, listedAt_insert]
    split
    · exact hperm
    · exact .refl _

/-- Every block that `by_hash` lists, with its multiplicity. -/
def listed (s : BlockStore σ) : List Nat := s.byHash.entries.flatMap (·.2)

theorem cached_eq : s.cached = (s.listed.filter fun b => s.refcounts b = 0).length := by
  unfold cached listed
  rw [filter_flatMap, length_flatMap]

theorem entries_perm {l : List Nat} (h : s.byHash.lookup hash = some l) :
    s.byHash.entries.Perm (⟨hash, l⟩ :: (s.byHash.erase hash).entries) := by
  have hmem : hash ∈ s.byHash.entries.keys :=
    AList.mem_keys.mp (AList.lookup_isSome.mp (by rw [h]; rfl))
  obtain ⟨l', l₁, l₂, hnot, hsplit, herase⟩ := exists_of_kerase hmem
  have hl : l' = l := by
    have hdlookup : s.byHash.entries.dlookup hash = some l := h
    rw [hsplit, dlookup_append, (dlookup_eq_none).mpr hnot] at hdlookup
    simpa using hdlookup
  have herase' : (s.byHash.erase hash).entries = l₁ ++ l₂ := herase
  rw [herase', hsplit, hl]
  exact List.perm_middle

theorem listed_perm {l : List Nat} (h : s.byHash.lookup hash = some l) :
    s.listed.Perm (l ++ (s.byHash.erase hash).entries.flatMap (·.2)) := by
  have hp := (entries_perm h).flatMap_right (·.2)
  rwa [flatMap_cons] at hp

/-- Uncaching takes one occurrence of the block off the listed blocks. -/
theorem uncache_listed (h : b ∈ s.listedAt hash) :
    (s.uncache b hash).listed.Perm (s.listed.erase b) := by
  have hlisted := (listed_perm (lookup_of_mem_listedAt h)).erase b
  rw [erase_append_left _ h] at hlisted
  obtain ⟨left, hleft, ⟨hnil, heq⟩ | ⟨_, heq⟩⟩ := uncache_lookup h
  · rw [heq]
    rw [hnil] at hleft
    rw [hleft.symm.eq_nil, nil_append] at hlisted
    exact hlisted.symm
  · rw [heq]
    show ((s.byHash.insert hash left).entries.flatMap (·.2)).Perm _
    rw [AList.entries_insert, flatMap_cons]
    exact (hleft.append_right _).trans hlisted.symm

/-! ## Allocation -/

@[simp] theorem lease_free : (s.lease b).free = s.free := rfl

@[simp] theorem lease_refcounts : (s.lease b).refcounts = Function.update s.refcounts b 1 := rfl

@[simp] theorem lease_hashes : (s.lease b).hashes = Function.update s.hashes b none := rfl

@[simp] theorem lease_listedAt : (s.lease b).listedAt hash = s.listedAt hash := rfl

@[simp] theorem lease_lru : (s.lease b).lru = s.lru := rfl

theorem isCached_iff :
    s.isCached b = true ↔ s.refcounts b = 0 ∧ ∃ hash, s.hashes b = some hash ∧ b ∈ s.listedAt hash := by
  unfold isCached
  cases hb : s.hashes b with
  | none => simp
  | some hash => simp

theorem allocCached_some {queue : List Nat} (h : s.allocCached queue = (some b, s')) :
    ∃ skipped rest hash, queue = skipped ++ b :: rest ∧ s.refcounts b = 0 ∧
      s.hashes b = some hash ∧ b ∈ s.listedAt hash ∧
      s' = ({ s with lru := rest }.uncache b hash).lease b := by
  induction queue with
  | nil =>
    rw [allocCached] at h
    cases h
  | cons candidate rest ih =>
    rw [allocCached] at h
    split at h
    · next hc =>
      obtain ⟨hrc, hash, hhash, hmem⟩ := isCached_iff.mp hc
      rw [hhash] at h
      cases h
      exact ⟨[], rest, hash, rfl, hrc, hhash, hmem, rfl⟩
    · obtain ⟨skipped, rest', hash, rfl, hrest⟩ := ih h
      exact ⟨candidate :: skipped, rest', hash, rfl, hrest⟩

theorem allocCached_none {queue : List Nat} (h : s.allocCached queue = (none, s')) :
    s' = { s with lru := [] } := by
  induction queue with
  | nil =>
    rw [allocCached] at h
    cases h
    rfl
  | cons candidate rest ih =>
    rw [allocCached] at h
    split at h
    · next hc =>
      obtain ⟨_, hash, hhash, _⟩ := isCached_iff.mp hc
      rw [hhash] at h
      cases h
    · exact ih h

/-- A leased block comes off the free list, or off the queue, where its count is
zero and its hash lists it. -/
theorem allocBlock_some (h : s.allocBlock = (some b, s')) :
    (∃ free, s.free = b :: free ∧ s' = { s with free }.lease b) ∨
      ∃ skipped rest hash, s.lru = skipped ++ b :: rest ∧ s.refcounts b = 0 ∧
        s.hashes b = some hash ∧ b ∈ s.listedAt hash ∧ s.free = [] ∧
        s' = ({ s with lru := rest }.uncache b hash).lease b := by
  unfold allocBlock at h
  split at h
  · next block free hfree =>
    cases h
    exact .inl ⟨free, hfree, rfl⟩
  · next hfree =>
    obtain ⟨skipped, rest, hash, hq, hrc, hhash, hmem, heq⟩ := allocCached_some h
    exact .inr ⟨skipped, rest, hash, hq, hrc, hhash, hmem, hfree, heq⟩

theorem allocBlock_none (h : s.allocBlock = (none, s')) :
    s.free = [] ∧ s' = { s with lru := [] } := by
  unfold allocBlock at h
  split at h
  · cases h
  · next hfree => exact ⟨hfree, allocCached_none h⟩

theorem allocBlock_refcounts (h : s.allocBlock = (some b, s')) :
    s'.refcounts = Function.update s.refcounts b 1 := by
  rcases allocBlock_some h with ⟨free, _, rfl⟩ | ⟨skipped, rest, hash, _, _, _, _, _, rfl⟩
  · rfl
  · rw [lease_refcounts, uncache_fields.2.1]

theorem allocBlock_hashes (h : s.allocBlock = (some b, s')) :
    s'.hashes = Function.update s.hashes b none := by
  rcases allocBlock_some h with ⟨free, _, rfl⟩ | ⟨skipped, rest, hash, _, _, _, _, _, rfl⟩
  · rfl
  · rw [lease_hashes, uncache_fields.2.2.1]

theorem allocBlock_listed (h : s.allocBlock = (some b, s')) (hd : d ≠ b) :
    s'.listed.count d = s.listed.count d := by
  rcases allocBlock_some h with ⟨free, _, rfl⟩ | ⟨skipped, rest, hash, _, _, _, hmem, _, rfl⟩
  · rfl
  · show ({ s with lru := rest }.uncache b hash).listed.count d = _
    rw [(uncache_listed (s := { s with lru := rest }) hmem).count_eq, count_erase_of_ne hd]
    rfl

/-- Leasing may drop snapshots, and adds none. -/
theorem allocBlock_snapshots (h : s.allocBlock = (some b, s')) {snapshot : RecurrentSnapshot σ}
    (hs : s'.snapshots.lookup hash = some snapshot) : s.snapshots.lookup hash = some snapshot := by
  rcases allocBlock_some h with ⟨free, _, rfl⟩ | ⟨skipped, rest, hash', _, _, _, hmem, _, rfl⟩
  · exact hs
  · replace hs : ({ s with lru := rest }.uncache b hash').snapshots.lookup hash = some snapshot := hs
    obtain ⟨left, _, ⟨_, heq⟩ | ⟨_, heq⟩⟩ := uncache_lookup (s := { s with lru := rest }) hmem
    · rw [heq] at hs
      replace hs : (s.snapshots.erase hash').lookup hash = some snapshot := hs
      by_cases hne : hash = hash'
      · rw [hne, AList.lookup_erase] at hs
        cases hs
      · rwa [AList.lookup_erase_ne hne] at hs
    · rw [heq] at hs
      exact hs

/-! ## Lawful invariants -/

/-- An invariant that relates the store to the live handles, and that leasing,
referencing and dropping keep. A leased block has no handle yet. -/
structure Lawful (I : BlockStore σ → List Nat → Prop) : Prop where
  perm : ∀ {s H H'}, I s H → H.Perm H' → I s H'
  counted : ∀ {s H}, I s H → Counted s.refcounts H
  ref : ∀ {s H b}, I s H → b ∈ H → I (s.refBlock b) (b :: H)
  unref : ∀ {s H b}, I s (b :: H) → I (s.unrefBlock b) H
  alloc : ∀ {s s' H b}, I s H → s.allocBlock = (some b, s') → s.refcounts b = 0 ∧ I s' (b :: H)
  exhausted : ∀ {s s' H}, I s H → s.allocBlock = (none, s') → I s' H

section Loops

variable {I : BlockStore σ → List Nat → Prop} (hI : Lawful I) {H : List Nat}
include hI

theorem Lawful.alloc_not_mem (h : I s H) (ha : s.allocBlock = (some b, s')) : b ∉ H :=
  (hI.counted h).eq_zero.mp (hI.alloc h ha).1

theorem Lawful.refBlocks {l : List Nat} (h : I s H) (hl : ∀ b ∈ l, b ∈ H) :
    I (s.refBlocks l) (l ++ H) := by
  induction l generalizing s H with
  | nil => exact h
  | cons b l ih =>
    have hb : I (s.refBlock b) (b :: H) := hI.ref h (hl b mem_cons_self)
    have hloop : I ((s.refBlock b).refBlocks l) (l ++ b :: H) :=
      ih hb fun d hd => mem_cons_of_mem b (hl d (mem_cons_of_mem b hd))
    exact hI.perm hloop List.perm_middle

theorem Lawful.unrefBlocks {l : List Nat} (h : I s (l ++ H)) : I (s.unrefBlocks l) H := by
  induction l generalizing s with
  | nil => exact h
  | cons b l ih => exact ih (hI.unref h)

end Loops

end BlockStore

end EffectTorch
