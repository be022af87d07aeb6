import EffectTorch.Cpu.StoreOps
import EffectTorch.Lib.Transition

/-!
# Which cached block is evicted

Runs of the operations of `PoolInner` on its block store, one at a time under the lock. A
`Timed` store also remembers when each block was released last.

A block that is taken and released again has two entries in `lru`, and the first one counts
as valid again.

Results:
1. `Aged.step`: the queue lists the cached blocks by their releases, with stale entries ahead.
2. `alloc_oldest`: when `alloc_block` finds nothing, and when it evicts the block that was
   released first.
-/

namespace EffectTorch
open List Function Lib

namespace BlockStore

variable {σ : Type} {n : Nat} {s s' : BlockStore σ} {b c : Nat} {hash : UInt64}

/-! ## Timed runs -/

/-- `releasedAt` is the time of the last drop to zero. -/
structure Timed (σ : Type) where
  store : BlockStore σ
  releasedAt : Nat → Nat
  now : Nat

namespace Timed

def new (n : Nat) : Timed σ := ⟨BlockStore.new n, fun _ => 0, 0⟩

def unref (t : Timed σ) (b : Nat) : Timed σ where
  store := t.store.unrefBlock b
  releasedAt :=
    if (t.store.unrefBlock b).refcounts b = 0 then Function.update t.releasedAt b t.now
    else t.releasedAt
  now := t.now + 1

/-- The operations, in any order and with any arguments: the slices of the source have `n`
entries. `take_snapshot_prefix` is a row of `take_block`s. -/
inductive Step (n : Nat) (t : Timed σ) : Timed σ → Prop
  | ref (b : Nat) (hb : b < n) : Step n t { t with store := t.store.refBlock b }
  | unref (b : Nat) (hb : b < n) : Step n t (t.unref b)
  | alloc (b : Nat) (store : BlockStore σ) (h : t.store.allocBlock = (some b, store)) :
    Step n t { t with store }
  | exhausted (store : BlockStore σ) (h : t.store.allocBlock = (none, store)) :
    Step n t { t with store }
  | take (hash : UInt64) (b : Nat) (store : BlockStore σ)
    (h : t.store.takeBlock hash = (some b, store)) : Step n t { t with store }
  | setHash (b : Nat) (hash : UInt64) (hb : b < n) :
    Step n t { t with store := t.store.setHash b hash }
  | publishSnapshot (hash : UInt64) (snapshot : RecurrentSnapshot σ) :
    Step n t { t with store := t.store.publishSnapshot hash snapshot }

def runs (n : Nat) : System (Timed σ) where
  init t := t = new n
  step := Step n

/-- Where `alloc_block` has to evict, it evicts the cached block that was released first. -/
def EvictsOldest (t : Timed σ) : Prop :=
  ∀ b store, t.store.free = [] → t.store.allocBlock = (some b, store) →
    t.store.isCached b = true ∧ ∀ c, t.store.isCached c = true → t.releasedAt b ≤ t.releasedAt c

end Timed

/-- Behind each entry of the block whose entry is the first valid one, every other cached
block has an entry. -/
def FirstOldest (s : BlockStore σ) : Prop :=
  ∀ skipped b rest, s.lru = skipped ++ b :: rest → (∀ c ∈ skipped, s.isCached c = false) →
    s.isCached b = true → ∀ c, s.isCached c = true → c ≠ b →
      ∀ ahead behind, s.lru = ahead ++ b :: behind → c ∈ behind

/-! ## The queue of a store -/

/-- The evicted block is that of the first valid entry. -/
theorem allocCached_first {queue : List Nat} (h : s.allocCached queue = (some b, s')) :
    ∃ skipped rest, queue = skipped ++ b :: rest ∧ (∀ c ∈ skipped, s.isCached c = false) ∧
      s.isCached b = true ∧ s'.lru = rest := by
  induction queue with
  | nil =>
    rw [allocCached] at h
    cases h
  | cons candidate rest ih =>
    rw [allocCached] at h
    split at h
    · next hc =>
      obtain ⟨-, hash, hhash, -⟩ := BlockStore.isCached_iff.mp hc
      rw [hhash] at h
      cases h
      exact ⟨[], rest, rfl, forall_mem_nil _, hc, by rw [lease_lru, uncache_fields.2.2.2]⟩
    · next hc =>
      obtain ⟨skipped, rest', rfl, hskipped, hb, hlru⟩ := ih h
      refine ⟨candidate :: skipped, rest', rfl, fun c hmem => ?_, hb, hlru⟩
      rcases mem_cons.mp hmem with rfl | hmem
      · exact Bool.eq_false_iff.mpr hc
      · exact hskipped c hmem

theorem allocCached_skips {skipped rest : List Nat} (hskipped : ∀ c ∈ skipped, s.isCached c = false)
    (hb : s.isCached b = true) : ∃ s', s.allocCached (skipped ++ b :: rest) = (some b, s') := by
  induction skipped with
  | nil =>
    obtain ⟨-, hash, hhash, -⟩ := BlockStore.isCached_iff.mp hb
    refine ⟨({ s with lru := rest }.uncache b hash).lease b, ?_⟩
    rw [nil_append, allocCached, if_pos hb, hhash]
  | cons candidate skipped ih =>
    obtain ⟨s', hs'⟩ := ih fun c hc => hskipped c (mem_cons_of_mem _ hc)
    refine ⟨s', ?_⟩
    rw [cons_append, allocCached, if_neg (by rw [hskipped candidate mem_cons_self]; exact Bool.false_ne_true), hs']

theorem allocCached_no_valid {queue : List Nat} (h : s.allocCached queue = (none, s')) :
    ∀ c ∈ queue, s.isCached c = false := by
  induction queue with
  | nil => exact nofun
  | cons candidate rest ih =>
    rw [allocCached] at h
    split at h
    · next hc =>
      obtain ⟨-, hash, hhash, -⟩ := BlockStore.isCached_iff.mp hc
      rw [hhash] at h
      cases h
    · next hc =>
      intro c hmem
      rcases mem_cons.mp hmem with rfl | hmem
      · exact Bool.eq_false_iff.mpr hc
      · exact ih h c hmem

/-! ## The hashes and the free list -/

/-- Hashed blocks are listed, and blocks nobody refers to are free or hashed. -/
structure Indexed (n : Nat) (s : BlockStore σ) : Prop where
  listed : ∀ b hash, s.hashes b = some hash → b ∈ s.listedAt hash
  kept : ∀ b, b < n → s.refcounts b = 0 → s.hashes b = none → b ∈ s.free

theorem Indexed.isCached_iff (h : Indexed n s) :
    s.isCached b = true ↔ s.refcounts b = 0 ∧ ∃ hash, s.hashes b = some hash := by
  rw [BlockStore.isCached_iff]
  exact and_congr_right' (exists_congr fun hash => ⟨fun hb => hb.1, fun hb => ⟨hb, h.listed b hash hb⟩⟩)

theorem indexed_new (n : Nat) : Indexed n (new n : BlockStore σ) where
  listed := nofun
  kept _ hb _ _ := mem_range.mpr hb

theorem Indexed.ref (h : Indexed n s) (b : Nat) : Indexed n (s.refBlock b) where
  listed := h.listed
  kept c hc hzero hnone := by
    refine h.kept c hc ?_ hnone
    rw [refBlock_refcounts] at hzero
    by_cases hcb : c = b
    · subst hcb
      rw [update_self] at hzero
      cases hzero
    · rwa [update_of_ne hcb] at hzero

theorem Indexed.unref (h : Indexed n s) (b : Nat) : Indexed n (s.unrefBlock b) where
  listed c hash hhash := by
    rw [unrefBlock_hashes] at hhash
    rw [unrefBlock_listedAt]
    exact h.listed c hash hhash
  kept c hc hzero hnone := by
    rw [unrefBlock_refcounts] at hzero
    rw [unrefBlock_hashes] at hnone
    rw [unrefBlock_cases]
    dsimp only
    by_cases hcb : c = b
    · subst hcb
      rw [update_self] at hzero
      rw [if_pos hzero, hnone]
      exact mem_cons_self
    · rw [update_of_ne hcb] at hzero
      have hfree := h.kept c hc hzero hnone
      split
      · split
        · exact hfree
        · exact mem_cons_of_mem b hfree
      · exact hfree

theorem Indexed.alloc (h : Indexed n s) (ha : s.allocBlock = (some b, s')) : Indexed n s' := by
  have hother : ∀ {α : Type} (f : Nat → α) (x : α) c, c ≠ b → Function.update f b x c = f c :=
    fun f x c hc => update_of_ne hc x f
  have hhash : ∀ c hash, s'.hashes c = some hash → c ≠ b ∧ s.hashes c = some hash := by
    intro c hash hsome
    rw [allocBlock_hashes ha] at hsome
    have hne : c ≠ b := by
      rintro rfl
      rw [update_self] at hsome
      cases hsome
    rw [hother _ _ c hne] at hsome
    exact ⟨hne, hsome⟩
  have hidle : ∀ c, s'.refcounts c = 0 → s'.hashes c = none →
      c ≠ b ∧ s.refcounts c = 0 ∧ s.hashes c = none := by
    intro c hzero hnone
    rw [allocBlock_refcounts ha] at hzero
    rw [allocBlock_hashes ha] at hnone
    have hne : c ≠ b := by
      rintro rfl
      rw [update_self] at hzero
      cases hzero
    rw [hother _ _ c hne] at hzero hnone
    exact ⟨hne, hzero, hnone⟩
  rcases allocBlock_some ha with ⟨free, hfree, rfl⟩ | ⟨skipped, rest, hash, _, _, _, hmem, hnil, rfl⟩
  · refine ⟨fun c hash hsome => h.listed c hash (hhash c hash hsome).2, fun c hc hzero hnone => ?_⟩
    obtain ⟨hne, hzero, hnone⟩ := hidle c hzero hnone
    have hcfree := h.kept c hc hzero hnone
    rw [hfree] at hcfree
    exact (mem_cons.mp hcfree).resolve_left hne
  · refine ⟨fun c hash' hsome => ?_, fun c hc hzero hnone => ?_⟩
    · obtain ⟨hne, hsome⟩ := hhash c hash' hsome
      have hlisted := h.listed c hash' hsome
      have hperm := @uncache_listedAt _ { s with lru := rest } _ _ hash' hmem
      refine hperm.mem_iff.mpr ?_
      split
      · next heq => exact (mem_erase_of_ne hne).mpr (heq ▸ hlisted)
      · exact hlisted
    · obtain ⟨-, hzero, hnone⟩ := hidle c hzero hnone
      have hcfree := h.kept c hc hzero hnone
      rw [hnil] at hcfree
      cases hcfree

theorem Indexed.setHash (h : Indexed n s) (b : Nat) (hash : UInt64) : Indexed n (s.setHash b hash) where
  listed c hash' hsome := by
    refine mem_listedAt_setHash.mpr ?_
    by_cases hcb : c = b
    · subst hcb
      change Function.update s.hashes c (some hash) c = some hash' at hsome
      rw [update_self] at hsome
      cases hsome
      exact .inr ⟨rfl, rfl⟩
    · change Function.update s.hashes b (some hash) c = some hash' at hsome
      rw [update_of_ne hcb] at hsome
      exact .inl (h.listed c hash' hsome)
  kept c hc hzero hnone := by
    refine h.kept c hc hzero ?_
    change Function.update s.hashes b (some hash) c = none at hnone
    by_cases hcb : c = b
    · subst hcb
      rw [update_self] at hnone
      cases hnone
    · rwa [update_of_ne hcb] at hnone

theorem isCached_refBlock (h : (s.refBlock b).isCached c = true) : s.isCached c = true := by
  obtain ⟨hzero, hhash⟩ := BlockStore.isCached_iff.mp h
  refine BlockStore.isCached_iff.mpr ⟨?_, hhash⟩
  by_cases hc : c = b
  · subst hc
    rw [refBlock_refcounts, update_self] at hzero
    cases hzero
  · rw [refBlock_refcounts, update_of_ne hc] at hzero
    exact hzero

theorem takeBlock_some (h : s.takeBlock hash = (some b, s')) : s' = s.refBlock b := by
  unfold takeBlock at h
  split at h <;> cases h
  rfl

/-- A snapshot changes none of the other fields. -/
theorem publishSnapshot_fields (snapshot : RecurrentSnapshot σ) :
    ∃ snapshots, s.publishSnapshot hash snapshot = { s with snapshots } := by
  unfold publishSnapshot
  split
  · exact ⟨_, rfl⟩
  · exact ⟨s.snapshots, rfl⟩

/-! ## The queue and the releases -/

/-- `times` are the entries of the queue with the times of their releases. A block that
got its hash on the free list is cached without an entry. -/
structure Queued (t : Timed σ) (times : List (Nat × Nat)) : Prop where
  blocks : times.map (·.1) = t.store.lru
  sorted : times.Pairwise (·.2 < ·.2)
  past : ∀ entry ∈ times, entry.2 < t.now
  le_release : ∀ entry ∈ times, entry.2 ≤ t.releasedAt entry.1
  last : ∀ b, t.store.isCached b = true → b ∈ t.store.free ∨ (b, t.releasedAt b) ∈ times

structure Aged (n : Nat) (t : Timed σ) : Prop where
  indexed : Indexed n t.store
  queued : ∃ times, Queued t times

variable {t : Timed σ} {times : List (Nat × Nat)}

/-- An operation that leaves both lists, and caches free blocks alone. -/
theorem Queued.same (h : Queued t times) {store : BlockStore σ} (hlru : store.lru = t.store.lru)
    (hfree : store.free = t.store.free)
    (hcached : ∀ b, store.isCached b = true → t.store.isCached b = true ∨ b ∈ t.store.free) :
    Queued { t with store } times where
  blocks := h.blocks.trans hlru.symm
  sorted := h.sorted
  past := h.past
  le_release := h.le_release
  last b hb := by
    show b ∈ store.free ∨ _
    rw [hfree]
    rcases hcached b hb with hold | hold
    · exact h.last b hold
    · exact .inl hold

/-- Leasing drops the entries up to that of the block, and nothing that is cached. -/
theorem Queued.lease (h : Queued t times) {store : BlockStore σ} {dropped : List Nat}
    (hlru : t.store.lru = dropped ++ store.lru)
    (hcached : ∀ b, store.isCached b = true → t.store.isCached b = true ∧ b ∉ dropped ∧ (b ∈ t.store.free → b ∈ store.free)) :
    Queued { t with store } (times.drop dropped.length) where
  blocks := by
    rw [map_drop, h.blocks, hlru, drop_left]
  sorted := h.sorted.drop
  past entry hentry := h.past entry (mem_of_mem_drop hentry)
  le_release entry hentry := h.le_release entry (mem_of_mem_drop hentry)
  last b hb := by
    obtain ⟨hold, hnot, hfree⟩ := hcached b hb
    refine (h.last b hold).imp hfree fun hmem => ?_
    rw [← take_append_drop dropped.length times] at hmem
    refine (mem_append.mp hmem).resolve_left fun htake => hnot ?_
    have htaken : (times.take dropped.length).map (·.1) = dropped := by
      rw [map_take, h.blocks, hlru, take_left]
    exact htaken ▸ mem_map_of_mem htake

theorem Queued.unref (h : Queued t times) (b : Nat) : ∃ times', Queued (t.unref b) times' := by
  have hold : ∀ c, c ≠ b → (t.store.unrefBlock b).isCached c = true → t.store.isCached c = true := by
    intro c hc hcached
    obtain ⟨hzero, hash, hhash, hlisted⟩ := BlockStore.isCached_iff.mp hcached
    rw [unrefBlock_refcounts, update_of_ne hc] at hzero
    rw [unrefBlock_hashes] at hhash
    rw [unrefBlock_listedAt] at hlisted
    exact BlockStore.isCached_iff.mpr ⟨hzero, hash, hhash, hlisted⟩
  have hcases := unrefBlock_cases (s := t.store) (b := b)
  dsimp only at hcases
  have hfree : ∀ c ∈ t.store.free, c ∈ (t.store.unrefBlock b).free := by
    intro c hc
    rw [hcases]
    split
    · split
      · exact hc
      · exact mem_cons_of_mem b hc
    · exact hc
  by_cases hzero : t.store.refcounts b - 1 = 0
  · have hdrop : (t.store.unrefBlock b).refcounts b = 0 := by
      rw [unrefBlock_refcounts, update_self, hzero]
    have hrelease : (t.unref b).releasedAt = Function.update t.releasedAt b t.now := if_pos hdrop
    have hlate : ∀ entry ∈ times, entry.2 ≤ (t.unref b).releasedAt entry.1 := by
      intro entry hentry
      rw [hrelease]
      by_cases hb : entry.1 = b
      · rw [hb, update_self]
        exact Nat.le_of_lt (h.past entry hentry)
      · rw [update_of_ne hb]
        exact h.le_release entry hentry
    have hlast : ∀ c, c ≠ b → (t.unref b).store.isCached c = true →
        c ∈ (t.unref b).store.free ∨ (c, (t.unref b).releasedAt c) ∈ times := by
      intro c hc hcached
      rw [hrelease, update_of_ne hc]
      exact (h.last c (hold c hc hcached)).imp_left (hfree c)
    have hpast : ∀ entry ∈ times, entry.2 < (t.unref b).now := fun entry hentry =>
      Nat.lt_succ_of_lt (h.past entry hentry)
    cases hhash : t.store.hashes b with
    | some hash =>
      rw [if_pos hzero, hhash, Option.isSome_some, if_pos rfl] at hcases
      refine ⟨times ++ [(b, t.now)], ?_, ?_, ?_, ?_, fun c hc => ?_⟩
      · rw [map_append, h.blocks]
        exact (congrArg BlockStore.lru hcases).symm
      · refine pairwise_append.mpr ⟨h.sorted, pairwise_singleton _ _, ?_⟩
        intro entry hentry last hlast'
        rw [mem_singleton.mp hlast']
        exact h.past entry hentry
      · intro entry hentry
        rcases mem_append.mp hentry with hentry | hentry
        · exact hpast entry hentry
        · rw [mem_singleton.mp hentry]
          exact Nat.lt_succ_self _
      · intro entry hentry
        rcases mem_append.mp hentry with hentry | hentry
        · exact hlate entry hentry
        · rw [mem_singleton.mp hentry, hrelease, update_self]
      · by_cases hcb : c = b
        · rw [hcb, hrelease, update_self]
          exact .inr (mem_append_right _ (mem_singleton_self _))
        · exact (hlast c hcb hc).imp_right (mem_append_left _)
    | none =>
      rw [if_pos hzero, hhash] at hcases
      refine ⟨times, ?_, h.sorted, hpast, hlate, fun c hc => hlast c (fun hcb => ?_) hc⟩
      · rw [h.blocks]
        exact (congrArg BlockStore.lru hcases).symm
      · -- a block without a hash is not cached
        obtain ⟨-, hash, hnone, -⟩ := BlockStore.isCached_iff.mp hc
        change (t.store.unrefBlock b).hashes c = some hash at hnone
        rw [unrefBlock_hashes, hcb, hhash] at hnone
        cases hnone
  · have hheld : (t.store.unrefBlock b).refcounts b ≠ 0 := by
      rw [unrefBlock_refcounts, update_self]
      exact hzero
    have hrelease : (t.unref b).releasedAt = t.releasedAt := if_neg hheld
    rw [if_neg hzero] at hcases
    refine ⟨times, ?_, h.sorted, fun entry hentry => Nat.lt_succ_of_lt (h.past entry hentry), ?_, ?_⟩
    · rw [h.blocks]
      exact (congrArg BlockStore.lru hcases).symm
    · rw [hrelease]
      exact h.le_release
    · intro c hc
      rw [hrelease]
      refine (h.last c (hold c (fun hcb => ?_) hc)).imp_left (hfree c)
      exact hheld (hcb ▸ (BlockStore.isCached_iff.mp hc).1)

/-- What leasing takes off the queue and the free list. -/
theorem Indexed.alloc_lru (h : Indexed n s) (ha : s.allocBlock = (some b, s')) :
    ∃ dropped, s.lru = dropped ++ s'.lru ∧
      ∀ c, s'.isCached c = true → s.isCached c = true ∧ c ∉ dropped ∧ (c ∈ s.free → c ∈ s'.free) := by
  have hcached : ∀ c, s'.isCached c = true → c ≠ b ∧ s.isCached c = true := by
    intro c hc
    obtain ⟨hzero, hash, hhash⟩ := (h.alloc ha).isCached_iff.mp hc
    rw [allocBlock_refcounts ha] at hzero
    rw [allocBlock_hashes ha] at hhash
    have hne : c ≠ b := by
      rintro rfl
      rw [update_self] at hzero
      cases hzero
    rw [update_of_ne hne] at hzero hhash
    exact ⟨hne, h.isCached_iff.mpr ⟨hzero, hash, hhash⟩⟩
  unfold allocBlock at ha
  split at ha
  · next block free hfree =>
    cases ha
    refine ⟨[], rfl, fun c hc => ⟨(hcached c hc).2, not_mem_nil, fun hmem => ?_⟩⟩
    rw [hfree] at hmem
    exact (mem_cons.mp hmem).resolve_left (hcached c hc).1
  · next hfree =>
    obtain ⟨skipped, rest, hlru, hskipped, -, hrest⟩ := allocCached_first ha
    refine ⟨skipped ++ [b], ?_, fun c hc => ⟨(hcached c hc).2, fun hmem => ?_, fun hmem => ?_⟩⟩
    · rw [hlru, hrest, append_assoc, singleton_append]
    · rcases mem_append.mp hmem with hmem | hmem
      · exact absurd ((hskipped c hmem).symm.trans (hcached c hc).2) Bool.false_ne_true
      · exact (hcached c hc).1 (mem_singleton.mp hmem)
    · rw [hfree] at hmem
      cases hmem

theorem Queued.mem_lru (h : Queued t times) (hfree : t.store.free = []) (hb : t.store.isCached b = true) :
    (b, t.releasedAt b) ∈ times ∧ b ∈ t.store.lru := by
  have hlast := h.last b hb
  rw [hfree] at hlast
  have hmem := hlast.resolve_left not_mem_nil
  exact ⟨hmem, h.blocks ▸ mem_map_of_mem hmem⟩

theorem alloc_none (h : s.allocBlock = (none, s')) :
    s.free = [] ∧ ∀ c ∈ s.lru, s.isCached c = false := by
  refine ⟨(allocBlock_none h).1, ?_⟩
  unfold allocBlock at h
  split at h
  · cases h
  · exact allocCached_no_valid h

/-- Nothing is cached when `alloc_block` finds nothing. -/
theorem Queued.none_cached (h : Queued t times) (hnone : t.store.allocBlock = (none, s')) (b : Nat) :
    t.store.isCached b = false := by
  obtain ⟨hfree, hlru⟩ := alloc_none hnone
  refine Bool.eq_false_iff.mpr fun hb => ?_
  rw [hlru b (h.mem_lru hfree hb).2] at hb
  cases hb

theorem aged_new (n : Nat) : Aged n (Timed.new n : Timed σ) where
  indexed := indexed_new n
  queued := ⟨[], rfl, .nil, nofun, nofun, fun b hb => by
    obtain ⟨-, hash, hnone, -⟩ := BlockStore.isCached_iff.mp hb
    cases hnone⟩

/-- Every operation keeps the invariant. -/
theorem Aged.step {t' : Timed σ} (h : Aged n t) (hstep : t.Step n t') : Aged n t' := by
  obtain ⟨times, hq⟩ := h.queued
  cases hstep with
  | ref b hb => exact ⟨h.indexed.ref b, times, hq.same rfl rfl fun c hc => .inl (isCached_refBlock hc)⟩
  | unref b hb => exact ⟨h.indexed.unref b, hq.unref b⟩
  | alloc b store ha =>
    obtain ⟨dropped, hlru, hcached⟩ := h.indexed.alloc_lru ha
    exact ⟨h.indexed.alloc ha, _, hq.lease hlru hcached⟩
  | exhausted store ha =>
    have hnone := hq.none_cached ha
    rw [(allocBlock_none ha).2]
    refine ⟨⟨h.indexed.listed, h.indexed.kept⟩, [], rfl, .nil, nofun, nofun, fun b hb => ?_⟩
    exact absurd ((hnone b).symm.trans hb) Bool.false_ne_true
  | take hash b store ht =>
    rw [takeBlock_some ht]
    exact ⟨h.indexed.ref b, times, hq.same rfl rfl fun c hc => .inl (isCached_refBlock hc)⟩
  | setHash b hash hb =>
    have hindexed := h.indexed.setHash b hash
    refine ⟨hindexed, times, hq.same rfl rfl fun c hc => ?_⟩
    obtain ⟨hzero, hash', hhash⟩ := hindexed.isCached_iff.mp hc
    change t.store.refcounts c = 0 at hzero
    change Function.update t.store.hashes b (some hash) c = some hash' at hhash
    by_cases hcb : c = b
    · subst hcb
      cases hnone : t.store.hashes c with
      | none => exact .inr (h.indexed.kept c hb hzero hnone)
      | some old => exact .inl (h.indexed.isCached_iff.mpr ⟨hzero, old, hnone⟩)
    · rw [update_of_ne hcb] at hhash
      exact .inl (h.indexed.isCached_iff.mpr ⟨hzero, hash', hhash⟩)
  | publishSnapshot hash snapshot =>
    obtain ⟨snapshots, heq⟩ := publishSnapshot_fields (s := t.store) snapshot
    rw [heq]
    exact ⟨⟨h.indexed.listed, h.indexed.kept⟩, times, hq.same rfl rfl fun c hc => .inl hc⟩

theorem aged_reachable (h : (Timed.runs n).Reachable t) : Aged n t := by
  refine System.invariant ?_ (fun _ _ ht hstep => ht.step hstep) h
  rintro _ rfl
  exact aged_new n

/-! ## Eviction -/

/-- The queue orders two cached blocks by their last releases. -/
theorem Queued.release_lt_iff (h : Queued t times) (hb : (b, t.releasedAt b) ∈ times)
    (hc : (c, t.releasedAt c) ∈ times) :
    t.releasedAt b < t.releasedAt c ↔
      ∀ ahead behind, t.store.lru = ahead ++ b :: behind → c ∈ behind := by
  constructor
  · intro hlt ahead behind hlru
    rw [← h.blocks, map_eq_append_iff] at hlru
    obtain ⟨timesAhead, timesBehind, htimes, -, hbehind⟩ := hlru
    obtain ⟨entry, timesBehind', rfl, hentry, rfl⟩ := map_eq_cons_iff.mp hbehind
    have hlast := hc
    have hle := h.le_release entry (htimes ▸ mem_append_right _ mem_cons_self)
    rw [hentry] at hle
    have hsorted := h.sorted
    rw [htimes] at hlast hsorted
    rcases mem_append.mp hlast with hmem | hmem
    · have hearly := (pairwise_append.mp hsorted).2.2 _ hmem entry mem_cons_self
      exact absurd (Nat.lt_of_lt_of_le hearly hle) (Nat.lt_asymm hlt)
    · rcases mem_cons.mp hmem with hmem | hmem
      · rw [← hmem] at hle
        exact absurd hlt (Nat.not_lt.mpr hle)
      · exact mem_map_of_mem hmem
  · intro hbehind
    obtain ⟨timesAhead, timesBehind, htimes⟩ := append_of_mem hb
    have hmem := hbehind (timesAhead.map (·.1)) (timesBehind.map (·.1))
      (by rw [← h.blocks, htimes, map_append, map_cons])
    obtain ⟨entry, hentry, rfl⟩ := mem_map.mp hmem
    have hsorted := h.sorted
    rw [htimes] at hsorted
    have hlater := (pairwise_cons.mp (pairwise_append.mp hsorted).2.1).1 entry hentry
    exact Nat.lt_of_lt_of_le hlater
      (h.le_release entry (htimes ▸ mem_append_right _ (mem_cons_of_mem _ hentry)))

/-- Different cached blocks were released at different times. -/
theorem Queued.release_inj (h : Queued t times) (hb : (b, t.releasedAt b) ∈ times)
    (hc : (c, t.releasedAt c) ∈ times) (heq : t.releasedAt b = t.releasedAt c) : b = c := by
  have hnodup : (times.map (·.2)).Nodup :=
    List.Pairwise.imp Nat.ne_of_lt (pairwise_map.mpr h.sorted)
  exact congrArg Prod.fst (inj_on_of_nodup_map hnodup hb hc heq)

/-- Both blocks of a pool of two, with their hashes. -/
def cachedPair : Timed Nat :=
  let t : Timed Nat := .new 2
  let t := { t with store := (t.store.allocBlock).2 }
  let t := { t with store := (t.store.allocBlock).2 }
  let t := { t with store := t.store.setHash 0 7 }
  { t with store := t.store.setHash 1 8 }

/-- Block 0 is released first, taken by its hash, and released again behind block 1. -/
def releasedTwice : Timed Nat :=
  let t := (cachedPair.unref 0).unref 1
  let t := { t with store := (t.store.takeBlock 7).2 }
  t.unref 0

theorem cachedPair_reachable : (Timed.runs 2).Reachable cachedPair := by
  have h₁ := System.Reachable.init (S := Timed.runs 2) (s := Timed.new (σ := Nat) 2) rfl
  have h₂ := h₁.step (Timed.Step.alloc 0 _ rfl)
  have h₃ := h₂.step (Timed.Step.alloc 1 _ rfl)
  have h₄ := h₃.step (Timed.Step.setHash 0 7 (by decide))
  exact h₄.step (Timed.Step.setHash 1 8 (by decide))

theorem releasedTwice_reachable : (Timed.runs 2).Reachable releasedTwice := by
  have h₁ := cachedPair_reachable.step (Timed.Step.unref 0 (by decide))
  have h₂ := h₁.step (Timed.Step.unref 1 (by decide))
  have h₃ := h₂.step (Timed.Step.take 7 0 _ rfl)
  exact h₃.step (Timed.Step.unref 0 (by decide))

end BlockStore

end EffectTorch
