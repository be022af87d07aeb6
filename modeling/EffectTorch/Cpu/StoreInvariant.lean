import EffectTorch.Cpu.StoreOps

/-!
# Invariants of the block store

Two lawful invariants. `Sound` is the one of a pool whose hashes are published while
their blocks are referenced: free, cached and referenced blocks are told apart by
count and hash. `Leased` asks nothing of the hashes: it holds in pools where a hash
may be published late, as long as nothing is matched by hash.

Results:
1. `sound_lawful`, `leased_lawful`.
2. `Sound.take`, `Sound.setHash`: matching and publishing keep `Sound`.
3. `Sound.available_le`: never more available blocks than blocks.
-/

namespace EffectTorch
open List Function Lib

namespace BlockStore

variable {σ : Type} {n : Nat} {s s' : BlockStore σ} {H : List Nat} {b d : Nat}
  {hash hash' : UInt64}

/-! ## Told apart by count and hash -/

/-- The store agrees with the live handles `H` over `n` blocks. -/
structure Sound (n : Nat) (s : BlockStore σ) (H : List Nat) : Prop where
  counted : Counted s.refcounts H
  held_lt : ∀ b ∈ H, b < n
  free_nodup : s.free.Nodup
  free_spec : ∀ b, b ∈ s.free ↔ b < n ∧ s.refcounts b = 0 ∧ s.hashes b = none
  listed_iff : ∀ b hash, b ∈ s.listedAt hash ↔ s.hashes b = some hash
  listed_nodup : ∀ hash, (s.listedAt hash).Nodup
  listed_ne : ∀ hash, s.byHash.lookup hash ≠ some []
  hashed_lt : ∀ b hash, s.hashes b = some hash → b < n
  snapshot_listed : ∀ hash, (s.snapshots.lookup hash).isSome → (s.byHash.lookup hash).isSome

theorem sound_new (n : Nat) : Sound n (new n : BlockStore σ) [] where
  counted b := by simp [new]
  held_lt := by simp
  free_nodup := nodup_range
  free_spec b := by simp [new]
  listed_iff b hash := by simp [new, listedAt]
  listed_nodup hash := by simp [new, listedAt]
  listed_ne hash := by simp [new]
  hashed_lt b hash h := by simp [new] at h
  snapshot_listed hash h := by simp [new] at h

/-- A change of the queue alone. -/
theorem Sound.lru (h : Sound n s H) (queue : List Nat) : Sound n { s with lru := queue } H where
  counted := h.counted
  held_lt := h.held_lt
  free_nodup := h.free_nodup
  free_spec := h.free_spec
  listed_iff := h.listed_iff
  listed_nodup := h.listed_nodup
  listed_ne := h.listed_ne
  hashed_lt := h.hashed_lt
  snapshot_listed := h.snapshot_listed

theorem Sound.perm {H' : List Nat} (h : Sound n s H) (hp : H.Perm H') : Sound n s H' :=
  { h with
    counted := h.counted.perm hp
    held_lt := fun b hb => h.held_lt b (hp.mem_iff.mpr hb) }

theorem Sound.ref (h : Sound n s H) (hb : b < n) (hused : b ∉ s.free) :
    Sound n (s.refBlock b) (b :: H) where
  counted := h.counted.acquire
  held_lt := forall_mem_cons.mpr ⟨hb, h.held_lt⟩
  free_nodup := h.free_nodup
  free_spec d := by
    rw [refBlock_free, refBlock_hashes, refBlock_refcounts, h.free_spec]
    by_cases hd : d = b
    · subst hd
      rw [update_self]
      constructor
      · intro hfree
        exact absurd ((h.free_spec d).mpr hfree) hused
      · rintro ⟨_, hcount, _⟩
        exact absurd hcount (Nat.succ_ne_zero _)
    · rw [update_of_ne hd]
  listed_iff := h.listed_iff
  listed_nodup := h.listed_nodup
  listed_ne := h.listed_ne
  hashed_lt := h.hashed_lt
  snapshot_listed := h.snapshot_listed

theorem Sound.not_free (h : Sound n s H) (hb : b ∈ H) : b ∉ s.free := by
  intro hfree
  exact (h.counted.eq_zero.mp ((h.free_spec b).mp hfree).2.1) hb

theorem Sound.unref (h : Sound n s (b :: H)) : Sound n (s.unrefBlock b) H := by
  have hcounted : Counted (s.unrefBlock b).refcounts H := by
    rw [unrefBlock_refcounts]
    exact h.counted.release
  have hb : b < n := h.held_lt b mem_cons_self
  have hunfree : b ∉ s.free := h.not_free mem_cons_self
  have hother : ∀ d, d ≠ b → (s.unrefBlock b).refcounts d = s.refcounts d := fun d hd => by
    rw [unrefBlock_refcounts, update_of_ne hd]
  have hself : (s.unrefBlock b).refcounts b = s.refcounts b - 1 := by
    rw [unrefBlock_refcounts, update_self]
  -- the free list grows by `b` exactly when nobody holds it and it has no hash
  have hfree : (s.unrefBlock b).free =
      if s.refcounts b - 1 = 0 ∧ s.hashes b = none then b :: s.free else s.free := by
    rw [unrefBlock_cases]
    dsimp only
    by_cases hcount : s.refcounts b - 1 = 0
    · cases hhash : s.hashes b with
      | none => simp [hcount]
      | some hash => simp [hcount]
    · simp [hcount]
  refine
    { counted := hcounted
      held_lt := fun d hd => h.held_lt d (mem_cons_of_mem b hd)
      free_nodup := ?_
      free_spec := fun d => ?_
      listed_iff := fun d hash => by rw [unrefBlock_listedAt, unrefBlock_hashes, h.listed_iff]
      listed_nodup := fun hash => by
        rw [unrefBlock_listedAt]
        exact h.listed_nodup hash
      listed_ne := fun hash => by
        rw [unrefBlock_byHash]
        exact h.listed_ne hash
      hashed_lt := fun d hash => by
        rw [unrefBlock_hashes]
        exact h.hashed_lt d hash
      snapshot_listed := fun hash => by
        rw [unrefBlock_snapshots, unrefBlock_byHash]
        exact h.snapshot_listed hash }
  · rw [hfree]
    split
    · exact nodup_cons.mpr ⟨hunfree, h.free_nodup⟩
    · exact h.free_nodup
  · rw [hfree, unrefBlock_hashes]
    by_cases hd : d = b
    · subst hd
      rw [hself]
      split
      · next hc => simp [hb, hc]
      · next hc =>
        constructor
        · exact fun hmem => absurd hmem hunfree
        · exact fun hmem => absurd hmem.2 hc
    · rw [hother d hd, ← h.free_spec]
      split
      · simp [hd]
      · rfl

/-- What a block that comes off the free list or the queue leaves behind. -/
theorem Sound.alloc (h : Sound n s H) (ha : s.allocBlock = (some b, s')) :
    s.refcounts b = 0 ∧ Sound n s' (b :: H) := by
  have hcount : ∀ {rc : Nat → Nat}, Counted rc H → rc b = 0 →
      Counted (Function.update rc b 1) (b :: H) := fun {rc} hrc hzero => by
    have := hrc.acquire (b := b)
    rwa [hzero] at this
  rcases allocBlock_some ha with ⟨free, hfree, rfl⟩ | ⟨skipped, rest, hash, _, hzero, hhash, hmem, hnil, rfl⟩
  · obtain ⟨hb, hzero, hnone⟩ := (h.free_spec b).mp (by rw [hfree]; exact mem_cons_self)
    have hnodup := h.free_nodup
    rw [hfree, nodup_cons] at hnodup
    have hsame : Function.update s.hashes b none = s.hashes := by
      rw [← hnone, update_eq_self]
    refine ⟨hzero,
      { counted := hcount h.counted hzero
        held_lt := forall_mem_cons.mpr ⟨hb, h.held_lt⟩
        free_nodup := hnodup.2
        free_spec := fun d => ?_
        listed_iff := fun d hash => by
          rw [lease_hashes, hsame]
          exact h.listed_iff d hash
        listed_nodup := h.listed_nodup
        listed_ne := h.listed_ne
        hashed_lt := fun d hash => by
          rw [lease_hashes, hsame]
          exact h.hashed_lt d hash
        snapshot_listed := h.snapshot_listed }⟩
    rw [lease_hashes, hsame, lease_refcounts]
    show d ∈ free ↔ d < n ∧ Function.update s.refcounts b 1 d = 0 ∧ s.hashes d = none
    by_cases hd : d = b
    · subst hd
      rw [update_self]
      simp [hnodup.1]
    · rw [update_of_ne hd, ← h.free_spec, hfree, mem_cons]
      simp [hd]
  · -- the block leaves the one list that holds it, so no list holds it any more
    obtain ⟨left, hperm, huncache⟩ := uncache_lookup (s := { s with lru := rest }) hmem
    have hlisted : ∀ hash', ((({ s with lru := rest } : BlockStore σ).uncache b hash).listedAt
        hash').Perm (if hash' = hash then (s.listedAt hash).erase b else s.listedAt hash') :=
      fun hash' => uncache_listedAt (s := { s with lru := rest }) hmem
    have hfields := @uncache_fields _ { s with lru := rest } b hash
    refine ⟨hzero,
      { counted := by
          rw [lease_refcounts, hfields.2.1]
          exact hcount h.counted hzero
        held_lt := forall_mem_cons.mpr ⟨h.hashed_lt b hash hhash, h.held_lt⟩
        free_nodup := by
          rw [lease_free, hfields.1]
          exact h.free_nodup
        free_spec := fun d => ?_
        listed_iff := fun d hash' => ?_
        listed_nodup := fun hash' => ?_
        listed_ne := fun hash' => ?_
        hashed_lt := fun d hash' hd => ?_
        snapshot_listed := fun hash' hd => ?_ }⟩
    · rw [lease_free, hfields.1, lease_hashes, lease_refcounts, hfields.2.1, hfields.2.2.1]
      show d ∈ s.free ↔ d < n ∧ Function.update s.refcounts b 1 d = 0 ∧
        Function.update s.hashes b none d = none
      by_cases hd : d = b
      · subst hd
        rw [update_self, hnil]
        simp
      · rw [update_of_ne hd, update_of_ne hd]
        exact h.free_spec d
    · rw [lease_listedAt, (hlisted hash').mem_iff, lease_hashes, hfields.2.2.1]
      show _ ↔ Function.update s.hashes b none d = some hash'
      by_cases hd : d = b
      · subst hd
        rw [update_self]
        simp only [reduceCtorEq, iff_false]
        split
        · exact (h.listed_nodup hash).not_mem_erase
        · next hne =>
          rw [h.listed_iff, hhash]
          exact fun heq => hne (Option.some.inj heq).symm
      · rw [update_of_ne hd, ← h.listed_iff]
        split
        · next heq => rw [mem_erase_of_ne hd, heq]
        · rfl
    · rw [lease_listedAt]
      refine (hlisted hash').nodup_iff.mpr ?_
      split
      · exact (h.listed_nodup hash).erase b
      · exact h.listed_nodup hash'
    · show (({ s with lru := rest } : BlockStore σ).uncache b hash).byHash.lookup hash' ≠ some []
      rcases huncache with ⟨_, heq⟩ | ⟨hleft, heq⟩
      · rw [heq]
        by_cases hne : hash' = hash
        · subst hne
          simp
        · rw [AList.lookup_erase_ne hne]
          exact h.listed_ne hash'
      · rw [heq]
        by_cases hne : hash' = hash
        · subst hne
          simpa using hleft
        · rw [AList.lookup_insert_ne hne]
          exact h.listed_ne hash'
    · rw [lease_hashes, hfields.2.2.1] at hd
      by_cases hdb : d = b
      · rw [hdb, update_self] at hd
        cases hd
      · rw [update_of_ne hdb] at hd
        exact h.hashed_lt d hash' hd
    · show ((({ s with lru := rest } : BlockStore σ).uncache b hash).byHash.lookup hash').isSome
      replace hd : ((({ s with lru := rest } : BlockStore σ).uncache b hash).snapshots.lookup
        hash').isSome := hd
      rcases huncache with ⟨_, heq⟩ | ⟨_, heq⟩
      · rw [heq] at hd ⊢
        by_cases hne : hash' = hash
        · subst hne
          simp at hd
        · rw [AList.lookup_erase_ne hne] at hd ⊢
          exact h.snapshot_listed hash' hd
      · rw [heq] at hd ⊢
        by_cases hne : hash' = hash
        · subst hne
          simp
        · rw [AList.lookup_insert_ne hne]
          exact h.snapshot_listed hash' hd

theorem sound_lawful : Lawful (Sound n : BlockStore σ → List Nat → Prop) where
  perm := Sound.perm
  counted h := h.counted
  ref h hb := h.ref (h.held_lt _ hb) (h.not_free hb)
  unref := Sound.unref
  alloc := Sound.alloc
  exhausted h ha := by
    rw [(allocBlock_none ha).2]
    exact h.lru []

/-- A listed block may be taken. -/
theorem Sound.take (h : Sound n s H) (ht : s.takeBlock hash = (some b, s')) :
    s.hashes b = some hash ∧ s' = s.refBlock b ∧ Sound n s' (b :: H) := by
  unfold takeBlock at ht
  split at ht
  · next block rest hlist =>
    cases ht
    have hhash : s.hashes b = some hash :=
      (h.listed_iff b hash).mp (by rw [hlist]; exact mem_cons_self)
    refine ⟨hhash, rfl, h.ref (h.hashed_lt b hash hhash) fun hfree => ?_⟩
    rw [((h.free_spec b).mp hfree).2.2] at hhash
    cases hhash
  · cases ht

/-- Publishing the hash of a referenced block that has none. -/
theorem Sound.setHash (h : Sound n s H) (hb : b ∈ H) (hnone : s.hashes b = none) :
    Sound n (s.setHash b hash) H where
  counted := h.counted
  held_lt := h.held_lt
  free_nodup := h.free_nodup
  free_spec d := by
    show d ∈ s.free ↔ d < n ∧ s.refcounts d = 0 ∧ Function.update s.hashes b (some hash) d = none
    by_cases hd : d = b
    · subst hd
      rw [update_self]
      have := h.not_free hb
      simp [this]
    · rw [update_of_ne hd]
      exact h.free_spec d
  listed_iff d hash' := by
    rw [mem_listedAt_setHash, h.listed_iff]
    show _ ↔ Function.update s.hashes b (some hash) d = some hash'
    by_cases hd : d = b
    · subst hd
      rw [update_self, hnone]
      simp [eq_comm]
    · rw [update_of_ne hd]
      simp [hd]
  listed_nodup hash' := by
    have hlisted : (s.setHash b hash).listedAt hash' =
        if hash' = hash then s.listedAt hash ++ [b] else s.listedAt hash' :=
      listedAt_insert (s := { s with hashes := Function.update s.hashes b (some hash) })
    rw [hlisted]
    split
    · refine nodup_append'.mpr ⟨h.listed_nodup hash, nodup_singleton b, ?_⟩
      rw [disjoint_singleton, h.listed_iff, hnone]
      exact nofun
    · exact h.listed_nodup hash'
  listed_ne hash' := by
    show (s.byHash.insert hash (s.listedAt hash ++ [b])).lookup hash' ≠ some []
    by_cases hne : hash' = hash
    · subst hne
      simp
    · rw [AList.lookup_insert_ne hne]
      exact h.listed_ne hash'
  hashed_lt d hash' hd := by
    replace hd : Function.update s.hashes b (some hash) d = some hash' := hd
    by_cases hdb : d = b
    · rw [hdb]
      exact h.held_lt b hb
    · rw [update_of_ne hdb] at hd
      exact h.hashed_lt d hash' hd
  snapshot_listed hash' hd := by
    show ((s.byHash.insert hash (s.listedAt hash ++ [b])).lookup hash').isSome
    by_cases hne : hash' = hash
    · subst hne
      simp
    · rw [AList.lookup_insert_ne hne]
      exact h.snapshot_listed hash' hd

theorem Sound.publishSnapshot (h : Sound n s H) (snapshot : RecurrentSnapshot σ) :
    Sound n (s.publishSnapshot hash snapshot) H := by
  unfold BlockStore.publishSnapshot
  split
  · next hlisted =>
    exact { h with
      snapshot_listed := fun hash' hd => by
        by_cases hne : hash' = hash
        · rw [hne]
          exact hlisted
        · rw [AList.lookup_insert_ne hne] at hd
          exact h.snapshot_listed hash' hd }
  · exact h

/-- A block is listed once, under its own hash. -/
theorem Sound.mem_listed (h : Sound n s H) : b ∈ s.listed ↔ ∃ hash, s.hashes b = some hash := by
  constructor
  · intro hb
    obtain ⟨entry, hentry, hmem⟩ := mem_flatMap.mp hb
    refine ⟨entry.1, (h.listed_iff b entry.1).mp ?_⟩
    rw [listedAt, AList.mem_lookup_iff.mpr hentry]
    exact hmem
  · rintro ⟨hash, hhash⟩
    have hmem := (h.listed_iff b hash).mpr hhash
    have hlookup := lookup_of_mem_listedAt hmem
    exact mem_flatMap.mpr ⟨⟨hash, s.listedAt hash⟩, AList.mem_lookup_iff.mp hlookup, hmem⟩

theorem Sound.listed_all_nodup (h : Sound n s H) : s.listed.Nodup := by
  have hentry : ∀ entry ∈ s.byHash.entries, s.listedAt entry.1 = entry.2 := fun entry hmem => by
    rw [listedAt, AList.mem_lookup_iff.mpr hmem]
    rfl
  refine nodup_flatMap.mpr ⟨fun entry hmem => ?_, ?_⟩
  · rw [← hentry entry hmem]
    exact h.listed_nodup entry.1
  · have hkeys : s.byHash.entries.Pairwise fun e e' => e.1 ≠ e'.1 :=
      nodupKeys_iff_pairwise.mp s.byHash.nodupKeys
    refine hkeys.imp_of_mem fun {e e'} he he' hne => ?_
    intro b (hb : b ∈ e.2) (hb' : b ∈ e'.2)
    rw [← hentry e he, h.listed_iff] at hb
    rw [← hentry e' he', h.listed_iff, hb] at hb'
    exact hne (Option.some.inj hb')

/-- Free and cached blocks are different blocks. -/
theorem Sound.available_le (h : Sound n s H) : s.available ≤ n := by
  unfold available
  rw [cached_eq, ← length_append]
  refine nodup_length_le (nodup_append'.mpr
    ⟨h.free_nodup, h.listed_all_nodup.filter _, ?_⟩) fun b hb => ?_
  · intro b hfree hcached
    obtain ⟨hash, hhash⟩ := h.mem_listed.mp (mem_filter.mp hcached).1
    rw [((h.free_spec b).mp hfree).2.2] at hhash
    cases hhash
  · rcases mem_append.mp hb with hfree | hcached
    · exact ((h.free_spec b).mp hfree).1
    · obtain ⟨hash, hhash⟩ := h.mem_listed.mp (mem_filter.mp hcached).1
      exact h.hashed_lt b hash hhash

/-! ## Without hashes -/

/-- The store agrees with the live handles `H`, whatever the hashes are. Nothing is
taken by hash, so a queued block has no handle. -/
structure Leased (s : BlockStore σ) (H : List Nat) : Prop where
  counted : Counted s.refcounts H
  free_nodup : s.free.Nodup
  free_idle : ∀ b ∈ s.free, s.refcounts b = 0
  lru_nodup : s.lru.Nodup
  lru_idle : ∀ b ∈ s.lru, s.refcounts b = 0
  disjoint : ∀ b ∈ s.free, b ∉ s.lru

theorem leased_new (n : Nat) : Leased (new n : BlockStore σ) [] where
  counted b := by simp [new]
  free_nodup := nodup_range
  free_idle b _ := rfl
  lru_nodup := nodup_nil
  lru_idle b hb := absurd hb not_mem_nil
  disjoint b _ := not_mem_nil

/-- A change of the hashes alone. -/
theorem Leased.hashes (h : Leased s H) (hfree : s'.free = s.free)
    (hcounts : s'.refcounts = s.refcounts) (hlru : s'.lru = s.lru) : Leased s' H where
  counted := by
    rw [hcounts]
    exact h.counted
  free_nodup := by
    rw [hfree]
    exact h.free_nodup
  free_idle := by
    rw [hfree, hcounts]
    exact h.free_idle
  lru_nodup := by
    rw [hlru]
    exact h.lru_nodup
  lru_idle := by
    rw [hlru, hcounts]
    exact h.lru_idle
  disjoint := by
    rw [hfree, hlru]
    exact h.disjoint

theorem Leased.ref (h : Leased s H) (hb : b ∈ H) : Leased (s.refBlock b) (b :: H) := by
  have hpos : s.refcounts b ≠ 0 := fun hzero => h.counted.eq_zero.mp hzero hb
  have hkeep : ∀ d, s.refcounts d = 0 → (s.refBlock b).refcounts d = 0 := fun d hd => by
    have hne : d ≠ b := fun heq => hpos (heq ▸ hd)
    rw [refBlock_refcounts, update_of_ne hne, hd]
  exact
    { counted := h.counted.acquire
      free_nodup := h.free_nodup
      free_idle := fun d hd => hkeep d (h.free_idle d hd)
      lru_nodup := h.lru_nodup
      lru_idle := fun d hd => hkeep d (h.lru_idle d hd)
      disjoint := h.disjoint }

theorem Leased.unref (h : Leased s (b :: H)) : Leased (s.unrefBlock b) H := by
  have hpos : s.refcounts b ≠ 0 := fun hzero => h.counted.eq_zero.mp hzero mem_cons_self
  have hcounted := h.counted.release
  have hunfree : b ∉ s.free := fun hmem => hpos (h.free_idle b hmem)
  have hunqueued : b ∉ s.lru := fun hmem => hpos (h.lru_idle b hmem)
  have hkeep : ∀ d, s.refcounts d = 0 →
      Function.update s.refcounts b (s.refcounts b - 1) d = 0 := fun d hd => by
    have hne : d ≠ b := fun heq => hpos (heq ▸ hd)
    rw [update_of_ne hne, hd]
  rw [unrefBlock_cases]
  dsimp only
  by_cases hzero : s.refcounts b - 1 = 0
  · have hself : Function.update s.refcounts b (s.refcounts b - 1) b = 0 := by
      rw [update_self, hzero]
    rw [if_pos hzero]
    split
    · exact
        { counted := hcounted
          free_nodup := h.free_nodup
          free_idle := fun d hd => hkeep d (h.free_idle d hd)
          lru_nodup := nodup_append'.mpr ⟨h.lru_nodup, nodup_singleton b,
            disjoint_singleton.mpr hunqueued⟩
          lru_idle := fun d hd => by
            rcases mem_append.mp hd with hold | hnew
            · exact hkeep d (h.lru_idle d hold)
            · rw [mem_singleton.mp hnew]
              exact hself
          disjoint := fun d hd hqueued => by
            rcases mem_append.mp hqueued with hold | hnew
            · exact h.disjoint d hd hold
            · rw [mem_singleton.mp hnew] at hd
              exact hunfree hd }
    · exact
        { counted := hcounted
          free_nodup := nodup_cons.mpr ⟨hunfree, h.free_nodup⟩
          free_idle := forall_mem_cons.mpr
            ⟨hself, fun d hd => hkeep d (h.free_idle d hd)⟩
          lru_nodup := h.lru_nodup
          lru_idle := fun d hd => hkeep d (h.lru_idle d hd)
          disjoint := forall_mem_cons.mpr ⟨hunqueued, h.disjoint⟩ }
  · rw [if_neg hzero]
    exact
      { counted := hcounted
        free_nodup := h.free_nodup
        free_idle := fun d hd => hkeep d (h.free_idle d hd)
        lru_nodup := h.lru_nodup
        lru_idle := fun d hd => hkeep d (h.lru_idle d hd)
        disjoint := h.disjoint }

theorem Leased.alloc (h : Leased s H) (ha : s.allocBlock = (some b, s')) :
    s.refcounts b = 0 ∧ Leased s' (b :: H) := by
  have hrefs := allocBlock_refcounts ha
  -- once `b` is off its list, the remaining lists keep their counts of zero
  have hkeep : ∀ l : List Nat, b ∉ l → (∀ d ∈ l, s.refcounts d = 0) →
      ∀ d ∈ l, s'.refcounts d = 0 := fun l hb hl d hd => by
    have hne : d ≠ b := fun heq => hb (heq ▸ hd)
    rw [hrefs, update_of_ne hne, hl d hd]
  have hcount : s.refcounts b = 0 → Counted s'.refcounts (b :: H) := fun hzero => by
    have hacquire := h.counted.acquire (b := b)
    rw [hzero] at hacquire
    rw [hrefs]
    exact hacquire
  rcases allocBlock_some ha with ⟨free, hfree, rfl⟩ | ⟨skipped, rest, hash, hq, hzero, _, _, hnil, rfl⟩
  · have hmem : b ∈ s.free := by
      rw [hfree]
      exact mem_cons_self
    have hzero := h.free_idle b hmem
    have hnodup := h.free_nodup
    rw [hfree, nodup_cons] at hnodup
    have hsub : ∀ d ∈ free, d ∈ s.free := fun d hd => by
      rw [hfree]
      exact mem_cons_of_mem b hd
    exact ⟨hzero,
      { counted := hcount hzero
        free_nodup := hnodup.2
        free_idle := hkeep free hnodup.1 fun d hd => h.free_idle d (hsub d hd)
        lru_nodup := h.lru_nodup
        lru_idle := hkeep s.lru (h.disjoint b hmem) h.lru_idle
        disjoint := fun d hd => h.disjoint d (hsub d hd) }⟩
  · have hfields := @uncache_fields _ { s with lru := rest } b hash
    have hnodup := h.lru_nodup
    rw [hq] at hnodup
    obtain ⟨_, htail, _⟩ := nodup_append'.mp hnodup
    obtain ⟨hnotin, hrest⟩ := nodup_cons.mp htail
    have hidle : ∀ d ∈ rest, s.refcounts d = 0 := fun d hd => h.lru_idle d (by
      rw [hq]
      exact mem_append_right _ (mem_cons_of_mem b hd))
    refine ⟨hzero,
      { counted := hcount hzero
        free_nodup := by
          rw [lease_free, hfields.1]
          exact h.free_nodup
        free_idle := ?_
        lru_nodup := by
          rw [lease_lru, hfields.2.2.2]
          exact hrest
        lru_idle := ?_
        disjoint := ?_ }⟩
    · rw [lease_free, hfields.1]
      show ∀ d ∈ s.free, _
      rw [hnil]
      exact fun d hd => absurd hd not_mem_nil
    · rw [lease_lru, hfields.2.2.2]
      exact hkeep rest hnotin hidle
    · rw [lease_free, hfields.1]
      show ∀ d ∈ s.free, _
      rw [hnil]
      exact fun d hd => absurd hd not_mem_nil

theorem leased_lawful : Lawful (Leased : BlockStore σ → List Nat → Prop) where
  perm h hp := { h with counted := h.counted.perm hp }
  counted h := h.counted
  ref := Leased.ref
  unref := Leased.unref
  alloc := Leased.alloc
  exhausted h ha := by
    rw [(allocBlock_none ha).2]
    exact { h with
      lru_nodup := nodup_nil
      lru_idle := fun b hb => absurd hb not_mem_nil
      disjoint := fun b _ => not_mem_nil }

end BlockStore

end EffectTorch
