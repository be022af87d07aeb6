import EffectTorch.Cpu.LaneOps
import EffectTorch.Cpu.StoreInvariant

/-!
# What `prefill_match` takes

Over a sound store: every block that `prefill_match` takes is listed under the chained
hash of its page, and on every other way out no reference is left behind.

Results:
1. `pageHashes_eq`: the hash of a page is the hash of the prompt up to its end.
2. `takeMatching_spec`, `takeSnapshotPrefix_spec`: the blocks that are taken.
3. `prefillMatch_spec`: the ways out of `prefill_match`.
-/

namespace EffectTorch
open List Lib BlockStore

section Matching

variable {σ : Type} {c : PoolConfig} {n : Nat} {s s' : BlockStore σ} {H : List Nat}
  {hash : UInt64} {hashes : List UInt64} {blocks : List Nat}

theorem pageHashes_eq (hash : UInt64) (count : Nat) (tokens : List Token) :
    pageHashes c hash count tokens =
      (List.range count).map fun j => chainHash hash (tokens.take ((j + 1) * c.blockSize)) := by
  induction count generalizing hash tokens with
  | zero => rfl
  | succ count ih =>
    rw [pageHashes, range_succ_eq_map, map_cons, map_map, ih]
    congr 1
    · rw [Nat.zero_add, Nat.one_mul]
    · refine map_congr_left fun j _ => ?_
      show _ = chainHash hash (tokens.take ((j + 1 + 1) * c.blockSize))
      rw [← chainHash_append, Nat.succ_mul (j + 1), Nat.add_comm ((j + 1) * c.blockSize),
        take_add]

/-! ## Taking blocks -/

/-- The blocks in `blocks` are listed under the hashes in `hashes`, in that order. -/
def Listed (s : BlockStore σ) (blocks : List Nat) (hashes : List UInt64) : Prop :=
  List.Forall₂ (fun b hash => s.hashes b = some hash) blocks hashes

/-- What referencing blocks leaves alone. -/
structure SamePublished (s s' : BlockStore σ) : Prop where
  hashes : s'.hashes = s.hashes
  byHash : s'.byHash = s.byHash
  snapshots : s'.snapshots = s.snapshots

theorem SamePublished.refl (s : BlockStore σ) : SamePublished s s := ⟨rfl, rfl, rfl⟩

theorem SamePublished.ref (h : SamePublished (s.refBlock b) s') : SamePublished s s' :=
  ⟨h.hashes, h.byHash, h.snapshots⟩

theorem Sound.perm_middle {b : Nat} (h : Sound n s (blocks ++ b :: H)) :
    Sound n s (b :: blocks ++ H) :=
  h.perm List.perm_middle

/-- The loop without recurrent states stops at the first hash that is not listed. -/
theorem takeMatching_spec {hash' : UInt64} (hs : Sound n s H)
    (h : takeMatching hashes hash s = (blocks, hash', s')) :
    Sound n s' (blocks ++ H) ∧ SamePublished s s' ∧ blocks.length ≤ hashes.length ∧
      Listed s blocks (hashes.take blocks.length) ∧
      hash' = (hashes.take blocks.length).getLastD hash := by
  induction hashes generalizing hash s H blocks with
  | nil =>
    cases h
    exact ⟨hs, .refl _, Nat.le_refl _, .nil, rfl⟩
  | cons next hashes ih =>
    unfold takeMatching at h
    split at h
    · next b s₁ htake =>
      obtain ⟨hhash, rfl, hs₁⟩ := hs.take htake
      cases hrest : takeMatching hashes next (s.refBlock b) with
      | mk blocks₁ rest =>
        rw [hrest] at h
        cases h
        obtain ⟨hsound, hsame, hlen, hlisted, hlast⟩ := ih hs₁ hrest
        refine ⟨Sound.perm_middle hsound, hsame.ref, Nat.succ_le_succ hlen, .cons hhash hlisted, ?_⟩
        rw [hlast]
        show _ = (next :: hashes.take blocks₁.length).getLastD hash
        rw [getLastD_cons]
    · next s₁ htake =>
      have hsame : s₁ = s := by
        unfold takeBlock at htake
        split at htake
        · cases htake
        · cases htake
          rfl
      cases h
      rw [hsame]
      exact ⟨hs, .refl s, Nat.zero_le _, .nil, rfl⟩

/-- The first loop of `take_snapshot_prefix` only passes over listed hashes, and ends
at one with a snapshot. -/
theorem deepestSnapshot_spec {index deepest : Nat} (hle : deepest ≤ index) :
    deepest ≤ s.deepestSnapshot index deepest hashes ∧
      s.deepestSnapshot index deepest hashes ≤ index + hashes.length ∧
      (∀ j, index + j < s.deepestSnapshot index deepest hashes → ∀ hash, hashes[j]? = some hash →
        (s.byHash.lookup hash).isSome) ∧
      (s.deepestSnapshot index deepest hashes ≠ deepest →
        ∃ j hash, s.deepestSnapshot index deepest hashes = index + j + 1 ∧
          hashes[j]? = some hash ∧ (s.snapshots.lookup hash).isSome) := by
  induction hashes generalizing index deepest with
  | nil =>
    refine ⟨Nat.le_refl _, hle, fun j hj hash hget => ?_, fun hne => absurd rfl hne⟩
    cases hget
  | cons hash hashes ih =>
    rw [deepestSnapshot]
    split
    · next hlisted =>
      have hstep : ∀ d, d ≤ index + 1 → _ := fun d hd => ih hd
      split
      · next hsnap =>
        obtain ⟨hge, hupper, hall, hend⟩ := hstep (index + 1) (Nat.le_refl _)
        refine ⟨by omega, by rw [length_cons]; omega, fun j hj h hget => ?_, fun _ => ?_⟩
        · cases j with
          | zero =>
            obtain rfl := Option.some.inj hget
            exact hlisted
          | succ j => exact hall j (by omega) h hget
        · by_cases hsame : s.deepestSnapshot (index + 1) (index + 1) hashes = index + 1
          · exact ⟨0, hash, by omega, rfl, hsnap⟩
          · obtain ⟨j, h, heq, hget, hsome⟩ := hend hsame
            exact ⟨j + 1, h, by omega, hget, hsome⟩
      · obtain ⟨hge, hupper, hall, hend⟩ := hstep deepest (by omega)
        refine ⟨hge, by rw [length_cons]; omega, fun j hj h hget => ?_, fun hne => ?_⟩
        · cases j with
          | zero =>
            obtain rfl := Option.some.inj hget
            exact hlisted
          | succ j => exact hall j (by omega) h hget
        · obtain ⟨j, h, heq, hget, hsome⟩ := hend hne
          exact ⟨j + 1, h, by omega, hget, hsome⟩
    · refine ⟨Nat.le_refl _, by rw [length_cons]; omega, fun j hj => ?_, fun hne => absurd rfl hne⟩
      omega

/-- The second loop succeeds on listed hashes. -/
theorem takeBlocks_spec (hs : Sound n s H)
    (hlisted : ∀ hash ∈ hashes, (s.byHash.lookup hash).isSome) :
    ∃ blocks s', s.takeBlocks hashes = (some blocks, s') ∧ Sound n s' (blocks ++ H) ∧
      SamePublished s s' ∧ Listed s blocks hashes := by
  induction hashes generalizing s H with
  | nil => exact ⟨[], s, rfl, hs, .refl s, .nil⟩
  | cons hash hashes ih =>
    obtain ⟨l, hl⟩ := Option.isSome_iff_exists.mp (hlisted hash mem_cons_self)
    obtain ⟨b, rest, rfl⟩ : ∃ b rest, l = b :: rest :=
      exists_cons_of_ne_nil fun hnil => hs.listed_ne hash (hnil ▸ hl)
    have htake : s.takeBlock hash = (some b, s.refBlock b) := by
      rw [takeBlock, listedAt, hl]
      rfl
    obtain ⟨hhash, _, hs₁⟩ := hs.take htake
    obtain ⟨blocks, s', hrest, hsound, hsame, hlist⟩ :=
      ih hs₁ fun h hh => hlisted h (mem_cons_of_mem _ hh)
    refine ⟨b :: blocks, s', ?_, Sound.perm_middle hsound, hsame.ref, .cons hhash hlist⟩
    rw [takeBlocks, htake]
    dsimp only
    rw [hrest]

/-- With recurrent states the match ends at a page with a snapshot. -/
theorem takeSnapshotPrefix_spec {r : Option (List Nat × UInt64 × RecurrentSnapshot σ)}
    (hs : Sound n s H) (h : s.takeSnapshotPrefix hashes = (r, s')) :
    (r = none ∧ s' = s) ∨ ∃ blocks boundaryHash snapshot, r = some (blocks, boundaryHash, snapshot) ∧
      Sound n s' (blocks ++ H) ∧ SamePublished s s' ∧ blocks.length ≤ hashes.length ∧
      blocks ≠ [] ∧ Listed s blocks (hashes.take blocks.length) ∧
      boundaryHash = (hashes.take blocks.length).getLastD hashSeed ∧
      s.snapshots.lookup boundaryHash = some snapshot := by
  obtain ⟨_, hupper, hall, hend⟩ : 0 ≤ s.deepestSnapshot 0 0 hashes ∧ _ :=
    deepestSnapshot_spec (Nat.le_refl 0)
  unfold takeSnapshotPrefix at h
  dsimp only at h
  split at h
  · cases h
    exact .inl ⟨rfl, rfl⟩
  · next hne =>
    right
    obtain ⟨j, boundary, heq, hget, hsnap⟩ := hend hne
    rw [Nat.zero_add] at heq hupper
    obtain ⟨blocks, s₁, htake, hsound, hsame, hlisted⟩ :=
      takeBlocks_spec hs fun hash (hmem : hash ∈ hashes.take (s.deepestSnapshot 0 0 hashes)) => by
        obtain ⟨k, hk⟩ := mem_iff_getElem?.mp hmem
        rw [List.getElem?_take] at hk
        split at hk
        · next hlt => exact hall k (by omega) hash hk
        · cases hk
    have hlen : blocks.length = s.deepestSnapshot 0 0 hashes := by
      rw [hlisted.length_eq, length_take]
      omega
    have hpred : s.deepestSnapshot 0 0 hashes - 1 = j := by omega
    rw [htake, hpred, hget] at h
    dsimp only at h
    obtain ⟨snapshot, hsnapshot⟩ := Option.isSome_iff_exists.mp hsnap
    rw [hsame.snapshots, hsnapshot] at h
    cases h
    refine ⟨blocks, boundary, snapshot, rfl, hsound, hsame, by omega, ?_, by rwa [hlen], ?_,
      hsnapshot⟩
    · rintro rfl
      exact hne hlen.symm
    · rw [hlen, heq, take_add_one, hget]
      simp

/-! ## The ways out -/

variable {state state' : SeqState σ} {tokens : List Token}

/-- A match: each block is listed under the hash of the prompt up to its end, and the
states are those of the snapshot at the last one. -/
structure Matched (c : PoolConfig) (s : BlockStore σ) (state : SeqState σ) (tokens : List Token)
    (blocks : List Nat) (state' : SeqState σ) : Prop where
  same : ∃ kda conv, state' = { state with
    blocks
    lastHash := chainHash hashSeed (tokens.take (blocks.length * c.blockSize))
    cursor := blocks.length * c.blockSize
    kdaStates := kda
    convStates := conv }
  length_le : blocks.length ≤ (tokens.length - 1) / c.blockSize
  hashes : ∀ j b : Nat, blocks[j]? = some b →
    s.hashes b = some (chainHash hashSeed (tokens.take ((j + 1) * c.blockSize)))
  plain : c.recurrent = false →
    state'.kdaStates = state.kdaStates ∧ state'.convStates = state.convStates
  recurrent : c.recurrent = true → blocks ≠ [] ∧
    s.snapshots.lookup (chainHash hashSeed (tokens.take (blocks.length * c.blockSize))) =
      some (captureRecurrentSnapshot state')

theorem getLastD_pageHashes {k count : Nat} (hk : k ≤ count) :
    ((pageHashes c hash count tokens).take k).getLastD hash =
      chainHash hash (tokens.take (k * c.blockSize)) := by
  rw [pageHashes_eq, ← map_take, take_range, Nat.min_eq_left hk]
  cases k with
  | zero => simp
  | succ k => simp [range_succ]

theorem Listed.page {k count : Nat} (hk : k ≤ count)
    (h : Listed s blocks ((pageHashes c hash count tokens).take k)) {j b : Nat}
    (hb : blocks[j]? = some b) :
    s.hashes b = some (chainHash hash (tokens.take ((j + 1) * c.blockSize))) := by
  have hlt := (List.getElem?_eq_some_iff.mp hb).1
  have hlen := h.length_eq
  rw [pageHashes_eq, ← map_take, take_range, Nat.min_eq_left hk, length_map,
    length_range] at hlen
  rw [pageHashes_eq, ← map_take, take_range, Nat.min_eq_left hk] at h
  have hget := h.get hlt (by rw [length_map, length_range]; omega)
  obtain ⟨_, hval⟩ := List.getElem?_eq_some_iff.mp hb
  rw [get_eq_getElem, get_eq_getElem, hval, getElem_map, getElem_range] at hget
  exact hget

theorem restore_some {snapshot : RecurrentSnapshot σ}
    (h : restoreRecurrentSnapshot state snapshot = some state') :
    state' = { state with
      kdaStates := snapshot.kda
      convStates := snapshot.conv } := by
  unfold restoreRecurrentSnapshot at h
  split at h
  · cases h
    rfl
  · cases h

/-- A sequence that holds tokens is refused; otherwise nothing is taken and nothing
changes, or there is a match. -/
theorem prefillMatch_spec {r : Except String Nat} (hs : Sound n s H)
    (h : prefillMatch c s state tokens = (r, s', state')) :
    (¬ (state.cursor = 0 ∧ state.blocks = []) ∧ (∃ e, r = .error e) ∧ s' = s ∧ state' = state) ∨
    (state.cursor = 0 ∧ state.blocks = [] ∧ r = .ok 0 ∧ state' = state ∧ Sound n s' H ∧
      SamePublished s s') ∨
    (state.cursor = 0 ∧ state.blocks = [] ∧ ∃ blocks, r = .ok (blocks.length * c.blockSize) ∧
      Sound n s' (blocks ++ H) ∧ SamePublished s s' ∧ Matched c s state tokens blocks state') := by
  unfold prefillMatch at h
  split at h
  · next hholds =>
    cases h
    refine .inl ⟨fun ⟨hcursor, hblocks⟩ => ?_, ⟨_, rfl⟩, rfl, rfl⟩
    rcases hholds with hpos | hne
    · omega
    · exact hne hblocks
  · next hempty =>
    rw [not_or, not_not] at hempty
    obtain ⟨hcursor, hblocks⟩ := hempty
    replace hcursor : state.cursor = 0 := by omega
    right
    split at h
    · cases h
      exact .inl ⟨hcursor, hblocks, rfl, rfl, hs, .refl _⟩
    · dsimp only at h
      have hcount : (pageHashes c hashSeed ((tokens.length - 1) / c.blockSize) tokens).length =
          (tokens.length - 1) / c.blockSize := by
        rw [pageHashes_eq, length_map, length_range]
      split at h
      · next hrecurrent =>
        split at h
        · next s₁ htake =>
          cases h
          rcases takeSnapshotPrefix_spec hs htake with ⟨_, rfl⟩ | ⟨_, _, _, hsome, _⟩
          · exact .inl ⟨hcursor, hblocks, rfl, rfl, hs, .refl _⟩
          · cases hsome
        · next blocks boundary snapshot s₁ htake =>
          rcases takeSnapshotPrefix_spec hs htake with ⟨hnone, _⟩ |
            ⟨_, _, _, hsome, hsound, hsame, hlen, hne, hlisted, hlast, hsnap⟩
          · cases hnone
          · cases hsome
            rw [hcount] at hlen
            rw [getLastD_pageHashes hlen] at hlast
            split at h
            · -- a snapshot of another shape: the blocks are dropped again
              cases h
              refine .inl ⟨hcursor, hblocks, rfl, rfl, sound_lawful.unrefBlocks hsound, ?_⟩
              exact ⟨(unrefBlocks_hashes _).trans hsame.hashes,
                (unrefBlocks_byHash _).trans hsame.byHash,
                (unrefBlocks_snapshots _).trans hsame.snapshots⟩
            · next state₁ hrestore =>
              have hrestored := restore_some hrestore
              cases h
              refine .inr ⟨hcursor, hblocks, blocks, rfl, hsound, hsame, ?_⟩
              rw [hlast] at hsnap
              subst hrestored
              exact
                { same := ⟨_, _, by rw [hlast]⟩
                  length_le := hlen
                  hashes := fun j b hb => hlisted.page hlen hb
                  plain := fun hplain => by
                    rw [hrecurrent] at hplain
                    cases hplain
                  recurrent := fun _ => ⟨hne, hsnap⟩ }
      · next hplain =>
        cases htake : takeMatching (pageHashes c hashSeed ((tokens.length - 1) / c.blockSize) tokens)
            hashSeed s with
        | mk blocks rest =>
          obtain ⟨hash', s₁⟩ := rest
          rw [htake] at h
          cases h
          obtain ⟨hsound, hsame, hlen, hlisted, hlast⟩ := takeMatching_spec hs htake
          rw [hcount] at hlen
          rw [getLastD_pageHashes hlen] at hlast
          refine .inr ⟨hcursor, hblocks, blocks, rfl, hsound, hsame, ?_⟩
          exact
            { same := ⟨_, _, by rw [hlast]⟩
              length_le := hlen
              hashes := fun j b hb => hlisted.page hlen hb
              plain := fun _ => ⟨rfl, rfl⟩
              recurrent := fun hrecurrent => absurd hrecurrent hplain }

end Matching

end EffectTorch
