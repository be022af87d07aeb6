import Mathlib

/-!
# The block store of the KV page pool

`BlockStore` and the operations `PoolInner` runs under its lock
(`runtime-cpu/src/napi/mod.rs`). Blocks are page numbers. The slices `refcounts`
and `hashes` are functions on them: every index the pool uses is a page it owns.
-/

namespace EffectTorch

abbrev Token := UInt32

/-! ## Chain hashes -/

def hashSeed : UInt64 := 0xcbf29ce484222325

def hashPrime : UInt64 := 0x00000100000001b3

/-- `u32::to_le_bytes`. -/
def toLeBytes (token : Token) : List UInt64 :=
  [token, token >>> 8, token >>> 16, token >>> 24].map fun word => (word &&& 0xff).toUInt64

/-- `chain_hash`. -/
def chainHash (previous : UInt64) (tokens : List Token) : UInt64 :=
  tokens.foldl (fun hash token =>
    (toLeBytes token).foldl (fun hash byte => (hash ^^^ byte) * hashPrime) hash) previous

@[simp] theorem chainHash_nil (previous : UInt64) : chainHash previous [] = previous := rfl

/-- The hash of a chunk chained to its context is the hash of both. -/
theorem chainHash_append (previous : UInt64) (tokens tokens' : List Token) :
    chainHash previous (tokens ++ tokens') = chainHash (chainHash previous tokens) tokens' := by
  simp [chainHash, List.foldl_append]

/-! ## The store -/

/-- The recurrent states of a sequence, one list of scalars per layer. -/
structure RecurrentSnapshot (σ : Type) where
  kda : List (List σ)
  conv : List (List σ)
deriving DecidableEq

/-- `free` is the stack of the source with its top first. -/
structure BlockStore (σ : Type) where
  free : List Nat
  refcounts : Nat → Nat
  hashes : Nat → Option UInt64
  byHash : AList fun _ : UInt64 => List Nat
  snapshots : AList fun _ : UInt64 => RecurrentSnapshot σ
  lru : List Nat

/-- `Vec::swap_remove`: the last element fills the hole. -/
def swapRemove (l : List Nat) (index : Nat) : List Nat :=
  match l.getLast? with
  | some last => (l.set index last).dropLast
  | none => l

namespace BlockStore

variable {σ : Type}

/-- `BlockStore::new`. -/
def new (numBlocks : Nat) : BlockStore σ where
  free := List.range numBlocks
  refcounts := fun _ => 0
  hashes := fun _ => none
  byHash := ∅
  snapshots := ∅
  lru := []

/-- The blocks `by_hash` lists under a hash. -/
def listedAt (store : BlockStore σ) (hash : UInt64) : List Nat :=
  (store.byHash.lookup hash).getD []

/-- `is_cached`. -/
def isCached (store : BlockStore σ) (block : Nat) : Bool :=
  decide (store.refcounts block = 0) &&
    match store.hashes block with
    | some hash => decide (block ∈ store.listedAt hash)
    | none => false

/-- `uncache`. -/
def uncache (store : BlockStore σ) (block : Nat) (hash : UInt64) : BlockStore σ :=
  match store.byHash.lookup hash with
  | none => store
  | some blocks =>
    let blocks := if block ∈ blocks then swapRemove blocks (blocks.idxOf block) else blocks
    if blocks = [] then
      { store with
        byHash := store.byHash.erase hash
        snapshots := store.snapshots.erase hash }
    else { store with byHash := store.byHash.insert hash blocks }

/-- `cached`. -/
def cached (store : BlockStore σ) : Nat :=
  (store.byHash.entries.map fun entry =>
    (entry.2.filter fun block => store.refcounts block = 0).length).sum

/-- `available`. -/
def available (store : BlockStore σ) : Nat :=
  store.free.length + store.cached

/-- `ref_block`. -/
def refBlock (store : BlockStore σ) (block : Nat) : BlockStore σ :=
  { store with refcounts := Function.update store.refcounts block (store.refcounts block + 1) }

/-- What `alloc_block` does to the block it returns. -/
def lease (store : BlockStore σ) (block : Nat) : BlockStore σ :=
  { store with
    refcounts := Function.update store.refcounts block 1
    hashes := Function.update store.hashes block none }

/-- The `while let` of `alloc_block` over the `lru` queue. -/
def allocCached (store : BlockStore σ) : List Nat → Option Nat × BlockStore σ
  | [] => (none, { store with lru := [] })
  | candidate :: rest =>
    if store.isCached candidate then
      match store.hashes candidate with
      | some hash => (some candidate, ({ store with lru := rest }.uncache candidate hash).lease candidate)
      -- `expect("cached block has a hash")`: `isCached` has just seen it
      | none => (none, store)
    else allocCached store rest

/-- `alloc_block`. A failed call still drops the stale entries of `lru`. -/
def allocBlock (store : BlockStore σ) : Option Nat × BlockStore σ :=
  match store.free with
  | block :: free => (some block, { store with free }.lease block)
  | [] => store.allocCached store.lru

/-- `take_block`. -/
def takeBlock (store : BlockStore σ) (hash : UInt64) : Option Nat × BlockStore σ :=
  match store.listedAt hash with
  | block :: _ => (some block, store.refBlock block)
  | [] => (none, store)

/-- `unref_block`. -/
def unrefBlock (store : BlockStore σ) (block : Nat) : BlockStore σ :=
  let count := store.refcounts block - 1
  let store := { store with refcounts := Function.update store.refcounts block count }
  if count = 0 then
    match store.hashes block with
    | some _ => { store with lru := store.lru ++ [block] }
    | none => { store with free := block :: store.free }
  else store

/-- `set_hash`. -/
def setHash (store : BlockStore σ) (block : Nat) (hash : UInt64) : BlockStore σ :=
  { store with
    hashes := Function.update store.hashes block (some hash)
    byHash := store.byHash.insert hash (store.listedAt hash ++ [block]) }

/-- `publish_snapshot`. -/
def publishSnapshot (store : BlockStore σ) (hash : UInt64) (snapshot : RecurrentSnapshot σ) :
    BlockStore σ :=
  if (store.byHash.lookup hash).isSome then
    { store with snapshots := store.snapshots.insert hash snapshot }
  else store

/-- The first loop of `take_snapshot_prefix`: how many leading hashes are listed,
up to the deepest one with a snapshot. `index` hashes were visited. -/
def deepestSnapshot (store : BlockStore σ) : Nat → Nat → List UInt64 → Nat
  | _, deepest, [] => deepest
  | index, deepest, hash :: hashes =>
    if (store.byHash.lookup hash).isSome then
      if (store.snapshots.lookup hash).isSome then
        deepestSnapshot store (index + 1) (index + 1) hashes
      else deepestSnapshot store (index + 1) deepest hashes
    else deepest

/-- The second loop of `take_snapshot_prefix`. When a list is missing or empty the
blocks taken so far stay referenced. -/
def takeBlocks (store : BlockStore σ) : List UInt64 → Option (List Nat) × BlockStore σ
  | [] => (some [], store)
  | hash :: hashes =>
    match store.takeBlock hash with
    | (none, store) => (none, store)
    | (some block, store) =>
      match takeBlocks store hashes with
      | (none, store) => (none, store)
      | (some blocks, store) => (some (block :: blocks), store)

/-- `take_snapshot_prefix`. -/
def takeSnapshotPrefix (store : BlockStore σ) (hashes : List UInt64) :
    Option (List Nat × UInt64 × RecurrentSnapshot σ) × BlockStore σ :=
  let deepest := store.deepestSnapshot 0 0 hashes
  if deepest = 0 then (none, store)
  else
    match store.takeBlocks (hashes.take deepest), hashes[deepest - 1]? with
    | (some blocks, store), some boundaryHash =>
      match store.snapshots.lookup boundaryHash with
      | some snapshot => (some (blocks, boundaryHash, snapshot), store)
      | none => (none, store)
    | (_, store), _ => (none, store)

/-- A loop of `ref_block` calls. -/
def refBlocks (store : BlockStore σ) (blocks : List Nat) : BlockStore σ :=
  blocks.foldl refBlock store

/-- A loop of `unref_block` calls. -/
def unrefBlocks (store : BlockStore σ) (blocks : List Nat) : BlockStore σ :=
  blocks.foldl unrefBlock store

end BlockStore

end EffectTorch
