import EffectTorch.Cpu.BlockStore
import EffectTorch.Graph.Node

/-!
# Sequences of the KV page pool

`SeqState` and the code that changes it while a stateful execution runs:
`kv_prepare`, `kv_evict`, `note_tokens`, `copy_shared_tail`, `prefill_match` and the
lane bodies of `CpuState::begin` and `CpuState::rollback` (`runtime-cpu/src/napi`).

A row of a layer is everything the slabs of that layer hold at one physical
position: the key, the value and their scales. Rows and scalars are parameters.
-/

namespace EffectTorch

/-! ## Configuration -/

/-- The element types of a page. -/
inductive KvDType where
  | f32
  | f16
  | bf16
  | u8
deriving DecidableEq, Repr

def KvDType.sizeInBytes : KvDType → Nat
  | .f32 => 4
  | .f16 | .bf16 => 2
  | .u8 => 1

structure KvLayerDescriptor where
  layerId : Nat
  kvHeads : Nat
  headDim : Nat
  dtype : KvDType
  retention : Option Nat
deriving DecidableEq, Repr

structure KdaGeometry where
  layers : Nat
  heads : Nat
  headDim : Nat
  valueDim : Nat

structure ConvGeometry where
  layers : Nat
  channels : Nat
  kernel : Nat

/-- The fields of `PoolInner` that never change, with the checks of
`NativeKvPool::new` on the capacity. -/
structure PoolConfig where
  kvLayers : List KvLayerDescriptor
  explicitLayers : Bool
  kvHeads : Nat
  headDim : Nat
  blockSize : Nat
  maxTokens : Nat
  kda : KdaGeometry
  conv : ConvGeometry
  blockSize_pos : 0 < blockSize
  maxTokens_pos : 0 < maxTokens
  blockSize_dvd : blockSize ∣ maxTokens

namespace PoolConfig

variable (c : PoolConfig)

def numBlocks : Nat := c.maxTokens / c.blockSize

/-- Bytes of one page over the key, value and scale slabs of every layer. -/
def pageBytes : Nat :=
  (c.kvLayers.map fun layer =>
    2 * (c.blockSize * (layer.kvHeads * layer.headDim) * layer.dtype.sizeInBytes) +
      if layer.dtype = .u8 then 2 * (c.blockSize * layer.kvHeads * KvDType.f32.sizeInBytes) else 0).sum

/-- `retention_start`. -/
def retentionStart (cursor : Nat) : Nat :=
  (c.kvLayers.map fun layer =>
    match layer.retention with
    | some retention => cursor - retention
    | none => 0).min?.getD 0

/-- Where an attention command puts the start of what commit keeps. -/
def evictionStart (window : Option Nat) (stop : Nat) : Nat :=
  if c.explicitLayers then c.retentionStart stop
  else
    match window with
    | some window => stop - window
    | none => 0

/-- Whether a pool holds recurrent states. -/
def recurrent : Bool := decide (0 < c.kda.layers) || decide (0 < c.conv.layers)

end PoolConfig

/-- The fields of `PoolInner` that change: the locked block store, and the slabs
as rows by layer and physical position. -/
structure PoolInner (ρ σ : Type) where
  store : BlockStore σ
  rows : Nat → Nat → ρ

structure SeqState (σ : Type) where
  transactionTail : Option Nat
  copiedBytes : Nat
  blocks : List Nat
  head : Nat
  cursor : Nat
  advance : Nat
  lastHash : UInt64
  pending : List Token
  kdaStates : List (List σ)
  convStates : List (List σ)
deriving DecidableEq

section Operations

variable {ρ σ : Type} (c : PoolConfig)

/-! ## Recurrent states -/

/-- `capture_recurrent_snapshot`. -/
def captureRecurrentSnapshot (state : SeqState σ) : RecurrentSnapshot σ :=
  ⟨state.kdaStates, state.convStates⟩

/-- `restore_recurrent_snapshot`. -/
def restoreRecurrentSnapshot (state : SeqState σ) (snapshot : RecurrentSnapshot σ) :
    Option (SeqState σ) :=
  if snapshot.kda.map List.length = state.kdaStates.map List.length ∧
      snapshot.conv.map List.length = state.convStates.map List.length then
    some { state with
      kdaStates := snapshot.kda
      convStates := snapshot.conv }
  else none

/-- `maybe_publish_recurrent_snapshot`. -/
def maybePublishRecurrentSnapshot (store : BlockStore σ) (state : SeqState σ) : BlockStore σ :=
  if c.kvLayers = [] ∨ c.recurrent = false then store
  else if state.cursor = 0 ∨ state.cursor % c.blockSize ≠ 0 then store
  else store.publishSnapshot state.lastHash (captureRecurrentSnapshot state)

/-- The state of `NativeKvSequence::new`. -/
def SeqState.new [Zero σ] : SeqState σ where
  transactionTail := none
  copiedBytes := 0
  blocks := []
  head := 0
  cursor := 0
  advance := 0
  lastHash := hashSeed
  pending := []
  kdaStates :=
    List.replicate c.kda.layers (List.replicate (c.kda.heads * c.kda.headDim * c.kda.valueDim) 0)
  convStates :=
    List.replicate c.conv.layers (List.replicate ((c.conv.kernel - 1) * c.conv.channels) 0)

/-! ## Pages -/

/-- The physical row of a position (`physical` in `kv_attention_typed`). -/
def physical (blocks : List Nat) (position : Nat) : Nat :=
  blocks.getD (position / c.blockSize) 0 * c.blockSize + position % c.blockSize

/-- `copy_rows` on every slab: page `new` becomes a copy of page `old`. -/
def copyPage (rows : Nat → Nat → ρ) (old new : Nat) : Nat → Nat → ρ := fun layer row =>
  if row / c.blockSize = new then rows layer (old * c.blockSize + row % c.blockSize)
  else rows layer row

/-- `copy_shared_tail`. -/
def copySharedTail (pool : PoolInner ρ σ) (state : SeqState σ) :
    Except String Unit × PoolInner ρ σ × SeqState σ :=
  if state.cursor % c.blockSize = 0 then (.ok (), pool, state)
  else
    match state.blocks[state.cursor / c.blockSize]? with
    | none => (.ok (), pool, state)
    | some old =>
      if state.transactionTail = some old then (.ok (), pool, state)
      else if pool.store.refcounts old ≤ 1 then (.ok (), pool, state)
      else
        match pool.store.allocBlock with
        | (none, store) =>
          (.error "kv pool: exhausted while copying shared tail", { pool with store }, state)
        | (some new, store) =>
          (.ok (), ⟨store.unrefBlock old, copyPage c pool.rows old new⟩,
            { state with
              copiedBytes := state.copiedBytes + c.pageBytes
              blocks := state.blocks.set (state.cursor / c.blockSize) new })

/-- The `while` loop of `kv_prepare`, for at most `fuel` turns. -/
def leaseBlocks (needed : Nat) :
    Nat → BlockStore σ → List Nat → Except String Unit × BlockStore σ × List Nat
  | 0, store, blocks => (.ok (), store, blocks)
  | fuel + 1, store, blocks =>
    if blocks.length * c.blockSize < needed then
      match store.allocBlock with
      | (none, store) =>
        (.error s!"kv attention: pool exhausted ({c.maxTokens} tokens across live sequences)",
          store, blocks)
      | (some block, store) => leaseBlocks needed fuel store (blocks ++ [block])
    else (.ok (), store, blocks)

/-- What an attention command is about: the layer it reads and writes, its own
window, and the shape of its key input. `tokens` is the chunk length that the
command plans for. -/
structure AttentionCommand where
  layer : Nat
  window : Option Nat
  mode : KvAttentionMode
  kvHeads : Nat
  width : Nat
  tokens : Nat

/-- The `start` of `kv_prepare`. -/
def contextStart (window : Option Nat) (mode : KvAttentionMode) (cursor needed : Nat) : Nat :=
  if c.explicitLayers then c.retentionStart cursor
  else
    match window with
    | some window => if mode = .bidirectionalBlock then cursor - window else needed - window
    | none => 0

/-- `kv_prepare`, with the window of the executable. It ends in `(cursor, needed,
start)`; an error keeps the blocks leased before it. -/
def kvPrepare (pool : PoolInner ρ σ) (state : SeqState σ) (window : Option Nat)
    (command : AttentionCommand) : Except String (Nat × Nat × Nat) × PoolInner ρ σ × SeqState σ :=
  match c.kvLayers[command.layer]? with
  | none =>
    (.error s!"kv attention: layer {command.layer} out of range for {c.kvLayers.length} pool layers",
      pool, state)
  | some layer =>
    if command.kvHeads ≠ layer.kvHeads ∨ command.width ≠ layer.headDim then
      (.error s!"kv attention: layer {command.layer} shape [{command.kvHeads}, {command.width}] does not match pool geometry [{c.kvHeads}, {c.headDim}]",
        pool, state)
    else if state.advance = 0 ∨ command.tokens < state.advance then
      (.error s!"kv attention: advance {state.advance} out of range for chunk length {command.tokens}",
        pool, state)
    else
      let needed := state.cursor + state.advance
      if u32Max < needed then (.error "kv attention: cursor overflow", pool, state)
      else
        let start := contextStart c window command.mode state.cursor needed
        if c.maxTokens < needed - start then
          (.error s!"kv attention: live context {needed - start} exceeds pool capacity {c.maxTokens}",
            pool, state)
        else
          match copySharedTail c pool state with
          | (.error e, pool, state) => (.error e, pool, state)
          | (.ok (), pool, state) =>
            match leaseBlocks c needed needed pool.store state.blocks with
            | (.error e, store, blocks) => (.error e, { pool with store }, { state with blocks })
            | (.ok (), store, blocks) =>
              (.ok (state.cursor, needed, start), { pool with store }, { state with blocks })

/-- Writing the rows of a chunk from `position` on. -/
def writeRows (blocks : List Nat) (layer : Nat) :
    (Nat → Nat → ρ) → Nat → List ρ → Nat → Nat → ρ
  | slabs, _, [] => slabs
  | slabs, position, row :: rest =>
    writeRows blocks layer
      (Function.update slabs layer (Function.update (slabs layer) (physical c blocks position) row))
      (position + 1) rest

/-- What `kv_attention_typed` does to the pool and to one lane of an append
execution. `rows` are the rows that the command's inputs give. The value is the
lane's entry of `eviction_starts`. -/
def kvAttention (pool : PoolInner ρ σ) (state : SeqState σ) (window : Option Nat)
    (command : AttentionCommand) (rows : List ρ) :
    Except String Nat × PoolInner ρ σ × SeqState σ :=
  match c.kvLayers[command.layer]? with
  | none => (.error "kv attention: missing layer", pool, state)
  | some layer =>
    if layer.kvHeads ≠ command.kvHeads ∨ layer.headDim ≠ command.width then
      (.error "kv attention: layer descriptor mismatch", pool, state)
    else if state.advance = 0 ∨ command.tokens < state.advance then
      (.error "kv attention: invalid query length", pool, state)
    else
      match kvPrepare c pool state window command with
      | (.error e, pool, state) => (.error e, pool, state)
      | (.ok _, pool, state) =>
        let pool := { pool with
          rows := writeRows c state.blocks command.layer pool.rows state.cursor
            (rows.take state.advance) }
        if rows.length < state.advance then
          (.error "kv attention: tensor dtype mismatch", pool, state)
        else (.ok (c.evictionStart window (state.cursor + state.advance)), pool, state)

/-- The loop of `kv_evict` over the blocks from `head` on. -/
def evictBlocks (start : Nat) : List Nat → Nat → BlockStore σ → Nat × BlockStore σ
  | [], head, store => (head, store)
  | block :: rest, head, store =>
    if (head + 1) * c.blockSize ≤ start then
      evictBlocks start rest (head + 1) (store.unrefBlock block)
    else (head, store)

/-- `kv_evict`. -/
def kvEvict (store : BlockStore σ) (state : SeqState σ) (start : Nat) :
    BlockStore σ × SeqState σ :=
  let (head, store) := evictBlocks c start (state.blocks.drop state.head) state.head store
  (store, { state with head })

/-! ## Transactions -/

structure RetainedCpuBlock where
  index : Nat
  block : Nat
deriving DecidableEq, Repr

structure CpuSequenceFrontier where
  blocks : Nat
  copiedBytes : Nat
  tail : Option RetainedCpuBlock
deriving DecidableEq, Repr

/-- The tail that `begin` retains: the partial last page, if it is shared. -/
def sharedTail (store : BlockStore σ) (state : SeqState σ) : Option RetainedCpuBlock :=
  if state.cursor % c.blockSize = 0 then none
  else
    match state.blocks[state.cursor / c.blockSize]? with
    | none => none
    | some block =>
      if 1 < store.refcounts block then some ⟨state.cursor / c.blockSize, block⟩ else none

/-- The body of `begin` for one lane of an append execution, after
`execute_stateful` has set `advance`. -/
def beginLane (store : BlockStore σ) (state : SeqState σ) (tokens : List Token) :
    BlockStore σ × SeqState σ × CpuSequenceFrontier :=
  let tail := sharedTail c store state
  (store.refBlocks (tail.toList.map (·.block)), { state with advance := tokens.length },
    ⟨state.blocks.length, state.copiedBytes, tail⟩)

/-- Putting the retained tail back. -/
def restoreTail (store : BlockStore σ) (blocks : List Nat) :
    Option RetainedCpuBlock → BlockStore σ × List Nat
  | none => (store, blocks)
  | some tail =>
    if blocks[tail.index]? = some tail.block then (store, blocks)
    else
      ((store.refBlock tail.block).unrefBlock (blocks.getD tail.index 0),
        blocks.set tail.index tail.block)

/-- The body of `rollback` for one lane. The frontier is dropped at its end, and
`execute_stateful` clears `advance`. -/
def rollbackLane (store : BlockStore σ) (state : SeqState σ) (frontier : CpuSequenceFrontier) :
    BlockStore σ × SeqState σ :=
  let store := store.unrefBlocks (state.blocks.drop frontier.blocks)
  let (store, blocks) := restoreTail store (state.blocks.take frontier.blocks) frontier.tail
  (store.unrefBlocks (frontier.tail.toList.map (·.block)),
    { state with
      blocks
      copiedBytes := frontier.copiedBytes
      advance := 0 })

/-! ## Publication -/

/-- The loop of `note_tokens_deferred` from the token at `index` on. -/
def noteTokensFrom : Nat → List Token → SeqState σ → SeqState σ × List (Nat × UInt64)
  | _, [], state => (state, [])
  | index, token :: tokens, state =>
    let pending := state.pending ++ [token]
    if pending.length = c.blockSize then
      let hash := chainHash state.lastHash pending
      let (next, hashes) := noteTokensFrom (index + 1) tokens
        { state with
          lastHash := hash
          pending := [] }
      match state.blocks[(state.cursor + index) / c.blockSize]? with
      | some block => (next, (block, hash) :: hashes)
      | none => (next, hashes)
    else noteTokensFrom (index + 1) tokens { state with pending }

/-- `note_tokens_deferred`. -/
def noteTokensDeferred (state : SeqState σ) (tokens : List Token) :
    SeqState σ × List (Nat × UInt64) :=
  noteTokensFrom c 0 tokens state

/-- `note_tokens`. -/
def noteTokens (store : BlockStore σ) (state : SeqState σ) (tokens : List Token) :
    BlockStore σ × SeqState σ :=
  let (state, hashes) := noteTokensDeferred c state tokens
  (hashes.foldl (fun store entry => store.setHash entry.1 entry.2) store, state)

/-- What `execute_stateful` does to one lane after a successful commit. -/
def publishLane (store : BlockStore σ) (state : SeqState σ) (tokens : List Token) :
    BlockStore σ × SeqState σ :=
  let (store, state) := noteTokens c store state tokens
  let state := { state with
    cursor := state.cursor + state.advance
    advance := 0 }
  (maybePublishRecurrentSnapshot c store state, state)

/-! ## Matching and releasing -/

/-- The chained hashes of the first `count` pages of a prompt, from `hash` on. -/
def pageHashes (hash : UInt64) : Nat → List Token → List UInt64
  | 0, _ => []
  | count + 1, tokens =>
    let next := chainHash hash (tokens.take c.blockSize)
    next :: pageHashes next count (tokens.drop c.blockSize)

/-- The loop of `prefill_match` without recurrent states: the blocks taken up to the
first miss and the hash reached. -/
def takeMatching : List UInt64 → UInt64 → BlockStore σ → List Nat × UInt64 × BlockStore σ
  | [], hash, store => ([], hash, store)
  | next :: hashes, hash, store =>
    match store.takeBlock next with
    | (some block, store) =>
      let (blocks, hash, store) := takeMatching hashes next store
      (block :: blocks, hash, store)
    | (none, store) => ([], hash, store)

/-- `prefill_match` on a sequence that is not released. -/
def prefillMatch (store : BlockStore σ) (state : SeqState σ) (tokens : List Token) :
    Except String Nat × BlockStore σ × SeqState σ :=
  if 0 < state.cursor ∨ state.blocks ≠ [] then
    (.error "prefill match: sequence already holds tokens", store, state)
  else if c.recurrent ∧ c.kvLayers = [] then (.ok 0, store, state)
  else
    let matchable := (tokens.length - 1) / c.blockSize
    let hashes := pageHashes c hashSeed matchable tokens
    if c.recurrent then
      match store.takeSnapshotPrefix hashes with
      | (none, store) => (.ok 0, store, state)
      | (some (blocks, boundaryHash, snapshot), store) =>
        match restoreRecurrentSnapshot state snapshot with
        | none => (.ok 0, store.unrefBlocks blocks, state)
        | some state =>
          let cursor := blocks.length * c.blockSize
          (.ok cursor, store, { state with
            blocks
            lastHash := boundaryHash
            cursor })
    else
      let (blocks, hash, store) := takeMatching hashes hashSeed store
      let cursor := blocks.length * c.blockSize
      (.ok cursor, store, { state with
        blocks
        lastHash := hash
        cursor })

/-- `return_blocks`. -/
def returnBlocks (store : BlockStore σ) (state : SeqState σ) : BlockStore σ × SeqState σ :=
  (store.unrefBlocks (state.blocks.drop state.head),
    { state with
      blocks := state.blocks.take state.head
      cursor := 0
      advance := 0
      lastHash := hashSeed
      pending := [] })

end Operations

end EffectTorch
