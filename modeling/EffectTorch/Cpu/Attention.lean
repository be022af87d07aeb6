import EffectTorch.Cpu.LaneOps
import EffectTorch.Lib.Softmax

/-!
# Paged attention

The arithmetic of `kv_attention_typed`, for slabs that are not quantized and over any
field with an exponential: rounding is the identity there, and the two accumulation
orders of `AttentionRounding` are kept.

Results:
1. `attendColumn_eq`: each output is a softmax mean over the attended range.
2. `kvAttentionRow_append`: a row of an append execution does what `kvAttention` does.
-/

namespace EffectTorch
open Lib BlockStore

/-- The parts of an attention command that its arithmetic reads. `stepwise` is
`AttentionRounding::Stepwise`. -/
structure AttentionKernel (α : Type) where
  heads : Nat
  scale : α
  stepwise : Bool

/-- The elements of a slab row, by key-value head and column. -/
structure SlabRow (ρ α : Type) where
  key : ρ → Nat → Nat → α
  value : ρ → Nat → Nat → α

section Arithmetic

variable {α : Type} [Field α] [LinearOrder α] (exp : α → α)

/-- The loop over `maximum`, which starts below every score. -/
def maximumScore : List α → α
  | [] => 0
  | score :: rest => rest.foldl max score

/-- `score`: the scaled product of a query with the key at a position. -/
def attentionScore (kernel : AttentionKernel α) (width : Nat) (query : Nat → α)
    (key : Nat → Nat → α) (position : Nat) : α :=
  (List.range width).foldl (fun dot column => dot + query column * key position column) 0 *
    kernel.scale

/-- One column of the output, over the positions from `start` to before `stop`. -/
def attendColumn (kernel : AttentionKernel α) (start stop : Nat) (score value : Nat → α) : α :=
  let positions := List.range' start (stop - start)
  let maximum := maximumScore (positions.map score)
  let denominator := positions.foldl (fun total position =>
    total + exp (score position - maximum)) 0
  let result := positions.foldl (fun total position =>
    total + (if kernel.stepwise then exp (score position - maximum) / denominator
      else exp (score position - maximum)) * value position) 0
  if kernel.stepwise then result else result / denominator

/-- Both orders give the softmax mean. -/
theorem attendColumn_eq {exp : α → α} (hexp : ExpLaws exp) (kernel : AttentionKernel α)
    {start stop : Nat} (hle : start ≤ stop) (score value : Nat → α) :
    attendColumn exp kernel start stop score value =
      softmaxMean exp (Finset.Ico start stop) score value := by
  unfold attendColumn
  dsimp only
  rw [foldl_add_range', foldl_add_range', Nat.add_sub_of_le hle]
  generalize maximumScore ((List.range' start (stop - start)).map score) = maximum
  rw [← softmaxMean_shift hexp _ score value maximum]
  cases kernel.stepwise with
  | true => exact softmaxMean_weights _ _ _
  | false => rfl

end Arithmetic

section Rows

variable {ρ σ α : Type} [Field α] [LinearOrder α] (c : PoolConfig) (slab : SlabRow ρ α)
  (exp : α → α)

/-- `prefix_start`. -/
def prefixStart (layer : KvLayerDescriptor) (state : SeqState σ) : Nat :=
  max (match layer.retention with
    | some retention => state.cursor - retention
    | none => 0) (state.head * c.blockSize)

/-- `end` of a query. -/
def queryStop (mode : KvAttentionMode) (rowPosition valid query : Nat) : Nat :=
  match mode with
  | .bidirectionalBlock => rowPosition + valid
  | .causal => rowPosition + query + 1

/-- `begin` of a query. -/
def queryStart (window : Option Nat) (mode : KvAttentionMode) (cursor stop first : Nat) : Nat :=
  match window with
  | some window =>
    match mode with
    | .bidirectionalBlock => max (cursor - window) first
    | .causal => max (stop - window) first
  | none => first

/-- The loops over heads, queries and columns: the output at a query, a head and a
column. `query` has the same indices. -/
def attendRows (kernel : AttentionKernel α) (command : AttentionCommand)
    (rows : Nat → Nat → ρ) (blocks : List Nat) (cursor first rowPosition valid : Nat)
    (query : Nat → Nat → Nat → α) : Nat → Nat → Nat → α := fun token head column =>
  let kvHead := head / (kernel.heads / command.kvHeads)
  let stop := queryStop command.mode rowPosition valid token
  let start := queryStart command.window command.mode cursor stop first
  attendColumn exp kernel start stop
    (attentionScore kernel command.width (query token head) fun position =>
      slab.key (rowAt c rows blocks command.layer position) kvHead)
    fun position => slab.value (rowAt c rows blocks command.layer position) kvHead column

/-- One turn of the loop of `kv_attention_typed` over the graph rows of an appending
execution: the entry of `eviction_starts` and the output. `packed` is the position of
the row in a packed execution. -/
def kvAttentionRow (kernel : AttentionKernel α) (pool : PoolInner ρ σ) (state : SeqState σ)
    (window : Option Nat) (command : AttentionCommand) (packed : Option Nat) (rows : List ρ)
    (query : Nat → Nat → Nat → α) :
    Except String (Nat × (Nat → Nat → Nat → α)) × PoolInner ρ σ × SeqState σ :=
  match c.kvLayers[command.layer]? with
  | none => (.error "kv attention: missing layer", pool, state)
  | some layer =>
    if layer.kvHeads ≠ command.kvHeads ∨ layer.headDim ≠ command.width then
      (.error "kv attention: layer descriptor mismatch", pool, state)
    else
      let valid := if packed.isSome then 1 else state.advance
      let rowPosition := packed.getD state.cursor
      if valid = 0 ∨ command.tokens < valid then
        (.error "kv attention: invalid query length", pool, state)
      else
        let first := prefixStart c layer state
        let planned := if packed.isSome then state.advance else command.tokens
        match kvPrepare c pool state window { command with tokens := planned } with
        | (.error e, pool, state) => (.error e, pool, state)
        | (.ok _, pool, state) =>
          let pool := { pool with
            rows := writeRows c state.blocks command.layer pool.rows rowPosition (rows.take valid) }
          if rows.length < valid then
            (.error "kv attention: tensor dtype mismatch", pool, state)
          else
            (.ok (c.evictionStart window (state.cursor + state.advance),
              attendRows c slab exp kernel command pool.rows state.blocks state.cursor first
                rowPosition valid query), pool, state)

/-- What a turn that succeeds has done. -/
structure RowDone (kernel : AttentionKernel α) (pool : PoolInner ρ σ) (state : SeqState σ)
    (window : Option Nat) (command : AttentionCommand) (valid planned rowPosition : Nat)
    (rows : List ρ) (query : Nat → Nat → Nat → α) (start : Nat) (out : Nat → Nat → Nat → α)
    (pool' : PoolInner ρ σ) (state' : SeqState σ) : Prop where
  layer : ∃ layer, c.kvLayers[command.layer]? = some layer ∧
    ¬ (layer.kvHeads ≠ command.kvHeads ∨ layer.headDim ≠ command.width) ∧
    out = attendRows c slab exp kernel command pool'.rows state'.blocks state.cursor
      (prefixStart c layer state) rowPosition valid query
  inRange : ¬ (valid = 0 ∨ command.tokens < valid)
  given : valid ≤ rows.length
  prepared : ∃ pool₁ context,
    kvPrepare c pool state window { command with tokens := planned } =
      (.ok context, pool₁, state') ∧
    pool' = { pool₁ with
      rows := writeRows c state'.blocks command.layer pool₁.rows rowPosition (rows.take valid) }
  start : start = c.evictionStart window (state.cursor + state.advance)

theorem kvAttentionRow_ok {kernel : AttentionKernel α} {pool pool' : PoolInner ρ σ}
    {state state' : SeqState σ} {window : Option Nat} {command : AttentionCommand}
    {packed : Option Nat} {rows : List ρ} {query : Nat → Nat → Nat → α} {start : Nat}
    {out : Nat → Nat → Nat → α}
    (h : kvAttentionRow c slab exp kernel pool state window command packed rows query =
      (.ok (start, out), pool', state')) :
    RowDone c slab exp kernel pool state window command
      (if packed.isSome then 1 else state.advance)
      (if packed.isSome then state.advance else command.tokens) (packed.getD state.cursor) rows
      query start out pool' state' := by
  unfold kvAttentionRow at h
  split at h
  · cases h
  · next layer hlayer =>
    split at h
    · cases h
    · next hshape =>
      dsimp only at h
      generalize (if packed.isSome then 1 else state.advance) = valid at h ⊢
      generalize (if packed.isSome then state.advance else command.tokens) = planned at h ⊢
      split at h
      · cases h
      · next hvalid =>
        split at h
        · cases h
        · next context pool₁ state₁ hprep =>
          obtain ⟨_, hcursor, hadvance, _⟩ := (kvPrepare_ok hprep).1.fields
          split at h
          · cases h
          · next hlen =>
            cases h
            rw [hcursor, hadvance]
            exact
              { layer := ⟨layer, hlayer, hshape, rfl⟩
                inRange := hvalid
                given := Nat.le_of_not_lt hlen
                prepared := ⟨pool₁, context, hprep, rfl⟩
                start := rfl }

/-- A row of an append execution does to the pool what `kvAttention` does. -/
theorem kvAttentionRow_append {kernel : AttentionKernel α} {pool pool' : PoolInner ρ σ}
    {state state' : SeqState σ} {window : Option Nat} {command : AttentionCommand}
    {rows : List ρ} {query : Nat → Nat → Nat → α} {start : Nat} {out : Nat → Nat → Nat → α}
    (h : kvAttentionRow c slab exp kernel pool state window command none rows query =
      (.ok (start, out), pool', state')) :
    kvAttention c pool state window command rows = (.ok start, pool', state') := by
  obtain ⟨⟨layer, hlayer, hshape, _⟩, hvalid, hlen, ⟨pool₁, context, hprep, rfl⟩, rfl⟩ :=
    kvAttentionRow_ok c slab exp h
  obtain ⟨_, hcursor, hadvance, _⟩ := (kvPrepare_ok hprep).1.fields
  replace hvalid : ¬ (state.advance = 0 ∨ command.tokens < state.advance) := hvalid
  replace hlen : state.advance ≤ rows.length := hlen
  replace hprep : kvPrepare c pool state window command = (.ok context, pool₁, state') := hprep
  unfold kvAttention
  rw [hlayer]
  dsimp only
  rw [if_neg hshape, if_neg hvalid, hprep]
  dsimp only
  rw [hcursor, hadvance, if_neg (Nat.not_lt_of_le hlen)]
  rfl

end Rows

end EffectTorch
