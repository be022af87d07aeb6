import EffectTorch.Cpu.Attention

/-!
# Packed causal chains

A packed execution has one graph row for each token of its lanes: `build` lays the
chains out, and the loop of `kv_attention_typed` runs over the graph rows.

Results:
1. `build_laid`: where the rows of a lane stand.
2. `packedTurns_lane`: the chain of a lane leaves what one append leaves, and each row
   attends over what the chain has written up to it.
-/

namespace EffectTorch
open List Function Lib BlockStore

section Layout

structure PackedCausalRows where
  rowOffsets : List Nat
  logicalRows : Nat
  rowToPhysical : List (Option Nat)
  positions : List Nat
deriving DecidableEq, Repr

/-- The loop of `build` over slots, cursors and lengths. -/
def packLanes (graphRows physicalBatch : Nat) :
    List (Nat × Nat × Nat) → PackedCausalRows → Except String PackedCausalRows
  | [], packed => .ok packed
  | (physical, cursor, length) :: rest, packed =>
    if physicalBatch ≤ physical ∨ length = 0 then
      .error "executeSpeculative: invalid packed causal-chain lane or length"
    else
      let stop := packed.rowToPhysical.length + length
      if usizeMax < stop then .error "executeSpeculative: packed causal-chain row overflow"
      else if graphRows < stop ∨ usizeMax < cursor + length then
        .error "executeSpeculative: packed causal-chain layout exceeds its graph"
      else
        packLanes graphRows physicalBatch rest { packed with
          rowOffsets := packed.rowOffsets ++ [stop]
          rowToPhysical := packed.rowToPhysical ++ List.replicate length (some physical)
          positions := packed.positions ++ (List.range length).map (cursor + ·) }

def PackedCausalRows.build (graphRows physicalBatch : Nat)
    (physicalSlots cursors lengths : List Nat) : Except String PackedCausalRows :=
  if physicalSlots.length ≠ cursors.length ∨ cursors.length ≠ lengths.length then
    .error "executeSpeculative: inconsistent packed causal-chain metadata"
  else
    match packLanes graphRows physicalBatch (physicalSlots.zip (cursors.zip lengths))
      ⟨[0], 0, [], []⟩ with
    | .error e => .error e
    | .ok packed =>
      .ok { packed with
        logicalRows := packed.rowToPhysical.length
        rowToPhysical := packed.rowToPhysical ++
          List.replicate (graphRows - packed.rowToPhysical.length) none
        positions := packed.positions ++ List.replicate (graphRows - packed.positions.length) 0 }

/-- `graph_row` of a packed execution. -/
def PackedCausalRows.graphRow (packed : PackedCausalRows) (row : Nat) : Option (Nat × Nat) :=
  match packed.rowToPhysical[row]? with
  | some (some physical) => some (physical, packed.positions.getD row 0)
  | _ => none

/-! ## The layout -/

/-- The first row of lane `k`. -/
def laneBase (lanes : List (Nat × Nat × Nat)) (k : Nat) : Nat :=
  ((lanes.take k).map (·.2.2)).sum

variable {lanes : List (Nat × Nat × Nat)} {packed : PackedCausalRows}
  {k graphRows physicalBatch : Nat}

theorem laneBase_succ {entry : Nat × Nat × Nat} (h : lanes[k]? = some entry) :
    laneBase lanes (k + 1) = laneBase lanes k + entry.2.2 := by
  rw [laneBase, take_add_one, h, map_append, sum_append]
  rfl

theorem laneBase_mono (lanes : List (Nat × Nat × Nat)) : Monotone (laneBase lanes) :=
  monotone_nat_of_le_succ fun k => by
    rw [laneBase, laneBase, take_add_one, map_append, sum_append]
    exact Nat.le_add_right _ _

theorem laneBase_append (lanes lanes' : List (Nat × Nat × Nat)) (hk : k ≤ lanes.length) :
    laneBase (lanes ++ lanes') k = laneBase lanes k := by
  rw [laneBase, take_append_of_le_length hk]
  rfl

/-- Where the rows of the lanes so far stand. -/
structure Laid (lanes : List (Nat × Nat × Nat)) (packed : PackedCausalRows) : Prop where
  total : packed.rowToPhysical.length = laneBase lanes lanes.length
  positions : packed.positions.length = packed.rowToPhysical.length
  offsets_length : packed.rowOffsets.length = lanes.length + 1
  offsets : ∀ k ≤ lanes.length, packed.rowOffsets[k]? = some (laneBase lanes k)
  rows : ∀ k entry, lanes[k]? = some entry → 0 < entry.2.2 ∧ ∀ u < entry.2.2,
    packed.rowToPhysical[laneBase lanes k + u]? = some (some entry.1) ∧
      packed.positions[laneBase lanes k + u]? = some (entry.2.1 + u)

theorem laid_nil : Laid [] ⟨[0], 0, [], []⟩ where
  total := rfl
  positions := rfl
  offsets_length := rfl
  offsets k hk := by
    obtain rfl := Nat.le_zero.mp hk
    rfl
  rows _ _ h := by cases h

theorem laneBase_le {entry : Nat × Nat × Nat} (h : lanes[k]? = some entry) :
    laneBase lanes k + entry.2.2 ≤ laneBase lanes lanes.length := by
  rw [← laneBase_succ h]
  have hlt := (List.getElem?_eq_some_iff.mp h).1
  have hsplit : lanes.take lanes.length =
      lanes.take (k + 1) ++ (lanes.take lanes.length).drop (k + 1) := by
    conv_lhs => rw [← take_append_drop (k + 1) (lanes.take lanes.length), take_take,
      Nat.min_eq_left hlt]
  rw [laneBase, laneBase, hsplit, map_append, sum_append]
  exact Nat.le_add_right _ _

theorem Laid.push (h : Laid lanes packed) {physical cursor length : Nat} (hpos : 0 < length) :
    Laid (lanes ++ [(physical, cursor, length)]) { packed with
      rowOffsets := packed.rowOffsets ++ [packed.rowToPhysical.length + length]
      rowToPhysical := packed.rowToPhysical ++ List.replicate length (some physical)
      positions := packed.positions ++ (List.range length).map (cursor + ·) } := by
  have hlast : (lanes ++ [(physical, cursor, length)])[lanes.length]? =
      some (physical, cursor, length) := by
    rw [List.getElem?_append_right (Nat.le_refl _), Nat.sub_self]
    rfl
  have hbase : laneBase (lanes ++ [(physical, cursor, length)]) lanes.length =
      packed.rowToPhysical.length := by
    rw [laneBase_append _ _ (Nat.le_refl _), h.total]
  have hend := laneBase_succ hlast
  rw [hbase] at hend
  refine ⟨?_, ?_, ?_, fun k hk => ?_, fun k entry hk => ?_⟩
  · rw [length_append, length_append, length_replicate]
    exact hend.symm
  · rw [length_append, length_append, length_map, length_range,
      length_replicate, h.positions]
  · rw [length_append, length_append, h.offsets_length]
    rfl
  · rw [length_append, length_singleton] at hk
    rcases Nat.lt_or_ge k (lanes.length + 1) with hlt | hge
    · rw [List.getElem?_append_left (by rw [h.offsets_length]; exact hlt),
        laneBase_append _ _ (Nat.le_of_lt_succ hlt)]
      exact h.offsets k (Nat.le_of_lt_succ hlt)
    · obtain rfl := Nat.le_antisymm hk hge
      rw [hend, List.getElem?_append_right (Nat.le_of_eq h.offsets_length), h.offsets_length,
        Nat.sub_self]
      rfl
  · rcases Nat.lt_or_ge k lanes.length with hlt | hge
    · rw [List.getElem?_append_left hlt] at hk
      obtain ⟨hpos', hrows⟩ := h.rows k entry hk
      refine ⟨hpos', fun u hu => ?_⟩
      obtain ⟨hphysical, hposition⟩ := hrows u hu
      rw [laneBase_append _ _ (Nat.le_of_lt hlt)]
      rw [List.getElem?_append_left (List.getElem?_eq_some_iff.mp hphysical).1,
        List.getElem?_append_left (List.getElem?_eq_some_iff.mp hposition).1]
      exact ⟨hphysical, hposition⟩
    · have hk' : k = lanes.length := by
        have hlt := (List.getElem?_eq_some_iff.mp hk).1
        rw [length_append, length_singleton] at hlt
        omega
      subst hk'
      rw [hlast] at hk
      obtain rfl := Option.some.inj hk
      refine ⟨hpos, fun u hu => ?_⟩
      rw [hbase, List.getElem?_append_right (Nat.le_add_right _ _),
        List.getElem?_append_right (by rw [h.positions]; exact Nat.le_add_right _ _), h.positions,
        Nat.add_sub_cancel_left, List.getElem?_replicate, if_pos hu, List.getElem?_map,
        List.getElem?_range hu]
      exact ⟨rfl, rfl⟩

theorem packLanes_laid {done : List (Nat × Nat × Nat)} {packed' : PackedCausalRows}
    (hlaid : Laid done packed) (hfit : packed.rowToPhysical.length ≤ graphRows)
    (h : packLanes graphRows physicalBatch lanes packed = .ok packed') :
    Laid (done ++ lanes) packed' ∧ packed'.rowToPhysical.length ≤ graphRows := by
  induction lanes generalizing done packed with
  | nil =>
    cases h
    rw [append_nil]
    exact ⟨hlaid, hfit⟩
  | cons entry lanes ih =>
    obtain ⟨physical, cursor, length⟩ := entry
    rw [packLanes] at h
    split at h
    · cases h
    · next hvalid =>
      dsimp only at h
      split at h
      · cases h
      · split at h
        · cases h
        · next hroom =>
          have hpos : 0 < length := Nat.pos_of_ne_zero fun hzero => hvalid (.inr hzero)
          rw [append_cons]
          refine ih (hlaid.push hpos) ?_ h
          rw [length_append, length_replicate]
          omega

theorem zip_map_lanes (lanes : List (Nat × Nat × Nat)) :
    (lanes.map (·.1)).zip ((lanes.map (·.2.1)).zip (lanes.map (·.2.2))) = lanes := by
  induction lanes with
  | nil => rfl
  | cons entry lanes ih =>
    rw [map_cons, map_cons, map_cons, zip_cons_cons, zip_cons_cons, ih]

/-- The rows of a lane stand one after the other, from the offset of the lane on. -/
theorem build_laid
    (h : PackedCausalRows.build graphRows physicalBatch (lanes.map (·.1)) (lanes.map (·.2.1)) (lanes.map (·.2.2)) = .ok packed) :
    packed.rowToPhysical.length = graphRows ∧ laneBase lanes lanes.length ≤ graphRows ∧
      (∀ k ≤ lanes.length, packed.rowOffsets[k]? = some (laneBase lanes k)) ∧
      (∀ k entry, lanes[k]? = some entry → 0 < entry.2.2 ∧ ∀ u < entry.2.2,
        packed.graphRow (laneBase lanes k + u) = some (entry.1, entry.2.1 + u)) ∧
      ∀ row, laneBase lanes lanes.length ≤ row → packed.graphRow row = none := by
  unfold PackedCausalRows.build at h
  split at h
  · cases h
  · rw [zip_map_lanes] at h
    split at h
    · cases h
    · next packed₁ hpack =>
      obtain ⟨hlaid, hfit⟩ := packLanes_laid laid_nil (Nat.zero_le _) hpack
      rw [nil_append] at hlaid
      cases h
      refine ⟨?_, hlaid.total ▸ hfit, hlaid.offsets, fun k entry hk => ?_, fun row hrow => ?_⟩
      · rw [length_append, length_replicate]
        omega
      · obtain ⟨hpos, hrows⟩ := hlaid.rows k entry hk
        refine ⟨hpos, fun u hu => ?_⟩
        obtain ⟨hphysical, hposition⟩ := hrows u hu
        have hlt := (List.getElem?_eq_some_iff.mp hphysical).1
        unfold PackedCausalRows.graphRow
        dsimp only
        rw [List.getElem?_append_left hlt, hphysical, getD_eq_getElem?_getD,
          List.getElem?_append_left (by rw [hlaid.positions]; exact hlt), hposition]
        rfl
      · unfold PackedCausalRows.graphRow
        dsimp only
        rw [← hlaid.total] at hrow
        rw [List.getElem?_append_right hrow, List.getElem?_replicate]
        split
        · next heq =>
          split at heq
          · cases heq
          · cases heq
        · rfl

theorem packLanes_total (hrows : graphRows ≤ usizeMax) (packed : PackedCausalRows)
    (hlanes : ∀ entry ∈ lanes, entry.1 < physicalBatch ∧ entry.2.2 ≠ 0 ∧ entry.2.1 + entry.2.2 ≤ usizeMax)
    (hfit : packed.rowToPhysical.length + (lanes.map (·.2.2)).sum ≤ graphRows) :
    ∃ packed', packLanes graphRows physicalBatch lanes packed = .ok packed' := by
  induction lanes generalizing packed with
  | nil => exact ⟨packed, rfl⟩
  | cons entry lanes ih =>
    obtain ⟨physical, cursor, length⟩ := entry
    obtain ⟨⟨hphysical, hlength, hcursor⟩, hrest⟩ := forall_mem_cons.mp hlanes
    rw [map_cons, sum_cons, ← Nat.add_assoc] at hfit
    have hstop : packed.rowToPhysical.length + length ≤ graphRows :=
      Nat.le_trans (Nat.le_add_right _ _) hfit
    rw [packLanes, if_neg (not_or.mpr ⟨Nat.not_le_of_lt hphysical, hlength⟩)]
    dsimp only
    rw [if_neg (Nat.not_lt_of_le (Nat.le_trans hstop hrows)),
      if_neg (not_or.mpr ⟨Nat.not_lt_of_le hstop, Nat.not_lt_of_le hcursor⟩)]
    exact ih _ hrest (by rw [length_append, length_replicate]; exact hfit)

/-- Lanes that fit the graph are laid out. -/
theorem build_total (hrows : graphRows ≤ usizeMax)
    (hlanes : ∀ entry ∈ lanes, entry.1 < physicalBatch ∧ entry.2.2 ≠ 0 ∧ entry.2.1 + entry.2.2 ≤ usizeMax)
    (hfit : (lanes.map (·.2.2)).sum ≤ graphRows) :
    ∃ packed, PackedCausalRows.build graphRows physicalBatch (lanes.map (·.1))
      (lanes.map (·.2.1)) (lanes.map (·.2.2)) = .ok packed := by
  obtain ⟨packed, hpack⟩ := packLanes_total hrows ⟨[0], 0, [], []⟩ hlanes
    (by rw [length_nil, Nat.zero_add]; exact hfit)
  unfold PackedCausalRows.build
  rw [if_neg (by simp only [length_map, ne_eq, not_true_eq_false, or_self, not_false_eq_true]),
    zip_map_lanes, hpack]
  exact ⟨_, rfl⟩

end Layout

section Turns

variable {ρ σ α : Type} [Field α] [LinearOrder α] (c : PoolConfig) (slab : SlabRow ρ α)
  (exp : α → α)

/-! ## The loop over graph rows -/

/-- The loop of `kv_attention_typed` over the graph rows of a packed execution.
`slots` are the states of the physical lanes, `rows` and `query` what the inputs give
for each graph row. -/
def packedTurns (kernel : AttentionKernel α) (window : Option Nat) (command : AttentionCommand)
    (packed : PackedCausalRows) (rows : Nat → ρ) (query : Nat → Nat → Nat → α) :
    List Nat → PoolInner ρ σ → List (Option (SeqState σ)) → (Nat → Nat → Nat → α) →
      Except String (Nat → Nat → Nat → α) × PoolInner ρ σ × List (Option (SeqState σ))
  | [], pool, slots, out => (.ok out, pool, slots)
  | row :: rest, pool, slots, out =>
    match packed.graphRow row with
    | none => packedTurns kernel window command packed rows query rest pool slots out
    | some (physical, position) =>
      match slots[physical]? with
      | some (some state) =>
        match kvAttentionRow c slab exp kernel pool state window command (some position)
          [rows row] (fun _ => query row) with
        | (.error e, pool, state) => (.error e, pool, slots.set physical (some state))
        | (.ok (_, result), pool, state) =>
          packedTurns kernel window command packed rows query rest pool
            (slots.set physical (some state)) (Function.update out row (result 0))
      | _ => (.error "kv attention: inactive lane", pool, slots)

/-- `kv_attention_typed` on the graph rows of a packed execution. -/
def packedAttention (kernel : AttentionKernel α) (window : Option Nat)
    (command : AttentionCommand) (packed : PackedCausalRows) (rows : Nat → ρ)
    (query : Nat → Nat → Nat → α) (pool : PoolInner ρ σ) (slots : List (Option (SeqState σ))) :
    Except String (Nat → Nat → Nat → α) × PoolInner ρ σ × List (Option (SeqState σ)) :=
  packedTurns c slab exp kernel window command packed rows query
    (List.range packed.rowToPhysical.length) pool slots fun _ _ _ => 0

end Turns

section Packed

variable {ρ σ α : Type} [Field α] [LinearOrder α] {c : PoolConfig} {slab : SlabRow ρ α}
  {exp : α → α} {I : BlockStore σ → List Nat → Prop} {pool pool' : PoolInner ρ σ}
  {state state' : SeqState σ} {F : List Nat} {window : Option Nat} {command : AttentionCommand}

/-! ## A prepared lane -/

theorem copySharedTail_alone
    (h : ∀ b : Nat, state.blocks[state.cursor / c.blockSize]? = some b →
      pool.store.refcounts b ≤ 1) : copySharedTail c pool state = (.ok (), pool, state) := by
  unfold copySharedTail
  split
  · rfl
  · split
    · rfl
    · next b hb =>
      split
      · rfl
      · rw [if_pos (h b hb)]

theorem leaseBlocks_enough {needed : Nat} {blocks : List Nat}
    (h : needed ≤ blocks.length * c.blockSize) (fuel : Nat) (store : BlockStore σ) :
    leaseBlocks c needed fuel store blocks = (.ok (), store, blocks) := by
  cases fuel with
  | zero => rfl
  | succ fuel => rw [leaseBlocks, if_neg (Nat.not_lt_of_le h)]

/-- `kv_prepare` does nothing on a lane that is prepared. -/
theorem kvPrepare_again (hI : Lawful I) (hready : Ready c I pool.store state F)
    {context : Nat × Nat × Nat}
    (h : kvPrepare c pool state window command = (.ok context, pool', state'))
    (rows : Nat → Nat → ρ) :
    kvPrepare c { pool' with rows } state' window command =
      (.ok context, { pool' with rows }, state') := by
  obtain ⟨hprepared, _, _, hneeded⟩ := kvPrepare_ok h
  obtain ⟨_, hcursor, hadvance, _⟩ := hprepared.fields
  have halone := hprepared.alone hI hready.head_cursor hready.tail hready.held hready.beyond
  have hcopy : copySharedTail c { pool' with rows } state' =
      (.ok (), { pool' with rows }, state') :=
    copySharedTail_alone fun b hb =>
      Nat.le_of_eq (halone _ b (by rw [hcursor]) hb)
  unfold kvPrepare at h ⊢
  split at h
  · cases h
  · next layer hlayer =>
    dsimp only at h ⊢
    rw [hcursor, hadvance]
    split at h
    · cases h
    · next hshape =>
      rw [if_neg hshape]
      split at h
      · cases h
      · next hvalid =>
        rw [if_neg hvalid]
        split at h
        · cases h
        · next hoverflow =>
          rw [if_neg hoverflow]
          split at h
          · cases h
          · next hcapacity =>
            rw [if_neg hcapacity, hcopy]
            dsimp only
            rw [leaseBlocks_enough hneeded]
            dsimp only
            rw [hcursor]
            split at h
            · cases h
            · next htail =>
              split at h
              · cases h
              · next hlease =>
                rw [(copySharedTail_ok htail).fields.2.1] at h
                obtain ⟨hcontext, _⟩ := Prod.mk.inj h
                rw [hcontext, ← hcursor]

/-! ## A packed lane -/

/-- A packed turn on a lane that is prepared. -/
theorem kvAttentionRow_packed {kernel : AttentionKernel α} {position : Nat} {row : ρ}
    {query : Nat → Nat → Nat → α} {start : Nat} {out : Nat → Nat → Nat → α}
    {context : Nat × Nat × Nat} {pool₁ : PoolInner ρ σ} {state₁ : SeqState σ}
    (h : kvAttentionRow c slab exp kernel pool state window command (some position) [row] query =
      (.ok (start, out), pool', state'))
    (hprep : kvPrepare c pool state window { command with tokens := state.advance } =
      (.ok context, pool₁, state₁)) :
    state' = state₁ ∧
      pool' = { pool₁ with
        rows := writeRows c state₁.blocks command.layer pool₁.rows position [row] } ∧
      ∃ layer, c.kvLayers[command.layer]? = some layer ∧
        out = attendRows c slab exp kernel command pool'.rows state'.blocks state.cursor
          (prefixStart c layer state) position 1 query := by
  obtain ⟨⟨layer, hlayer, _, hout⟩, _, _, ⟨pool₂, context₂, hprep₂, hpool⟩, _⟩ :=
    kvAttentionRow_ok c slab exp h
  replace hprep₂ : kvPrepare c pool state window { command with tokens := state.advance } =
      (.ok context₂, pool₂, state') := hprep₂
  rw [hprep] at hprep₂
  cases hprep₂
  exact ⟨rfl, hpool, layer, hlayer, hout⟩

theorem writeRows_append {blocks : List Nat} {layer : Nat} (slabs : Nat → Nat → ρ)
    (position : Nat) (rows rows' : List ρ) :
    writeRows c blocks layer slabs position (rows ++ rows') =
      writeRows c blocks layer (writeRows c blocks layer slabs position rows)
        (position + rows.length) rows' := by
  induction rows generalizing slabs position with
  | nil => rfl
  | cons row rows ih =>
    rw [cons_append, writeRows, writeRows, ih, length_cons, Nat.add_assoc,
      Nat.add_comm 1]

section Turns

variable {kernel : AttentionKernel α} {packed : PackedCausalRows} {rows : Nat → ρ}
  {query : Nat → Nat → Nat → α} {slots slots' : List (Option (SeqState σ))}
  {out out' : Nat → Nat → Nat → α} {rest : List Nat} {physical base : Nat}

/-- A turn of a packed loop that succeeds. -/
theorem packedTurns_cons {row position : Nat}
    (hrow : packed.graphRow row = some (physical, position))
    (hslot : slots[physical]? = some (some state))
    (h : packedTurns c slab exp kernel window command packed rows query (row :: rest) pool slots
      out = (.ok out', pool', slots')) :
    ∃ start result pool₁ state₁,
      kvAttentionRow c slab exp kernel pool state window command (some position) [rows row]
        (fun _ => query row) = (.ok (start, result), pool₁, state₁) ∧
      packedTurns c slab exp kernel window command packed rows query rest pool₁
        (slots.set physical (some state₁)) (Function.update out row (result 0)) =
          (.ok out', pool', slots') := by
  rw [packedTurns, hrow] at h
  dsimp only at h
  rw [hslot] at h
  dsimp only at h
  split at h
  · cases h
  · next start result pool₁ state₁ hturn => exact ⟨start, result, pool₁, state₁, hturn, h⟩

/-- The rows of a lane from `base` on. -/
def chainRows (rows : Nat → ρ) (base count : Nat) : List ρ :=
  (List.range count).map fun t => rows (base + t)

theorem chainRows_succ (rows : Nat → ρ) (base count : Nat) :
    chainRows rows base (count + 1) = chainRows rows base count ++ [rows (base + count)] := by
  rw [chainRows, range_succ, map_append]
  rfl

theorem chainRows_length (rows : Nat → ρ) (base count : Nat) :
    (chainRows rows base count).length = count := by
  rw [chainRows, length_map, length_range]

/-- What the chain writes up to row `count`, over a prepared pool. -/
def chainPool (c : PoolConfig) (pool₁ : PoolInner ρ σ) (state₁ : SeqState σ) (layer cursor : Nat)
    (rows : Nat → ρ) (base count : Nat) : PoolInner ρ σ :=
  { pool₁ with
    rows := writeRows c state₁.blocks layer pool₁.rows cursor (chainRows rows base count) }

theorem chainPool_succ (pool₁ : PoolInner ρ σ) (state₁ : SeqState σ) (layer cursor : Nat)
    (rows : Nat → ρ) (base count : Nat) :
    chainPool c pool₁ state₁ layer cursor rows base (count + 1) =
      { chainPool c pool₁ state₁ layer cursor rows base count with
        rows := writeRows c state₁.blocks layer
          (chainPool c pool₁ state₁ layer cursor rows base count).rows (cursor + count)
          [rows (base + count)] } := by
  show ({ pool₁ with rows := _ } : PoolInner ρ σ) = { pool₁ with rows := _ }
  rw [chainRows_succ, writeRows_append, chainRows_length]
  rfl

theorem prefixStart_congr (layer : KvLayerDescriptor) (hhead : state'.head = state.head)
    (hcursor : state'.cursor = state.cursor) :
    prefixStart c layer state' = prefixStart c layer state := by
  unfold prefixStart
  rw [hhead, hcursor]

/-- The output of row `t` of a chain: attention over what the chain has written up to
it. -/
def ChainOutput (c : PoolConfig) (slab : SlabRow ρ α) (exp : α → α) (kernel : AttentionKernel α)
    (command : AttentionCommand) (pool₁ : PoolInner ρ σ) (state₁ : SeqState σ)
    (state : SeqState σ) (rows : Nat → ρ) (query : Nat → Nat → Nat → α) (base t : Nat)
    (result : Nat → Nat → α) : Prop :=
  ∃ layer, c.kvLayers[command.layer]? = some layer ∧
    result = attendRows c slab exp kernel command
      (chainPool c pool₁ state₁ command.layer state.cursor rows base (t + 1)).rows state₁.blocks
      state.cursor (prefixStart c layer state) (state.cursor + t) 1 (fun _ => query (base + t)) 0

/-- One turn of a chain, on a lane that `kv_prepare` brings to `pool₁` with the rows
before it. -/
theorem packedTurns_turn (state : SeqState σ) {context : Nat × Nat × Nat} {pool₁ : PoolInner ρ σ}
    {stateK state₁ : SeqState σ} {t : Nat} (hhead : stateK.head = state.head)
    (hcursor : stateK.cursor = state.cursor) (hadvance : stateK.advance = state.advance)
    (hrow : packed.graphRow (base + t) = some (physical, state.cursor + t))
    (hslot : slots[physical]? = some (some stateK))
    (hprep : kvPrepare c pool stateK window { command with tokens := state.advance } =
      (.ok context, chainPool c pool₁ state₁ command.layer state.cursor rows base t, state₁))
    (h : packedTurns c slab exp kernel window command packed rows query ((base + t) :: rest) pool
      slots out = (.ok out', pool', slots')) :
    ∃ result, ChainOutput c slab exp kernel command pool₁ state₁ state rows query base t result ∧
      packedTurns c slab exp kernel window command packed rows query rest
        (chainPool c pool₁ state₁ command.layer state.cursor rows base (t + 1))
        (slots.set physical (some state₁)) (Function.update out (base + t) result) =
          (.ok out', pool', slots') := by
  obtain ⟨start, result, pool₂, state₂, hturn, hrest⟩ := packedTurns_cons hrow hslot h
  rw [← hadvance] at hprep
  obtain ⟨rfl, hpool, layer, hlayer, rfl⟩ := kvAttentionRow_packed hturn hprep
  rw [← chainPool_succ] at hpool
  subst hpool
  refine ⟨_, ⟨layer, hlayer, ?_⟩, hrest⟩
  rw [hcursor, prefixStart_congr layer hhead hcursor]

/-- The rest of a chain, once its lane is prepared. -/
theorem packedTurns_rest (hI : Lawful I) (hready : Ready c I pool.store state F)
    {context : Nat × Nat × Nat} {pool₁ : PoolInner ρ σ} {state₁ : SeqState σ}
    (hprep : kvPrepare c pool state window { command with tokens := state.advance } =
      (.ok context, pool₁, state₁))
    (hslot : slots[physical]? = some (some state₁)) {t n : Nat}
    (hrows : ∀ u < n, packed.graphRow (base + t + u) = some (physical, state.cursor + (t + u)))
    (h : packedTurns c slab exp kernel window command packed rows query
      (List.range' (base + t) n ++ rest)
      (chainPool c pool₁ state₁ command.layer state.cursor rows base t) slots out =
        (.ok out', pool', slots')) :
    ∃ out₁, packedTurns c slab exp kernel window command packed rows query rest
        (chainPool c pool₁ state₁ command.layer state.cursor rows base (t + n)) slots out₁ =
          (.ok out', pool', slots') ∧
      (∀ u < n, ChainOutput c slab exp kernel command pool₁ state₁ state rows query base (t + u)
        (out₁ (base + t + u))) ∧
      ∀ r, r < base + t ∨ base + t + n ≤ r → out₁ r = out r := by
  obtain ⟨hhead, hcursor, hadvance, _⟩ := (kvPrepare_ok hprep).1.fields
  have hsame : slots.set physical (some state₁) = slots := by
    obtain ⟨hlt, hget⟩ := List.getElem?_eq_some_iff.mp hslot
    rw [← hget, set_getElem_self]
  induction n generalizing t out with
  | zero => exact ⟨out, h, fun u hu => absurd hu (Nat.not_lt_zero u), fun _ _ => rfl⟩
  | succ n ih =>
    rw [List.range'_succ, cons_append] at h
    have hagain := kvPrepare_again hI hready hprep
      (chainPool c pool₁ state₁ command.layer state.cursor rows base t).rows
    obtain ⟨result, hresult, hrest⟩ := packedTurns_turn state hhead hcursor hadvance
      (hrows 0 (Nat.succ_pos n)) hslot hagain h
    rw [hsame] at hrest
    have hrows' : ∀ u < n, packed.graphRow (base + (t + 1) + u) =
        some (physical, state.cursor + (t + 1 + u)) := fun u hu => by
      have hrow := hrows (u + 1) (Nat.succ_lt_succ hu)
      rwa [show base + t + (u + 1) = base + (t + 1) + u by omega,
        show t + (u + 1) = t + 1 + u by omega] at hrow
    obtain ⟨out₁, hrest₁, houts, hother⟩ := ih hrows' hrest
    rw [show t + 1 + n = t + (n + 1) by omega] at hrest₁
    refine ⟨out₁, hrest₁, fun u hu => ?_, fun r hr => ?_⟩
    · cases u with
      | zero =>
        rw [Nat.add_zero, Nat.add_zero, hother _ (.inl (by omega)), update_self]
        exact hresult
      | succ u =>
        have hout := houts u (Nat.lt_of_succ_lt_succ hu)
        rwa [show base + (t + 1) + u = base + t + (u + 1) by omega,
          show t + 1 + u = t + (u + 1) by omega] at hout
    · rw [hother r (by omega), update_of_ne (by omega)]

/-- The chain of a lane: it leaves what one append of its rows leaves. -/
theorem packedTurns_lane (hI : Lawful I) (hready : Ready c I pool.store state F)
    (hslot : slots[physical]? = some (some state)) (hpos : 0 < state.advance)
    (hrows : ∀ u < state.advance, packed.graphRow (base + u) = some (physical, state.cursor + u))
    (h : packedTurns c slab exp kernel window command packed rows query
      (List.range' base state.advance ++ rest) pool slots out = (.ok out', pool', slots')) :
    ∃ pool₁ state₁ out₁ start,
      kvAttention c pool state window { command with tokens := state.advance }
          (chainRows rows base state.advance) =
        (.ok start, chainPool c pool₁ state₁ command.layer state.cursor rows base state.advance,
          state₁) ∧
      (∀ t ≤ state.advance, Attended c pool state command.layer 0 (chainRows rows base t)
        (chainPool c pool₁ state₁ command.layer state.cursor rows base t) state₁) ∧
      packedTurns c slab exp kernel window command packed rows query rest
        (chainPool c pool₁ state₁ command.layer state.cursor rows base state.advance)
        (slots.set physical (some state₁)) out₁ = (.ok out', pool', slots') ∧
      (∀ t < state.advance,
        ChainOutput c slab exp kernel command pool₁ state₁ state rows query base t
          (out₁ (base + t))) ∧
      ∀ r, r < base ∨ base + state.advance ≤ r → out₁ r = out r := by
  obtain ⟨n, hn⟩ := Nat.exists_eq_succ_of_ne_zero (Nat.ne_of_gt hpos)
  have hrow := hrows 0 hpos
  rw [hn, List.range'_succ, cons_append] at h
  obtain ⟨start, _, _, state₁, hturn, _⟩ := packedTurns_cons hrow hslot h
  obtain ⟨⟨layer, hlayer, hshape, _⟩, _, _, ⟨pool₁, context, hprep, _⟩, _⟩ :=
    kvAttentionRow_ok c slab exp hturn
  replace hprep : kvPrepare c pool state window { command with tokens := state.advance } =
      (.ok context, pool₁, state₁) := hprep
  obtain ⟨hprepared, hadvance, hlt, hneeded⟩ := kvPrepare_ok hprep
  obtain ⟨_, hcursor₁, hadvance₁, _⟩ := hprepared.fields
  have hslot₁ : (slots.set physical (some state₁))[physical]? = some (some state₁) :=
    List.getElem?_set_self (List.getElem?_eq_some_iff.mp hslot).1
  obtain ⟨result, hresult, hrest⟩ := packedTurns_turn _ rfl rfl rfl hrow hslot hprep h
  have hrows' : ∀ u < n, packed.graphRow (base + 1 + u) = some (physical, state.cursor + (1 + u)) :=
    fun u hu => by
      rw [Nat.add_assoc]
      exact hrows (1 + u) (by omega)
  obtain ⟨out₁, hrest₁, houts, hother⟩ :=
    packedTurns_rest hI hready hprep hslot₁ (t := 1) hrows' hrest
  rw [Nat.add_comm 1 n, ← Nat.succ_eq_add_one, ← hn] at hrest₁
  refine ⟨pool₁, state₁, out₁, c.evictionStart window (state.cursor + state.advance), ?_,
    fun t ht => ?_, hrest₁, fun t ht => ?_, fun r hr => ?_⟩
  · unfold kvAttention
    dsimp only
    rw [hlayer]
    dsimp only
    rw [if_neg hshape, if_neg (by omega), hprep]
    dsimp only
    rw [hcursor₁, hadvance₁, chainRows_length, if_neg (Nat.lt_irrefl _),
      take_of_length_le (Nat.le_of_eq (chainRows_length rows base state.advance))]
    rfl
  · exact ⟨pool₁, hprepared, hadvance, hlt, hneeded, by
      rw [Nat.zero_add, chainRows_length]
      exact ht, rfl⟩
  · cases t with
    | zero =>
      rw [hother _ (.inl (by omega)), update_self]
      exact hresult
    | succ t =>
      have hout := houts t (by omega)
      rwa [show base + 1 + t = base + (t + 1) by omega, Nat.add_comm 1 t] at hout
  · rw [hother r (by omega), update_of_ne (by omega)]

end Turns

end Packed

end EffectTorch
