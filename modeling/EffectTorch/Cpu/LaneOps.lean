import EffectTorch.Cpu.SequenceOps

/-!
# What the steps of a lane do

Attention, eviction, rollback and publication on one lane of an execution, for any
lawful invariant of the store. `F` is everything outside the lane that holds a block.

Results:
1. `kvAttention_cases`: the cases of an attention command.
2. `Attended.frame`, `Attended.rowAt_before`, `Attended.rowAt_written`: the rows it
   changes are those of its own chunk.
3. `kvEvict_spec`: eviction drops leading blocks that end before its start.
4. `rollbackLane_keeps`: a rollback restores the block table.
5. `noteTokensDeferred_eq`: the pages a chunk completes, with their hashes.
-/

namespace EffectTorch
open List Lib BlockStore

section Lanes

variable {ρ σ : Type} {c : PoolConfig} {I : BlockStore σ → List Nat → Prop}
  {pool pool' : PoolInner ρ σ} {state state' : SeqState σ} {F : List Nat} {layer offset : Nat}
  {rows : List ρ}

/-! ## Attention -/

/-- A chunk was prepared and rows were written from an offset on, within the chunk. -/
def Attended (c : PoolConfig) (pool : PoolInner ρ σ) (state : SeqState σ) (layer offset : Nat)
    (rows : List ρ) (pool' : PoolInner ρ σ) (state' : SeqState σ) : Prop :=
  ∃ pool₁, Prepared c pool state pool₁ state' ∧ 0 < state.advance ∧
    layer < c.kvLayers.length ∧
    state.cursor + state.advance ≤ state'.blocks.length * c.blockSize ∧
    offset + rows.length ≤ state.advance ∧
    pool' = { pool₁ with
      rows := writeRows c state'.blocks layer pool₁.rows (state.cursor + offset) rows }

theorem kvAttention_cases {window : Option Nat} {command : AttentionCommand}
    {r : Except String Nat}
    (h : kvAttention c pool state window command rows = (r, pool', state')) :
    (∃ e, r = .error e ∧ Attempted c pool state pool' state') ∨
      Attended c pool state command.layer 0 (rows.take state.advance) pool' state' ∧
        ((∃ e, r = .error e) ∨
          r = .ok (c.evictionStart window (state.cursor + state.advance)) ∧
            state.advance ≤ rows.length) := by
  have hsame : ∀ {pool' : PoolInner ρ σ} {state' : SeqState σ}, pool = pool' → state = state' →
      Attempted c pool state pool' state' := by
    rintro _ _ rfl rfl
    exact .inr ⟨.nil, rfl, rfl⟩
  unfold kvAttention at h
  split at h
  · cases h
    exact .inl ⟨_, rfl, hsame rfl rfl⟩
  · split at h
    · cases h
      exact .inl ⟨_, rfl, hsame rfl rfl⟩
    · split at h
      · cases h
        exact .inl ⟨_, rfl, hsame rfl rfl⟩
      · split at h
        · next hprep =>
          cases h
          exact .inl ⟨_, rfl, kvPrepare_error hprep⟩
        · next pool₁ state₁ hprep =>
          obtain ⟨hprepared, hadvance, hlayer, hneeded⟩ := kvPrepare_ok hprep
          obtain ⟨_, hcursor, hadv, _⟩ := hprepared.fields
          dsimp only at h
          rw [hcursor, hadv] at h
          have hattended : ∀ {pool' : PoolInner ρ σ},
              pool' = { pool₁ with
                rows := writeRows c state₁.blocks command.layer pool₁.rows state.cursor
                  (rows.take state.advance) } →
              Attended c pool state command.layer 0 (rows.take state.advance) pool' state₁ :=
            fun hpool => ⟨pool₁, hprepared, hadvance, hlayer, hneeded, by
              rw [Nat.zero_add, length_take]
              exact Nat.min_le_left _ _, hpool⟩
          split at h
          · cases h
            exact .inr ⟨hattended rfl, .inl ⟨_, rfl⟩⟩
          · next hlen =>
            cases h
            exact .inr ⟨hattended rfl, .inr ⟨rfl, Nat.le_of_not_lt hlen⟩⟩

/-- What a lane needs before an attention command, and has again after it. -/
structure Ready (c : PoolConfig) (I : BlockStore σ → List Nat → Prop) (store : BlockStore σ)
    (state : SeqState σ) (F : List Nat) : Prop where
  held : I store (state.live ++ F)
  head_le : state.head ≤ state.blocks.length
  head_cursor : state.head ≤ state.cursor / c.blockSize
  tail : state.transactionTail = none
  beyond : ∀ k b, state.head ≤ k → state.cursor ≤ k * c.blockSize →
    state.blocks[k]? = some b → store.refcounts b = 1

theorem Attended.prepared (h : Attended c pool state layer offset rows pool' state') :
    ∃ pool₁, Prepared c pool state pool₁ state' ∧ pool₁.store = pool'.store := by
  obtain ⟨pool₁, hprepared, _, _, _, _, rfl⟩ := h
  exact ⟨pool₁, hprepared, rfl⟩

/-- The page of a position of the chunk. -/
theorem Attended.page (h : Attended c pool state layer offset rows pool' state') {t : Nat} (ht : t < state.advance) :
    ∃ b, state'.blocks[(state.cursor + t) / c.blockSize]? = some b := by
  obtain ⟨_, _, _, _, hneeded, _, _⟩ := h
  have hlt : (state.cursor + t) / c.blockSize < state'.blocks.length := by
    rw [Nat.div_lt_iff_lt_mul c.blockSize_pos]
    omega
  exact ⟨_, List.getElem?_eq_getElem hlt⟩

/-- A row is written only at its position. -/
theorem Attended.unwritten (h : Attended c pool state layer offset rows pool' state') {r : Nat}
    (l : Nat)
    (hr : ∀ t, offset ≤ t → t < state.advance → physical c state'.blocks (state.cursor + t) ≠ r) :
    ∃ pool₁, Prepared c pool state pool₁ state' ∧ pool'.rows l r = pool₁.rows l r := by
  obtain ⟨pool₁, hprepared, _, _, _, hfit, rfl⟩ := h
  refine ⟨pool₁, hprepared, writeRows_other _ _ (fun t ht => ?_) l⟩
  rw [Nat.add_assoc]
  exact hr (offset + t) (Nat.le_add_right _ _) (by omega)

/-- A live block of a longer table, where new blocks have a property. -/
theorem live_cases {P : Nat → Prop} {blocks : List Nat} {copiedBytes b : Nat}
    (h : ∀ k b : Nat, blocks[k]? = some b → state.blocks[k]? = some b ∨ P b)
    (hb : b ∈ SeqState.live { state with
      copiedBytes
      blocks }) : b ∈ state.live ∨ P b := by
  obtain ⟨k, hk⟩ := mem_iff_getElem?.mp hb
  replace hk : (blocks.drop state.head)[k]? = some b := hk
  rw [List.getElem?_drop] at hk
  exact (h _ b hk).imp_left (mem_live (Nat.le_add_right _ _))

/-- What an attention command does to pages, whether it succeeds or not. -/
structure Touched (c : PoolConfig) (I : BlockStore σ → List Nat → Prop) (pool : PoolInner ρ σ)
    (state : SeqState σ) (F : List Nat) (pool' : PoolInner ρ σ) (state' : SeqState σ) :
    Prop where
  held : I pool'.store (state'.live ++ F)
  same : ∃ copiedBytes blocks, state' = { state with
    copiedBytes
    blocks }
  length_le : state.blocks.length ≤ state'.blocks.length
  length_lt : state.blocks.length * c.blockSize < state.cursor + state.advance + c.blockSize →
    state'.blocks.length * c.blockSize < state.cursor + state.advance + c.blockSize
  unpaged : c.kvLayers = [] → state'.blocks = state.blocks
  leased : ∀ k b : Nat, state'.blocks[k]? = some b → state.blocks[k]? = some b ∨
    (pool.store.refcounts b = 0 ∧ pool'.store.hashes b = none)
  published : ∀ b, pool.store.refcounts b ≠ 0 → pool'.store.hashes b = pool.store.hashes b ∧
    pool'.store.listed.count b = pool.store.listed.count b
  cleared : ∀ b, pool'.store.hashes b = pool.store.hashes b ∨ pool'.store.hashes b = none
  alone : ∀ k b : Nat, state.head ≤ k → state'.blocks[k]? = some b →
    (state.cursor ≤ k * c.blockSize ∨ state.cursor / c.blockSize ≤ k ∧
      ∀ b, state.blocks[k]? = some b → pool.store.refcounts b = 1) →
    pool'.store.refcounts b = 1
  table : ∀ k b : Nat, state.blocks[k]? = some b → state'.blocks[k]? = some b ∨
    k = state.cursor / c.blockSize ∧ 1 < pool.store.refcounts b
  snapshots : ∀ hash snapshot, pool'.store.snapshots.lookup hash = some snapshot →
    pool.store.snapshots.lookup hash = some snapshot
  outside : ∀ layer b off, off < c.blockSize →
    (∀ k : Nat, state.cursor / c.blockSize ≤ k → state'.blocks[k]? ≠ some b) →
    pool'.rows layer (b * c.blockSize + off) = pool.rows layer (b * c.blockSize + off)
  frame : ∀ layer b off, b ∈ F → off < c.blockSize →
    pool'.rows layer (b * c.blockSize + off) = pool.rows layer (b * c.blockSize + off)
  before : ∀ layer position, state.head ≤ position / c.blockSize → position < state.cursor →
    position / c.blockSize < state.blocks.length →
    rowAt c pool'.rows state'.blocks layer position = rowAt c pool.rows state.blocks layer position

theorem Prepared.touched (hI : Lawful I) (hready : Ready c I pool.store state F)
    (hpaged : c.kvLayers ≠ []) (h : Prepared c pool state pool' state') :
    Touched c I pool state F pool' state' where
  held := h.keeps hI hready.head_cursor hready.head_le hready.held
  same := h.same
  length_le := h.fields.2.2.2
  length_lt := h.length_lt
  unpaged hnil := absurd hnil hpaged
  leased k b := h.leased hI hready.head_cursor hready.held
  published b hb := h.published hI hready.head_cursor hready.held hb
  cleared := h.cleared
  alone k b hk hb hwhy := by
    refine h.alone hI hready.head_cursor hready.tail hready.held hready.beyond k b ?_ hb
    rcases hwhy with hpast | hin
    · have hmul := Nat.div_mul_le_self state.cursor c.blockSize
      exact Nat.le_of_mul_le_mul_right (Nat.le_trans hmul hpast) c.blockSize_pos
    · exact hin.1
  table k b := h.table
  snapshots _ _ := h.snapshots
  outside layer b off hoff := h.rows_outside hoff
  frame layer b off hb hoff := h.rows_of_referenced hI hready.held hoff
    (Nat.ne_of_gt ((hI.counted hready.held).pos.mpr (mem_append_right _ hb)))
  before layer position hhead _ hlen := h.rowAt hI hready.held layer hhead hlen

theorem Attempted.touched (hI : Lawful I) (hready : Ready c I pool.store state F)
    (h : Attempted c pool state pool' state') : Touched c I pool state F pool' state' := by
  rcases h with ⟨hpaged, hprepared⟩ | ⟨hallocs, hrows, rfl⟩
  · exact hprepared.touched hI hready hpaged
  · have hcounts : ∀ b, pool'.store.refcounts b = pool.store.refcounts b := fun b =>
      hallocs.refcounts not_mem_nil
    have hheld : I pool'.store ([] ++ _) := hallocs.keeps hI hready.held
    exact
      { held := hheld
        same := ⟨_, _, rfl⟩
        length_le := Nat.le_refl _
        length_lt := id
        unpaged := fun _ => rfl
        leased := fun k b hb => .inl hb
        published := fun b _ => ⟨by rw [hallocs.hashes, if_neg not_mem_nil],
          hallocs.listed not_mem_nil⟩
        cleared := fun b => .inl (by rw [hallocs.hashes, if_neg not_mem_nil])
        alone := fun k b hk hb hwhy => by
          rw [hcounts]
          exact hwhy.elim (fun hpast => hready.beyond k b hk hpast hb) fun hin => hin.2 b hb
        table := fun k b hb => .inl hb
        snapshots := fun _ _ => hallocs.snapshots
        outside := fun _ _ _ _ _ => by rw [hrows]
        frame := fun _ _ _ _ _ => by rw [hrows]
        before := fun _ _ _ _ _ => by rw [hrows] }

section Attended

variable (hI : Lawful I) (hready : Ready c I pool.store state F)
  (h : Attended c pool state layer offset rows pool' state')
include hI hready h

theorem Attended.held : I pool'.store (state'.live ++ F) := by
  obtain ⟨pool₁, hprepared, hstore⟩ := h.prepared
  rw [← hstore]
  exact hprepared.keeps hI hready.head_cursor hready.head_le hready.held

variable {b : Nat}

theorem Attended.alone {k : Nat} (hk : state.cursor / c.blockSize ≤ k) (hb : state'.blocks[k]? = some b) :
    pool'.store.refcounts b = 1 := by
  obtain ⟨pool₁, hprepared, hstore⟩ := h.prepared
  rw [← hstore]
  exact hprepared.alone hI hready.head_cursor hready.tail hready.held hready.beyond k b hk hb

/-- A page that the lane holds alone stands once in its table, and nowhere else. -/
theorem Attended.unique {k j : Nat} (hk : state.cursor / c.blockSize ≤ k) (hb : state'.blocks[k]? = some b) :
    b ∉ F ∧ (state.head ≤ j → state'.blocks[j]? = some b → j = k) := by
  have hone := h.alone hI hready hk hb
  rw [hI.counted (h.held hI hready) b, count_append] at hone
  obtain ⟨pool₁, hprepared, _⟩ := h.prepared
  obtain ⟨hhead, _, _, _⟩ := hprepared.fields
  have hhk : state'.head ≤ k := by
    rw [hhead]
    exact Nat.le_trans hready.head_cursor hk
  have hlive : 0 < state'.live.count b := count_pos_iff.mpr (mem_live hhk hb)
  constructor
  · intro hF
    have := count_pos_iff.mpr hF
    omega
  · intro hj hb'
    rw [← hhead] at hj
    have hidx := index_unique (l := state'.live) (b := b) (by omega)
      ((live_getElem? hj).trans hb') ((live_getElem? hhk).trans hb)
    omega

omit hI hready in
/-- Only pages from the one of the cursor on are written. -/
theorem Attended.rows_outside {off : Nat} (l : Nat) (hoff : off < c.blockSize)
    (hb : ∀ k : Nat, state.cursor / c.blockSize ≤ k → state'.blocks[k]? ≠ some b) :
    pool'.rows l (b * c.blockSize + off) = pool.rows l (b * c.blockSize + off) := by
  obtain ⟨pool₁, hprepared, hrow⟩ := h.unwritten l
    (r := b * c.blockSize + off) fun t _ ht heq => by
      obtain ⟨d, hd⟩ := h.page ht
      have hpage := ((physical_eq_iff hoff).mp heq).1
      rw [getD_eq_getElem?_getD, hd] at hpage
      replace hpage : d = b := hpage
      exact hb _ (Nat.div_le_div_right (Nat.le_add_right _ _)) (hpage ▸ hd)
  rw [hrow]
  exact hprepared.rows_outside hoff hb

/-- Blocks outside the lane keep their rows. -/
theorem Attended.frame {off : Nat} (l : Nat) (hb : b ∈ F) (hoff : off < c.blockSize) :
    pool'.rows l (b * c.blockSize + off) = pool.rows l (b * c.blockSize + off) := by
  have hpos : pool.store.refcounts b ≠ 0 := Nat.ne_of_gt
    ((hI.counted hready.held).pos.mpr (mem_append_right _ hb))
  obtain ⟨pool₁, hprepared, hrow⟩ := h.unwritten l
    (r := b * c.blockSize + off) fun t _ ht heq => by
      obtain ⟨d, hd⟩ := h.page ht
      have hpage := ((physical_eq_iff hoff).mp heq).1
      rw [getD_eq_getElem?_getD, hd] at hpage
      have hnot := (h.unique hI hready (j := 0)
        (Nat.div_le_div_right (Nat.le_add_right _ _)) hd).1
      exact hnot (by rw [show d = b from hpage]; exact hb)
  rw [hrow]
  exact hprepared.rows_of_referenced hI hready.held hoff hpos

/-- Positions before the written ones keep their rows. -/
theorem Attended.rowAt_before {position : Nat} (l : Nat)
    (hhead : state.head ≤ position / c.blockSize) (hlt : position < state.cursor + offset)
    (hlen : position / c.blockSize < state.blocks.length) :
    rowAt c pool'.rows state'.blocks l position = rowAt c pool.rows state.blocks l position := by
  obtain ⟨pool₁, hprepared, hrow⟩ := h.unwritten l
    (r := physical c state'.blocks position) fun t hle ht heq => by
      obtain ⟨d, hd⟩ := h.page ht
      obtain ⟨hpage, hoff⟩ := (physical_eq_iff (Nat.mod_lt position c.blockSize_pos)).mp heq
      rw [getD_eq_getElem?_getD, hd] at hpage
      obtain ⟨pool₁, hprepared, _⟩ := h.prepared
      have hget : state'.blocks[position / c.blockSize]? = some d := by
        rw [List.getElem?_eq_getElem (Nat.lt_of_lt_of_le hlen hprepared.fields.2.2.2)]
        rw [getD_eq_getElem?_getD, List.getElem?_eq_getElem
          (Nat.lt_of_lt_of_le hlen hprepared.fields.2.2.2)] at hpage
        exact congrArg some hpage.symm
      have hidx := (h.unique hI hready (Nat.div_le_div_right (Nat.le_add_right _ _)) hd).2
        hhead hget
      have h1 := Nat.div_add_mod position c.blockSize
      have h2 := Nat.div_add_mod (state.cursor + t) c.blockSize
      rw [hidx, ← hoff, h2] at h1
      omega
  rw [rowAt, hrow]
  exact hprepared.rowAt hI hready.held l hhead hlen

/-- Other layers keep their rows. -/
theorem Attended.rowAt_layer {position l : Nat} (hl : l ≠ layer)
    (hhead : state.head ≤ position / c.blockSize)
    (hlen : position / c.blockSize < state.blocks.length) :
    rowAt c pool'.rows state'.blocks l position = rowAt c pool.rows state.blocks l position := by
  obtain ⟨pool₁, hprepared, _, _, _, _, rfl⟩ := h
  rw [rowAt]
  dsimp only
  rw [writeRows_layer hl]
  exact hprepared.rowAt hI hready.held l hhead hlen

/-- The chunk's rows stand at its positions. -/
theorem Attended.rowAt_written {t : Nat} {row : ρ} (hrow : rows[t]? = some row) :
    rowAt c pool'.rows state'.blocks layer (state.cursor + (offset + t)) = row := by
  have hinj : ∀ t < state.advance, ∀ t' < state.advance,
      physical c state'.blocks (state.cursor + t) = physical c state'.blocks (state.cursor + t') →
        t = t' := fun t ht t' ht' heq => by
    obtain ⟨d, hd⟩ := h.page ht
    obtain ⟨d', hd'⟩ := h.page ht'
    have hge : ∀ u, state.cursor / c.blockSize ≤ (state.cursor + u) / c.blockSize :=
      fun u => Nat.div_le_div_right (Nat.le_add_right _ _)
    obtain ⟨hpage, hoff⟩ := (physical_eq_iff (Nat.mod_lt _ c.blockSize_pos)).mp heq
    rw [getD_eq_getElem?_getD, getD_eq_getElem?_getD, hd, hd'] at hpage
    rw [← show d = d' from hpage] at hd'
    have hidx := (h.unique hI hready (hge t) hd).2
      (Nat.le_trans hready.head_cursor (hge t')) hd'
    have h1 := Nat.div_add_mod (state.cursor + t) c.blockSize
    have h2 := Nat.div_add_mod (state.cursor + t') c.blockSize
    rw [hidx, ← hoff] at h2
    omega
  obtain ⟨pool₁, _, _, _, _, hfit, rfl⟩ := h
  rw [← Nat.add_assoc]
  refine writeRows_at _ _ (fun u hu u' hu' heq => ?_) hrow
  rw [Nat.add_assoc, Nat.add_assoc] at heq
  have := hinj (offset + u) (by omega) (offset + u') (by omega) heq
  omega

end Attended

theorem Attended.touched (hI : Lawful I) (hready : Ready c I pool.store state F)
    (h : Attended c pool state layer offset rows pool' state') :
    Touched c I pool state F pool' state' := by
  have hframe := fun (l b off : Nat) (hb : b ∈ F) (hoff : off < c.blockSize) =>
    h.frame hI hready l hb hoff
  have houtside := fun (l b off : Nat) (hoff : off < c.blockSize)
      (hb : ∀ k : Nat, state.cursor / c.blockSize ≤ k → state'.blocks[k]? ≠ some b) =>
    h.rows_outside l hoff hb
  have hbefore := fun (l position : Nat) (hhead : state.head ≤ position / c.blockSize)
      (hlt : position < state.cursor) =>
    h.rowAt_before hI hready l hhead (Nat.lt_of_lt_of_le hlt (Nat.le_add_right _ _))
  obtain ⟨pool₁, hprepared, _, hlayer, _, _, rfl⟩ := h
  have hpaged : c.kvLayers ≠ [] := fun hnil => by
    rw [hnil] at hlayer
    exact Nat.not_lt_zero _ hlayer
  have ht := hprepared.touched hI hready hpaged
  exact
    { held := ht.held
      same := ht.same
      length_le := ht.length_le
      length_lt := ht.length_lt
      unpaged := ht.unpaged
      leased := ht.leased
      published := ht.published
      cleared := ht.cleared
      alone := ht.alone
      table := ht.table
      snapshots := ht.snapshots
      outside := houtside
      frame := hframe
      before := hbefore }

/-! ## Eviction -/

variable {start : Nat} {store store' : BlockStore σ} {frontier : CpuSequenceFrontier}

theorem evictBlocks_spec {rest : List Nat} {head head' : Nat}
    (h : evictBlocks c start rest head store = (head', store')) :
    ∃ n ≤ rest.length, head' = head + n ∧ store' = store.unrefBlocks (rest.take n) ∧
      (0 < n → head' * c.blockSize ≤ start) := by
  induction rest generalizing head store with
  | nil =>
    cases h
    exact ⟨0, Nat.le_refl 0, rfl, rfl, nofun⟩
  | cons b rest ih =>
    rw [evictBlocks] at h
    split at h
    · next hle =>
      obtain ⟨n, hn, hhead, hstore, hstart⟩ := ih h
      refine ⟨n + 1, Nat.succ_le_succ hn, by omega, hstore, fun _ => ?_⟩
      rcases Nat.eq_zero_or_pos n with rfl | hpos
      · rwa [hhead, Nat.add_zero]
      · exact hstart hpos
    · cases h
      exact ⟨0, Nat.zero_le _, rfl, rfl, nofun⟩

/-- Eviction drops the blocks before its start, and only moves the head. -/
theorem kvEvict_spec (h : kvEvict c store state start = (store', state')) :
    ∃ n ≤ state.live.length, state' = { state with head := state.head + n } ∧
      store' = store.unrefBlocks (state.live.take n) ∧
      (0 < n → (state.head + n) * c.blockSize ≤ start) := by
  unfold kvEvict at h
  cases hloop : evictBlocks c start (state.blocks.drop state.head) state.head store with
  | mk head store₁ =>
    rw [hloop] at h
    cases h
    obtain ⟨n, hn, rfl, hstore, hstart⟩ := evictBlocks_spec hloop
    exact ⟨n, hn, rfl, hstore, hstart⟩

theorem live_advance (n : Nat) :
    ({ state with head := state.head + n } : SeqState σ).live = state.live.drop n := by
  unfold SeqState.live
  rw [drop_drop]

/-! ## Transactions -/

/-- The handle that a transaction retains. -/
def tailHandles (tail : Option RetainedCpuBlock) : List Nat := tail.toList.map (·.block)

theorem sharedTail_some {tail : RetainedCpuBlock} (h : sharedTail c store state = some tail) :
    state.cursor % c.blockSize ≠ 0 ∧ tail.index = state.cursor / c.blockSize ∧
      state.blocks[tail.index]? = some tail.block ∧ 1 < store.refcounts tail.block := by
  unfold sharedTail at h
  split at h
  · cases h
  · next hmod =>
    split at h
    · cases h
    · next b hb =>
      split at h
      · next hcount =>
        cases h
        exact ⟨hmod, rfl, hb, hcount⟩
      · cases h

theorem sharedTail_none (h : sharedTail c store state = none) (hmod : state.cursor % c.blockSize ≠ 0)
    {b : Nat} (hb : state.blocks[state.cursor / c.blockSize]? = some b) : store.refcounts b ≤ 1 := by
  unfold sharedTail at h
  rw [if_neg hmod, hb] at h
  dsimp only at h
  split at h
  · cases h
  · next hcount => exact Nat.le_of_not_lt hcount

theorem beginLane_keeps (hI : Lawful I) (hhead : state.head ≤ state.cursor / c.blockSize)
    (hs : I store (state.live ++ F)) :
    I (store.refBlocks (tailHandles (sharedTail c store state)))
      (state.live ++ tailHandles (sharedTail c store state) ++ F) := by
  have hmem : ∀ b ∈ tailHandles (sharedTail c store state), b ∈ state.live ++ F := by
    intro b hb
    obtain ⟨tail, htail, rfl⟩ := mem_map.mp hb
    obtain ⟨_, hindex, hget, _⟩ := sharedTail_some (Option.mem_toList.mp htail)
    rw [hindex] at hget
    exact mem_append_left F (mem_live hhead hget)
  refine hI.perm (hI.refBlocks hs hmem) ?_
  rw [← append_assoc]
  exact perm_append_comm.append_right F

/-- A rollback changes the table, the byte count and the advance. -/
theorem rollbackLane_fields (h : rollbackLane store state frontier = (store', state'))
    (hlen : frontier.blocks ≤ state.blocks.length) :
    ∃ blocks, state' = { state with
        blocks
        copiedBytes := frontier.copiedBytes
        advance := 0 } ∧ blocks.length = frontier.blocks ∧
      (frontier.tail = none ∧ blocks = state.blocks.take frontier.blocks ∨
        ∃ tail, frontier.tail = some tail ∧
          blocks = (state.blocks.take frontier.blocks).set tail.index tail.block) := by
  have htake : (state.blocks.take frontier.blocks).length = frontier.blocks := by
    rw [length_take]
    omega
  unfold rollbackLane at h
  cases hfr : frontier.tail with
  | none =>
    rw [hfr] at h
    cases h
    exact ⟨_, rfl, htake, .inl ⟨rfl, rfl⟩⟩
  | some tail =>
    rw [hfr] at h
    unfold restoreTail at h
    dsimp only at h
    split at h
    · next hback =>
      cases h
      obtain ⟨hlt, hget⟩ := List.getElem?_eq_some_iff.mp hback
      refine ⟨_, rfl, htake, .inr ⟨tail, rfl, ?_⟩⟩
      rw [← hget, set_getElem_self]
    · cases h
      exact ⟨_, rfl, by rw [length_set, htake], .inr ⟨tail, rfl, rfl⟩⟩

/-- A rollback publishes nothing. -/
theorem rollbackLane_published (h : rollbackLane store state frontier = (store', state')) :
    store'.hashes = store.hashes ∧ store'.byHash = store.byHash ∧
      store'.snapshots = store.snapshots := by
  have hrestore : ∀ (s : BlockStore σ) (blocks : List Nat) (tail : Option RetainedCpuBlock),
      (restoreTail s blocks tail).1.hashes = s.hashes ∧
        (restoreTail s blocks tail).1.byHash = s.byHash ∧
        (restoreTail s blocks tail).1.snapshots = s.snapshots := by
    intro s blocks tail
    cases tail with
    | none => exact ⟨rfl, rfl, rfl⟩
    | some tail =>
      unfold restoreTail
      dsimp only
      split
      · exact ⟨rfl, rfl, rfl⟩
      · exact ⟨unrefBlock_hashes, unrefBlock_byHash, unrefBlock_snapshots⟩
  obtain ⟨hhashes, hbyHash, hsnapshots⟩ :=
    hrestore (store.unrefBlocks (state.blocks.drop frontier.blocks))
      (state.blocks.take frontier.blocks) frontier.tail
  have hstore : store' = (restoreTail (store.unrefBlocks (state.blocks.drop frontier.blocks))
      (state.blocks.take frontier.blocks) frontier.tail).1.unrefBlocks
        (tailHandles frontier.tail) := (congrArg Prod.fst h).symm
  rw [hstore, unrefBlocks_hashes, unrefBlocks_byHash, unrefBlocks_snapshots, hhashes, hbyHash,
    hsnapshots, unrefBlocks_hashes, unrefBlocks_byHash, unrefBlocks_snapshots]
  exact ⟨rfl, rfl, rfl⟩

/-- A rollback drops the blocks leased since the frontier, puts the retained tail
back and drops it. -/
theorem rollbackLane_keeps (hI : Lawful I) (h : rollbackLane store state frontier = (store', state'))
    (hhead : state.head ≤ frontier.blocks) (hlen : frontier.blocks ≤ state.blocks.length)
    (htail : ∀ tail, frontier.tail = some tail → state.head ≤ tail.index ∧ tail.index < frontier.blocks)
    (hs : I store (state.live ++ tailHandles frontier.tail ++ F)) : I store' (state'.live ++ F) := by
  have hsplit : state.live = (state.blocks.take frontier.blocks).drop state.head ++
      state.blocks.drop frontier.blocks := by
    have hle : state.head ≤ (state.blocks.take frontier.blocks).length := by
      rw [length_take]
      omega
    rw [← drop_append_of_le_length hle, take_append_drop, SeqState.live]
  -- the store once the new blocks are gone
  have hdropped : I (store.unrefBlocks (state.blocks.drop frontier.blocks))
      ((state.blocks.take frontier.blocks).drop state.head ++ tailHandles frontier.tail ++ F) := by
    refine hI.unrefBlocks (hI.perm hs ?_)
    rw [hsplit]
    simp only [← append_assoc]
    exact (perm_append_comm.append_right _).append_right F
  unfold rollbackLane at h
  cases hfr : frontier.tail with
  | none =>
    rw [hfr] at h hdropped
    cases h
    simpa [tailHandles, restoreTail, unrefBlocks, SeqState.live] using hdropped
  | some tail =>
    obtain ⟨hge, hlt⟩ := htail tail hfr
    rw [hfr] at h hdropped
    have htl : tailHandles (some tail) = [tail.block] := rfl
    rw [htl] at hdropped
    unfold restoreTail at h
    dsimp only at h
    split at h
    · cases h
      refine hI.unrefBlocks (l := tailHandles (some tail)) ?_
      rw [htl]
      refine hI.perm hdropped ?_
      rw [← append_assoc]
      exact perm_append_comm.append_right F
    · have hlt' : tail.index < (state.blocks.take frontier.blocks).length := by
        rw [length_take]
        omega
      have hget := List.getElem?_eq_getElem hlt'
      generalize hold : (state.blocks.take frontier.blocks)[tail.index] = old at hget
      rw [getD_eq_getElem?_getD, hget] at h
      cases h
      have hlive : ((state.blocks.take frontier.blocks).drop state.head)[tail.index -
          state.head]? = some old := by
        rw [List.getElem?_drop, Nat.add_sub_cancel' hge, hget]
      refine hI.unrefBlocks (l := tailHandles (some tail)) ?_
      show I _ (tailHandles (some tail) ++
        (((state.blocks.take frontier.blocks).set tail.index tail.block).drop state.head ++ F))
      rw [htl, drop_set, if_neg (Nat.not_lt.mpr hge)]
      refine hI.unref (hI.perm (hI.ref hdropped (b := tail.block) (by simp)) ?_)
      refine perm_iff_count.mpr fun d => ?_
      have hswap := (replace_perm (b := tail.block) hlive).count_eq d
      simp only [count_cons, count_append, count_nil, Option.getD_some] at hswap ⊢
      omega

theorem evictionStart_le (window : Option Nat) (stop : Nat) : c.evictionStart window stop ≤ stop := by
  unfold PoolConfig.evictionStart
  split
  · unfold PoolConfig.retentionStart
    generalize hmin : List.min? (_ : List Nat) = least
    cases least with
    | none => exact Nat.zero_le stop
    | some start =>
      obtain ⟨layer, _, hlayer⟩ := mem_map.mp (List.min?_mem hmin)
      show start ≤ stop
      rw [← hlayer]
      split
      · exact Nat.sub_le _ _
      · exact Nat.zero_le stop
  · split
    · exact Nat.sub_le _ _
    · exact Nat.zero_le stop

/-! ## Publication -/

/-- The pages a chunk completes and the hashes of what they hold, by the tokens
pending before it. -/
theorem noteTokensFrom_eq (index : Nat) (tokens : List Token) (state : SeqState σ)
    (hpending : state.pending.length = (state.cursor + index) % c.blockSize) :
    let all := state.pending ++ tokens
    noteTokensFrom c index tokens state =
      ({ state with
          lastHash := chainHash state.lastHash (all.take (all.length / c.blockSize * c.blockSize))
          pending := all.drop (all.length / c.blockSize * c.blockSize) },
        (List.range (all.length / c.blockSize)).filterMap fun j =>
          (state.blocks[(state.cursor + index) / c.blockSize + j]?).map fun b =>
            (b, chainHash state.lastHash (all.take ((j + 1) * c.blockSize)))) := by
  intro all
  induction tokens generalizing index state with
  | nil =>
    have hlt : state.pending.length < c.blockSize := by
      rw [hpending]
      exact Nat.mod_lt _ c.blockSize_pos
    have hall : all = state.pending := append_nil _
    rw [noteTokensFrom, hall, Nat.div_eq_of_lt hlt]
    simp
  | cons token tokens ih =>
    have hmod := Nat.mod_lt (state.cursor + index) c.blockSize_pos
    have hpos := c.blockSize_pos
    have hcut := Nat.div_add_mod (state.cursor + index) c.blockSize
    have hall : all = (state.pending ++ [token]) ++ tokens := by
      rw [append_assoc, singleton_append]
    rw [noteTokensFrom]
    dsimp only
    split
    · next hfull =>
      -- the page is complete, and the next token starts a new one
      rw [length_append, length_singleton, hpending] at hfull
      have hnext : (state.cursor + (index + 1)) % c.blockSize = 0 := by
        have heq : state.cursor + (index + 1) =
            c.blockSize * ((state.cursor + index) / c.blockSize + 1) := by
          rw [Nat.mul_succ]
          omega
        rw [heq, Nat.mul_mod_right]
      have hdiv : (state.cursor + (index + 1)) / c.blockSize =
          (state.cursor + index) / c.blockSize + 1 := by
        have heq : state.cursor + (index + 1) =
            c.blockSize * ((state.cursor + index) / c.blockSize + 1) := by
          rw [Nat.mul_succ]
          omega
        rw [heq, Nat.mul_div_cancel_left _ hpos]
      have hlen : (state.pending ++ [token]).length = c.blockSize := by
        rw [length_append, length_singleton, hpending]
        exact hfull
      have hcount : all.length / c.blockSize = tokens.length / c.blockSize + 1 := by
        rw [hall, length_append, hlen, Nat.add_comm, Nat.add_div_right _ hpos]
      have htake : ∀ n, all.take ((n + 1) * c.blockSize) =
          (state.pending ++ [token]) ++ tokens.take (n * c.blockSize) := by
        intro n
        rw [hall, Nat.succ_mul, Nat.add_comm, ← hlen, take_length_add_append]
      have hdrop : all.drop ((tokens.length / c.blockSize + 1) * c.blockSize) =
          tokens.drop (tokens.length / c.blockSize * c.blockSize) := by
        rw [hall, Nat.succ_mul, Nat.add_comm, ← hlen, drop_length_add_append]
      have hrest := ih (index + 1)
        { state with
          lastHash := chainHash state.lastHash (state.pending ++ [token])
          pending := [] } hnext.symm
      dsimp only at hrest
      rw [nil_append] at hrest
      rw [hrest, hcount, range_succ_eq_map, filterMap_cons, filterMap_map, htake,
        hdrop, hdiv, Nat.add_zero, htake 0]
      simp only [Nat.zero_mul, take_zero, append_nil, ← chainHash_append]
      have htail : (fun j => (state.blocks[(state.cursor + index) / c.blockSize + 1 + j]?).map
          fun b => (b, chainHash state.lastHash
            (state.pending ++ [token] ++ tokens.take ((j + 1) * c.blockSize)))) =
          (fun j => (state.blocks[(state.cursor + index) / c.blockSize + j]?).map
            fun b => (b, chainHash state.lastHash (all.take ((j + 1) * c.blockSize)))) ∘
              Nat.succ := by
        funext j
        show _ = (state.blocks[(state.cursor + index) / c.blockSize + (j + 1)]?).map _
        rw [htake (j + 1), Nat.add_right_comm, Nat.add_assoc]
      rw [htail]
      cases state.blocks[(state.cursor + index) / c.blockSize]? with
      | none => rfl
      | some b => rfl
    · next hpart =>
      rw [length_append, length_singleton, hpending] at hpart
      have hlt : (state.cursor + index) % c.blockSize + 1 < c.blockSize := by omega
      have heq : state.cursor + (index + 1) =
          c.blockSize * ((state.cursor + index) / c.blockSize) +
            ((state.cursor + index) % c.blockSize + 1) := by omega
      have hnext : (state.cursor + (index + 1)) % c.blockSize =
          (state.cursor + index) % c.blockSize + 1 := by
        rw [heq, Nat.mul_add_mod, Nat.mod_eq_of_lt hlt]
      have hdiv : (state.cursor + (index + 1)) / c.blockSize =
          (state.cursor + index) / c.blockSize := by
        rw [heq, Nat.mul_add_div hpos, Nat.div_eq_of_lt hlt, Nat.add_zero]
      have hrest := ih (index + 1) { state with pending := state.pending ++ [token] } (by
        dsimp only
        rw [length_append, length_singleton, hpending, hnext])
      dsimp only at hrest
      rw [hrest, hdiv, ← hall]

/-- The pages that a chunk completes, each with the hash of everything up to its end. -/
def completed (c : PoolConfig) (state : SeqState σ) (tokens : List Token) : List (Nat × UInt64) :=
  (List.range ((state.pending ++ tokens).length / c.blockSize)).filterMap fun j =>
    (state.blocks[state.cursor / c.blockSize + j]?).map fun b =>
      (b, chainHash state.lastHash ((state.pending ++ tokens).take ((j + 1) * c.blockSize)))

/-- The tokens of whole pages among the pending ones and a chunk. -/
def wholePages (c : PoolConfig) (state : SeqState σ) (tokens : List Token) : Nat :=
  (state.pending ++ tokens).length / c.blockSize * c.blockSize

theorem noteTokensDeferred_eq {tokens : List Token}
    (hpending : state.pending.length = state.cursor % c.blockSize) :
    noteTokensDeferred c state tokens =
      ({ state with
          lastHash := chainHash state.lastHash
            ((state.pending ++ tokens).take (wholePages c state tokens))
          pending := (state.pending ++ tokens).drop (wholePages c state tokens) },
        completed c state tokens) :=
  noteTokensFrom_eq 0 tokens state hpending

/-- Publishing hashes in a row. -/
def setHashes (store : BlockStore σ) (hashes : List (Nat × UInt64)) : BlockStore σ :=
  hashes.foldl (fun store entry => store.setHash entry.1 entry.2) store

theorem publishLane_spec {tokens : List Token}
    (hpending : state.pending.length = state.cursor % c.blockSize)
    (h : publishLane c store state tokens = (store', state')) :
    state' = { state with
        lastHash := chainHash state.lastHash
          ((state.pending ++ tokens).take (wholePages c state tokens))
        pending := (state.pending ++ tokens).drop (wholePages c state tokens)
        cursor := state.cursor + state.advance
        advance := 0 } ∧
      store' = maybePublishRecurrentSnapshot c (setHashes store (completed c state tokens))
        state' := by
  unfold publishLane noteTokens at h
  rw [noteTokensDeferred_eq hpending] at h
  cases h
  exact ⟨rfl, rfl⟩

theorem maybePublish_cases (store : BlockStore σ) (state : SeqState σ) :
    maybePublishRecurrentSnapshot c store state = store ∨
      c.kvLayers ≠ [] ∧ c.recurrent = true ∧ state.cursor ≠ 0 ∧
        state.cursor % c.blockSize = 0 ∧
        maybePublishRecurrentSnapshot c store state =
          store.publishSnapshot state.lastHash (captureRecurrentSnapshot state) := by
  unfold maybePublishRecurrentSnapshot
  split
  · exact .inl rfl
  · next hpaged =>
    split
    · exact .inl rfl
    · next hcursor =>
      rw [not_or] at hpaged hcursor
      exact .inr ⟨hpaged.1, (Bool.not_eq_false _).mp hpaged.2, hcursor.1,
        not_not.mp hcursor.2, rfl⟩

/-- Publication touches neither the counts nor the lists of unused blocks. -/
theorem publishSnapshot_fields (store : BlockStore σ) (hash : UInt64)
    (snapshot : RecurrentSnapshot σ) :
    (store.publishSnapshot hash snapshot).free = store.free ∧
      (store.publishSnapshot hash snapshot).refcounts = store.refcounts ∧
      (store.publishSnapshot hash snapshot).lru = store.lru ∧
      (store.publishSnapshot hash snapshot).hashes = store.hashes ∧
      (store.publishSnapshot hash snapshot).byHash = store.byHash := by
  unfold publishSnapshot
  split
  · exact ⟨rfl, rfl, rfl, rfl, rfl⟩
  · exact ⟨rfl, rfl, rfl, rfl, rfl⟩

theorem maybePublish_fields (store : BlockStore σ) (state : SeqState σ) :
    (maybePublishRecurrentSnapshot c store state).free = store.free ∧
      (maybePublishRecurrentSnapshot c store state).refcounts = store.refcounts ∧
      (maybePublishRecurrentSnapshot c store state).lru = store.lru ∧
      (maybePublishRecurrentSnapshot c store state).hashes = store.hashes ∧
      (maybePublishRecurrentSnapshot c store state).byHash = store.byHash := by
  rcases maybePublish_cases (c := c) store state with heq | ⟨_, _, _, _, heq⟩
  · rw [heq]
    exact ⟨rfl, rfl, rfl, rfl, rfl⟩
  · rw [heq]
    exact publishSnapshot_fields _ _ _

theorem setHashes_fields (store : BlockStore σ) (hashes : List (Nat × UInt64)) :
    (setHashes store hashes).free = store.free ∧
      (setHashes store hashes).refcounts = store.refcounts ∧
      (setHashes store hashes).lru = store.lru := by
  induction hashes generalizing store with
  | nil => exact ⟨rfl, rfl, rfl⟩
  | cons entry hashes ih => exact ih (store.setHash entry.1 entry.2)

theorem returnBlocks_keeps (hI : Lawful I) (h : returnBlocks store state = (store', state'))
    (hs : I store (state.live ++ F)) : I store' F := by
  cases h
  exact hI.unrefBlocks hs

end Lanes

end EffectTorch
