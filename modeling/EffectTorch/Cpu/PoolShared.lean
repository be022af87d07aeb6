import EffectTorch.Cpu.PoolHeld
import EffectTorch.Cpu.StoreBalance

/-!
# Sequences and prefixes that share pages by fork

Without hash matching every step of the pool keeps `Held` over `Leased`, whatever
hashes were published.

Results:
1. `World.Sees`, `Held.sees`: no step changes a row that a live sequence or prefix
   sees before its cursor.
2. `Frozen`: what an execution that has not committed leaves as it was.
3. `append_isolated`: both over whole runs, and the rollback of a batch.
-/

namespace EffectTorch
open List Option Lib BlockStore

section Shared

variable {ρ σ : Type} {c : PoolConfig} {I : BlockStore σ → List Nat → Prop}
  {w w' w'' : World ρ σ} {i : Nat} {q q' : Sequence σ}

/-! ## Runs without hash matching -/

/-- An event of a pool that never matches hashes. -/
def Event.ForkOnly : Event ρ σ → Prop
  | .prefillMatch .. => False
  | _ => True

theorem Held.mono {J : BlockStore σ → List Nat → Prop} (h : Held c I w)
    (hstore : J w.pool.store w.handles) : Held c J w :=
  { h with store := hstore }

theorem held_new (rows : Nat → Nat → ρ) (hnew : I (.new c.numBlocks) []) :
    Held c I (World.new c rows : World ρ σ) where
  store := hnew
  sequences _ _ h := by cases h
  prefixes _ _ h := by cases h
  alone _ _ _ _ h := by cases h

/-- Publication changes hashes alone. -/
theorem Held.publish_leased (h : Held c Leased w) (hs : w.publish c i = some w') :
    Held c Leased w' := by
  obtain ⟨q, lane, store, state, hrunning, hphase, hpub, rfl⟩ := publish_some hs
  obtain ⟨hq, hlane, _, hlive, hls⟩ := h.running hrunning
  refine h.publish leased_lawful hrunning hphase hpub ?_
  have hheld : Leased w.pool.store (q.state.live ++ w.others i) := by
    have hperm := leased_lawful.perm h.store (handles_perm hq)
    rwa [handles_lane hlane, hls.finished hphase, tailHandles, Option.toList,
      map_nil, append_nil] at hperm
  obtain ⟨_, hstore⟩ := publishLane_spec hlive.pending hpub
  obtain ⟨hfree, hcounts, hlru, _⟩ := maybePublish_fields (c := c)
    (setHashes w.pool.store (completed c q.state lane.tokens)) state
  obtain ⟨hfree', hcounts', hlru'⟩ :=
    setHashes_fields w.pool.store (completed c q.state lane.tokens)
  rw [hstore]
  exact hheld.hashes (hfree.trans hfree') (hcounts.trans hcounts') (hlru.trans hlru')

theorem Held.perform_leased [Zero σ] (h : Held c Leased w) {event : Event ρ σ}
    (hfork : event.ForkOnly) (hs : w.perform c event = some w') : Held c Leased w' := by
  cases event with
  | create =>
    obtain rfl := some.inj hs
    exact h.create
  | prefillMatch i tokens => exact hfork.elim
  | snapshot i => exact h.snapshot leased_lawful hs
  | fork p => exact h.fork leased_lawful hs
  | releasePrefix p => exact h.releasePrefix leased_lawful hs
  | releaseSequence i => exact h.releaseSequence leased_lawful hs
  | begin i window tokens => exact h.begin leased_lawful hs
  | attend i command rows => exact h.attend leased_lawful hs
  | rollback i => exact h.rollback leased_lawful hs
  | commit i kda conv => exact h.commit leased_lawful hs
  | finish i => exact h.finish leased_lawful hs
  | publish i => exact h.publish_leased hs

/-! ## What sequences and prefixes see -/

/-- What `q` saw before its cursor `q'` sees too, until it is released or evicts it. -/
def Sequence.Sees (c : PoolConfig) (rows rows' : Nat → Nat → ρ) (q q' : Sequence σ) : Prop :=
  q'.released = false → q.released = false ∧ q.state.cursor ≤ q'.state.cursor ∧
    q.state.head ≤ q'.state.head ∧
    ∀ layer < c.kvLayers.length, ∀ position < q.state.cursor,
      q'.state.head ≤ position / c.blockSize →
      rowAt c rows' q'.state.blocks layer position = rowAt c rows q.state.blocks layer position

/-- A prefix sees the same rows until it is released. -/
def PrefixSees (c : PoolConfig) (rows rows' : Nat → Nat → ρ) (p p' : Option (PrefixData σ)) :
    Prop :=
  ∀ data, p' = some data → p = some data ∧
    ∀ layer < c.kvLayers.length, ∀ position < data.cursor, data.head ≤ position / c.blockSize →
      rowAt c rows' data.blocks layer position = rowAt c rows data.blocks layer position

structure World.Sees (c : PoolConfig) (w w' : World ρ σ) : Prop where
  sequences : ∀ (i : Nat) (q : Sequence σ), w.sequences[i]? = some q →
    ∃ q', w'.sequences[i]? = some q' ∧ q.Sees c w.pool.rows w'.pool.rows q'
  prefixes : ∀ (p : Nat) (data : Option (PrefixData σ)), w.prefixes[p]? = some data →
    ∃ data', w'.prefixes[p]? = some data' ∧ PrefixSees c w.pool.rows w'.pool.rows data data'

theorem Sequence.Sees.refl {rows : Nat → Nat → ρ} (q : Sequence σ) : q.Sees c rows rows q :=
  fun hr => ⟨hr, Nat.le_refl _, Nat.le_refl _, fun _ _ _ _ _ => rfl⟩

theorem Sequence.Sees.trans {rows rows' rows'' : Nat → Nat → ρ} {q'' : Sequence σ}
    (h : q.Sees c rows rows' q') (h' : q'.Sees c rows' rows'' q'') : q.Sees c rows rows'' q'' := by
  intro hr
  obtain ⟨hr', hcursor', hhead', hrows'⟩ := h' hr
  obtain ⟨hr'', hcursor, hhead, hrows⟩ := h hr'
  refine ⟨hr'', Nat.le_trans hcursor hcursor', Nat.le_trans hhead hhead', ?_⟩
  intro layer hlayer position hlt hkept
  rw [hrows' layer hlayer position (Nat.lt_of_lt_of_le hlt hcursor) hkept]
  exact hrows layer hlayer position hlt (Nat.le_trans hhead' hkept)

/-- What a step on sequence `i` leaves it to see. -/
theorem World.Sees.changed {pool : PoolInner ρ σ} (hq : w.sequences[i]? = some q)
    (h : w.Sees c { w with pool, sequences := w.sequences.set i q' }) :
    q.Sees c w.pool.rows pool.rows q' := by
  obtain ⟨r, hr, hsees⟩ := h.sequences i q hq
  rcases getElem?_set_cases hr with ⟨-, -, rfl⟩ | ⟨hne, -⟩
  · exact hsees
  · exact absurd rfl hne

theorem World.Sees.refl (w : World ρ σ) : w.Sees c w where
  sequences _ q hq := ⟨q, hq, .refl q⟩
  prefixes _ data hp := ⟨data, hp, fun _ hsome => ⟨hsome, fun _ _ _ _ _ => rfl⟩⟩

theorem World.Sees.trans (h : w.Sees c w') (h' : w'.Sees c w'') : w.Sees c w'' where
  sequences i q hq := by
    obtain ⟨q', hq', hsees⟩ := h.sequences i q hq
    obtain ⟨q'', hq'', hsees'⟩ := h'.sequences i q' hq'
    exact ⟨q'', hq'', hsees.trans hsees'⟩
  prefixes p data hp := by
    obtain ⟨data', hp', hsees⟩ := h.prefixes p data hp
    obtain ⟨data'', hp'', hsees'⟩ := h'.prefixes p data' hp'
    refine ⟨data'', hp'', fun d hd => ?_⟩
    obtain ⟨hd', hrows'⟩ := hsees' d hd
    obtain ⟨hd'', hrows⟩ := hsees d hd'
    refine ⟨hd'', fun layer hlayer position hlt hkept => ?_⟩
    rw [hrows' layer hlayer position hlt hkept]
    exact hrows layer hlayer position hlt hkept

/-- The retained tail of an open lane holds the rows before the cursor, wherever the
table points since. -/
def World.Retained (c : PoolConfig) (w : World ρ σ) : Prop :=
  ∀ (i : Nat) (q : Sequence σ) (lane : Lane) (tail : RetainedCpuBlock),
    w.sequences[i]? = some q → q.lane = some lane → lane.Open → lane.frontier.tail = some tail →
    ∀ layer, ∀ off < q.state.cursor % c.blockSize,
      w.pool.rows layer (tail.block * c.blockSize + off) =
        rowAt c w.pool.rows q.state.blocks layer (tail.index * c.blockSize + off)

/-- A live sequence has a page for every position before its cursor. -/
theorem Sequence.Live.covered (h : q.Live c) (hpaged : c.kvLayers ≠ []) :
    q.state.cursor ≤ q.state.blocks.length * c.blockSize := by
  cases hlane : q.lane with
  | none => exact (h.idle hlane).2.2 hpaged
  | some lane =>
    have hls := h.lane lane hlane
    exact Nat.le_trans (hls.frontier_ge hpaged) (Nat.mul_le_mul_right _ hls.frontier_le)

theorem paged_of_layer {layer : Nat} (h : layer < c.kvLayers.length) : c.kvLayers ≠ [] := by
  rintro hnil
  rw [hnil] at h
  exact Nat.not_lt_zero _ h

theorem page_of_lt {blocks : List Nat} {position cursor : Nat} (hlt : position < cursor)
    (hle : cursor ≤ blocks.length * c.blockSize) :
    ∃ b, blocks[position / c.blockSize]? = some b := by
  have hpage : position / c.blockSize < blocks.length := by
    rw [Nat.div_lt_iff_lt_mul c.blockSize_pos]
    omega
  exact ⟨_, List.getElem?_eq_getElem hpage⟩

theorem tail_position {cursor off : Nat} (hoff : off < cursor % c.blockSize) :
    cursor / c.blockSize * c.blockSize + off < cursor ∧
      (cursor / c.blockSize * c.blockSize + off) / c.blockSize = cursor / c.blockSize ∧
      (cursor / c.blockSize * c.blockSize + off) % c.blockSize = off := by
  have hcut := Nat.div_add_mod cursor c.blockSize
  have hmod := Nat.mod_lt cursor c.blockSize_pos
  rw [Nat.mul_comm] at hcut
  have hlt : off < c.blockSize := by omega
  refine ⟨by omega, ?_, ?_⟩
  · rw [Nat.mul_comm, Nat.mul_add_div c.blockSize_pos, Nat.div_eq_of_lt hlt, Nat.add_zero]
  · rw [Nat.mul_comm, Nat.mul_add_mod, Nat.mod_eq_of_lt hlt]

/-! ## Steps -/

section Update

variable (h : Held c I w) (hretained : w.Retained c) (hq : w.sequences[i]? = some q)
  {pool : PoolInner ρ σ}
include h hq

/-- A step on one sequence that leaves the pages of the others alone. -/
theorem Held.update_sees
    (hframe : ∀ b ∈ w.others i, ∀ layer, ∀ off < c.blockSize,
      pool.rows layer (b * c.blockSize + off) = w.pool.rows layer (b * c.blockSize + off))
    (hlocal : q.Sees c w.pool.rows pool.rows q') :
    w.Sees c { w with pool, sequences := w.sequences.set i q' } where
  sequences j r hr := by
    by_cases hj : j = i
    · subst hj
      rw [hq] at hr
      cases hr
      exact ⟨q', List.getElem?_set_self (List.getElem?_eq_some_iff.mp hq).1, hlocal⟩
    · refine ⟨r, by rw [← hr]; exact List.getElem?_set_ne (Ne.symm hj), fun hrel => ?_⟩
      refine ⟨hrel, Nat.le_refl _, Nat.le_refl _, fun layer hlayer position hlt hkept => ?_⟩
      have hlive := (h.sequences j r hr).live hrel
      obtain ⟨b, hb⟩ := page_of_lt hlt (hlive.covered (paged_of_layer hlayer))
      rw [rowAt_of_getElem? hb, rowAt_of_getElem? hb]
      exact hframe b (mem_others hr hj (live_subset_handles r (mem_live hkept hb))) layer _
        (Nat.mod_lt _ c.blockSize_pos)
  prefixes p data hp := by
    refine ⟨data, hp, fun d hd => ⟨hd, fun layer hlayer position hlt hkept => ?_⟩⟩
    rw [hd] at hp
    have hshaped := h.prefixes p d hp
    obtain ⟨b, hb⟩ := page_of_lt hlt (hshaped.length_ge (paged_of_layer hlayer))
    rw [rowAt_of_getElem? hb, rowAt_of_getElem? hb]
    refine hframe b (prefix_mem_others hp ?_) layer _ (Nat.mod_lt _ c.blockSize_pos)
    have hidx : (d.blocks.drop d.head)[position / c.blockSize - d.head]? = some b := by
      rw [List.getElem?_drop, Nat.add_sub_cancel' hkept, hb]
    exact mem_of_getElem? hidx

include hretained

omit hq in
theorem Held.update_retained
    (hframe : ∀ b ∈ w.others i, ∀ layer, ∀ off < c.blockSize,
      pool.rows layer (b * c.blockSize + off) = w.pool.rows layer (b * c.blockSize + off))
    (hlocal : ∀ lane tail, q'.lane = some lane → lane.Open → lane.frontier.tail = some tail →
      ∀ layer, ∀ off < q'.state.cursor % c.blockSize,
        pool.rows layer (tail.block * c.blockSize + off) =
          rowAt c pool.rows q'.state.blocks layer (tail.index * c.blockSize + off)) :
    World.Retained c { w with pool, sequences := w.sequences.set i q' } := by
  intro j r lane tail hr hlane hopen htail layer off hoff
  rcases getElem?_set_cases hr with ⟨-, -, rfl⟩ | ⟨hj, hr⟩
  · exact hlocal lane tail hlane hopen htail layer off hoff
  · have hsame := hretained j r lane tail hr hlane hopen htail layer off hoff
    obtain ⟨_, _, hls⟩ := (h.sequences j r hr).running hlane
    obtain ⟨hindex, hlt, _⟩ := hls.tail tail htail
    obtain ⟨_, hdiv, _⟩ := tail_position (c := c) hoff
    have hmod := Nat.mod_lt r.state.cursor c.blockSize_pos
    obtain ⟨b, hb⟩ : ∃ b, r.state.blocks[(tail.index * c.blockSize + off) / c.blockSize]? =
        some b := by
      rw [hindex, hdiv, ← hindex]
      exact ⟨_, List.getElem?_eq_getElem (Nat.lt_of_lt_of_le hlt hls.frontier_le)⟩
    have hhead : r.state.head ≤ (tail.index * c.blockSize + off) / c.blockSize := by
      rw [hindex, hdiv]
      exact (hls.head_open hopen).1
    have hown : tail.block ∈ r.handles := by
      rw [handles_lane hlane, htail]
      exact mem_append_right _ (mem_singleton_self _)
    show pool.rows layer _ = rowAt c pool.rows r.state.blocks layer _
    rw [rowAt_of_getElem? hb] at hsame ⊢
    rw [hframe _ (mem_others hr hj hown) layer off (by omega), hsame]
    exact (hframe b (mem_others hr hj (live_subset_handles r (mem_live hhead hb))) layer _
      (Nat.mod_lt _ c.blockSize_pos)).symm

/-- A step that writes no rows. -/
theorem Held.update_same {store : BlockStore σ} (hcursor : q.state.cursor ≤ q'.state.cursor)
    (hhead : q.state.head ≤ q'.state.head) (hblocks : q'.state.blocks = q.state.blocks)
    (hreleased : q'.released = false → q.released = false)
    (hlocal : ∀ lane tail, q'.lane = some lane → lane.Open → lane.frontier.tail = some tail →
      ∀ layer, ∀ off < q'.state.cursor % c.blockSize,
        w.pool.rows layer (tail.block * c.blockSize + off) =
          rowAt c w.pool.rows q'.state.blocks layer (tail.index * c.blockSize + off)) :
    w.Sees c (w.setSequence i store q') ∧ (w.setSequence i store q').Retained c := by
  have hsees : q.Sees c w.pool.rows w.pool.rows q' := fun hr =>
    ⟨hreleased hr, hcursor, hhead, fun _ _ _ _ _ => by rw [hblocks]⟩
  exact ⟨h.update_sees hq (fun _ _ _ _ _ => rfl) hsees,
    h.update_retained hretained (fun _ _ _ _ _ => rfl) hlocal⟩

end Update

theorem Held.attend_sees (hI : Lawful I) (h : Held c I w) (hretained : w.Retained c)
    {command : AttentionCommand} {rows : List ρ} (hs : w.attend c i command rows = some w') :
    w.Sees c w' ∧ w'.Retained c := by
  obtain ⟨q, lane, r, pool, state, hrunning, hphase, hkv, rfl⟩ := attend_some hs
  obtain ⟨hq, hlane, hr, hlive, hls⟩ := h.running hrunning
  have ht := h.touched hI hrunning hphase hkv
  have hframe : ∀ b ∈ w.others i, ∀ layer, ∀ off < c.blockSize,
      pool.rows layer (b * c.blockSize + off) = w.pool.rows layer (b * c.blockSize + off) :=
    fun b hb layer off => ht.frame layer b off (mem_append_right _ hb)
  have hbefore := ht.before
  obtain ⟨copiedBytes, blocks, rfl⟩ := ht.same
  refine ⟨h.update_sees hq hframe fun _ => ⟨hr, Nat.le_refl _, Nat.le_refl _, ?_⟩,
    h.update_retained hretained hframe ?_⟩
  · intro layer hlayer position hlt hkept
    obtain ⟨b, hb⟩ := page_of_lt hlt (hlive.covered (paged_of_layer hlayer))
    exact hbefore layer position hkept hlt (List.getElem?_eq_some_iff.mp hb).1
  · intro lane' tail hlane' _ htail layer off hoff
    -- a command leaves the frontier as it is
    have htail' : lane.frontier.tail = some tail := by
      rw [← some.inj hlane'] at htail
      cases r <;> exact htail
    obtain ⟨hindex, hlt, _⟩ := hls.tail tail htail'
    obtain ⟨hposition, hdiv, _⟩ := tail_position (c := c) hoff
    have hmod := Nat.mod_lt q.state.cursor c.blockSize_pos
    replace hoff : off < q.state.cursor % c.blockSize := hoff
    have hkeep := ht.frame layer tail.block off
      (mem_append_left _ (by rw [htail']; exact mem_singleton_self _)) (by omega)
    show pool.rows layer _ = rowAt c pool.rows blocks layer _
    rw [hkeep, hretained i q lane tail hq hlane (.inl hphase) htail' layer off hoff, hindex]
    refine (hbefore layer _ ?_ hposition ?_).symm
    · rw [hdiv]
      exact (hls.head_open (.inl hphase)).1
    · rw [hdiv]
      rw [hindex] at hlt
      exact Nat.lt_of_lt_of_le hlt hls.frontier_le

/-- A rollback puts the retained tail back, which holds the same rows. -/
theorem Held.rollback_sees (h : Held c I w) (hretained : w.Retained c)
    (hs : w.rollback i = some w') : w.Sees c w' ∧ w'.Retained c := by
  obtain ⟨q, lane, store, state, hrunning, hopen, hroll, rfl⟩ := rollback_some hs
  obtain ⟨hq, hlane, hr, hlive, hls⟩ := h.running hrunning
  obtain ⟨blocks, rfl, hlen, hblocks⟩ := rollbackLane_fields hroll hls.frontier_le
  refine ⟨h.update_sees hq (fun _ _ _ _ _ => rfl)
      fun _ => ⟨hr, Nat.le_refl _, Nat.le_refl _, ?_⟩,
    h.update_retained hretained (fun _ _ _ _ _ => rfl) nofun⟩
  intro layer hlayer position hlt hkept
  have hpage : position / c.blockSize < lane.frontier.blocks := by
    have hge := hls.frontier_ge (paged_of_layer hlayer)
    rw [Nat.div_lt_iff_lt_mul c.blockSize_pos]
    omega
  obtain ⟨b, hb⟩ : ∃ b, q.state.blocks[position / c.blockSize]? = some b :=
    ⟨_, List.getElem?_eq_getElem (Nat.lt_of_lt_of_le hpage hls.frontier_le)⟩
  have htake : (q.state.blocks.take lane.frontier.blocks)[position / c.blockSize]? = some b := by
    rw [List.getElem?_take_of_lt hpage, hb]
  show rowAt c w.pool.rows blocks layer position = rowAt c w.pool.rows q.state.blocks layer position
  rcases hblocks with ⟨_, rfl⟩ | ⟨tail, htail, rfl⟩
  · rw [rowAt_of_getElem? htake, rowAt_of_getElem? hb]
  · obtain ⟨hindex, _, _⟩ := hls.tail tail htail
    by_cases heq : position / c.blockSize = tail.index
    · have hcut := Nat.div_add_mod position c.blockSize
      have hcut' := Nat.div_add_mod q.state.cursor c.blockSize
      have hoff : position % c.blockSize < q.state.cursor % c.blockSize := by
        rw [heq, hindex] at hcut
        omega
      have hsame := hretained i q lane tail hq hlane hopen htail layer _ hoff
      have hback : tail.index * c.blockSize + position % c.blockSize = position := by
        rw [← heq, Nat.mul_comm]
        exact hcut
      rw [hback] at hsame
      have hset : ((q.state.blocks.take lane.frontier.blocks).set tail.index tail.block)[position /
          c.blockSize]? = some tail.block := by
        rw [heq]
        refine List.getElem?_set_self ?_
        rw [← heq]
        exact (List.getElem?_eq_some_iff.mp htake).1
      rw [rowAt_of_getElem? hset, hsame]
    · have hset : ((q.state.blocks.take lane.frontier.blocks).set tail.index tail.block)[position /
          c.blockSize]? = some b := by
        rw [List.getElem?_set_ne (Ne.symm heq), htake]
      rw [rowAt_of_getElem? hset, rowAt_of_getElem? hb]

/-- A new sequence or prefix changes nothing that is seen. -/
theorem World.extend_sees (hretained : w.Retained c) (store : BlockStore σ)
    (sequences : List (Sequence σ)) (prefixes : List (Option (PrefixData σ)))
    (hidle : ∀ q ∈ sequences, q.lane = none) :
    let w' : World ρ σ := ⟨{ w.pool with store }, w.sequences ++ sequences, w.prefixes ++ prefixes⟩
    w.Sees c w' ∧ w'.Retained c := by
  refine ⟨⟨fun j r hr => ⟨r, ?_, .refl r⟩, fun p data hp => ⟨data, ?_, ?_⟩⟩, ?_⟩
  · rw [List.getElem?_append_left (List.getElem?_eq_some_iff.mp hr).1, hr]
  · rw [List.getElem?_append_left (List.getElem?_eq_some_iff.mp hp).1, hp]
  · exact fun d hd => ⟨hd, fun _ _ _ _ _ => rfl⟩
  · intro j r lane tail hr hlane
    rw [List.getElem?_append] at hr
    split at hr
    · exact hretained j r lane tail hr hlane
    · rw [hidle r (mem_of_getElem? hr)] at hlane
      cases hlane

theorem World.releasePrefix_sees (hretained : w.Retained c) {p : Nat}
    (hs : w.releasePrefix p = some w') : w.Sees c w' ∧ w'.Retained c := by
  obtain ⟨data, hp, rfl⟩ := releasePrefix_some hs
  refine ⟨⟨fun j r hr => ⟨r, hr, .refl r⟩, fun p' data' hp' => ?_⟩, hretained⟩
  by_cases hne : p' = p
  · subst hne
    refine ⟨none, List.getElem?_set_self (List.getElem?_eq_some_iff.mp hp).1, nofun⟩
  · refine ⟨data', by rw [← hp']; exact List.getElem?_set_ne (Ne.symm hne), ?_⟩
    exact fun d hd => ⟨hd, fun _ _ _ _ _ => rfl⟩

theorem Held.begin_sees (h : Held c I w) (hretained : w.Retained c) {window : Option Nat}
    {tokens : List Token} (hs : w.begin c i window tokens = some w') :
    w.Sees c w' ∧ w'.Retained c := by
  obtain ⟨q, hidle, _, rfl⟩ := begin_some hs
  obtain ⟨hq, hr, _⟩ := idle_some hidle
  refine h.update_same hretained hq (Nat.le_refl _) (Nat.le_refl _) rfl (fun _ => hr) ?_
  intro lane tail hlane _ htail layer off hoff
  obtain rfl := some.inj hlane
  obtain ⟨_, hindex, hget, _⟩ := sharedTail_some htail
  obtain ⟨_, hdiv, hmod⟩ := tail_position (c := c) hoff
  rw [rowAt_of_getElem? (b := tail.block), hindex, hmod]
  rw [hindex, hdiv, ← hindex]
  exact hget

/-- No step changes what is seen. -/
theorem Held.sees [Zero σ] (hI : Lawful I) (h : Held c I w) (hretained : w.Retained c)
    {event : Event ρ σ} (hfork : event.ForkOnly) (hs : w.perform c event = some w') :
    w.Sees c w' ∧ w'.Retained c := by
  cases event with
  | create =>
    obtain rfl := some.inj hs
    have hextend := World.extend_sees hretained w.pool.store
      [⟨SeqState.new c, false, none, []⟩] [] (by simp)
    rwa [append_nil] at hextend
  | prefillMatch i tokens => exact hfork.elim
  | snapshot i =>
    obtain ⟨q, _, rfl⟩ := snapshot_some hs
    have hextend := World.extend_sees hretained (w.pool.store.refBlocks q.state.live) []
      [some q.toPrefix] (by simp)
    rwa [append_nil] at hextend
  | fork p =>
    obtain ⟨data, q, _, hseq, rfl⟩ := fork_some hs
    obtain ⟨_, hlane, _⟩ := toSequence_some hseq
    have hextend := World.extend_sees hretained (w.pool.store.refBlocks data.handles) [q] []
      (by simp [hlane])
    rwa [append_nil] at hextend
  | releasePrefix p => exact World.releasePrefix_sees hretained hs
  | releaseSequence i =>
    obtain ⟨q, store, state, hidle, _, rfl⟩ := releaseSequence_some hs
    obtain ⟨hq, _, hlane⟩ := idle_some hidle
    refine ⟨h.update_sees hq (fun _ _ _ _ _ => rfl) nofun,
      h.update_retained hretained (fun _ _ _ _ _ => rfl) fun lane _ hlane' => ?_⟩
    rw [hlane] at hlane'
    cases hlane'
  | begin i window tokens => exact h.begin_sees hretained hs
  | attend i command rows => exact h.attend_sees hI hretained hs
  | rollback i => exact h.rollback_sees hretained hs
  | commit i kda conv =>
    obtain ⟨q, lane, n, hrunning, _, _, _, _, rfl⟩ := commit_some hs
    obtain ⟨hq, hlane, hr, _⟩ := h.running hrunning
    refine h.update_same hretained hq (Nat.le_refl _) (Nat.le_add_right _ n) rfl (fun _ => hr) ?_
    intro lane' tail hlane' hopen
    exact absurd (some.inj hlane' ▸ hopen) (Lane.not_open (.inl rfl))
  | finish i =>
    obtain ⟨q, lane, hrunning, _, rfl⟩ := finish_some hs
    obtain ⟨hq, hlane, hr, _⟩ := h.running hrunning
    refine h.update_same hretained hq (Nat.le_refl _) (Nat.le_refl _) rfl (fun _ => hr) ?_
    intro lane' tail hlane' _ htail
    rw [← some.inj hlane'] at htail
    cases htail
  | publish i =>
    obtain ⟨q, lane, store, state, hrunning, _, hpub, rfl⟩ := publish_some hs
    obtain ⟨hq, hlane, hr, hlive, _⟩ := h.running hrunning
    obtain ⟨rfl, _⟩ := publishLane_spec hlive.pending hpub
    exact h.update_same hretained hq (Nat.le_add_right _ _) (Nat.le_refl _) rfl (fun _ => hr) nofun

/-! ## Executions that do not commit -/

/-- What a lane keeps of the idle sequence it began on. -/
structure Since (c : PoolConfig) (q₀ q : Sequence σ) (lane : Lane) : Prop where
  opened : lane.Open
  idle : q₀.lane = none ∧ q₀.released = false ∧ q₀.state.advance = 0
  same : ∃ copiedBytes advance blocks, q = { q₀ with
    state := { q₀.state with
      copiedBytes
      advance
      blocks }
    lane := some lane }
  frontier : lane.frontier.blocks = q₀.state.blocks.length ∧
    lane.frontier.copiedBytes = q₀.state.copiedBytes
  table : ∀ k b, q₀.state.blocks[k]? = some b → q.state.blocks[k]? = some b ∨
    ∃ tail, lane.frontier.tail = some tail ∧ tail.index = k ∧ tail.block = b
  tail : ∀ tail, lane.frontier.tail = some tail → q₀.state.blocks[tail.index]? = some tail.block

/-- The lanes in `opened` run since `w₀`, and nothing else has changed. -/
structure Frozen (c : PoolConfig) (w₀ w : World ρ σ) (opened : List Nat) : Prop where
  prefixes : w.prefixes = w₀.prefixes
  others : ∀ i, i ∉ opened → w.sequences[i]? = w₀.sequences[i]?
  lanes : ∀ i ∈ opened, ∃ q₀ q lane, w₀.sequences[i]? = some q₀ ∧ w.sequences[i]? = some q ∧
    Since c q₀ q lane
  published : ∀ b ∈ w₀.handles, w.pool.store.hashes b = w₀.pool.store.hashes b ∧
    w.pool.store.listed.count b = w₀.pool.store.listed.count b

theorem Since.lane {q₀ : Sequence σ} {lane : Lane} (h : Since c q₀ q lane) :
    q.lane = some lane := by
  obtain ⟨_, _, _, rfl⟩ := h.same
  rfl

/-- A block of the sequence is still held, if only as the retained tail. -/
theorem Since.handles {q₀ : Sequence σ} {lane : Lane} (h : Since c q₀ q lane) {b : Nat}
    (hb : b ∈ q₀.handles) : b ∈ q.handles := by
  rw [handles_idle h.idle.1] at hb
  rw [handles_lane h.lane]
  obtain ⟨k, hk⟩ := mem_iff_getElem?.mp hb
  rw [SeqState.live, List.getElem?_drop] at hk
  rcases h.table _ b hk with hkept | ⟨tail, htail, _, rfl⟩
  · refine mem_append_left _ (mem_live ?_ hkept)
    obtain ⟨_, _, _, rfl⟩ := h.same
    exact Nat.le_add_right _ _
  · rw [htail]
    exact mem_append_right _ (mem_singleton_self _)

section Frozen

variable {w₀ : World ρ σ} {opened : List Nat}

theorem Frozen.start (w : World ρ σ) : Frozen c w w [] where
  prefixes := rfl
  others _ _ := rfl
  lanes _ h := by cases h
  published _ _ := ⟨rfl, rfl⟩

theorem Frozen.handles (h : Frozen c w₀ w opened) {b : Nat} (hb : b ∈ w₀.handles) :
    b ∈ w.handles := by
  rcases mem_append.mp hb with hseq | hpre
  · obtain ⟨q₀, hq₀, hmem⟩ := mem_flatMap.mp hseq
    obtain ⟨j, hj⟩ := mem_iff_getElem?.mp hq₀
    by_cases hin : j ∈ opened
    · obtain ⟨q₀', q, lane, hget, hq, hsince⟩ := h.lanes j hin
      rw [hj] at hget
      obtain rfl := some.inj hget
      exact mem_handles hq (hsince.handles hmem)
    · rw [← h.others j hin] at hj
      exact mem_handles hj hmem
  · refine mem_append_right _ ?_
    rw [h.prefixes]
    exact hpre

/-- A step on one lane keeps the rest as it was. -/
theorem Frozen.update (h : Frozen c w₀ w opened) {opened' : List Nat} {pool : PoolInner ρ σ}
    {q₀ : Sequence σ} (lane : Lane) (hq₀ : w₀.sequences[i]? = some q₀)
    (hi : i < w.sequences.length) (hopened : ∀ j, j ∈ opened' ↔ j = i ∨ j ∈ opened)
    (hsince : Since c q₀ q' lane)
    (hpublished : ∀ b ∈ w₀.handles, pool.store.hashes b = w₀.pool.store.hashes b ∧
      pool.store.listed.count b = w₀.pool.store.listed.count b) :
    Frozen c w₀ { w with pool, sequences := w.sequences.set i q' } opened' where
  prefixes := h.prefixes
  others j hj := by
    rw [hopened, not_or] at hj
    exact (List.getElem?_set_ne (Ne.symm hj.1)).trans (h.others j hj.2)
  lanes j hj := by
    by_cases hji : j = i
    · subst hji
      exact ⟨q₀, q', lane, hq₀, List.getElem?_set_self hi, hsince⟩
    · obtain ⟨r₀, r, lane', hr₀, hr, hsince'⟩ :=
        h.lanes j (((hopened j).mp hj).resolve_left hji)
      exact ⟨r₀, r, lane', hr₀, by rw [← hr]; exact List.getElem?_set_ne (Ne.symm hji), hsince'⟩
  published := hpublished

theorem Frozen.begin (hheld : Held c I w) (h : Frozen c w₀ w opened) {window : Option Nat}
    {tokens : List Token} (hs : w.begin c i window tokens = some w') :
    i ∉ opened ∧ Frozen c w₀ w' (i :: opened) := by
  obtain ⟨q, hidle, _, rfl⟩ := begin_some hs
  obtain ⟨hq, hr, hlane⟩ := idle_some hidle
  have hi : i ∉ opened := fun hin => by
    obtain ⟨_, q', lane, _, hq', hsince⟩ := h.lanes i hin
    rw [hq] at hq'
    obtain rfl := some.inj hq'
    rw [hsince.lane] at hlane
    cases hlane
  have hadvance := (((hheld.sequences i q hq).live hr).idle hlane).1
  have hq₀ := (h.others i hi).symm.trans hq
  refine ⟨hi, h.update ⟨window, tokens, ⟨q.state.blocks.length, q.state.copiedBytes,
    sharedTail c w.pool.store q.state⟩, none, [], .running⟩ hq₀
    (List.getElem?_eq_some_iff.mp hq).1 (fun j => mem_cons) ?_ ?_⟩
  · exact
      { opened := .inl rfl
        idle := ⟨hlane, hr, hadvance⟩
        same := ⟨_, _, _, rfl⟩
        frontier := ⟨rfl, rfl⟩
        table := fun k b hb => .inl hb
        tail := fun tail htail => (sharedTail_some htail).2.2.1 }
  · intro b hb
    show (w.pool.store.refBlocks _).hashes b = _ ∧ (w.pool.store.refBlocks _).listed.count b = _
    rw [refBlocks_hashes, listed, refBlocks_byHash]
    exact h.published b hb

theorem Frozen.attend (hI : Lawful I) (hheld : Held c I w) (h : Frozen c w₀ w opened)
    (hi : i ∈ opened) {command : AttentionCommand} {rows : List ρ}
    (hs : w.attend c i command rows = some w') : Frozen c w₀ w' opened := by
  obtain ⟨q, lane, r, pool, state, hrunning, hphase, hkv, rfl⟩ := attend_some hs
  obtain ⟨hq, hlane, hr, hlive, hls⟩ := hheld.running hrunning
  have ht := hheld.touched hI hrunning hphase hkv
  obtain ⟨q₀, q', lane', hq₀, hq', hsince⟩ := h.lanes i hi
  rw [hq] at hq'
  obtain rfl := some.inj hq'
  rw [hsince.lane] at hlane
  obtain rfl := some.inj hlane
  have hfrontier : (lane'.after command.layer r).frontier = lane'.frontier := by
    cases r <;> rfl
  refine h.update (lane'.after command.layer r) hq₀ (List.getElem?_eq_some_iff.mp hq).1
    (fun j => ⟨.inr, fun hj => hj.elim (fun heq => heq ▸ hi) id⟩) ?_ ?_
  · refine
      { opened := ?_
        idle := hsince.idle
        same := ?_
        frontier := by rw [hfrontier]; exact hsince.frontier
        table := fun k b hb => ?_
        tail := by rw [hfrontier]; exact hsince.tail }
    · cases r with
      | ok start => exact .inl hphase
      | error e => exact .inr rfl
    · obtain ⟨_, _, _, hsame⟩ := hsince.same
      obtain ⟨_, _, rfl⟩ := ht.same
      rw [hsame]
      exact ⟨_, _, _, rfl⟩
    · rw [hfrontier]
      rcases hsince.table k b hb with hkept | htail
      · rcases ht.table k b hkept with hkept' | ⟨hk, hcount⟩
        · exact .inl hkept'
        · -- only a tail that was shared at the start is copied
          cases htail : lane'.frontier.tail with
          | none =>
            have hone := hheld.alone i q k b hq ⟨hr, hk ▸ (hls.head_open hsince.opened).1,
              .inr ⟨lane', hsince.lane, Nat.le_of_eq hk.symm, .inr htail⟩⟩ hkept
            omega
          | some tail =>
            obtain ⟨hindex, _⟩ := hls.tail tail htail
            have hget := hsince.tail tail htail
            rw [hindex, ← hk, hb] at hget
            exact .inr ⟨tail, rfl, hindex.trans hk.symm, (some.inj hget).symm⟩
      · exact .inr htail
  · intro b hb
    have hpos : w.pool.store.refcounts b ≠ 0 :=
      Nat.ne_of_gt ((hI.counted hheld.store).pos.mpr (h.handles hb))
    obtain ⟨hhashes, hlisted⟩ := ht.published b hpos
    rw [hhashes, hlisted]
    exact h.published b hb

/-- A rollback gives back the sequence that the lane began on. -/
theorem Frozen.rollback (hheld : Held c I w) (h : Frozen c w₀ w (i :: opened))
    (hi : i ∉ opened) : ∃ w', w.rollback i = some w' ∧ Frozen c w₀ w' opened := by
  obtain ⟨q₀, q, lane, hq₀, hq, hsince⟩ := h.lanes i mem_cons_self
  have hrunning : w.running i = some (q, lane) := by
    unfold World.running
    rw [hq]
    show q.lane.map _ = _
    rw [hsince.lane]
    rfl
  obtain ⟨_, _, hls⟩ := (hheld.sequences i q hq).running hsince.lane
  obtain ⟨store, state, hroll⟩ : ∃ store state,
      rollbackLane w.pool.store q.state lane.frontier = (store, state) := ⟨_, _, rfl⟩
  have hopen : lane.phase = .running ∨ lane.phase = .failed := hsince.opened
  refine ⟨w.setSequence i store { q with
      state
      lane := none }, by simp only [World.rollback, hrunning, if_pos hopen, hroll], ?_⟩
  obtain ⟨hhashes, hbyHash, _⟩ := rollbackLane_published hroll
  obtain ⟨blocks, rfl, hlen, hblocks⟩ := rollbackLane_fields hroll hls.frontier_le
  have hrestored : blocks = q₀.state.blocks := by
    refine ext_getElem? fun k => ?_
    cases hk : q₀.state.blocks[k]? with
    | none =>
      rw [List.getElem?_eq_none_iff] at hk ⊢
      rw [hlen, hsince.frontier.1]
      exact hk
    | some b =>
      have hlt : k < lane.frontier.blocks := by
        rw [hsince.frontier.1]
        exact (List.getElem?_eq_some_iff.mp hk).1
      have htake : (q.state.blocks.take lane.frontier.blocks).length = lane.frontier.blocks := by
        rw [length_take]
        exact Nat.min_eq_left hls.frontier_le
      rcases hblocks with ⟨hnone, rfl⟩ | ⟨tail, htail, rfl⟩
      · rcases hsince.table k b hk with hkept | ⟨tail, htail, _⟩
        · rw [List.getElem?_take_of_lt hlt, hkept]
        · rw [hnone] at htail
          cases htail
      · by_cases heq : k = tail.index
        · have hget := hsince.tail tail htail
          rw [← heq, hk] at hget
          rw [← heq, List.getElem?_set_self (by rw [htake]; exact hlt), hget]
        · rcases hsince.table k b hk with hkept | ⟨tail', htail', heq', _⟩
          · rw [List.getElem?_set_ne (Ne.symm heq), List.getElem?_take_of_lt hlt, hkept]
          · rw [htail] at htail'
            obtain rfl := some.inj htail'
            exact absurd heq'.symm heq
  obtain ⟨hlane, hrel, hadvance⟩ := hsince.idle
  have hback : ({ q with
      state := { q.state with
        blocks
        copiedBytes := lane.frontier.copiedBytes
        advance := 0 }
      lane := none } : Sequence σ) = q₀ := by
    obtain ⟨_, _, _, rfl⟩ := hsince.same
    rw [hrestored, hsince.frontier.2, ← hadvance, ← hlane]
  rw [hback]
  exact
    { prefixes := h.prefixes
      others := fun j hj => by
        by_cases hji : j = i
        · subst hji
          rw [hq₀]
          exact List.getElem?_set_self (List.getElem?_eq_some_iff.mp hq).1
        · rw [← h.others j (not_mem_cons_of_ne_of_not_mem hji hj)]
          exact List.getElem?_set_ne (Ne.symm hji)
      lanes := fun j hj => by
        have hji : j ≠ i := fun heq => hi (heq ▸ hj)
        obtain ⟨r₀, r, lane', hr₀, hr', hsince'⟩ := h.lanes j (mem_cons_of_mem i hj)
        exact ⟨r₀, r, lane', hr₀, by rw [← hr']; exact List.getElem?_set_ne (Ne.symm hji),
          hsince'⟩
      published := fun b hb => by
        show store.hashes b = _ ∧ store.listed.count b = _
        rw [hhashes, listed, hbyHash]
        exact h.published b hb }

theorem Frozen.congr {opened' : List Nat} (h : Frozen c w₀ w opened)
    (hsame : ∀ j, j ∈ opened' ↔ j ∈ opened) : Frozen c w₀ w opened' where
  prefixes := h.prefixes
  others j hj := h.others j fun hin => hj ((hsame j).mpr hin)
  lanes j hj := h.lanes j ((hsame j).mp hj)
  published := h.published

theorem Frozen.restored (h : Frozen c w₀ w []) :
    w.sequences = w₀.sequences ∧ w.handles = w₀.handles := by
  have hsequences : w.sequences = w₀.sequences :=
    ext_getElem? fun j => h.others j not_mem_nil
  refine ⟨hsequences, ?_⟩
  rw [World.handles, World.handles, hsequences, h.prefixes]

end Frozen

/-! ## Whole runs -/

section Runs

variable [Zero σ]

theorem performAll_cons {event : Event ρ σ} {events : List (Event ρ σ)}
    (h : w.performAll c (event :: events) = some w'') :
    ∃ w', w.perform c event = some w' ∧ w'.performAll c events = some w'' := by
  unfold World.performAll at h
  rw [foldlM_cons] at h
  exact bind_eq_some_iff.mp h

theorem performAll_append {events events' : List (Event ρ σ)}
    (h : w.performAll c (events ++ events') = some w'') :
    ∃ w', w.performAll c events = some w' ∧ w'.performAll c events' = some w'' := by
  unfold World.performAll at h
  rw [foldlM_append] at h
  exact bind_eq_some_iff.mp h

theorem reachable_performAll (allowed : World ρ σ → Event ρ σ → Prop)
    {events : List (Event ρ σ)} (hallowed : ∀ w, ∀ event ∈ events, allowed w event)
    (hw : (pagePool c allowed).Reachable w) (h : w.performAll c events = some w') :
    (pagePool c allowed).Reachable w' := by
  induction events generalizing w with
  | nil =>
    obtain rfl := some.inj h
    exact hw
  | cons event events ih =>
    obtain ⟨w₁, hstep, hrun⟩ := performAll_cons h
    exact ih (fun w e he => hallowed w e (mem_cons_of_mem _ he))
      (hw.step ⟨event, hallowed w event mem_cons_self, hstep⟩) hrun

/-- A run whose events are checked one by one. -/
theorem reachable_checked (allowed : World ρ σ → Event ρ σ → Prop)
    [∀ w event, Decidable (allowed w event)] {events : List (Event ρ σ)}
    (hw : (pagePool c allowed).Reachable w)
    (h : events.foldlM (fun w event => if allowed w event then w.perform c event else none) w =
      some w') : (pagePool c allowed).Reachable w' := by
  induction events generalizing w with
  | nil =>
    obtain rfl := some.inj h
    exact hw
  | cons event events ih =>
    rw [foldlM_cons] at h
    obtain ⟨w₁, hstep, hrun⟩ := bind_eq_some_iff.mp h
    split at hstep
    · next hallowed => exact ih (hw.step ⟨event, hallowed, hstep⟩) hrun
    · cases hstep

/-- The invariant of the runs without hash matching. -/
theorem shared_invariant (hw : (pagePool c fun _ event => event.ForkOnly).Reachable w) :
    Held c Leased w ∧ w.Retained c := by
  refine System.invariant (I := fun w => Held c Leased w ∧ w.Retained c) ?_ ?_ hw
  · rintro _ ⟨rows, rfl⟩
    exact ⟨held_new rows (leased_new _), fun _ _ _ _ h => by cases h⟩
  · rintro w w' ⟨hheld, hretained⟩ ⟨event, hfork, hs⟩
    exact ⟨hheld.perform_leased hfork hs, (hheld.sees leased_lawful hretained hfork hs).2⟩

/-- Whatever happens, what is seen stays. -/
theorem Held.run_sees (h : Held c Leased w) (hretained : w.Retained c)
    {events : List (Event ρ σ)} (hfork : ∀ event ∈ events, event.ForkOnly)
    (hrun : w.performAll c events = some w') : w.Sees c w' := by
  induction events generalizing w with
  | nil =>
    obtain rfl := some.inj hrun
    exact .refl w
  | cons event events ih =>
    obtain ⟨w₁, hstep, hrest⟩ := performAll_cons hrun
    have hevent := hfork event mem_cons_self
    obtain ⟨hsees, hretained'⟩ := h.sees leased_lawful hretained hevent hstep
    exact hsees.trans (ih (h.perform_leased hevent hstep) hretained'
      (fun e he => hfork e (mem_cons_of_mem _ he)) hrest)

/-- One lane of a batch: its sequence, the window of the executable and its tokens. -/
structure BatchLane where
  sequence : Nat
  window : Option Nat
  tokens : List Token

def BatchLane.begin (lane : BatchLane) : Event ρ σ :=
  .begin lane.sequence lane.window lane.tokens

def BatchLane.rollback (lane : BatchLane) : Event ρ σ := .rollback lane.sequence

section Batch

variable (hI : Lawful I) {w₀ : World ρ σ} {opened : List Nat}
include hI

/-- The lanes of a batch begin on different sequences. -/
theorem Frozen.begins {batch : List BatchLane} (hheld : Held c I w) (h : Frozen c w₀ w opened)
    (hnodup : opened.Nodup) (hrun : w.performAll c (batch.map BatchLane.begin) = some w') :
    Held c I w' ∧ (batch.map (·.sequence) ++ opened).Nodup ∧
      Frozen c w₀ w' (batch.map (·.sequence) ++ opened) := by
  induction batch generalizing w opened with
  | nil =>
    obtain rfl := some.inj hrun
    exact ⟨hheld, hnodup, h⟩
  | cons lane batch ih =>
    obtain ⟨w₁, hstep, hrest⟩ := performAll_cons hrun
    obtain ⟨hnot, hfrozen⟩ := h.begin hheld hstep
    obtain ⟨hheld', hnodup', hfrozen'⟩ :=
      ih (hheld.begin hI hstep) hfrozen (nodup_cons.mpr ⟨hnot, hnodup⟩) hrest
    have hperm : (batch.map (·.sequence) ++ lane.sequence :: opened).Perm
        (lane.sequence :: (batch.map (·.sequence) ++ opened)) := List.perm_middle
    exact ⟨hheld', hperm.nodup_iff.mp hnodup', hfrozen'.congr fun j => hperm.symm.mem_iff⟩

theorem Frozen.attends {commands : List (Event ρ σ)} (hheld : Held c I w)
    (h : Frozen c w₀ w opened)
    (hcommands : ∀ event ∈ commands, ∃ i ∈ opened, ∃ command rows,
      event = .attend i command rows)
    (hrun : w.performAll c commands = some w') : Held c I w' ∧ Frozen c w₀ w' opened := by
  induction commands generalizing w with
  | nil =>
    obtain rfl := some.inj hrun
    exact ⟨hheld, h⟩
  | cons event commands ih =>
    obtain ⟨w₁, hstep, hrest⟩ := performAll_cons hrun
    obtain ⟨i, hi, command, rows, rfl⟩ := hcommands event mem_cons_self
    exact ih (hheld.attend hI hstep) (h.attend hI hheld hi hstep)
      (fun e he => hcommands e (mem_cons_of_mem _ he)) hrest

theorem Frozen.rollbacks {batch : List BatchLane} (hheld : Held c I w)
    (h : Frozen c w₀ w (batch.map (·.sequence))) (hnodup : (batch.map (·.sequence)).Nodup) :
    ∃ w', w.performAll c (batch.map BatchLane.rollback) = some w' ∧ Held c I w' ∧
      Frozen c w₀ w' [] := by
  induction batch generalizing w with
  | nil => exact ⟨w, rfl, hheld, h⟩
  | cons lane batch ih =>
    rw [map_cons, nodup_cons] at hnodup
    obtain ⟨w₁, hstep, hfrozen⟩ := Frozen.rollback hheld h hnodup.1
    obtain ⟨w', hrun, hrest⟩ := ih (hheld.rollback hI hstep) hfrozen hnodup.2
    refine ⟨w', ?_, hrest⟩
    show (w.rollback lane.sequence).bind _ = some w'
    rw [hstep]
    exact hrun

end Batch

/-- Sharing is not observable, and an execution that is rolled back at any command
leaves nothing behind. -/
theorem append_isolated (hw : (pagePool c fun _ event => event.ForkOnly).Reachable w) :
    (∀ (events : List (Event ρ σ)) (w' : World ρ σ), (∀ event ∈ events, event.ForkOnly) →
      w.performAll c events = some w' → w.Sees c w') ∧
    ∀ (batch : List BatchLane) (commands : List (Event ρ σ)) (w₁ : World ρ σ),
      (∀ event ∈ commands, ∃ lane ∈ batch, ∃ command rows,
        event = .attend lane.sequence command rows) →
      w.performAll c (batch.map BatchLane.begin ++ commands) = some w₁ →
      ∃ w', w₁.performAll c (batch.map BatchLane.rollback) = some w' ∧
        w'.sequences = w.sequences ∧ w'.prefixes = w.prefixes ∧
        w'.pool.store.refcounts = w.pool.store.refcounts ∧
        w'.pool.store.available = w.pool.store.available := by
  obtain ⟨hheld, hretained⟩ := shared_invariant hw
  refine ⟨fun events w' hfork hrun => hheld.run_sees hretained hfork hrun, ?_⟩
  intro batch commands w₁ hcommands hrun
  have hstore : Balanced (w.pool.store.available + w.pool.store.worths w.handles)
      w.pool.store w.handles := ⟨hheld.store, rfl⟩
  obtain ⟨w₂, hbegins, hattends⟩ := performAll_append hrun
  obtain ⟨hheld₂, hnodup, hfrozen₂⟩ := (Frozen.start w).begins balanced_lawful
    (hheld.mono hstore) nodup_nil hbegins
  rw [append_nil] at hnodup hfrozen₂
  obtain ⟨hheld₁, hfrozen₁⟩ := hfrozen₂.attends balanced_lawful hheld₂
    (fun event he => by
      obtain ⟨lane, hlane, command, rows, rfl⟩ := hcommands event he
      exact ⟨_, mem_map_of_mem hlane, command, rows, rfl⟩) hattends
  obtain ⟨w', hrollbacks, hheld', hfrozen'⟩ := hfrozen₁.rollbacks balanced_lawful hheld₁ hnodup
  obtain ⟨hsequences, hhandles⟩ := hfrozen'.restored
  have hstore' := hheld'.store
  rw [hhandles] at hstore'
  refine ⟨w', hrollbacks, hsequences, hfrozen'.prefixes, funext fun b => ?_, ?_⟩
  · rw [hstore'.leased.counted b, hheld.store.counted b]
  · exact hstore.available_eq hstore' (fun b hb => (hfrozen'.published b hb).1)
      fun b hb => (hfrozen'.published b hb).2

end Runs

end Shared

/-- Four pages of two rows, one layer that keeps everything. -/
def smallPool : PoolConfig where
  kvLayers := [⟨0, 1, 1, .f32, none⟩]
  explicitLayers := false
  kvHeads := 1
  headDim := 1
  blockSize := 2
  maxTokens := 8
  kda := ⟨0, 0, 0, 0⟩
  conv := ⟨0, 0, 0⟩
  blockSize_pos := by decide
  maxTokens_pos := by decide
  blockSize_dvd := by decide

/-- A causal command on layer 0 for chunks of at most four tokens. -/
def smallCommand : AttentionCommand := ⟨0, none, .causal, 1, 1, 4⟩

/-- Three tokens, a snapshot and a fork: two sequences and a prefix share the page at 1. -/
def sharedTailRun : List (Event Nat Nat) :=
  [.create, .begin 0 none [7, 8, 9], .attend 0 smallCommand [70, 80, 90], .commit 0 [] [],
    .finish 0, .publish 0, .snapshot 0, .fork 0]

/-- Both copy the shared tail, then the command of the second fails. -/
theorem append_isolated_shared_tail :
    ∃ w w₁ w' : World Nat Nat,
      (World.new smallPool fun _ _ => 0).performAll smallPool sharedTailRun = some w ∧
      w.pool.store.refcounts 1 = 3 ∧
      w.performAll smallPool ([⟨0, none, [5]⟩, ⟨1, none, [6]⟩].map BatchLane.begin ++
        [.attend 0 smallCommand [50], .attend 1 smallCommand []]) = some w₁ ∧
      w₁.performAll smallPool ([⟨0, none, [5]⟩, ⟨1, none, [6]⟩].map BatchLane.rollback) =
        some w' ∧
      w'.sequences = w.sequences ∧ w'.prefixes = w.prefixes ∧
      w'.pool.store.refcounts = w.pool.store.refcounts ∧
      w'.pool.store.available = w.pool.store.available := by
  have hsome : ((World.new smallPool fun _ _ => 0).performAll smallPool (sharedTailRun ++
      ([⟨0, none, [5]⟩, ⟨1, none, [6]⟩].map BatchLane.begin ++
        [.attend 0 smallCommand [50], .attend 1 smallCommand []]))).isSome := by
    decide +kernel
  obtain ⟨w₁, hrun⟩ := isSome_iff_exists.mp hsome
  obtain ⟨w, hw, hbatch⟩ := performAll_append hrun
  have hcount : ((World.new smallPool fun _ _ => 0).performAll smallPool sharedTailRun).map
      (fun w => w.pool.store.refcounts 1) = some 3 := by decide +kernel
  rw [hw] at hcount
  have hreach := reachable_performAll (fun _ event => event.ForkOnly)
    (fun _ event he => by
      simp only [sharedTailRun, mem_cons, not_mem_nil, or_false] at he
      rcases he with rfl | rfl | rfl | rfl | rfl | rfl | rfl | rfl <;> trivial)
    (.init ⟨_, rfl⟩) hw
  obtain ⟨w', hrollback, hrestored⟩ := (append_isolated hreach).2
    [⟨0, none, [5]⟩, ⟨1, none, [6]⟩] _ w₁
    (fun event he => by
      simp only [mem_cons, not_mem_nil, or_false] at he
      rcases he with rfl | rfl
      · exact ⟨_, mem_cons_self, _, _, rfl⟩
      · exact ⟨_, mem_cons_of_mem _ mem_cons_self, _, _, rfl⟩) hbatch
  exact ⟨w, w₁, w', hw, some.inj hcount, hbatch, hrollback, hrestored⟩

end EffectTorch
