import EffectTorch.Cpu.PoolShared

/-!
# Free, cached and referenced pages

A page is hashed once it is complete, after the commit of the chunk that completed
it. As long as commits evict only pages that were complete before their chunk, every
run keeps `Held` over `Sound`: the pages from the one of the cursor on have no hash.

Results:
1. `Tracked.perform`: every step whose commits do not evict too far keeps `Tracked`.
2. `pages_classified`: in every reachable state each page is free, cached or
   referenced, and never two of these.
3. `evicted_page_published`: a chunk that completes a page and evicts it at once
   leaves the page both free and listed.
-/

namespace EffectTorch
open List Option Lib BlockStore

section Publication

variable {σ : Type} {n : Nat} {s : BlockStore σ} {H : List Nat}

/-- Publishing the hashes of different held blocks that have none. -/
theorem BlockStore.Sound.setHashes (h : Sound n s H) {hashes : List (Nat × UInt64)}
    (hnodup : (hashes.map (·.1)).Nodup) (hheld : ∀ entry ∈ hashes, entry.1 ∈ H)
    (hnone : ∀ entry ∈ hashes, s.hashes entry.1 = none) : Sound n (setHashes s hashes) H := by
  induction hashes generalizing s with
  | nil => exact h
  | cons entry hashes ih =>
    rw [map_cons, nodup_cons] at hnodup
    refine ih (h.setHash (hheld entry mem_cons_self) (hnone entry mem_cons_self))
      hnodup.2 (fun e he => hheld e (mem_cons_of_mem _ he)) fun e he => ?_
    have hne : e.1 ≠ entry.1 := fun heq => hnodup.1 (heq ▸ mem_map_of_mem he)
    show Function.update s.hashes entry.1 (some entry.2) e.1 = none
    rw [Function.update_of_ne hne]
    exact hnone e (mem_cons_of_mem _ he)

theorem setHashes_other {hashes : List (Nat × UInt64)} {b : Nat}
    (hb : b ∉ hashes.map (·.1)) : (setHashes s hashes).hashes b = s.hashes b := by
  induction hashes generalizing s with
  | nil => rfl
  | cons entry hashes ih =>
    rw [map_cons, mem_cons, not_or] at hb
    refine (ih hb.2).trans ?_
    show Function.update s.hashes entry.1 (some entry.2) b = s.hashes b
    rw [Function.update_of_ne hb.1]

end Publication

section Pages

variable {ρ σ : Type} {c : PoolConfig} {w w' : World ρ σ} {i : Nat} {q q' : Sequence σ}

/-! ## The invariant -/

/-- The pages of a sequence from the one of its cursor on have no hash, and neither
has the tail that its lane retains. -/
structure Sequence.Fresh (c : PoolConfig) (hashes : Nat → Option UInt64) (q : Sequence σ) :
    Prop where
  head_cursor : q.state.head ≤ q.state.cursor / c.blockSize
  blocks : ∀ k b : Nat, q.state.cursor / c.blockSize ≤ k → q.state.blocks[k]? = some b →
    hashes b = none
  tail : ∀ lane tail, q.lane = some lane → lane.frontier.tail = some tail →
    hashes tail.block = none

/-- The invariant of the runs whose commits do not evict too far. -/
structure Tracked (c : PoolConfig) (w : World ρ σ) : Prop where
  held : Held c (Sound c.numBlocks) w
  sequences : ∀ (i : Nat) (q : Sequence σ), w.sequences[i]? = some q → q.released = false →
    q.Fresh c w.pool.store.hashes
  prefixes : ∀ (p : Nat) (data : PrefixData σ), w.prefixes[p]? = some (some data) →
    ∀ k b : Nat, data.cursor / c.blockSize ≤ k → data.blocks[k]? = some b →
      w.pool.store.hashes b = none
  unpaged : c.kvLayers = [] → ∀ b, w.pool.store.hashes b = none

theorem tracked_new (rows : Nat → Nat → ρ) : Tracked c (World.new c rows : World ρ σ) where
  held := held_new rows (sound_new _)
  sequences _ _ h := by cases h
  prefixes _ _ h := by cases h
  unpaged _ _ := rfl

/-- Freshness only looks at pages that the sequence holds. -/
theorem Sequence.Fresh.congr {hashes hashes' : Nat → Option UInt64} (h : q.Fresh c hashes)
    (hsame : ∀ b ∈ q.handles, hashes' b = hashes b) : q.Fresh c hashes' where
  head_cursor := h.head_cursor
  blocks k b hk hb := by
    rw [hsame b (live_subset_handles q (mem_live (Nat.le_trans h.head_cursor hk) hb))]
    exact h.blocks k b hk hb
  tail lane tail hlane htail := by
    have hmem : tail.block ∈ q.handles := by
      rw [handles_lane hlane, htail]
      exact mem_append_right _ (mem_singleton_self _)
    rw [hsame _ hmem]
    exact h.tail lane tail hlane htail

theorem prefix_mem_handles {data : PrefixData σ} (h : data.Shaped c) {k b : Nat}
    (hk : data.cursor / c.blockSize ≤ k) (hb : data.blocks[k]? = some b) : b ∈ data.handles := by
  have hle := Nat.le_trans h.head_cursor hk
  have hidx : (data.blocks.drop data.head)[k - data.head]? = some b := by
    rw [List.getElem?_drop, Nat.add_sub_cancel' hle, hb]
  exact mem_of_getElem? hidx

/-- A step on one sequence that keeps the hashes of the pages of the others. -/
theorem Tracked.update (h : Tracked c w) {pool : PoolInner ρ σ}
    (hheld : Held c (Sound c.numBlocks) { w with pool, sequences := w.sequences.set i q' })
    (hothers : ∀ b ∈ w.others i, pool.store.hashes b = w.pool.store.hashes b)
    (hunpaged : c.kvLayers = [] → ∀ b, pool.store.hashes b = w.pool.store.hashes b ∨
      pool.store.hashes b = none)
    (hlocal : q'.released = false → q'.Fresh c pool.store.hashes) :
    Tracked c { w with pool, sequences := w.sequences.set i q' } where
  held := hheld
  sequences j r hr hrel := by
    rcases getElem?_set_cases hr with ⟨-, -, rfl⟩ | ⟨hj, hr⟩
    · exact hlocal hrel
    · exact (h.sequences j r hr hrel).congr fun b hb => hothers b (mem_others hr hj hb)
  prefixes p data hp k b hk hb := by
    have hmem := prefix_mem_handles (h.held.prefixes p data hp) hk hb
    exact (hothers b (prefix_mem_others hp hmem)).trans (h.prefixes p data hp k b hk hb)
  unpaged hnil b := (hunpaged hnil b).elim (fun heq => heq.trans (h.unpaged hnil b)) id

/-- A step on one sequence that publishes nothing. -/
theorem Tracked.update_same (h : Tracked c w) {store : BlockStore σ} (hheld : Held c (Sound c.numBlocks) (w.setSequence i store q'))
    (hhashes : store.hashes = w.pool.store.hashes)
    (hlocal : q'.released = false → q'.Fresh c w.pool.store.hashes) :
    Tracked c (w.setSequence i store q') := by
  refine h.update hheld (fun b _ => congrFun hhashes b)
    (fun _ b => .inl (congrFun hhashes b)) fun hr => ?_
  show q'.Fresh c store.hashes
  rw [hhashes]
  exact hlocal hr

theorem Sequence.Fresh.of_idle {hashes : Nat → Option UInt64} (hlane : q.lane = none)
    (hhead : q.state.head ≤ q.state.cursor / c.blockSize)
    (hblocks : ∀ k b : Nat, q.state.cursor / c.blockSize ≤ k → q.state.blocks[k]? = some b →
      hashes b = none) : q.Fresh c hashes where
  head_cursor := hhead
  blocks := hblocks
  tail lane tail hsome := by
    rw [hlane] at hsome
    cases hsome

/-! ## Steps -/

theorem Tracked.begin (h : Tracked c w) {window : Option Nat} {tokens : List Token}
    (hs : w.begin c i window tokens = some w') : Tracked c w' := by
  have hheld := h.held.begin sound_lawful hs
  obtain ⟨q, hidle, _, rfl⟩ := begin_some hs
  obtain ⟨hq, hr, hlane⟩ := idle_some hidle
  have hfresh := h.sequences i q hq hr
  refine h.update_same hheld (refBlocks_hashes _) fun _ => ?_
  refine ⟨hfresh.head_cursor, hfresh.blocks, fun lane tail hsome htail => ?_⟩
  obtain rfl := some.inj hsome
  obtain ⟨_, hindex, hget, _⟩ := sharedTail_some htail
  exact hfresh.blocks tail.index tail.block (Nat.le_of_eq hindex.symm) hget

theorem Tracked.attend (h : Tracked c w) {command : AttentionCommand} {rows : List ρ}
    (hs : w.attend c i command rows = some w') : Tracked c w' := by
  have hheld := h.held.attend sound_lawful hs
  obtain ⟨q, lane, r, pool, state, hrunning, hphase, hkv, rfl⟩ := attend_some hs
  obtain ⟨hq, hlane, hr, _⟩ := h.held.running hrunning
  have ht := h.held.touched sound_lawful hrunning hphase hkv
  have hkept : ∀ b ∈ w.handles, pool.store.hashes b = w.pool.store.hashes b := fun b hb =>
    (ht.published b (Nat.ne_of_gt (h.held.store.counted.pos.mpr hb))).1
  have hfresh := h.sequences i q hq hr
  refine h.update hheld (fun b hb => hkept b ?_) (fun _ => ht.cleared) fun _ => ?_
  · exact (handles_perm hq).mem_iff.mpr (mem_append_right _ hb)
  · have hleased := ht.leased
    have hfresh' := hfresh.congr fun b hb => hkept b (mem_handles hq hb)
    obtain ⟨copiedBytes, blocks, rfl⟩ := ht.same
    refine ⟨hfresh.head_cursor, fun k b hk hb => ?_, fun lane' tail hsome htail => ?_⟩
    · rcases hleased k b hb with hold | ⟨_, hnone⟩
      · exact hfresh'.blocks k b hk hold
      · exact hnone
    · refine hfresh'.tail lane tail hlane ?_
      rw [← some.inj hsome] at htail
      cases r <;> exact htail

theorem Tracked.rollback (h : Tracked c w) (hs : w.rollback i = some w') : Tracked c w' := by
  have hheld := h.held.rollback sound_lawful hs
  obtain ⟨q, lane, store, state, hrunning, _, hroll, rfl⟩ := rollback_some hs
  obtain ⟨hq, hlane, hr, hlive, hls⟩ := h.held.running hrunning
  have hfresh := h.sequences i q hq hr
  obtain ⟨hhashes, _⟩ := rollbackLane_published hroll
  obtain ⟨blocks, rfl, _, hblocks⟩ := rollbackLane_fields hroll hls.frontier_le
  refine h.update_same hheld hhashes fun _ => ?_
  refine .of_idle rfl hfresh.head_cursor fun k b hk hb => ?_
  replace hb : blocks[k]? = some b := hb
  have htake : (q.state.blocks.take lane.frontier.blocks)[k]? = some b →
      w.pool.store.hashes b = none := fun hget => by
    rw [List.getElem?_take] at hget
    split at hget
    · exact hfresh.blocks k b hk hget
    · cases hget
  rcases hblocks with ⟨_, rfl⟩ | ⟨tail, htail, rfl⟩
  · exact htake hb
  · rw [List.getElem?_set] at hb
    split at hb
    · split at hb
      · obtain rfl := some.inj hb
        exact hfresh.tail lane tail hlane htail
      · cases hb
    · exact htake hb

/-- A commit evicts only pages before the one of the cursor that its chunk began at. -/
def EvictsOldPages (c : PoolConfig) (w : World ρ σ) : Event ρ σ → Prop
  | .commit i _ _ => ∀ lane ∈ w.running i, ∀ start ∈ lane.2.evictionStart,
      start < (lane.1.state.cursor / c.blockSize + 1) * c.blockSize
  | _ => True

instance (w : World ρ σ) : (event : Event ρ σ) → Decidable (EvictsOldPages c w event)
  | .commit i _ _ => inferInstanceAs (Decidable (∀ lane ∈ w.running i,
      ∀ start ∈ lane.2.evictionStart,
        start < (lane.1.state.cursor / c.blockSize + 1) * c.blockSize))
  | .create | .prefillMatch .. | .snapshot .. | .fork .. | .releasePrefix ..
  | .releaseSequence .. | .begin .. | .attend .. | .rollback .. | .finish .. | .publish .. =>
    isTrue trivial

theorem Tracked.commit (h : Tracked c w) {kda conv : List (List σ)}
    (hold : EvictsOldPages c w (.commit i kda conv)) (hs : w.commit c i kda conv = some w') :
    Tracked c w' := by
  have hheld := h.held.commit sound_lawful hs
  obtain ⟨q, lane, n, hrunning, _, _, _, hevict, rfl⟩ := commit_some hs
  obtain ⟨hq, hlane, hr, _⟩ := h.held.running hrunning
  have hfresh := h.sequences i q hq hr
  have hhead : q.state.head + n ≤ q.state.cursor / c.blockSize := by
    rcases Nat.eq_zero_or_pos n with rfl | hpos
    · exact hfresh.head_cursor
    · obtain ⟨start, hstart, hle⟩ := hevict hpos
      have hlt := Nat.lt_of_le_of_lt hle (hold (q, lane) hrunning start hstart)
      exact Nat.lt_succ_iff.mp (Nat.lt_of_mul_lt_mul_right hlt)
  refine h.update_same hheld (unrefBlocks_hashes _) fun _ => ?_
  refine ⟨hhead, hfresh.blocks, fun lane' tail hsome htail => ?_⟩
  rw [← some.inj hsome] at htail
  exact hfresh.tail lane tail hlane htail

theorem Tracked.finish (h : Tracked c w) (hs : w.finish i = some w') : Tracked c w' := by
  have hheld := h.held.finish sound_lawful hs
  obtain ⟨q, lane, hrunning, _, rfl⟩ := finish_some hs
  obtain ⟨hq, hlane, hr, _⟩ := h.held.running hrunning
  have hfresh := h.sequences i q hq hr
  refine h.update_same hheld (unrefBlocks_hashes _) fun _ => ?_
  refine ⟨hfresh.head_cursor, hfresh.blocks, fun lane' tail hsome htail => ?_⟩
  rw [← some.inj hsome] at htail
  cases htail

/-- The pages that a finished lane completes are different, and its own. -/
theorem Held.completed {I : BlockStore σ → List Nat → Prop} (hI : Lawful I) (h : Held c I w)
    {lane : Lane} (hrunning : w.running i = some (q, lane)) (hphase : lane.phase = .finished)
    (hhead : q.state.head ≤ q.state.cursor / c.blockSize) :
    ((completed c q.state lane.tokens).map (·.1)).Nodup ∧
      ∀ entry ∈ completed c q.state lane.tokens, ∃ k, q.state.cursor / c.blockSize ≤ k ∧
        (k + 1) * c.blockSize ≤ q.state.cursor + q.state.advance ∧
        q.state.blocks[k]? = some entry.1 ∧ w.pool.store.refcounts entry.1 = 1 := by
  obtain ⟨hq, hlane, hr, hlive, hls⟩ := h.running hrunning
  have hclosed := lane.not_open (.inr hphase)
  have halone : ∀ k b : Nat, q.state.cursor / c.blockSize ≤ k → q.state.blocks[k]? = some b →
      w.pool.store.refcounts b = 1 := by
    intro k b hk hb
    refine h.alone i q k b hq ⟨hr, Nat.le_trans hhead hk, .inr ⟨lane, hlane, hk, .inl ?_⟩⟩ hb
    have hpaged : c.kvLayers ≠ [] := fun hnil => by
      rw [hlive.unpaged hnil] at hb
      cases hb
    exact ne_nil_of_mem ((hls.head_closed hclosed).2 0 (length_pos_of_ne_nil hpaged))
  have hindex : ∀ k k' b : Nat, q.state.cursor / c.blockSize ≤ k →
      q.state.cursor / c.blockSize ≤ k' → q.state.blocks[k]? = some b →
      q.state.blocks[k']? = some b → k = k' := by
    intro k k' b hk hk' hb hb'
    have hone := halone k b hk hb
    rw [hI.counted h.store b, (handles_perm hq).count_eq, handles_lane hlane, count_append,
      count_append] at hone
    have hi := index_unique (l := q.state.live) (b := b) (by omega)
      ((live_getElem? (Nat.le_trans hhead hk)).trans hb)
      ((live_getElem? (Nat.le_trans hhead hk')).trans hb')
    omega
  constructor
  · unfold EffectTorch.completed
    rw [map_filterMap]
    refine List.Nodup.filterMap ?_ nodup_range
    intro j j' b hj hj'
    rw [mem_def, Option.map_map, map_eq_some_iff] at hj hj'
    obtain ⟨b₁, hb₁, heq₁⟩ := hj
    obtain ⟨b₂, hb₂, heq₂⟩ := hj'
    replace heq₁ : b₁ = b := heq₁
    replace heq₂ : b₂ = b := heq₂
    rw [heq₁] at hb₁
    rw [heq₂] at hb₂
    have hsum := hindex _ _ b (Nat.le_add_right _ _) (Nat.le_add_right _ _) hb₁ hb₂
    omega
  · intro entry hentry
    obtain ⟨j, hj, hsome⟩ := mem_filterMap.mp hentry
    obtain ⟨b, hb, rfl⟩ := map_eq_some_iff.mp hsome
    refine ⟨_, Nat.le_add_right _ j, ?_, hb, halone _ b (Nat.le_add_right _ _) hb⟩
    rw [mem_range, length_append, hlive.pending, ← hls.advance] at hj
    have hcut := Nat.div_add_mod q.state.cursor c.blockSize
    have hwhole := Nat.div_mul_le_self (q.state.cursor % c.blockSize + q.state.advance) c.blockSize
    have hle : (j + 1) * c.blockSize ≤ _ := Nat.mul_le_mul_right c.blockSize hj
    rw [Nat.mul_comm] at hcut
    calc (q.state.cursor / c.blockSize + j + 1) * c.blockSize
        = q.state.cursor / c.blockSize * c.blockSize + (j + 1) * c.blockSize := by
          rw [Nat.add_assoc, Nat.add_mul]
      _ ≤ q.state.cursor + q.state.advance := by omega

theorem Tracked.publish (h : Tracked c w) (hs : w.publish c i = some w') : Tracked c w' := by
  obtain ⟨q, lane, store, state, hrunning, hphase, hpub, rfl⟩ := publish_some hs
  obtain ⟨hq, hlane, hr, hlive, hls⟩ := h.held.running hrunning
  have hfresh := h.sequences i q hq hr
  obtain ⟨hnodup, hcompleted⟩ := h.held.completed sound_lawful hrunning hphase hfresh.head_cursor
  obtain ⟨hstate, hstore⟩ := publishLane_spec hlive.pending hpub
  have hlane_handles : q.handles = q.state.live := by
    rw [handles_lane hlane, hls.finished hphase]
    exact append_nil _
  have hstored : Sound c.numBlocks w.pool.store (q.state.live ++ w.others i) := by
    rw [← hlane_handles]
    exact h.held.store.perm (handles_perm hq)
  have hsound : Sound c.numBlocks (setHashes w.pool.store (completed c q.state lane.tokens))
      (q.state.live ++ w.others i) := by
    refine hstored.setHashes hnodup (fun entry hentry => ?_) fun entry hentry => ?_
    · obtain ⟨k, hk, _, hb, _⟩ := hcompleted entry hentry
      exact mem_append_left _ (mem_live (Nat.le_trans hfresh.head_cursor hk) hb)
    · obtain ⟨k, hk, _, hb, _⟩ := hcompleted entry hentry
      exact hfresh.blocks k entry.1 hk hb
  have hsound' : Sound c.numBlocks store (q.state.live ++ w.others i) := by
    rw [hstore]
    rcases maybePublish_cases (c := c) (setHashes w.pool.store (completed c q.state lane.tokens))
      state with heq | ⟨_, _, _, _, heq⟩
    · rw [heq]
      exact hsound
    · rw [heq]
      exact hsound.publishSnapshot _
  have hheld := h.held.publish sound_lawful hrunning hphase hpub hsound'
  -- a hashed page has one handle, in the table of the sequence
  have hhashes : ∀ b : Nat, (∀ k, q.state.cursor / c.blockSize ≤ k →
      (k + 1) * c.blockSize ≤ q.state.cursor + q.state.advance →
      q.state.blocks[k]? = some b → w.pool.store.refcounts b ≠ 1) →
      store.hashes b = w.pool.store.hashes b := by
    intro b hb
    obtain ⟨_, _, _, hsame, _⟩ := maybePublish_fields (c := c)
      (setHashes w.pool.store (completed c q.state lane.tokens)) state
    rw [hstore, hsame]
    refine setHashes_other fun hmem => ?_
    obtain ⟨entry, hentry, rfl⟩ := mem_map.mp hmem
    obtain ⟨k, hk, hle, hget, hone⟩ := hcompleted entry hentry
    exact hb k hk hle hget hone
  have hcount : ∀ b, w.pool.store.refcounts b = q.state.live.count b + (w.others i).count b := by
    intro b
    rw [hstored.counted b, count_append]
  refine h.update hheld (fun b hb => hhashes b fun k hk _ hget hone => ?_)
    (fun hnil b => .inl (hhashes b fun k _ _ hget => ?_)) fun _ => ?_
  · have hpos := count_pos_iff.mpr hb
    have hpos' := count_pos_iff.mpr (mem_live (Nat.le_trans hfresh.head_cursor hk) hget)
    rw [hcount b] at hone
    omega
  · rw [hlive.unpaged hnil] at hget
    cases hget
  · have hhead : q.state.head ≤ (q.state.cursor + q.state.advance) / c.blockSize :=
      Nat.le_trans hfresh.head_cursor (Nat.div_le_div_right (Nat.le_add_right _ _))
    refine .of_idle rfl (by rw [hstate]; exact hhead) fun k b hk hb => ?_
    rw [hstate] at hk hb
    replace hk : (q.state.cursor + q.state.advance) / c.blockSize ≤ k := hk
    replace hb : q.state.blocks[k]? = some b := hb
    have hk' : q.state.cursor / c.blockSize ≤ k :=
      Nat.le_trans (Nat.div_le_div_right (Nat.le_add_right _ _)) hk
    show store.hashes b = none
    rw [hhashes b fun k' hk'' hle hget hone => ?_]
    · exact hfresh.blocks k b hk' hb
    · rw [hcount b] at hone
      have hidx := index_unique (l := q.state.live) (b := b) (by omega)
        ((live_getElem? (Nat.le_trans hfresh.head_cursor hk')).trans hb)
        ((live_getElem? (Nat.le_trans hfresh.head_cursor hk'')).trans hget)
      have hheadk := Nat.le_trans hfresh.head_cursor hk'
      have hheadk' := Nat.le_trans hfresh.head_cursor hk''
      have hkk : k = k' := by omega
      rw [← hkk, ← Nat.le_div_iff_mul_le c.blockSize_pos] at hle
      omega

theorem Tracked.create [Zero σ] (h : Tracked c w) :
    Tracked c { w with sequences := w.sequences ++ [⟨SeqState.new c, false, none, []⟩] } where
  held := h.held.create
  sequences j r hr hrel := by
    rcases getElem?_concat hr with hold | rfl
    · exact h.sequences j r hold hrel
    · exact .of_idle rfl (Nat.zero_le _) fun k b _ hb => by cases hb
  prefixes := h.prefixes
  unpaged := h.unpaged

theorem Tracked.snapshot (h : Tracked c w) (hs : w.snapshot i = some w') : Tracked c w' := by
  have hheld := h.held.snapshot sound_lawful hs
  obtain ⟨q, hidle, rfl⟩ := snapshot_some hs
  obtain ⟨hq, hr, _⟩ := idle_some hidle
  have hhashes : (w.pool.store.refBlocks q.state.live).hashes = w.pool.store.hashes :=
    refBlocks_hashes _
  refine ⟨hheld, fun j r hr' hrel => ?_, fun p data hp k b hk hb => ?_,
    fun hnil b => (congrFun hhashes b).trans (h.unpaged hnil b)⟩
  · show r.Fresh c (w.pool.store.refBlocks q.state.live).hashes
    rw [hhashes]
    exact h.sequences j r hr' hrel
  · refine (congrFun hhashes b).trans ?_
    rcases getElem?_concat hp with hold | hnew
    · exact h.prefixes p data hold k b hk hb
    · obtain rfl := some.inj hnew
      exact (h.sequences i q hq hr).blocks k b hk hb

theorem Tracked.fork [Zero σ] (h : Tracked c w) {p : Nat} (hs : w.fork c p = some w') :
    Tracked c w' := by
  have hheld := h.held.fork sound_lawful hs
  obtain ⟨data, q, hp, hseq, rfl⟩ := fork_some hs
  obtain ⟨hlive, _⟩ := (h.held.prefixes p data hp).fork hseq
  obtain ⟨_, hlane, _, state, _, hstate⟩ := toSequence_some hseq
  have hhashes : (w.pool.store.refBlocks data.handles).hashes = w.pool.store.hashes :=
    refBlocks_hashes _
  refine ⟨hheld, fun j r hr' hrel => ?_, fun p data hp k b hk hb => ?_,
    fun hnil b => (congrFun hhashes b).trans (h.unpaged hnil b)⟩
  · show r.Fresh c (w.pool.store.refBlocks data.handles).hashes
    rw [hhashes]
    rcases getElem?_concat hr' with hold | rfl
    · exact h.sequences j r hold hrel
    · refine .of_idle hlane (hlive.idle hlane).2.1 fun k b hk hb => ?_
      rw [hstate] at hk hb
      exact h.prefixes p data hp k b hk hb
  · exact (congrFun hhashes b).trans (h.prefixes p data hp k b hk hb)

theorem Tracked.releasePrefix (h : Tracked c w) {p : Nat} (hs : w.releasePrefix p = some w') :
    Tracked c w' := by
  have hheld := h.held.releasePrefix sound_lawful hs
  obtain ⟨data, hp, rfl⟩ := releasePrefix_some hs
  have hhashes : (w.pool.store.unrefBlocks data.handles).hashes = w.pool.store.hashes :=
    unrefBlocks_hashes _
  refine ⟨hheld, fun j r hr' hrel => ?_, fun p' data' hp' k b hk hb => ?_,
    fun hnil b => (congrFun hhashes b).trans (h.unpaged hnil b)⟩
  · show r.Fresh c (w.pool.store.unrefBlocks data.handles).hashes
    rw [hhashes]
    exact h.sequences j r hr' hrel
  · exact (congrFun hhashes b).trans (h.prefixes p' data' (prefix_kept hp') k b hk hb)

theorem Tracked.releaseSequence (h : Tracked c w) (hs : w.releaseSequence i = some w') :
    Tracked c w' := by
  have hheld := h.held.releaseSequence sound_lawful hs
  obtain ⟨q, store, state, hidle, hret, rfl⟩ := releaseSequence_some hs
  obtain ⟨hq, _, _⟩ := idle_some hidle
  refine h.update_same hheld ?_ nofun
  cases hret
  exact unrefBlocks_hashes _

/-- A matched page has a hash, so nobody writes it. -/
theorem Tracked.prefill (h : Tracked c w) {tokens : List Token}
    (hs : w.prefill c i tokens = some w') : Tracked c w' := by
  obtain ⟨q, r, store, state, hidle, hmatch, rfl⟩ := prefill_some hs
  obtain ⟨hq, hr, hlane⟩ := idle_some hidle
  have hlive := (h.held.sequences i q hq).live hr
  have hfresh := h.sequences i q hq hr
  have hstored : Sound c.numBlocks w.pool.store (q.state.live ++ w.others i) := by
    rw [← handles_idle hlane]
    exact h.held.store.perm (handles_perm hq)
  -- when nothing is taken, the sequence stays as it is
  have hkept : ∀ history, state = q.state → Sound c.numBlocks store (q.state.live ++ w.others i) →
      store.hashes = w.pool.store.hashes →
      Tracked c (w.setSequence i store { q with
        state
        history }) := by
    intro history hstate hsound hhashes
    subst hstate
    have hlive' : Sequence.Live c { q with history } :=
      ⟨hlive.head_le, hlive.tail, hlive.length_lt, hlive.pending, hlive.unpaged, hlive.idle,
        hlive.lane⟩
    refine h.update_same ?_ hhashes fun _ => ⟨hfresh.head_cursor, hfresh.blocks, hfresh.tail⟩
    refine h.held.update sound_lawful hq ?_ (hlive'.shaped hr) (fun k b hw hb => ?_)
      fun b hb => .inl hb
    · show Sound c.numBlocks store (q.handles ++ w.others i)
      rwa [handles_idle hlane]
    · exact absurd hb (hlive'.not_writable hlane hw)
  rcases prefillMatch_spec hstored hmatch with ⟨_, _, rfl, hstate⟩ |
    ⟨_, _, _, hstate, hsound, hsame⟩ | ⟨hcursor, hnil, blocks, _, hsound, hsame, hmatched⟩
  · exact hkept _ hstate hstored rfl
  · exact hkept _ hstate hsound hsame.hashes
  · obtain ⟨kda, conv, rfl⟩ := hmatched.same
    have hhead : q.state.head = 0 := by
      have hle := hlive.head_le
      rw [hnil] at hle
      exact Nat.le_zero.mp hle
    have hlive_nil : q.state.live = [] := by
      rw [SeqState.live, hnil, drop_nil]
    have hadvance := (hlive.idle hlane).1
    have hdiv : blocks.length * c.blockSize / c.blockSize = blocks.length :=
      Nat.mul_div_cancel _ c.blockSize_pos
    generalize hq' : ({ q with
      state := { q.state with
        blocks
        lastHash := chainHash hashSeed (tokens.take (blocks.length * c.blockSize))
        cursor := blocks.length * c.blockSize
        kdaStates := kda
        convStates := conv }
      history := _ } : Sequence σ) = q'
    have hlive' : Sequence.Live c q' := by
      subst hq'
      exact
        { head_le := by
            show q.state.head ≤ blocks.length
            omega
          tail := hlive.tail
          length_lt := by
            show blocks.length * c.blockSize < blocks.length * c.blockSize + q.state.advance +
              c.blockSize
            have := c.blockSize_pos
            omega
          pending := by
            show q.state.pending.length = blocks.length * c.blockSize % c.blockSize
            rw [hlive.pending, hcursor, Nat.zero_mod, Nat.mul_mod_left]
          unpaged := fun hpaged => eq_nil_iff_forall_not_mem.mpr fun b hb => by
            obtain ⟨k, hk⟩ := mem_iff_getElem?.mp hb
            have hhash := hmatched.hashes k b hk
            rw [h.unpaged hpaged b] at hhash
            cases hhash
          idle := fun _ => ⟨hadvance, by
            show q.state.head ≤ blocks.length * c.blockSize / c.blockSize
            omega, fun _ => Nat.le_refl _⟩
          lane := fun lane hsome => by
            replace hsome : q.lane = some lane := hsome
            rw [hlane] at hsome
            cases hsome }
    have hlane' : q'.lane = none := by
      rw [← hq']
      exact hlane
    have hhandles : q'.handles = blocks := by
      rw [handles_idle hlane', ← hq']
      show blocks.drop q.state.head = blocks
      rw [hhead, drop_zero]
    refine h.update_same ?_ hsame.hashes fun _ => .of_idle hlane' (hlive'.idle hlane').2.1 ?_
    · refine h.held.update sound_lawful hq ?_ (hlive'.shaped (by rw [← hq']; exact hr))
        (fun k b hw hb => absurd hb (hlive'.not_writable hlane' hw)) fun b hb => .inr ?_
      · rw [hhandles]
        rwa [hlive_nil, nil_append] at hsound
      · -- a taken page has a hash, a page that may be written has none
        intro j r' k hne hr' hw hb'
        rw [hhandles] at hb
        obtain ⟨k', hk'⟩ := mem_iff_getElem?.mp hb
        have hhash := hmatched.hashes k' b hk'
        have hk : r'.state.cursor / c.blockSize ≤ k := by
          obtain ⟨_, _, hpast | ⟨_, _, hk, _⟩⟩ := hw
          · exact Nat.le_of_mul_le_mul_right
              (Nat.le_trans (Nat.div_mul_le_self _ _) hpast) c.blockSize_pos
          · exact hk
        rw [(h.sequences j r' hr' hw.1).blocks k b hk hb'] at hhash
        cases hhash
    · intro k b hk hb
      rw [← hq'] at hk hb
      replace hk : blocks.length * c.blockSize / c.blockSize ≤ k := hk
      have hlt := (List.getElem?_eq_some_iff.mp hb).1
      replace hlt : k < blocks.length := hlt
      omega

theorem Tracked.perform [Zero σ] (h : Tracked c w) {event : Event ρ σ}
    (hold : EvictsOldPages c w event) (hs : w.perform c event = some w') : Tracked c w' := by
  cases event with
  | create =>
    obtain rfl := some.inj hs
    exact h.create
  | prefillMatch i tokens => exact h.prefill hs
  | snapshot i => exact h.snapshot hs
  | fork p => exact h.fork hs
  | releasePrefix p => exact h.releasePrefix hs
  | releaseSequence i => exact h.releaseSequence hs
  | begin i window tokens => exact h.begin hs
  | attend i command rows => exact h.attend hs
  | rollback i => exact h.rollback hs
  | commit i kda conv => exact h.commit hold hs
  | finish i => exact h.finish hs
  | publish i => exact h.publish hs

/-! ## Whole runs -/

section Runs

variable [Zero σ]

theorem tracked_reachable (hw : (pagePool c (EvictsOldPages c)).Reachable w) : Tracked c w := by
  refine System.invariant ?_ ?_ hw
  · rintro _ ⟨rows, rfl⟩
    exact tracked_new rows
  · rintro w w' h ⟨event, hold, hs⟩
    exact h.perform hold hs

end Runs

def World.IsFree (w : World ρ σ) (b : Nat) : Prop :=
  w.pool.store.refcounts b = 0 ∧ w.pool.store.hashes b = none ∧ w.pool.store.free.count b = 1

def World.IsCached (w : World ρ σ) (b : Nat) : Prop :=
  w.pool.store.refcounts b = 0 ∧ b ∉ w.pool.store.free ∧
    ∃ hash, w.pool.store.hashes b = some hash ∧ b ∈ w.pool.store.listedAt hash

def World.IsReferenced (w : World ρ σ) (b : Nat) : Prop :=
  b ∈ w.handles ∧ b ∉ w.pool.store.free ∧ w.pool.store.refcounts b = w.handles.count b

/-- What the pool promises about its pages. -/
structure World.Classified (c : PoolConfig) (w : World ρ σ) : Prop where
  classes : ∀ b < c.numBlocks,
    w.IsFree b ∧ ¬ w.IsCached b ∧ ¬ w.IsReferenced b ∨
      w.IsCached b ∧ ¬ w.IsFree b ∧ ¬ w.IsReferenced b ∨
      w.IsReferenced b ∧ ¬ w.IsFree b ∧ ¬ w.IsCached b
  counted : ∀ b, w.pool.store.refcounts b = w.handles.count b
  inverse : ∀ b hash, b ∈ w.pool.store.listedAt hash ↔ w.pool.store.hashes b = some hash
  available : w.pool.store.available ≤ c.numBlocks
  alloc : ∀ b store, w.pool.store.allocBlock = (some b, store) →
    b ∉ w.handles ∧ ∀ hash, b ∉ store.listedAt hash

theorem BlockStore.Sound.classified (h : Sound c.numBlocks w.pool.store w.handles) :
    w.Classified c where
  classes b hb := by
    by_cases hzero : w.pool.store.refcounts b = 0
    · have hunheld : ¬ w.IsReferenced b := fun href => h.counted.eq_zero.mp hzero href.1
      cases hhash : w.pool.store.hashes b with
      | none =>
        have hfree := (h.free_spec b).mpr ⟨hb, hzero, hhash⟩
        exact .inl ⟨⟨hzero, hhash, count_eq_one_of_mem h.free_nodup hfree⟩,
          fun hcached => hcached.2.1 hfree, hunheld⟩
      | some hash =>
        have hnot : b ∉ w.pool.store.free := fun hfree => by
          rw [((h.free_spec b).mp hfree).2.2] at hhash
          cases hhash
        refine .inr (.inl ⟨⟨hzero, hnot, hash, hhash, (h.listed_iff b hash).mpr hhash⟩,
          fun hfree => ?_, hunheld⟩)
        rw [hfree.2.1] at hhash
        cases hhash
    · have hheld : b ∈ w.handles := h.counted.pos.mp (Nat.pos_of_ne_zero hzero)
      exact .inr (.inr ⟨⟨hheld, h.not_free hheld, h.counted b⟩, fun hfree => hzero hfree.1,
        fun hcached => hzero hcached.1⟩)
  counted := h.counted
  inverse := h.listed_iff
  available := h.available_le
  alloc b store ha := by
    obtain ⟨hzero, hsound⟩ := h.alloc ha
    refine ⟨h.counted.eq_zero.mp hzero, fun hash hmem => ?_⟩
    have hhash := (hsound.listed_iff b hash).mp hmem
    rw [allocBlock_hashes ha, Function.update_self] at hhash
    cases hhash

/-- In every run whose commits evict only old pages, each page has one class. -/
theorem pages_classified [Zero σ] (hw : (pagePool c (EvictsOldPages c)).Reachable w) :
    w.Classified c :=
  (tracked_reachable hw).held.store.classified

end Pages

/-- Two sequences and a prefix share a page. -/
theorem pages_classified_forked :
    ∃ w : World Nat Nat, (pagePool smallPool (EvictsOldPages smallPool)).Reachable w ∧
      w.pool.store.refcounts 1 = 3 ∧ w.Classified smallPool := by
  have hrun : (sharedTailRun.foldlM (fun w event =>
      if EvictsOldPages smallPool w event then w.perform smallPool event else none)
        (World.new smallPool fun _ _ => 0)).map (fun w => w.pool.store.refcounts 1) = some 3 := by
    decide +kernel
  obtain ⟨w, hw, hcount⟩ := map_eq_some_iff.mp hrun
  have hreach := reachable_checked (EvictsOldPages smallPool) (.init ⟨_, rfl⟩) hw
  exact ⟨w, hreach, hcount, pages_classified hreach⟩

/-- Two pages of one row. -/
def tightPool : PoolConfig where
  kvLayers := [⟨0, 1, 1, .f32, none⟩]
  explicitLayers := false
  kvHeads := 1
  headDim := 1
  blockSize := 1
  maxTokens := 2
  kda := ⟨0, 0, 0, 0⟩
  conv := ⟨0, 0, 0⟩
  blockSize_pos := Nat.one_pos
  maxTokens_pos := Nat.two_pos
  blockSize_dvd := by decide

/-- A chunk of two tokens in a window of one. -/
def wideChunkRun : List (Event Nat Nat) :=
  [.create, .begin 0 (some 1) [7, 8], .attend 0 smallCommand [70, 80], .commit 0 [] [],
    .finish 0, .publish 0]

/-- The commit frees the first page, then its hash is published: it is free and listed. -/
theorem evicted_page_published :
    ¬ ∀ w : World Nat Nat, (pagePool tightPool fun _ _ => True).Reachable w →
      w.Classified tightPool := by
  intro h
  have hrun : ((World.new tightPool fun _ _ => 0).performAll tightPool wideChunkRun).map
      (fun w => (w.pool.store.free, w.pool.store.hashes 0)) =
        some ([0], some (chainHash hashSeed [7])) := by decide +kernel
  obtain ⟨w, hw, hpages⟩ := map_eq_some_iff.mp hrun
  obtain ⟨hfree, hhash⟩ := Prod.mk.inj hpages
  have hreach : (pagePool tightPool fun _ _ => True).Reachable w :=
    reachable_performAll (fun _ _ => True) (fun _ _ _ => trivial) (.init ⟨_, rfl⟩) hw
  have hzero : 0 ∈ w.pool.store.free := by
    rw [hfree]
    exact mem_singleton_self 0
  rcases (h w hreach).classes 0 (by decide) with ⟨hclass, _⟩ | ⟨hclass, _⟩ | ⟨hclass, _⟩
  · rw [hclass.2.1] at hhash
    cases hhash
  · exact hclass.2.1 hzero
  · exact hclass.2.1 hzero

end EffectTorch
