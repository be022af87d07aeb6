import EffectTorch.Cpu.PoolContent
import EffectTorch.Cpu.PoolInvariant
import Mathlib.Data.Set.Function

/-!
# What a match restores

Hashed pages and snapshots hold the rows and states of the history that they are named
after, as long as commits evict only old pages.

Results:
1. `Faithful.perform`: every step whose inputs are what the model computes keeps that.
2. `prefill_match_faithful`: what a match gives a sequence.
3. `prefill_match_unfaithful`: an empty prompt, and a page that was published late.
-/

namespace EffectTorch
open List Option Lib BlockStore

section Names

variable {ρ σ : Type} {c : PoolConfig} {m : Computation ρ σ} {w w' : World ρ σ} {i : Nat}
  {q q' : Sequence σ} {rows rows' : Nat → Nat → ρ}

/-! ## The invariant -/

/-- A hashed page holds the last rows of the history that its hash is of. -/
def PageContent (c : PoolConfig) (m : Computation ρ σ) (rows : Nat → Nat → ρ) (b : Nat)
    (hash : UInt64) : Prop :=
  ∃ history j, m.InUse history ∧ history.length = (j + 1) * c.blockSize ∧
    hash = chainHash hashSeed history ∧
    ∀ layer < c.kvLayers.length, ∀ off < c.blockSize,
      rows layer (b * c.blockSize + off) =
        m.row layer (history.take (j * c.blockSize + off + 1))

/-- A snapshot holds the states after the history that its hash is of. -/
def SnapshotContent (m : Computation ρ σ) (hash : UInt64) (snapshot : RecurrentSnapshot σ) :
    Prop :=
  ∃ history, m.InUse history ∧ hash = chainHash hashSeed history ∧
    snapshot = m.recurrent history

/-- Pages and snapshots hold what their hashes name. -/
structure Named (c : PoolConfig) (m : Computation ρ σ) (w : World ρ σ) : Prop where
  pages : ∀ b hash, w.pool.store.hashes b = some hash → PageContent c m w.pool.rows b hash
  snapshots : ∀ hash snapshot, w.pool.store.snapshots.lookup hash = some snapshot →
    SnapshotContent m hash snapshot

structure Faithful (c : PoolConfig) (m : Computation ρ σ) (w : World ρ σ) : Prop where
  tracked : Tracked c w
  retained : w.Retained c
  contents : Contents c m w
  named : Named c m w

theorem faithful_new (rows : Nat → Nat → ρ) : Faithful c m (World.new c rows : World ρ σ) where
  tracked := tracked_new rows
  retained _ _ _ _ h := by cases h
  contents := contents_new rows
  named :=
    { pages := fun _ _ h => by cases h
      snapshots := fun _ _ h => by cases h }

/-! ## Steps -/

/-- A step that writes and publishes nothing. -/
theorem Named.same (h : Named c m w) (hrows : w'.pool.rows = w.pool.rows)
    (hhashes : w'.pool.store.hashes = w.pool.store.hashes)
    (hsnapshots : w'.pool.store.snapshots = w.pool.store.snapshots) : Named c m w' where
  pages b hash hhash := by
    rw [hrows]
    rw [hhashes] at hhash
    exact h.pages b hash hhash
  snapshots hash snapshot hlookup := by
    rw [hsnapshots] at hlookup
    exact h.snapshots hash snapshot hlookup

/-- Written pages are not hashed. -/
theorem Named.attend (h : Named c m w) (htracked : Tracked c w) {command : AttentionCommand}
    {rows : List ρ} (hs : w.attend c i command rows = some w') : Named c m w' := by
  have htracked' := htracked.attend hs
  obtain ⟨q, lane, r, pool, state, hrunning, hphase, hkv, rfl⟩ := attend_some hs
  obtain ⟨hq, hlane, hr, _⟩ := htracked.held.running hrunning
  have hready := htracked.held.ready sound_lawful hrunning (.inl hphase)
  have ht : Touched c (Sound c.numBlocks) w.pool q.state
      (tailHandles lane.frontier.tail ++ w.others i) pool state :=
    (kvAttention_cases hkv).elim (fun ⟨_, _, hattempted⟩ => hattempted.touched sound_lawful hready)
      fun hattended => hattended.1.touched sound_lawful hready
  have hfresh := htracked'.sequences i _
    (List.getElem?_set_self (List.getElem?_eq_some_iff.mp hq).1) hr
  refine ⟨fun b hash hhash => ?_, fun hash snapshot hlookup =>
    h.snapshots hash snapshot (ht.snapshots hash snapshot hlookup)⟩
  replace hhash : pool.store.hashes b = some hash := hhash
  have hold : w.pool.store.hashes b = some hash := by
    rcases ht.cleared b with hsame | hnone
    · rw [← hsame]
      exact hhash
    · rw [hnone] at hhash
      cases hhash
  obtain ⟨history, j, hused, hlen, hname, hrows⟩ := h.pages b hash hold
  refine ⟨history, j, hused, hlen, hname, fun layer hlayer off hoff => ?_⟩
  rw [← hrows layer hlayer off hoff]
  refine ht.outside layer b off hoff fun k hk hb => ?_
  obtain ⟨_, _, hsame⟩ := ht.same
  have hnone : pool.store.hashes b = none := hfresh.blocks k b (by rw [hsame]; exact hk) hb
  rw [hnone] at hhash
  cases hhash

theorem setHashes_cases {s : BlockStore σ} {hashes : List (Nat × UInt64)} {b : Nat}
    {hash : UInt64} (h : (setHashes s hashes).hashes b = some hash) :
    (b, hash) ∈ hashes ∨ s.hashes b = some hash := by
  induction hashes generalizing s with
  | nil => exact .inr h
  | cons entry hashes ih =>
    rcases ih h with hmem | hold
    · exact .inl (mem_cons_of_mem _ hmem)
    · replace hold : Function.update s.hashes entry.1 (some entry.2) b = some hash := hold
      by_cases hb : b = entry.1
      · subst hb
        rw [Function.update_self] at hold
        obtain rfl := some.inj hold
        exact .inl mem_cons_self
      · rw [Function.update_of_ne hb] at hold
        exact .inr hold

theorem setHashes_snapshots (s : BlockStore σ) (hashes : List (Nat × UInt64)) :
    (setHashes s hashes).snapshots = s.snapshots := by
  induction hashes generalizing s with
  | nil => rfl
  | cons entry hashes ih => exact ih _

/-- A publication adds the snapshot of the sequence at the most. -/
theorem maybePublish_snapshots {s : BlockStore σ} {state : SeqState σ} {hash : UInt64}
    {snapshot : RecurrentSnapshot σ}
    (h : (maybePublishRecurrentSnapshot c s state).snapshots.lookup hash = some snapshot) :
    s.snapshots.lookup hash = some snapshot ∨
      c.recurrent = true ∧ state.cursor % c.blockSize = 0 ∧ hash = state.lastHash ∧
        snapshot = captureRecurrentSnapshot state := by
  rcases maybePublish_cases (c := c) s state with heq | ⟨_, hrec, _, hmod, heq⟩
  · rw [heq] at h
    exact .inl h
  · rw [heq, BlockStore.publishSnapshot] at h
    split at h
    · replace h : (s.snapshots.insert state.lastHash (captureRecurrentSnapshot state)).lookup hash =
        some snapshot := h
      by_cases hh : hash = state.lastHash
      · subst hh
        rw [AList.lookup_insert] at h
        exact .inr ⟨hrec, hmod, rfl, (some.inj h).symm⟩
      · rw [AList.lookup_insert_ne hh] at h
        exact .inl h
    · exact .inl h

/-- The page `k` of a table is named after the history up to its end. -/
theorem Holds.page {blocks : List Nat} {head k b : Nat} {history : List Token}
    (h : Holds c m rows blocks head history) (hused : m.InUse history)
    (hend : (k + 1) * c.blockSize ≤ history.length) (hk : head ≤ k) (hb : blocks[k]? = some b) :
    PageContent c m rows b (chainHash hashSeed (history.take ((k + 1) * c.blockSize))) := by
  refine ⟨history.take ((k + 1) * c.blockSize), k, hused.take _, ?_, rfl,
    fun layer hlayer off hoff => ?_⟩
  · rw [length_take, Nat.min_eq_left hend]
  · have hsucc : (k + 1) * c.blockSize = k * c.blockSize + c.blockSize := Nat.succ_mul _ _
    have hdiv : (k * c.blockSize + off) / c.blockSize = k := by
      rw [Nat.mul_comm, Nat.mul_add_div c.blockSize_pos, Nat.div_eq_of_lt hoff, Nat.add_zero]
    have hmod : (k * c.blockSize + off) % c.blockSize = off := by
      rw [Nat.mul_comm, Nat.mul_add_mod, Nat.mod_eq_of_lt hoff]
    have hrow := h layer hlayer (k * c.blockSize + off) (by omega) (by rw [hdiv]; exact hk)
    rw [rowAt_of_getElem? (by rw [hdiv]; exact hb), hmod] at hrow
    rw [take_take, Nat.min_eq_left (by omega)]
    exact hrow

/-- Publication names the pages that the chunk completed. -/
theorem Named.publish (h : Named c m w) (htracked : Tracked c w) (hcontents : Contents c m w)
    (hs : w.publish c i = some w') : Named c m w' := by
  obtain ⟨q, lane, store, state, hrunning, hphase, hpub, rfl⟩ := publish_some hs
  obtain ⟨hq, hlane, hr, hlive, hls⟩ := htracked.held.running hrunning
  have hfresh := htracked.sequences i q hq hr
  have hcontent := hcontents.sequences i q hq hr
  have hpublished := hcontents.published htracked.held hrunning hphase hpub
  obtain ⟨hstate, hstore⟩ := publishLane_spec hlive.pending hpub
  have hcursor : state.cursor = q.state.cursor + q.state.advance := by rw [hstate]
  have hlength : (q.history ++ lane.tokens).length = q.state.cursor + q.state.advance := by
    rw [length_append, hcontent.describes.length, hls.advance]
  have hholds : Holds c m w.pool.rows q.state.blocks q.state.head (q.history ++ lane.tokens) := by
    have hholds := hpublished.holds
    have hblocks : state.blocks = q.state.blocks := by rw [hstate]
    have hhead : state.head = q.state.head := by rw [hstate]
    replace hholds : Holds c m w.pool.rows state.blocks state.head (q.history ++ lane.tokens) :=
      hholds
    rwa [hblocks, hhead] at hholds
  refine ⟨fun b hash hhash => ?_, fun hash snapshot hlookup => ?_⟩
  · replace hhash : store.hashes b = some hash := hhash
    obtain ⟨_, _, _, hsame, _⟩ := maybePublish_fields (c := c)
      (setHashes w.pool.store (completed c q.state lane.tokens)) state
    rw [hstore, hsame] at hhash
    rcases setHashes_cases hhash with hmem | hold
    · obtain ⟨j, hj, hsome⟩ := mem_filterMap.mp hmem
      obtain ⟨b', hb, heq⟩ := map_eq_some_iff.mp hsome
      cases heq
      rw [mem_range, length_append, hlive.pending, ← hls.advance] at hj
      have hle : (j + 1) * c.blockSize ≤ _ := Nat.mul_le_mul_right c.blockSize hj
      have hpage : (q.state.cursor / c.blockSize + j + 1) * c.blockSize =
          q.state.cursor / c.blockSize * c.blockSize + (j + 1) * c.blockSize := by
        rw [Nat.add_assoc, Nat.add_mul]
      have hend : (q.state.cursor / c.blockSize + j + 1) * c.blockSize ≤
          (q.history ++ lane.tokens).length := by
        have hdown := Nat.div_mul_le_self (q.state.cursor + q.state.advance) c.blockSize
        rw [← whole_pages_add] at hdown
        rw [hlength, hpage]
        omega
      have hname := (hcontent.describes.continue lane.tokens ((j + 1) * c.blockSize)).1
      rw [hname, ← hpage]
      exact hholds.page (hcontent.lane lane hlane).used hend
        (Nat.le_trans hfresh.head_cursor (Nat.le_add_right _ _)) hb
    · exact h.pages b hash hold
  · replace hlookup : store.snapshots.lookup hash = some snapshot := hlookup
    rw [hstore] at hlookup
    rcases maybePublish_snapshots hlookup with hold | ⟨hrec, hmod, rfl, rfl⟩
    · rw [setHashes_snapshots] at hold
      exact h.snapshots hash snapshot hold
    · refine ⟨q.history ++ lane.tokens, hpublished.describes.used, ?_, hpublished.idle hrec rfl⟩
      have hfull : state.cursor / c.blockSize * c.blockSize = (q.history ++ lane.tokens).length := by
        rw [hlength, ← hcursor]
        exact Nat.div_mul_cancel (Nat.dvd_of_mod_eq_zero hmod)
      have hlast := hpublished.describes.lastHash
      replace hlast : state.lastHash = chainHash hashSeed ((q.history ++ lane.tokens).take
        (state.cursor / c.blockSize * c.blockSize)) := hlast
      rw [hlast, hfull, take_length]

/-! ## Matches -/

/-- A matched page holds the rows of the prompt. -/
theorem Faithful.matched (h : Faithful c m w)
    (hinj : Set.InjOn (chainHash hashSeed) m.used) {state state' : SeqState σ}
    {tokens : List Token} {blocks : List Nat} (hused : m.InUse tokens)
    (hmatched : Matched c w.pool.store state tokens blocks state') :
    Holds c m w.pool.rows blocks 0 (tokens.take (blocks.length * c.blockSize)) ∧
      blocks.length * c.blockSize ≤ tokens.length ∧
      (c.recurrent = true → captureRecurrentSnapshot state' =
        m.recurrent (tokens.take (blocks.length * c.blockSize))) := by
  have hle : blocks.length * c.blockSize ≤ tokens.length - 1 :=
    Nat.le_trans (Nat.mul_le_mul_right _ hmatched.length_le) (Nat.div_mul_le_self _ _)
  have hmem : ∀ n, tokens.take n ∈ m.used := hused
  refine ⟨fun layer hlayer position hlt _ => ?_, by omega, fun hrec => ?_⟩
  · rw [length_take] at hlt
    have hpage : position / c.blockSize < blocks.length := by
      rw [Nat.div_lt_iff_lt_mul c.blockSize_pos]
      omega
    obtain ⟨b, hb⟩ : ∃ b, blocks[position / c.blockSize]? = some b :=
      ⟨_, List.getElem?_eq_getElem hpage⟩
    obtain ⟨history, j, hhistory, hlen, hname, hrows⟩ := h.named.pages b _ (hmatched.hashes _ b hb)
    obtain rfl := hinj (hmem _) hhistory.mem hname
    have hend := Nat.mul_le_mul_right c.blockSize (Nat.succ_le_of_lt hpage)
    rw [length_take, Nat.min_eq_left (by rw [Nat.succ_eq_add_one] at hend; omega)] at hlen
    have hj : j = position / c.blockSize :=
      (Nat.succ.inj (Nat.eq_of_mul_eq_mul_right c.blockSize_pos hlen)).symm
    subst hj
    have hcut := Nat.div_add_mod position c.blockSize
    have hmod := Nat.mod_lt position c.blockSize_pos
    rw [rowAt_of_getElem? hb, hrows layer hlayer _ hmod, Nat.mul_comm, hcut, take_take,
      take_take, Nat.min_eq_left (by rw [Nat.mul_comm, Nat.mul_succ]; omega),
      Nat.min_eq_left (by omega)]
  · obtain ⟨_, hlookup⟩ := hmatched.recurrent hrec
    obtain ⟨history, hhistory, hname, hsnapshot⟩ := h.named.snapshots _ _ hlookup
    obtain rfl := hinj (hmem _) hhistory.mem hname
    exact hsnapshot

/-- An empty sequence has an empty history. -/
theorem Sequence.Content.empty (h : q.Content c m rows) (hcursor : q.state.cursor = 0) :
    q.history = [] ∧ q.state.lastHash = hashSeed ∧ q.state.pending = [] := by
  have hlen := h.describes.length
  rw [hcursor] at hlen
  have hnil := eq_nil_of_length_eq_zero hlen
  refine ⟨hnil, ?_, ?_⟩
  · rw [h.describes.lastHash, hnil, take_nil, chainHash_nil]
  · rw [h.describes.pending, hnil, drop_nil]

theorem Faithful.prefill (h : Faithful c m w)
    (hinj : Set.InjOn (chainHash hashSeed) m.used) {tokens : List Token}
    (hused : m.InUse tokens) (hs : w.prefill c i tokens = some w') : Faithful c m w' := by
  have htracked := h.tracked.prefill hs
  obtain ⟨q, r, store, state, hidle, hmatch, rfl⟩ := prefill_some hs
  obtain ⟨hq, hr, hlane⟩ := idle_some hidle
  have hcontent := h.contents.sequences i q hq hr
  have hlive := (h.tracked.held.sequences i q hq).live hr
  have hstored : Sound c.numBlocks w.pool.store (q.state.live ++ w.others i) := by
    rw [← handles_idle hlane]
    exact h.tracked.held.store.perm (handles_perm hq)
  have hretained : (w.setSequence i store { q with
      state
      history := match r with
        | .ok cursor => tokens.take cursor
        | .error _ => q.history }).Retained c := by
    refine h.tracked.held.update_retained h.retained (fun _ _ _ _ _ => rfl) fun lane _ hsome => ?_
    replace hsome : q.lane = some lane := hsome
    rw [hlane] at hsome
    cases hsome
  have hkept : ∀ history, state = q.state → history = q.history →
      ({ q with
        state
        history } : Sequence σ) = q := by
    rintro _ rfl rfl
    rfl
  rcases prefillMatch_spec hstored hmatch with ⟨_, ⟨e, rfl⟩, rfl, hstate⟩ |
    ⟨hcursor, _, rfl, hstate, _, hsame⟩ | ⟨hcursor, _, blocks, rfl, _, hsame, hmatched⟩
  · refine ⟨htracked, hretained, h.contents.update_same h.tracked.held fun _ => ?_,
      h.named.same rfl rfl rfl⟩
    rw [hkept _ hstate rfl]
    exact hcontent
  · refine ⟨htracked, hretained, h.contents.update_same h.tracked.held fun _ => ?_,
      h.named.same rfl hsame.hashes hsame.snapshots⟩
    show Sequence.Content c m w.pool.rows { q with
      state
      history := tokens.take 0 }
    rw [hkept _ hstate (take_zero.trans (hcontent.empty hcursor).1.symm)]
    exact hcontent
  · obtain ⟨hholds, hlen, hrecurrent⟩ := h.matched hinj hused hmatched
    obtain ⟨kda, conv, rfl⟩ := hmatched.same
    refine ⟨htracked, hretained, h.contents.update_same h.tracked.held fun _ => ?_,
      h.named.same rfl hsame.hashes hsame.snapshots⟩
    have hfull : blocks.length * c.blockSize / c.blockSize * c.blockSize =
        blocks.length * c.blockSize := by
      rw [Nat.mul_div_cancel _ c.blockSize_pos]
    refine
      { describes :=
          { used := hused.take _
            length := by
              show (tokens.take (blocks.length * c.blockSize)).length = _
              rw [length_take, Nat.min_eq_left hlen]
            lastHash := ?_
            pending := ?_ }
        holds := fun layer hlayer position hlt _ => hholds layer hlayer position hlt (Nat.zero_le _)
        idle := fun hrec _ => hrecurrent hrec
        lane := fun lane hsome => ?_ }
    · show chainHash hashSeed _ = chainHash hashSeed
        ((tokens.take (blocks.length * c.blockSize)).take _)
      rw [hfull, take_take, Nat.min_self]
    · show q.state.pending = (tokens.take (blocks.length * c.blockSize)).drop _
      rw [hfull, (hcontent.empty hcursor).2.2, drop_take, Nat.sub_self, take_zero]
    · replace hsome : q.lane = some lane := hsome
      rw [hlane] at hsome
      cases hsome

/-! ## Whole runs -/

section Runs

variable [Zero σ]

/-- Only attention writes, and only it, publication and matches change what is named. -/
theorem Named.perform (h : Named c m w) (htracked : Tracked c w) (hcontents : Contents c m w)
    {event : Event ρ σ} (hfork : event.ForkOnly) (hs : w.perform c event = some w') :
    Named c m w' := by
  cases event with
  | create =>
    obtain rfl := some.inj hs
    exact h.same rfl rfl rfl
  | prefillMatch i tokens => exact hfork.elim
  | snapshot i =>
    obtain ⟨q, _, rfl⟩ := snapshot_some hs
    exact h.same rfl (refBlocks_hashes _) (refBlocks_snapshots _)
  | fork p =>
    obtain ⟨data, q, _, _, rfl⟩ := fork_some hs
    exact h.same rfl (refBlocks_hashes _) (refBlocks_snapshots _)
  | releasePrefix p =>
    obtain ⟨data, _, rfl⟩ := releasePrefix_some hs
    exact h.same rfl (unrefBlocks_hashes _) (unrefBlocks_snapshots _)
  | releaseSequence i =>
    obtain ⟨q, store, state, _, hret, rfl⟩ := releaseSequence_some hs
    cases hret
    exact h.same rfl (unrefBlocks_hashes _) (unrefBlocks_snapshots _)
  | begin i window tokens =>
    obtain ⟨q, _, _, rfl⟩ := begin_some hs
    exact h.same rfl (refBlocks_hashes _) (refBlocks_snapshots _)
  | attend i command rows => exact h.attend htracked hs
  | rollback i =>
    obtain ⟨q, lane, store, state, _, _, hroll, rfl⟩ := rollback_some hs
    obtain ⟨hhashes, _, hsnapshots⟩ := rollbackLane_published hroll
    exact h.same rfl hhashes hsnapshots
  | commit i kda conv =>
    obtain ⟨q, lane, n, _, _, _, _, _, rfl⟩ := commit_some hs
    exact h.same rfl (unrefBlocks_hashes _) (unrefBlocks_snapshots _)
  | finish i =>
    obtain ⟨q, lane, _, _, rfl⟩ := finish_some hs
    exact h.same rfl (unrefBlocks_hashes _) (unrefBlocks_snapshots _)
  | publish i => exact h.publish htracked hcontents hs

theorem Faithful.perform (h : Faithful c m w) (hinj : Set.InjOn (chainHash hashSeed) m.used)
    (hnew : c.recurrent = true → captureRecurrentSnapshot (SeqState.new c) = m.recurrent [])
    {event : Event ρ σ} (hold : EvictsOldPages c w event) (hcomputes : Computes m w event)
    (hs : w.perform c event = some w') : Faithful c m w' := by
  have hforked : event.ForkOnly → Faithful c m w' := fun hfork =>
    { tracked := h.tracked.perform hold hs
      retained := (h.tracked.held.sees sound_lawful h.retained hfork hs).2
      contents := h.contents.perform sound_lawful h.tracked.held h.retained hnew hfork hcomputes hs
      named := h.named.perform h.tracked h.contents hfork hs }
  cases event with
  | prefillMatch i tokens => exact h.prefill hinj hcomputes hs
  | create | snapshot | fork | releasePrefix | releaseSequence | begin | attend | rollback
  | commit | finish | publish => exact hforked trivial

/-- Runs whose inputs are what the model computes and whose commits evict only old
pages. -/
def Computing (c : PoolConfig) (m : Computation ρ σ) (w : World ρ σ) (event : Event ρ σ) : Prop :=
  Computes m w event ∧ EvictsOldPages c w event

theorem faithful_reachable (hinj : Set.InjOn (chainHash hashSeed) m.used)
    (hnew : c.recurrent = true → captureRecurrentSnapshot (SeqState.new c) = m.recurrent [])
    (hw : (pagePool c (Computing c m)).Reachable w) : Faithful c m w := by
  refine System.invariant ?_ ?_ hw
  · rintro _ ⟨rows, rfl⟩
    exact faithful_new rows
  · rintro w w' h ⟨event, ⟨hcomputes, hold⟩, hs⟩
    exact h.perform hinj hnew hold hcomputes hs

end Runs

/-- What `prefill_match` promises of the cursor it returns: the table and the states
are those of the prompt up to there, and with no match nothing is held. -/
structure Prefilled (c : PoolConfig) (m : Computation ρ σ) (w : World ρ σ) (state : SeqState σ)
    (tokens : List Token) (cursor : Nat) (store : BlockStore σ) (state' : SeqState σ) : Prop where
  dvd : c.blockSize ∣ cursor
  lt : cursor < tokens.length
  ends : state'.cursor = cursor
  rows : ∀ layer < c.kvLayers.length, ∀ position < cursor,
    rowAt c w.pool.rows state'.blocks layer position = m.row layer (tokens.take (position + 1))
  lastHash : state'.lastHash = chainHash hashSeed (tokens.take cursor)
  pending : state'.pending = []
  recurrent : c.recurrent = true →
    captureRecurrentSnapshot state' = m.recurrent (tokens.take cursor)
  unmatched : cursor = 0 → state' = state ∧ store.refcounts = w.pool.store.refcounts

/-- A sequence that holds tokens is refused, an empty one is given what the model
computes for the part of the prompt that matched. -/
theorem prefill_match_faithful [Zero σ] (hinj : Set.InjOn (chainHash hashSeed) m.used)
    (hnew : c.recurrent = true → captureRecurrentSnapshot (SeqState.new c) = m.recurrent [])
    (hw : (pagePool c (Computing c m)).Reachable w) (hidle : w.idle i = some q)
    {tokens : List Token} (hused : m.InUse tokens) (hne : tokens ≠ [])
    {r : Except String Nat} {store : BlockStore σ} {state : SeqState σ}
    (hmatch : prefillMatch c w.pool.store q.state tokens = (r, store, state)) :
    (q.state.cursor = 0 ∧ q.state.blocks = [] →
      ∃ cursor, r = .ok cursor ∧ Prefilled c m w q.state tokens cursor store state) ∧
    (¬ (q.state.cursor = 0 ∧ q.state.blocks = []) →
      (∃ e, r = .error e) ∧ store = w.pool.store ∧ state = q.state) := by
  have h := faithful_reachable hinj hnew hw
  obtain ⟨hq, hr, hlane⟩ := idle_some hidle
  have hcontent := h.contents.sequences i q hq hr
  have hlive := (h.tracked.held.sequences i q hq).live hr
  have hpos := length_pos_of_ne_nil hne
  have hstored : Sound c.numBlocks w.pool.store (q.state.live ++ w.others i) := by
    rw [← handles_idle hlane]
    exact h.tracked.held.store.perm (handles_perm hq)
  rcases prefillMatch_spec hstored hmatch with ⟨hfull, herr, hstore, hstate⟩ |
    ⟨hcursor, hblocks, rfl, rfl, hsound, _⟩ | ⟨hcursor, hblocks, blocks, rfl, hsound, _, hmatched⟩
  · exact ⟨fun hempty => absurd hempty hfull, fun _ => ⟨herr, hstore, hstate⟩⟩
  · refine ⟨fun _ => ⟨0, rfl, ?_⟩, fun hfull => absurd ⟨hcursor, hblocks⟩ hfull⟩
    obtain ⟨hnil, hhash, hpending⟩ := hcontent.empty hcursor
    exact
      { dvd := Nat.dvd_zero _
        lt := hpos
        ends := hcursor
        rows := fun _ _ _ hlt => absurd hlt (Nat.not_lt_zero _)
        lastHash := by rw [hhash, take_zero, chainHash_nil]
        pending := hpending
        recurrent := fun hrec => by rw [hcontent.idle hrec hlane, hnil, take_zero]
        unmatched := fun _ => ⟨rfl, funext fun b => by
          rw [hsound.counted b, hstored.counted b]⟩ }
  · refine ⟨fun _ => ⟨_, rfl, ?_⟩, fun hfull => absurd ⟨hcursor, hblocks⟩ hfull⟩
    obtain ⟨hnil, hhash, hpending⟩ := hcontent.empty hcursor
    obtain ⟨hholds, hlen, hrecurrent⟩ := h.matched hinj hused hmatched
    have hlt : blocks.length * c.blockSize < tokens.length := by
      have hle := Nat.le_trans (Nat.mul_le_mul_right c.blockSize hmatched.length_le)
        (Nat.div_mul_le_self _ _)
      omega
    obtain ⟨kda, conv, hsame⟩ := hmatched.same
    have hplain := hmatched.plain
    have hrec := hmatched.recurrent
    subst hsame
    refine
      { dvd := Nat.dvd_mul_left _ _
        lt := hlt
        ends := rfl
        rows := fun layer hlayer position hpos' => ?_
        lastHash := rfl
        pending := hpending
        recurrent := hrecurrent
        unmatched := fun hzero => ?_ }
    · have hrow := hholds layer hlayer position
        (by rw [length_take, Nat.min_eq_left hlen]; exact hpos') (Nat.zero_le _)
      rw [hrow, take_take, Nat.min_eq_left hpos']
    · have hblocks' : blocks = [] := eq_nil_of_length_eq_zero
        ((Nat.mul_eq_zero.mp hzero).resolve_right (Nat.ne_of_gt c.blockSize_pos))
      subst hblocks'
      cases hrecurrent' : c.recurrent with
      | true => exact absurd rfl (hrec hrecurrent').1
      | false =>
        obtain ⟨hkda, hconv⟩ := hplain hrecurrent'
        replace hkda : kda = q.state.kdaStates := hkda
        replace hconv : conv = q.state.convStates := hconv
        refine ⟨?_, funext fun b => by rw [hsound.counted b, hstored.counted b]; rfl⟩
        rw [hkda, hconv, length_nil, Nat.zero_mul, take_zero, chainHash_nil, ← hhash,
          ← hcursor, ← hblocks]

end Names

/-- A model whose row is the decimal number of a few short histories. -/
def digitHashes : Computation Nat Nat where
  used := { history | history ∈ [[], [7], [7, 8], [7, 8, 9], [9], [7, 5]] }
  row := fun _ history => history.foldl (fun number token => number * 10 + token.toNat) 0
  recurrent := fun _ => ⟨[], []⟩

instance : DecidablePred (· ∈ digitHashes.used) := fun history =>
  inferInstanceAs (Decidable (history ∈ [[], [7], [7, 8], [7, 8, 9], [9], [7, 5]]))

theorem digits_injOn : Set.InjOn (chainHash hashSeed) digitHashes.used := by
  have hall : ∀ a ∈ ([[], [7], [7, 8], [7, 8, 9], [9], [7, 5]] : List (List Token)),
      ∀ b ∈ ([[], [7], [7, 8], [7, 8, 9], [9], [7, 5]] : List (List Token)),
      chainHash hashSeed a = chainHash hashSeed b → a = b := by decide +kernel
  exact fun a ha b hb => hall a ha b hb

/-- Three tokens, then a new sequence. -/
def promptRun : List (Event Nat Nat) :=
  [.create, .begin 0 none [7, 8, 9], .attend 0 smallCommand [7, 78, 789], .commit 0 [] [],
    .finish 0, .publish 0, .create]

instance (w : World Nat Nat) (event : Event Nat Nat) :
    Decidable (Computing smallPool digitHashes w event) :=
  inferInstanceAs (Decidable (Computes digitHashes w event ∧ EvictsOldPages smallPool w event))

/-- The page of the first two tokens is matched. -/
theorem prefill_match_faithful_prompt :
    ∃ (w : World Nat Nat) (q : Sequence Nat) (store : BlockStore Nat) (state : SeqState Nat),
      (pagePool smallPool (Computing smallPool digitHashes)).Reachable w ∧ w.idle 1 = some q ∧
      prefillMatch smallPool w.pool.store q.state [7, 8, 9] = (.ok 2, store, state) ∧
      Prefilled smallPool digitHashes w q.state [7, 8, 9] 2 store state := by
  have hrun : (promptRun.foldlM (fun w event =>
      if Computing smallPool digitHashes w event then w.perform smallPool event else none)
        (World.new smallPool fun _ _ => 0)).map (fun w => (w.idle 1).map fun q =>
          (q.state.cursor, q.state.blocks,
            (prefillMatch smallPool w.pool.store q.state [7, 8, 9]).1.toOption)) =
      some (some (0, [], some 2)) := by decide +kernel
  obtain ⟨w, hw, hmap⟩ := map_eq_some_iff.mp hrun
  obtain ⟨q, hidle, hfacts⟩ := map_eq_some_iff.mp hmap
  obtain ⟨hcursor, hrest⟩ := Prod.mk.inj hfacts
  obtain ⟨hblocks, hresult⟩ := Prod.mk.inj hrest
  have hreach := reachable_checked (Computing smallPool digitHashes) (.init ⟨_, rfl⟩) hw
  obtain ⟨r, store, state, hmatch⟩ : ∃ r store state,
      prefillMatch smallPool w.pool.store q.state [7, 8, 9] = (r, store, state) := ⟨_, _, _, rfl⟩
  obtain ⟨cursor, rfl, hprefilled⟩ := (prefill_match_faithful digits_injOn
    (fun hrec => by cases hrec) hreach hidle (by decide) (by decide) hmatch).1 ⟨hcursor, hblocks⟩
  rw [hmatch] at hresult
  obtain rfl : cursor = 2 := some.inj hresult
  exact ⟨w, q, store, state, hreach, hidle, hmatch, hprefilled⟩

/-- A chunk of two tokens in a window of one, a token of another sequence in the page
that this frees, and a new sequence. -/
def staleRun : List (Event Nat Nat) :=
  [.create, .begin 0 (some 1) [7, 8], .attend 0 smallCommand [7, 78], .commit 0 [] [],
    .finish 0, .publish 0, .create, .begin 1 none [9], .attend 1 smallCommand [9],
    .commit 1 [] [], .finish 1, .publish 1, .create]

/-- An empty prompt is matched up to its end; and once a page was published after its
eviction, a match finds the row of another prompt. -/
theorem prefill_match_unfaithful :
    (¬ ∀ (w : World Nat Nat) (i : Nat) (q : Sequence Nat) (tokens : List Token)
        (r : Except String Nat) (store : BlockStore Nat) (state : SeqState Nat),
      (pagePool smallPool (Computing smallPool digitHashes)).Reachable w → w.idle i = some q →
      q.state.cursor = 0 ∧ q.state.blocks = [] → digitHashes.InUse tokens →
      prefillMatch smallPool w.pool.store q.state tokens = (r, store, state) →
      ∃ cursor, r = .ok cursor ∧ Prefilled smallPool digitHashes w q.state tokens cursor store state) ∧
    (¬ ∀ (w : World Nat Nat) (i : Nat) (q : Sequence Nat) (tokens : List Token)
        (r : Except String Nat) (store : BlockStore Nat) (state : SeqState Nat),
      (pagePool tightPool (Computes digitHashes)).Reachable w → w.idle i = some q →
      q.state.cursor = 0 ∧ q.state.blocks = [] → digitHashes.InUse tokens → tokens ≠ [] →
      prefillMatch tightPool w.pool.store q.state tokens = (r, store, state) →
      ∃ cursor, r = .ok cursor ∧ Prefilled tightPool digitHashes w q.state tokens cursor store state) := by
  constructor
  · intro h
    have hrun : ([.create].foldlM (fun w event =>
        if Computing smallPool digitHashes w event then w.perform smallPool event else none)
          (World.new smallPool fun _ _ => 0)).map (fun w => (w.idle 0).map fun q =>
            (q.state.cursor, q.state.blocks)) = some (some (0, [])) := by decide +kernel
    obtain ⟨w, hw, hmap⟩ := map_eq_some_iff.mp hrun
    obtain ⟨q, hidle, hfacts⟩ := map_eq_some_iff.mp hmap
    have hreach := reachable_checked (Computing smallPool digitHashes) (.init ⟨_, rfl⟩) hw
    obtain ⟨cursor, _, hprefilled⟩ :=
      h w 0 q [] _ _ _ hreach hidle (Prod.mk.inj hfacts) (by decide) rfl
    exact Nat.not_lt_zero _ hprefilled.lt
  · intro h
    have hrun : (staleRun.foldlM (fun w event =>
        if Computes digitHashes w event then w.perform tightPool event else none)
          (World.new tightPool fun _ _ => 0)).map (fun w => (w.idle 2).map fun q =>
            (q.state.cursor, q.state.blocks,
              (prefillMatch tightPool w.pool.store q.state [7, 5]).1.toOption,
              rowAt tightPool w.pool.rows
                (prefillMatch tightPool w.pool.store q.state [7, 5]).2.2.blocks 0 0)) =
        some (some (0, [], some 1, 9)) := by decide +kernel
    obtain ⟨w, hw, hmap⟩ := map_eq_some_iff.mp hrun
    obtain ⟨q, hidle, hfacts⟩ := map_eq_some_iff.mp hmap
    obtain ⟨hcursor, hrest⟩ := Prod.mk.inj hfacts
    obtain ⟨hblocks, hrest⟩ := Prod.mk.inj hrest
    obtain ⟨hresult, hrow⟩ := Prod.mk.inj hrest
    have hreach := reachable_checked (Computes digitHashes) (.init ⟨_, rfl⟩) hw
    obtain ⟨r, store, state, hmatch⟩ : ∃ r store state,
        prefillMatch tightPool w.pool.store q.state [7, 5] = (r, store, state) := ⟨_, _, _, rfl⟩
    obtain ⟨cursor, rfl, hprefilled⟩ :=
      h w 2 q [7, 5] r store state hreach hidle ⟨hcursor, hblocks⟩ (by decide) (by decide) hmatch
    rw [hmatch] at hresult hrow
    obtain rfl : cursor = 1 := some.inj hresult
    -- the matched page of the token 7 holds the row of the token 9
    have hseven := hprefilled.rows 0 (by decide) 0 (by decide)
    rw [hrow] at hseven
    exact absurd hseven (by decide)

end EffectTorch
