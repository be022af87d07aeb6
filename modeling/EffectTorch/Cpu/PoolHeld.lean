import EffectTorch.Cpu.PagePool
import EffectTorch.Cpu.Matching

/-!
# What every run of the page pool keeps

For any lawful invariant of the store: it holds of the store and the handles of the
world, sequences and prefixes have the shape the code gives them, and the pages that
a lane may write have one handle.

Results:
1. `idle_some`, `running_some`: what one step can do.
2. `Held.update`: a step on one sequence keeps the invariant if it keeps it locally.
3. `Held.begin` … `Held.releaseSequence`: every step but `prefillMatch` and `publish`
   does, for every lawful invariant.
-/

namespace EffectTorch
open List Option Lib BlockStore

section Worlds

variable {ρ σ : Type} {c : PoolConfig} {I : BlockStore σ → List Nat → Prop}
  {w w' : World ρ σ} {i : Nat} {q : Sequence σ}

/-! ## What one step can do -/

theorem idle_some (h : w.idle i = some q) :
    w.sequences[i]? = some q ∧ q.released = false ∧ q.lane = none := by
  unfold World.idle at h
  split at h
  · next hget =>
    split at h
    · next hidle =>
      cases h
      exact ⟨hget, hidle⟩
    · cases h
  · cases h

variable {lane : Lane} {tokens : List Token} {r : Sequence σ} {data : PrefixData σ} {p j b k : Nat}
  {state : SeqState σ} {store : BlockStore σ}

theorem running_some (h : w.running i = some (q, lane)) : w.sequences[i]? = some q ∧ q.lane = some lane := by
  unfold World.running at h
  split at h
  · next hget =>
    obtain ⟨lane', hlane, heq⟩ := map_eq_some_iff.mp h
    cases heq
    exact ⟨hget, hlane⟩
  · cases h

theorem begin_some {window : Option Nat} (h : w.begin c i window tokens = some w') :
    ∃ q, w.idle i = some q ∧ admitted c window q.state tokens = true ∧
      w' = w.setSequence i
        (w.pool.store.refBlocks (tailHandles (sharedTail c w.pool.store q.state)))
        { q with
          state := { q.state with advance := tokens.length }
          lane := some ⟨window, tokens,
            ⟨q.state.blocks.length, q.state.copiedBytes, sharedTail c w.pool.store q.state⟩,
            none, [], .running⟩ } := by
  unfold World.begin at h
  split at h
  · cases h
  · next q hidle =>
    split at h
    · next hadmitted =>
      cases h
      exact ⟨q, hidle, hadmitted, rfl⟩
    · cases h

/-- An attention command either succeeds, and the lane notes it, or fails the lane. -/
def Lane.after (lane : Lane) (layer : Nat) : Except String Nat → Lane
  | .ok start =>
    { lane with
      evictionStart := some start
      attended := layer :: lane.attended }
  | .error _ => { lane with phase := .failed }

theorem attend_some {command : AttentionCommand} {rows : List ρ}
    (h : w.attend c i command rows = some w') :
    ∃ q lane r pool state, w.running i = some (q, lane) ∧ lane.phase = .running ∧
      kvAttention c w.pool q.state lane.window command rows = (r, pool, state) ∧
      w' = { w with
        pool
        sequences := w.sequences.set i { q with
          state
          lane := some (lane.after command.layer r) } } := by
  unfold World.attend at h
  split at h
  · cases h
  · next q lane hrunning =>
    split at h
    · next hphase =>
      split at h
      · next start pool state hkv =>
        cases h
        exact ⟨q, lane, _, pool, state, hrunning, hphase, hkv, rfl⟩
      · next e pool state hkv =>
        cases h
        exact ⟨q, lane, _, pool, state, hrunning, hphase, hkv, rfl⟩
    · cases h

theorem rollback_some (h : w.rollback i = some w') :
    ∃ q lane store state, w.running i = some (q, lane) ∧
      (lane.phase = .running ∨ lane.phase = .failed) ∧
      rollbackLane w.pool.store q.state lane.frontier = (store, state) ∧
      w' = w.setSequence i store { q with
        state
        lane := none } := by
  unfold World.rollback at h
  split at h
  · cases h
  · next q lane hrunning =>
    split at h
    · next hphase =>
      cases h
      exact ⟨q, lane, _, _, hrunning, hphase, rfl, rfl⟩
    · cases h

/-- Commit stores the recurrent states, and evicts `n` blocks that end before the start
that a command set. -/
theorem commit_some {kda conv : List (List σ)} (h : w.commit c i kda conv = some w') :
    ∃ q lane n, w.running i = some (q, lane) ∧ lane.phase = .running ∧
      (∀ layer < c.kvLayers.length, layer ∈ lane.attended) ∧ n ≤ q.state.live.length ∧
      (0 < n → ∃ start, lane.evictionStart = some start ∧
        (q.state.head + n) * c.blockSize ≤ start) ∧
      w' = w.setSequence i (w.pool.store.unrefBlocks (q.state.live.take n)) { q with
        state := { q.state with
          kdaStates := kda
          convStates := conv
          head := q.state.head + n }
        lane := some { lane with phase := .committed } } := by
  unfold World.commit at h
  split at h
  · cases h
  · next q lane hrunning =>
    split at h
    · next hguard =>
      obtain ⟨hphase, hattended, -⟩ := hguard
      dsimp only at h
      split at h
      · next start hstart =>
        generalize hkv : kvEvict c w.pool.store _ start = evicted at h
        obtain ⟨store, state⟩ := evicted
        obtain ⟨n, hn, rfl, rfl, hle⟩ := kvEvict_spec hkv
        cases h
        exact ⟨q, lane, n, hrunning, hphase, hattended, hn, fun hpos => ⟨start, hstart, hle hpos⟩, rfl⟩
      · cases h
        exact ⟨q, lane, 0, hrunning, hphase, hattended, Nat.zero_le _, nofun, rfl⟩
    · cases h

theorem finish_some (h : w.finish i = some w') :
    ∃ q lane, w.running i = some (q, lane) ∧ lane.phase = .committed ∧
      w' = w.setSequence i (w.pool.store.unrefBlocks (tailHandles lane.frontier.tail))
        { q with
          lane := some { lane with
            frontier := { lane.frontier with tail := none }
            phase := .finished } } := by
  unfold World.finish at h
  split at h
  · cases h
  · next q lane hrunning =>
    split at h
    · next hphase =>
      cases h
      exact ⟨q, lane, hrunning, hphase, rfl⟩
    · cases h

theorem publish_some (h : w.publish c i = some w') :
    ∃ q lane store state, w.running i = some (q, lane) ∧ lane.phase = .finished ∧
      publishLane c w.pool.store q.state lane.tokens = (store, state) ∧
      w' = w.setSequence i store { q with
        state
        lane := none
        history := q.history ++ lane.tokens } := by
  unfold World.publish at h
  split at h
  · cases h
  · next q lane hrunning =>
    split at h
    · next hphase =>
      cases h
      exact ⟨q, lane, _, _, hrunning, hphase, rfl, rfl⟩
    · cases h

theorem prefill_some (h : w.prefill c i tokens = some w') :
    ∃ q r store state, w.idle i = some q ∧
      prefillMatch c w.pool.store q.state tokens = (r, store, state) ∧
      w' = w.setSequence i store { q with
        state
        history := match r with
          | .ok cursor => tokens.take cursor
          | .error _ => q.history } := by
  unfold World.prefill at h
  split at h
  · cases h
  · next q hidle =>
    split at h
    · next cursor store state hmatch =>
      cases h
      exact ⟨q, _, store, state, hidle, hmatch, rfl⟩
    · next e store state hmatch =>
      cases h
      exact ⟨q, _, store, state, hidle, hmatch, rfl⟩

theorem snapshot_some (h : w.snapshot i = some w') :
    ∃ q, w.idle i = some q ∧
      w' = { w with
        pool := { w.pool with store := w.pool.store.refBlocks q.state.live }
        prefixes := w.prefixes ++ [some q.toPrefix] } := by
  unfold World.snapshot at h
  split at h
  · cases h
  · next q hidle =>
    cases h
    exact ⟨q, hidle, rfl⟩

theorem fork_some [Zero σ] (h : w.fork c p = some w') :
    ∃ data q, w.prefixes[p]? = some (some data) ∧ data.toSequence c = some q ∧
      w' = { w with
        pool := { w.pool with store := w.pool.store.refBlocks data.handles }
        sequences := w.sequences ++ [q] } := by
  unfold World.fork at h
  split at h
  · next data hdata =>
    split at h
    · next q hq =>
      cases h
      exact ⟨data, q, hdata, hq, rfl⟩
    · cases h
  · cases h

theorem releasePrefix_some (h : w.releasePrefix p = some w') :
    ∃ data, w.prefixes[p]? = some (some data) ∧
      w' = { w with
        pool := { w.pool with store := w.pool.store.unrefBlocks data.handles }
        prefixes := w.prefixes.set p none } := by
  unfold World.releasePrefix at h
  split at h
  · next data hdata =>
    cases h
    exact ⟨data, hdata, rfl⟩
  · cases h

theorem releaseSequence_some (h : w.releaseSequence i = some w') :
    ∃ q store state, w.idle i = some q ∧ returnBlocks w.pool.store q.state = (store, state) ∧
      w' = w.setSequence i store { q with
        state
        released := true } := by
  unfold World.releaseSequence at h
  split at h
  · cases h
  · next q hidle =>
    cases h
    exact ⟨q, _, _, hidle, rfl, rfl⟩

/-! ## Handles of one sequence and of the rest -/

/-- Every handle that sequence `i` does not hold. -/
def World.others (w : World ρ σ) (i : Nat) : List Nat :=
  (w.sequences.eraseIdx i).flatMap Sequence.handles ++ w.prefixes.flatMap prefixHandles

theorem handles_perm (h : w.sequences[i]? = some q) :
    w.handles.Perm (q.handles ++ w.others i) := by
  unfold World.handles World.others
  rw [← append_assoc]
  exact (flatMap_perm Sequence.handles h).append_right _

theorem handles_set_perm (h : w.sequences[i]? = some q) (pool : PoolInner ρ σ) (q' : Sequence σ) :
    ({ w with pool, sequences := w.sequences.set i q' } : World ρ σ).handles.Perm
      (q'.handles ++ w.others i) := by
  unfold World.handles World.others
  rw [← append_assoc]
  exact (flatMap_set_perm Sequence.handles q'
    (List.getElem?_eq_some_iff.mp h).1).append_right _

theorem mem_others (h : w.sequences[j]? = some r) (hne : j ≠ i) (hb : b ∈ r.handles) : b ∈ w.others i :=
  mem_append_left _ (mem_flatMap.mpr ⟨r, mem_eraseIdx_of_ne h hne, hb⟩)

theorem prefix_mem_others (h : w.prefixes[p]? = some (some data)) (hb : b ∈ data.handles) : b ∈ w.others i :=
  mem_append_right _ (mem_flatMap.mpr ⟨some data, mem_of_getElem? h, hb⟩)

theorem mem_handles (h : w.sequences[i]? = some q) (hb : b ∈ q.handles) : b ∈ w.handles :=
  (handles_perm h).mem_iff.mpr (mem_append_left _ hb)

theorem live_subset_handles (q : Sequence σ) (hb : b ∈ q.state.live) : b ∈ q.handles :=
  mem_append_left _ hb

theorem handles_idle (h : q.lane = none) : q.handles = q.state.live := by
  unfold Sequence.handles SeqState.live
  rw [h]
  exact append_nil _

theorem handles_lane (h : q.lane = some lane) : q.handles = q.state.live ++ tailHandles lane.frontier.tail := by
  unfold Sequence.handles SeqState.live tailHandles
  rw [h]

/-! ## Shapes -/

/-- A lane that has not committed can still be rolled back. -/
def Lane.Open (lane : Lane) : Prop := lane.phase = .running ∨ lane.phase = .failed

theorem Lane.not_open (h : lane.phase = .committed ∨ lane.phase = .finished) : ¬ lane.Open := by
  rintro (hopen | hopen) <;> rw [hopen] at h <;> exact h.elim nofun nofun

/-- What a lane knows of its sequence. -/
structure Lane.Shaped (c : PoolConfig) (state : SeqState σ) (lane : Lane) : Prop where
  advance : state.advance = lane.tokens.length
  frontier_le : lane.frontier.blocks ≤ state.blocks.length
  frontier_lt : lane.frontier.blocks * c.blockSize < state.cursor + c.blockSize
  frontier_ge : c.kvLayers ≠ [] → state.cursor ≤ lane.frontier.blocks * c.blockSize
  tail : ∀ tail, lane.frontier.tail = some tail →
    tail.index = state.cursor / c.blockSize ∧ tail.index < lane.frontier.blocks ∧
      state.cursor % c.blockSize ≠ 0
  head_open : lane.Open → state.head ≤ state.cursor / c.blockSize ∧
    state.head ≤ lane.frontier.blocks
  head_closed : ¬ lane.Open → state.head * c.blockSize ≤ state.cursor + state.advance ∧
    ∀ layer < c.kvLayers.length, layer ∈ lane.attended
  attended : lane.attended ≠ [] →
    0 < state.advance ∧ state.cursor + state.advance ≤ state.blocks.length * c.blockSize
  attended_lt : ∀ layer ∈ lane.attended, layer < c.kvLayers.length
  eviction : ∀ start, lane.evictionStart = some start →
    start = c.evictionStart lane.window (state.cursor + state.advance)
  finished : lane.phase = .finished → lane.frontier.tail = none

/-- A sequence in use. -/
structure Sequence.Live (c : PoolConfig) (q : Sequence σ) : Prop where
  head_le : q.state.head ≤ q.state.blocks.length
  tail : q.state.transactionTail = none
  length_lt : q.state.blocks.length * c.blockSize < q.state.cursor + q.state.advance + c.blockSize
  pending : q.state.pending.length = q.state.cursor % c.blockSize
  unpaged : c.kvLayers = [] → q.state.blocks = []
  idle : q.lane = none → q.state.advance = 0 ∧ q.state.head ≤ q.state.cursor / c.blockSize ∧
    (c.kvLayers ≠ [] → q.state.cursor ≤ q.state.blocks.length * c.blockSize)
  lane : ∀ lane, q.lane = some lane → lane.Shaped c q.state

/-- A released sequence holds nothing. -/
def Sequence.Shaped (c : PoolConfig) (q : Sequence σ) : Prop :=
  if q.released then q.lane = none ∧ q.state.blocks.length ≤ q.state.head else q.Live c

/-- What a snapshot copies from an idle sequence. -/
structure PrefixData.Shaped (c : PoolConfig) (p : PrefixData σ) : Prop where
  head_le : p.head ≤ p.blocks.length
  head_cursor : p.head ≤ p.cursor / c.blockSize
  length_lt : p.blocks.length * c.blockSize < p.cursor + c.blockSize
  length_ge : c.kvLayers ≠ [] → p.cursor ≤ p.blocks.length * c.blockSize
  pending : p.pending.length = p.cursor % c.blockSize
  unpaged : c.kvLayers = [] → p.blocks = []

/-- The pages that a sequence may write: those past its cursor, and in a lane also the
one of the cursor, once it was attended or if it was not shared at the start. -/
def Sequence.Writable (c : PoolConfig) (q : Sequence σ) (k : Nat) : Prop :=
  q.released = false ∧ q.state.head ≤ k ∧
    (q.state.cursor ≤ k * c.blockSize ∨
      ∃ lane, q.lane = some lane ∧ q.state.cursor / c.blockSize ≤ k ∧
        (lane.attended ≠ [] ∨ lane.frontier.tail = none))

/-- The invariant of every run. -/
structure Held (c : PoolConfig) (I : BlockStore σ → List Nat → Prop) (w : World ρ σ) : Prop where
  store : I w.pool.store w.handles
  sequences : ∀ (i : Nat) (q : Sequence σ), w.sequences[i]? = some q → q.Shaped c
  prefixes : ∀ (p : Nat) (data : PrefixData σ), w.prefixes[p]? = some (some data) → data.Shaped c
  alone : ∀ (i : Nat) (q : Sequence σ) (k b : Nat), w.sequences[i]? = some q → q.Writable c k →
    q.state.blocks[k]? = some b → w.pool.store.refcounts b = 1

theorem Sequence.Shaped.live (h : q.Shaped c) (hr : q.released = false) : q.Live c := by
  unfold Sequence.Shaped at h
  rwa [hr, if_neg Bool.false_ne_true] at h

theorem Sequence.Live.shaped (h : q.Live c) (hr : q.released = false) : q.Shaped c := by
  unfold Sequence.Shaped
  rwa [hr, if_neg Bool.false_ne_true]

/-- A lane runs on a sequence in use. -/
theorem Sequence.Shaped.running (h : q.Shaped c) (hlane : q.lane = some lane) :
    q.released = false ∧ q.Live c ∧ lane.Shaped c q.state := by
  cases hr : q.released with
  | false => exact ⟨rfl, h.live hr, (h.live hr).lane lane hlane⟩
  | true =>
    unfold Sequence.Shaped at h
    rw [hr, if_pos rfl, hlane] at h
    cases h.1

theorem Held.running (h : Held c I w) (hrunning : w.running i = some (q, lane)) :
    w.sequences[i]? = some q ∧ q.lane = some lane ∧ q.released = false ∧ q.Live c ∧
      lane.Shaped c q.state := by
  obtain ⟨hq, hlane⟩ := running_some hrunning
  exact ⟨hq, hlane, (h.sequences i q hq).running hlane⟩

theorem released_handles (h : q.Shaped c) (hr : q.released = true) : q.handles = [] := by
  unfold Sequence.Shaped at h
  rw [hr, if_pos rfl] at h
  rw [handles_idle h.1, SeqState.live, drop_eq_nil_of_le h.2]

/-- The table of an idle sequence ends at its cursor. -/
theorem Sequence.Live.not_writable (h : q.Live c) (hlane : q.lane = none) (hw : q.Writable c k) :
    q.state.blocks[k]? ≠ some b := by
  intro hb
  obtain ⟨_, _, hk | ⟨lane, hlane', _⟩⟩ := hw
  · have hlt := (List.getElem?_eq_some_iff.mp hb).1
    have hlen := h.length_lt
    rw [(h.idle hlane).1, Nat.add_zero] at hlen
    have hle := Nat.mul_le_mul_right c.blockSize hlt
    rw [Nat.succ_mul] at hle
    omega
  · rw [hlane] at hlane'
    cases hlane'

/-! ## Steps -/

section Update

variable (hI : Lawful I) (h : Held c I w) (hq : w.sequences[i]? = some q)
include hI h hq

/-- A page that another sequence may write is not among the handles of sequence `i`. -/
theorem Held.writable_elsewhere {j k b : Nat} {r : Sequence σ} (hr : w.sequences[j]? = some r)
    (hne : j ≠ i) (hw : r.Writable c k) (hb : r.state.blocks[k]? = some b) :
    b ∉ q.handles ∧ (w.others i).count b = 1 := by
  have hone := h.alone j r k b hr hw hb
  rw [hI.counted h.store b, (handles_perm hq).count_eq, count_append] at hone
  have hmem : b ∈ w.others i :=
    mem_others hr hne (live_subset_handles r (mem_live hw.2.1 hb))
  have hpos := count_pos_iff.mpr hmem
  constructor
  · intro hin
    have := count_pos_iff.mpr hin
    omega
  · omega

/-- A step on one sequence keeps the invariant if it does so locally: a new handle is
of a page that no other sequence may write. -/
theorem Held.update {pool : PoolInner ρ σ} {q' : Sequence σ}
    (hstore : I pool.store (q'.handles ++ w.others i)) (hshaped : q'.Shaped c)
    (halone : ∀ k b, q'.Writable c k → q'.state.blocks[k]? = some b →
      pool.store.refcounts b = 1)
    (horigin : ∀ b ∈ q'.handles, b ∈ q.handles ∨ ∀ (j : Nat) (r : Sequence σ) (k : Nat), j ≠ i →
      w.sequences[j]? = some r →
      r.Writable c k → r.state.blocks[k]? ≠ some b) :
    Held c I { w with pool, sequences := w.sequences.set i q' } where
  store := hI.perm hstore (handles_set_perm hq pool q').symm
  sequences j r hr := by
    rcases getElem?_set_cases hr with ⟨-, -, rfl⟩ | ⟨-, hr⟩
    · exact hshaped
    · exact h.sequences j r hr
  prefixes := h.prefixes
  alone j r k b hr hw hb := by
    rcases getElem?_set_cases hr with ⟨-, -, rfl⟩ | ⟨hj, hr⟩
    · exact halone k b hw hb
    · obtain ⟨hnot, hcount⟩ := h.writable_elsewhere hI hq hr hj hw hb
      have hnew : b ∉ q'.handles := fun hin => (horigin b hin).elim hnot
        fun hfree => hfree j r k hj hr hw hb
      rw [hI.counted hstore b, count_append, count_eq_zero.mpr hnew, hcount]

end Update

/-- Handles without a page that some sequence may write can be added or dropped. -/
theorem Held.alone_of_counted (hI : Lawful I) (h : Held c I w) {counts : Nat → Nat}
    {handles : List Nat} (hcounted : Counted counts handles)
    (hsame : ∀ (j : Nat) (r : Sequence σ) (k b : Nat), w.sequences[j]? = some r → r.Writable c k →
      r.state.blocks[k]? = some b → handles.count b = w.handles.count b) :
    ∀ (j : Nat) (r : Sequence σ) (k b : Nat), w.sequences[j]? = some r → r.Writable c k →
      r.state.blocks[k]? = some b → counts b = 1 := by
  intro j r k b hr hw hb
  rw [hcounted b, hsame j r k b hr hw hb, ← hI.counted h.store b]
  exact h.alone j r k b hr hw hb

/-! ## Executions -/

theorem counted_sublist {counts counts' : Nat → Nat} {H H' : List Nat} (hc : Counted counts H)
    (hc' : Counted counts' H') (hle : H'.count b ≤ H.count b) (hb : b ∈ H') (hone : counts b = 1) :
    counts' b = 1 := by
  have hpos := count_pos_iff.mpr hb
  rw [hc b] at hone
  rw [hc' b]
  omega

theorem div_le_of_mul_le {a n : Nat} (hn : 0 < n) : a * n ≤ b ↔ a ≤ b / n :=
  (Nat.le_div_iff_mul_le hn).symm

theorem Held.begin (hI : Lawful I) (h : Held c I w) {window : Option Nat}
    (hs : w.begin c i window tokens = some w') : Held c I w' := by
  obtain ⟨q, hidle, _, rfl⟩ := begin_some hs
  obtain ⟨hq, hr, hlane⟩ := idle_some hidle
  have hlive := (h.sequences i q hq).live hr
  obtain ⟨hadvance, hhead, hge⟩ := hlive.idle hlane
  have hlen := hlive.length_lt
  rw [hadvance, Nat.add_zero] at hlen
  have hstore : I w.pool.store (q.state.live ++ w.others i) := by
    rw [← handles_idle hlane]
    exact hI.perm h.store (handles_perm hq)
  have htail : ∀ tail, sharedTail c w.pool.store q.state = some tail →
      tail.index = q.state.cursor / c.blockSize ∧ tail.index < q.state.blocks.length ∧
        q.state.cursor % c.blockSize ≠ 0 := fun tail hsome => by
    obtain ⟨hmod, hindex, hget, _⟩ := sharedTail_some hsome
    exact ⟨hindex, (List.getElem?_eq_some_iff.mp hget).1, hmod⟩
  refine h.update hI hq ?_ (Sequence.Live.shaped ?_ hr) ?_ ?_
  · exact beginLane_keeps hI hhead hstore
  · refine
      { hlive with
        length_lt := by
          show q.state.blocks.length * c.blockSize < q.state.cursor + tokens.length + c.blockSize
          omega
        idle := nofun
        lane := ?_ }
    intro lane hsome
    obtain rfl := some.inj hsome
    exact
      { advance := rfl
        frontier_le := Nat.le_refl _
        frontier_lt := hlen
        frontier_ge := hge
        tail := htail
        head_open := fun _ => ⟨hhead, hlive.head_le⟩
        head_closed := fun hclosed => absurd (Or.inl rfl) hclosed
        attended := fun hne => absurd rfl hne
        attended_lt := fun layer hmem => absurd hmem not_mem_nil
        eviction := nofun
        finished := nofun }
  · rintro k b ⟨_, hhk, hk⟩ hb
    have hlt := (List.getElem?_eq_some_iff.mp hb).1
    have hle := Nat.mul_le_mul_right c.blockSize hlt
    rw [Nat.succ_mul] at hle
    replace hle : k * c.blockSize + c.blockSize ≤ q.state.blocks.length * c.blockSize := hle
    rcases hk with hpast | ⟨lane, hsome, hk, hne | hnone⟩
    · replace hpast : q.state.cursor ≤ k * c.blockSize := hpast
      omega
    · cases hsome
      exact absurd rfl hne
    · -- the page of the cursor was not shared when the lane began
      cases hsome
      replace hk : q.state.cursor / c.blockSize ≤ k := hk
      replace hnone : sharedTail c w.pool.store q.state = none := hnone
      have hcut := Nat.div_add_mod q.state.cursor c.blockSize
      have hkeq : k = q.state.cursor / c.blockSize := by
        by_contra hne
        have hle' := Nat.mul_le_mul_right c.blockSize
          (show q.state.cursor / c.blockSize + 1 ≤ k by omega)
        have hmod := Nat.mod_lt q.state.cursor c.blockSize_pos
        rw [Nat.succ_mul, Nat.mul_comm (q.state.cursor / c.blockSize)] at hle'
        omega
      subst hkeq
      have hmod : q.state.cursor % c.blockSize ≠ 0 := fun hzero => by
        rw [Nat.mul_comm] at hle
        omega
      have hle1 := sharedTail_none hnone hmod hb
      have hpos := (hI.counted hstore).pos.mpr (mem_append_left (w.others i)
        (mem_live hhead hb))
      show (w.pool.store.refBlocks (tailHandles (sharedTail c w.pool.store q.state))).refcounts b
        = 1
      rw [hnone]
      show w.pool.store.refcounts b = 1
      omega
  · intro b hb
    left
    rw [handles_idle hlane]
    rcases mem_append.mp hb with hlive' | htl
    · exact hlive'
    · obtain ⟨tail, hsome, rfl⟩ := mem_map.mp htl
      obtain ⟨_, hindex, hget, _⟩ := sharedTail_some (mem_toList.mp hsome)
      rw [hindex] at hget
      exact mem_live hhead hget

/-- A lane in an execution that has not committed is ready for a command. -/
theorem Held.ready (hI : Lawful I) (h : Held c I w) (hrunning : w.running i = some (q, lane))
    (hopen : lane.Open) : Ready c I w.pool.store q.state (tailHandles lane.frontier.tail ++ w.others i) := by
  obtain ⟨hq, hlane, hr, hlive, hls⟩ := h.running hrunning
  obtain ⟨hhead, _⟩ := hls.head_open hopen
  refine
    { held := ?_
      head_le := hlive.head_le
      head_cursor := hhead
      tail := hlive.tail
      beyond := fun k b hk hpast hb => h.alone i q k b hq ⟨hr, hk, .inl hpast⟩ hb }
  rw [← append_assoc, ← handles_lane hlane]
  exact hI.perm h.store (handles_perm hq)

/-- What stays of the shape of a lane when a command touches its pages. -/
theorem Lane.Shaped.touched {state' : SeqState σ} {pool pool' : PoolInner ρ σ} {F : List Nat}
    (hls : lane.Shaped c state) (ht : Touched c I pool state F pool' state') : lane.Shaped c state' := by
  have hlen := ht.length_le
  obtain ⟨copiedBytes, blocks, rfl⟩ := ht.same
  replace hlen : state.blocks.length ≤ blocks.length := hlen
  exact
    { hls with
      frontier_le := Nat.le_trans hls.frontier_le hlen
      attended := fun hne => ⟨(hls.attended hne).1,
        Nat.le_trans (hls.attended hne).2 (Nat.mul_le_mul_right _ hlen)⟩ }

/-- A command touches the pages of its lane. -/
theorem Held.touched (hI : Lawful I) (h : Held c I w) (hrunning : w.running i = some (q, lane))
    (hphase : lane.phase = .running) {command : AttentionCommand} {rows : List ρ}
    {result : Except String Nat} {pool : PoolInner ρ σ}
    (hkv : kvAttention c w.pool q.state lane.window command rows = (result, pool, state)) :
    Touched c I w.pool q.state (tailHandles lane.frontier.tail ++ w.others i) pool state :=
  have hready := h.ready hI hrunning (.inl hphase)
  (kvAttention_cases hkv).elim (fun ⟨_, _, hattempted⟩ => hattempted.touched hI hready)
    fun hattended => hattended.1.touched hI hready

theorem Held.attend (hI : Lawful I) (h : Held c I w) {command : AttentionCommand}
    {rows : List ρ} (hs : w.attend c i command rows = some w') : Held c I w' := by
  obtain ⟨q, lane, r, pool, state, hrunning, hphase, hkv, rfl⟩ := attend_some hs
  obtain ⟨hq, hlane, hr, hlive, hls⟩ := h.running hrunning
  have hready := h.ready hI hrunning (.inl hphase)
  have ht := h.touched hI hrunning hphase hkv
  obtain ⟨copiedBytes, blocks, hsame⟩ := ht.same
  have hls' := hls.touched ht
  -- a successful command leaves the pages from the cursor on to the lane alone
  have hok : ∀ start, r = .ok start →
      Attended c w.pool q.state command.layer 0 (rows.take q.state.advance) pool state ∧
        start = c.evictionStart lane.window (q.state.cursor + q.state.advance) := by
    rintro start rfl
    rcases kvAttention_cases hkv with ⟨_, herr, _⟩ | ⟨hattended, ⟨_, herr⟩ | ⟨hstart, _⟩⟩
    · cases herr
    · cases herr
    · cases hstart
      exact ⟨hattended, rfl⟩
  refine h.update hI hq ?_ (Sequence.Live.shaped ?_ hr) ?_ ?_
  · have hheld := ht.held
    rw [← append_assoc] at hheld
    cases r <;> exact hheld
  · have hlane' : (lane.after command.layer r).Shaped c state := by
      cases r with
      | ok start =>
        obtain ⟨⟨_, hprepared, hpos, hlayer, hneeded, _⟩, hstart⟩ := hok start rfl
        rw [hsame] at hls' hneeded ⊢
        exact
          { hls' with
            head_closed := fun hclosed => absurd (.inl hphase) hclosed
            attended := fun _ => ⟨hpos, hneeded⟩
            attended_lt := forall_mem_cons.mpr ⟨hlayer, hls.attended_lt⟩
            eviction := fun start' heq => by
              rw [← some.inj heq]
              exact hstart }
      | error e =>
        exact
          { hls' with
            head_open := fun _ => hls'.head_open (.inl hphase)
            head_closed := fun hclosed => absurd (.inr rfl) hclosed
            finished := nofun }
    have hlen := ht.length_lt hlive.length_lt
    have hle := ht.length_le
    have hunpaged := ht.unpaged
    subst hsame
    exact
      { head_le := Nat.le_trans hlive.head_le hle
        tail := hlive.tail
        length_lt := hlen
        pending := hlive.pending
        unpaged := fun hnil => (hunpaged hnil).trans (hlive.unpaged hnil)
        idle := nofun
        lane := fun _ hsome => some.inj hsome ▸ hlane' }
  · rintro k b ⟨_, hhk, hk⟩ hb
    have halone := ht.alone k b
    have hattend_alone := fun start hstart =>
      (hok start hstart).1.alone hI hready (k := k) (b := b)
    subst hsame
    rcases hk with hpast | ⟨lane', hsome, hk, hwhy⟩
    · exact halone hhk hb (.inl hpast)
    · cases r with
      | ok start => exact hattend_alone start rfl hk hb
      | error e =>
        cases hsome
        exact halone hhk hb (.inr ⟨hk, fun d hd =>
          h.alone i q k d hq ⟨hr, hhk, .inr ⟨lane, hlane, hk, hwhy⟩⟩ hd⟩)
  · intro b hb
    have hb' : b ∈ state.live ∨ b ∈ tailHandles lane.frontier.tail := by
      cases r <;> exact mem_append.mp hb
    rcases hb' with hlive' | htl
    · have hleased := ht.leased
      subst hsame
      rcases live_cases hleased hlive' with hold | ⟨hzero, _⟩
      · exact .inl (live_subset_handles q hold)
      · refine .inr fun j r' k _ hr' hw hb => ?_
        rw [h.alone j r' k b hr' hw hb] at hzero
        cases hzero
    · left
      rw [handles_lane hlane]
      exact mem_append_right _ htl

theorem Held.rollback (hI : Lawful I) (h : Held c I w) (hs : w.rollback i = some w') :
    Held c I w' := by
  obtain ⟨q, lane, store, state, hrunning, hopen, hroll, rfl⟩ := rollback_some hs
  obtain ⟨hq, hlane, hr, hlive, hls⟩ := h.running hrunning
  obtain ⟨hhead, hheadf⟩ := hls.head_open hopen
  have hstore : I w.pool.store
      (q.state.live ++ tailHandles lane.frontier.tail ++ w.others i) := by
    rw [← handles_lane hlane]
    exact hI.perm h.store (handles_perm hq)
  have hkeeps := rollbackLane_keeps hI hroll hheadf hls.frontier_le
    (fun tail htail => by
      obtain ⟨hindex, hlt, _⟩ := hls.tail tail htail
      exact ⟨by rw [hindex]; exact hhead, hlt⟩) hstore
  obtain ⟨blocks, rfl, hlen, hblocks⟩ := rollbackLane_fields hroll hls.frontier_le
  have hlive' : Sequence.Live c { q with
      state := { q.state with
        blocks
        copiedBytes := lane.frontier.copiedBytes
        advance := 0 }
      lane := none } :=
    { head_le := by
        show q.state.head ≤ blocks.length
        rw [hlen]
        exact hheadf
      tail := hlive.tail
      length_lt := by
        show blocks.length * c.blockSize < q.state.cursor + 0 + c.blockSize
        rw [hlen]
        exact hls.frontier_lt
      pending := hlive.pending
      unpaged := fun hnil => by
        have hle := hls.frontier_le
        rw [hlive.unpaged hnil] at hle
        exact eq_nil_of_length_eq_zero (by rw [hlen]; exact Nat.le_zero.mp hle)
      idle := fun _ => ⟨rfl, hhead, fun hne => by
        show q.state.cursor ≤ blocks.length * c.blockSize
        rw [hlen]
        exact hls.frontier_ge hne⟩
      lane := nofun }
  refine h.update hI hq ?_ (hlive'.shaped hr) ?_ ?_
  · rw [handles_idle rfl]
    exact hkeeps
  · exact fun k b hw hb => absurd hb (hlive'.not_writable rfl hw)
  · intro b hb
    left
    rw [handles_idle rfl] at hb
    rw [handles_lane hlane]
    replace hb : b ∈ blocks.drop q.state.head := hb
    rcases hblocks with ⟨_, rfl⟩ | ⟨tail, htail, rfl⟩
    · rw [drop_take] at hb
      exact mem_append_left _ (mem_of_mem_take hb)
    · rw [drop_set] at hb
      have hmem : b ∈ (q.state.blocks.take lane.frontier.blocks).drop q.state.head ∨
          b = tail.block := by
        split at hb
        · exact .inl hb
        · exact mem_or_eq_of_mem_set hb
      rcases hmem with hin | rfl
      · rw [drop_take] at hin
        exact mem_append_left _ (mem_of_mem_take hin)
      · refine mem_append_right _ ?_
        rw [htail]
        exact mem_singleton_self _

/-- Dropping handles keeps every remaining page of the lane to itself. -/
theorem Held.shrink (hI : Lawful I) (h : Held c I w) (hq : w.sequences[i]? = some q) {q' : Sequence σ}
    (hstore : I store (q'.handles ++ w.others i)) (hshaped : q'.Shaped c)
    (hsub : ∀ b, q'.handles.count b ≤ q.handles.count b)
    (hwritable : ∀ k b, q'.Writable c k → q'.state.blocks[k]? = some b → q.Writable c k ∧ q.state.blocks[k]? = some b ∧ b ∈ q'.handles) :
    Held c I (w.setSequence i store q') := by
  refine h.update hI hq hstore hshaped ?_ ?_
  · intro k b hw hb
    obtain ⟨hw', hb', hmem⟩ := hwritable k b hw hb
    refine counted_sublist (hI.counted (hI.perm h.store (handles_perm hq))) (hI.counted hstore)
      ?_ (mem_append_left _ hmem) (h.alone i q k b hq hw' hb')
    rw [count_append, count_append]
    exact Nat.add_le_add_right (hsub b) _
  · intro b hb
    have hpos := count_pos_iff.mpr hb
    exact .inl (count_pos_iff.mp (Nat.lt_of_lt_of_le hpos (hsub b)))

theorem Held.commit (hI : Lawful I) (h : Held c I w) {kda conv : List (List σ)}
    (hs : w.commit c i kda conv = some w') : Held c I w' := by
  obtain ⟨q, lane, n, hrunning, hphase, hall, hn, hevict, rfl⟩ := commit_some hs
  obtain ⟨hq, hlane, hr, hlive, hls⟩ := h.running hrunning
  obtain ⟨hhead, _⟩ := hls.head_open (.inl hphase)
  have hkeeps : I (w.pool.store.unrefBlocks (q.state.live.take n))
      (q.state.live.drop n ++ (tailHandles lane.frontier.tail ++ w.others i)) := by
    refine hI.unrefBlocks ?_
    rw [← append_assoc, take_append_drop, ← append_assoc, ← handles_lane hlane]
    exact hI.perm h.store (handles_perm hq)
  have hstart : (q.state.head + n) * c.blockSize ≤ q.state.cursor + q.state.advance := by
    rcases Nat.eq_zero_or_pos n with rfl | hpos
    · exact Nat.le_trans ((div_le_of_mul_le c.blockSize_pos).mpr hhead) (Nat.le_add_right _ _)
    · obtain ⟨start, hstart, hle⟩ := hevict hpos
      have hbound := evictionStart_le (c := c) lane.window (q.state.cursor + q.state.advance)
      rw [← hls.eviction start hstart] at hbound
      exact Nat.le_trans hle hbound
  have hlen : n ≤ q.state.blocks.length - q.state.head := by
    rwa [SeqState.live, length_drop] at hn
  have hcommitted : Sequence.handles ({ q with
        state := { q.state with
          kdaStates := kda
          convStates := conv
          head := q.state.head + n }
        lane := some { lane with phase := .committed } } : Sequence σ) =
      q.state.live.drop n ++ tailHandles lane.frontier.tail := by
    rw [handles_lane rfl]
    congr 1
    exact @live_advance _ { q.state with
      kdaStates := kda
      convStates := conv } n
  refine h.shrink hI hq ?_ (Sequence.Live.shaped ?_ hr) ?_ ?_
  · rw [hcommitted, append_assoc]
    exact hkeeps
  · have hheadle := hlive.head_le
    refine
      { hlive with
        head_le := by
          show q.state.head + n ≤ q.state.blocks.length
          omega
        idle := by rintro ⟨⟩
        lane := fun lane' hsome => ?_ }
    obtain rfl := some.inj hsome
    exact
      { hls with
        head_open := fun hopen => absurd hopen (Lane.not_open (.inl rfl))
        head_closed := fun _ => ⟨hstart, hall⟩
        finished := by rintro ⟨⟩ }
  · intro b
    rw [hcommitted, handles_lane hlane, count_append, count_append]
    exact Nat.add_le_add_right ((drop_sublist _ _).count_le b) _
  · rintro k b ⟨_, hk, hwhy⟩ hb
    replace hk : q.state.head + n ≤ k := hk
    refine ⟨⟨hr, by omega, ?_⟩, hb, ?_⟩
    · rcases hwhy with hpast | ⟨lane', hsome, hin⟩
      · exact .inl hpast
      · cases hsome
        exact .inr ⟨lane, hlane, hin⟩
    · exact live_subset_handles _ (mem_live (k := k) hk hb)

theorem Held.finish (hI : Lawful I) (h : Held c I w) (hs : w.finish i = some w') :
    Held c I w' := by
  obtain ⟨q, lane, hrunning, hphase, rfl⟩ := finish_some hs
  obtain ⟨hq, hlane, hr, hlive, hls⟩ := h.running hrunning
  obtain ⟨hhead, hall⟩ := hls.head_closed (Lane.not_open (.inl hphase))
  have hstore : I w.pool.store
      (tailHandles lane.frontier.tail ++ (q.state.live ++ w.others i)) := by
    refine hI.perm h.store ((handles_perm hq).trans ?_)
    rw [handles_lane hlane, ← append_assoc]
    exact perm_append_comm.append_right _
  have hfinished : Sequence.handles ({ q with
      lane := some { lane with
        frontier := { lane.frontier with tail := none }
        phase := .finished } } : Sequence σ) = q.state.live := by
    rw [handles_lane rfl]
    exact append_nil _
  refine h.shrink hI hq ?_ (Sequence.Live.shaped ?_ hr) ?_ ?_
  · rw [hfinished]
    exact hI.unrefBlocks hstore
  · refine
      { hlive with
        idle := nofun
        lane := fun lane' hsome => ?_ }
    obtain rfl := some.inj hsome
    exact
      { hls with
        tail := nofun
        head_open := fun hopen => absurd hopen (Lane.not_open (.inr rfl))
        head_closed := fun _ => ⟨hhead, hall⟩
        finished := fun _ => rfl }
  · intro b
    rw [hfinished, handles_lane hlane, count_append]
    exact Nat.le_add_right _ _
  · rintro k b ⟨_, hk, hwhy⟩ hb
    refine ⟨⟨hr, hk, ?_⟩, hb, live_subset_handles _ (mem_live (k := k) hk hb)⟩
    rcases hwhy with hpast | ⟨lane', hsome, hin, _⟩
    · exact .inl hpast
    · -- a lane that commits has attended every layer, and has no pages without layers
      refine .inr ⟨lane, hlane, hin, .inl fun hnil => ?_⟩
      have hpaged : c.kvLayers ≠ [] := fun hcnil => by
        replace hb : q.state.blocks[k]? = some b := hb
        rw [hlive.unpaged hcnil] at hb
        cases hb
      have hmem := hall 0 (length_pos_of_ne_nil hpaged)
      rw [hnil] at hmem
      exact not_mem_nil hmem

/-- The shape of a published sequence. -/
theorem Sequence.Live.published (hlive : q.Live c) (hlane : q.lane = some lane)
    (hphase : lane.phase = .finished) {store' : BlockStore σ}
    (hpub : publishLane c store q.state lane.tokens = (store', state)) (history : List Token) :
    Sequence.Live c { q with
      state
      lane := none
      history } := by
  have hls := hlive.lane lane hlane
  obtain ⟨hhead, hall⟩ := hls.head_closed (Lane.not_open (.inr hphase))
  obtain ⟨rfl, _⟩ := publishLane_spec hlive.pending hpub
  refine
    { hlive with
      pending := ?_
      idle := fun _ => ⟨rfl, (div_le_of_mul_le c.blockSize_pos).mp hhead, fun hpaged => ?_⟩
      lane := nofun }
  · show ((q.state.pending ++ lane.tokens).drop _).length =
      (q.state.cursor + q.state.advance) % c.blockSize
    rw [length_drop, wholePages, hls.advance, ← Nat.mod_eq_sub_div_mul, length_append,
      hlive.pending, Nat.mod_add_mod]
  · have hmem := hall 0 (length_pos_of_ne_nil hpaged)
    exact (hls.attended (ne_nil_of_mem hmem)).2

/-- Publication keeps the invariant if it keeps the one of the store. -/
theorem Held.publish (hI : Lawful I) (h : Held c I w) (hrunning : w.running i = some (q, lane))
    (hphase : lane.phase = .finished)
    (hpub : publishLane c w.pool.store q.state lane.tokens = (store, state))
    (hstore : I store (q.state.live ++ w.others i)) :
    Held c I (w.setSequence i store { q with
      state
      lane := none
      history := q.history ++ lane.tokens }) := by
  obtain ⟨hq, hlane, hr, hlive, _⟩ := h.running hrunning
  have hlive' := hlive.published hlane hphase hpub (q.history ++ lane.tokens)
  obtain ⟨hstate, _⟩ := publishLane_spec hlive.pending hpub
  have hsame : state.live = q.state.live := by
    rw [hstate]
    rfl
  refine h.update hI hq ?_ (hlive'.shaped hr) ?_ ?_
  · rw [handles_idle rfl]
    show I store (state.live ++ w.others i)
    rw [hsame]
    exact hstore
  · exact fun k b hw hb => absurd hb (hlive'.not_writable rfl hw)
  · intro b hb
    rw [handles_idle rfl] at hb
    replace hb : b ∈ state.live := hb
    rw [hsame] at hb
    exact .inl (live_subset_handles q hb)

/-! ## Snapshots and releases -/

theorem getElem?_concat {α : Type} {l : List α} {a b : α} (h : (l ++ [a])[j]? = some b) :
    l[j]? = some b ∨ b = a := by
  rw [List.getElem?_append] at h
  split at h
  · exact .inl h
  · exact .inr (mem_singleton.mp (mem_of_getElem? h))

theorem Held.create [Zero σ] (h : Held c I w) :
    Held c I { w with sequences := w.sequences ++ [⟨SeqState.new c, false, none, []⟩] } := by
  have hlive : Sequence.Live c (⟨SeqState.new c, false, none, []⟩ : Sequence σ) :=
    { head_le := Nat.le_refl 0
      tail := rfl
      length_lt := by
        show 0 * c.blockSize < 0 + 0 + c.blockSize
        have := c.blockSize_pos
        omega
      pending := (Nat.zero_mod _).symm
      unpaged := fun _ => rfl
      idle := fun _ => ⟨rfl, Nat.zero_le _, fun _ => Nat.zero_le _⟩
      lane := nofun }
  have hhandles : ({ w with
      sequences := w.sequences ++ [⟨SeqState.new c, false, none, []⟩] } : World ρ σ).handles =
      w.handles := by
    unfold World.handles
    rw [flatMap_append]
    simp [Sequence.handles, SeqState.new]
  refine
    { store := by
        rw [hhandles]
        exact h.store
      sequences := fun j r hr => ?_
      prefixes := h.prefixes
      alone := fun j r k b hr hw hb => ?_ }
  · rcases getElem?_concat hr with hold | rfl
    · exact h.sequences j r hold
    · exact hlive.shaped rfl
  · rcases getElem?_concat hr with hold | rfl
    · exact h.alone j r k b hold hw hb
    · exact absurd hb (hlive.not_writable rfl hw)

theorem Held.releaseSequence (hI : Lawful I) (h : Held c I w)
    (hs : w.releaseSequence i = some w') : Held c I w' := by
  obtain ⟨q, store, state, hidle, hret, rfl⟩ := releaseSequence_some hs
  obtain ⟨hq, hr, hlane⟩ := idle_some hidle
  have hstore : I w.pool.store (q.state.live ++ w.others i) := by
    rw [← handles_idle hlane]
    exact hI.perm h.store (handles_perm hq)
  have hkeeps := returnBlocks_keeps hI hret hstore
  have hshaped : Sequence.Shaped c { q with
      state
      released := true } := by
    cases hret
    unfold Sequence.Shaped
    rw [if_pos rfl]
    refine ⟨hlane, ?_⟩
    show (q.state.blocks.take q.state.head).length ≤ q.state.head
    rw [length_take]
    exact Nat.min_le_left _ _
  have hnil := released_handles hshaped rfl
  refine h.update hI hq ?_ hshaped ?_ ?_
  · rw [hnil]
    exact hkeeps
  · rintro k b ⟨hfalse, _⟩
    cases hfalse
  · rw [hnil]
    exact fun b hb => absurd hb not_mem_nil

/-- A page that some sequence may write is not among the handles of an idle one. -/
theorem Held.idle_disjoint (hI : Lawful I) (h : Held c I w) (hidle : w.idle i = some q)
    (hr : w.sequences[j]? = some r) (hw : r.Writable c k) (hb : r.state.blocks[k]? = some b) : b ∉ q.handles := by
  obtain ⟨hq, hrel, hlane⟩ := idle_some hidle
  by_cases hne : j = i
  · subst hne
    rw [hq] at hr
    cases hr
    exact absurd hb (((h.sequences j q hq).live hrel).not_writable hlane hw)
  · exact (h.writable_elsewhere hI hq hr hne hw hb).1

/-- Nor among those of a prefix. -/
theorem Held.prefix_disjoint (hI : Lawful I) (h : Held c I w) (hp : w.prefixes[p]? = some (some data))
    (hr : w.sequences[j]? = some r) (hw : r.Writable c k) (hb : r.state.blocks[k]? = some b) : b ∉ data.handles := by
  intro hin
  have hone := h.alone j r k b hr hw hb
  rw [hI.counted h.store b, (handles_perm hr).count_eq, count_append] at hone
  have hown := count_pos_iff.mpr (live_subset_handles r (mem_live hw.2.1 hb))
  have hother := count_pos_iff.mpr (prefix_mem_others (i := j) hp hin)
  omega

theorem Held.snapshot (hI : Lawful I) (h : Held c I w) (hs : w.snapshot i = some w') :
    Held c I w' := by
  obtain ⟨q, hidle, rfl⟩ := snapshot_some hs
  obtain ⟨hq, hr, hlane⟩ := idle_some hidle
  have hlive := (h.sequences i q hq).live hr
  obtain ⟨hadvance, hhead, hge⟩ := hlive.idle hlane
  have hmem : ∀ b ∈ q.state.live, b ∈ w.handles := fun b hb =>
    mem_handles hq (live_subset_handles q hb)
  have hstore := hI.refBlocks h.store hmem
  have hperm : ∀ pool, ({ w with
      pool
      prefixes := w.prefixes ++ [some q.toPrefix] } : World ρ σ).handles.Perm
      (q.state.live ++ w.handles) := by
    intro pool
    unfold World.handles
    rw [flatMap_append, flatMap_singleton, ← append_assoc]
    exact perm_append_comm
  refine
    { store := hI.perm hstore (hperm _).symm
      sequences := h.sequences
      prefixes := fun p data hdata => ?_
      alone := ?_ }
  · rcases getElem?_concat hdata with hold | hnew
    · exact h.prefixes p data hold
    · obtain rfl := some.inj hnew
      have hlen := hlive.length_lt
      rw [hadvance, Nat.add_zero] at hlen
      exact
        { head_le := hlive.head_le
          head_cursor := hhead
          length_lt := hlen
          length_ge := hge
          pending := hlive.pending
          unpaged := hlive.unpaged }
  · refine h.alone_of_counted hI (hI.counted hstore) fun j r k b hr' hw hb => ?_
    have hnot := h.idle_disjoint hI hidle hr' hw hb
    rw [handles_idle hlane] at hnot
    rw [count_append, count_eq_zero.mpr hnot, Nat.zero_add]

theorem toSequence_some [Zero σ] (h : data.toSequence c = some q) :
    q.released = false ∧ q.lane = none ∧ q.history = data.history ∧
      ∃ state, restoreRecurrentSnapshot (SeqState.new c) data.recurrent = some state ∧
        q.state = { state with
          blocks := data.blocks
          head := data.head
          cursor := data.cursor
          lastHash := data.lastHash
          pending := data.pending
          copiedBytes := data.copiedBytes } := by
  obtain ⟨state, hrestore, rfl⟩ := map_eq_some_iff.mp h
  exact ⟨rfl, rfl, rfl, state, hrestore, rfl⟩

theorem PrefixData.Shaped.fork [Zero σ] (hd : data.Shaped c) (h : data.toSequence c = some q) :
    q.Live c ∧ q.handles = data.handles := by
  obtain ⟨_, hlane, _, state, hrestore, hstate⟩ := toSequence_some h
  have hstate' := restore_some hrestore
  subst hstate'
  have hhandles : q.handles = data.handles := by
    rw [handles_idle hlane, hstate]
    rfl
  refine ⟨?_, hhandles⟩
  exact
    { head_le := by
        rw [hstate]
        exact hd.head_le
      tail := by
        rw [hstate]
        rfl
      length_lt := by
        rw [hstate]
        exact hd.length_lt
      pending := by
        rw [hstate]
        exact hd.pending
      unpaged := by
        rw [hstate]
        exact hd.unpaged
      idle := fun _ => by
        rw [hstate]
        exact ⟨rfl, hd.head_cursor, hd.length_ge⟩
      lane := fun lane hsome => by
        rw [hlane] at hsome
        cases hsome }

theorem Held.fork (hI : Lawful I) [Zero σ] (h : Held c I w) (hs : w.fork c p = some w') : Held c I w' := by
  obtain ⟨data, q, hp, hseq, rfl⟩ := fork_some hs
  obtain ⟨hlive, hhandles⟩ := (h.prefixes p data hp).fork hseq
  obtain ⟨hr, hlane, _⟩ := toSequence_some hseq
  have hmem : ∀ b ∈ data.handles, b ∈ w.handles := fun b hb =>
    mem_append_right _ (mem_flatMap.mpr ⟨some data, mem_of_getElem? hp, hb⟩)
  have hstore := hI.refBlocks h.store hmem
  have hperm : ∀ pool, ({ w with
      pool
      sequences := w.sequences ++ [q] } : World ρ σ).handles.Perm (data.handles ++ w.handles) := by
    intro pool
    unfold World.handles
    rw [flatMap_append, flatMap_singleton, hhandles, ← append_assoc]
    exact perm_append_comm.append_right _
  refine
    { store := hI.perm hstore (hperm _).symm
      sequences := fun j r hr' => ?_
      prefixes := h.prefixes
      alone := fun j r k b hr' hw hb => ?_ }
  · rcases getElem?_concat hr' with hold | rfl
    · exact h.sequences j r hold
    · exact hlive.shaped hr
  · rcases getElem?_concat hr' with hold | rfl
    · refine h.alone_of_counted hI (hI.counted hstore) ?_ j r k b hold hw hb
      intro j r k b hr' hw hb
      have hnot := h.prefix_disjoint hI hp hr' hw hb
      rw [count_append, count_eq_zero.mpr hnot, Nat.zero_add]
    · exact absurd hb (hlive.not_writable hlane hw)

/-- A prefix that is left when one is released. -/
theorem prefix_kept {p' : Nat} (h : (w.prefixes.set p none)[p']? = some (some data)) :
    w.prefixes[p']? = some (some data) := by
  rcases getElem?_set_cases h with ⟨-, -, hdata⟩ | ⟨-, hdata⟩
  · cases hdata
  · exact hdata

theorem Held.releasePrefix (hI : Lawful I) (h : Held c I w) (hs : w.releasePrefix p = some w') : Held c I w' := by
  obtain ⟨data, hp, rfl⟩ := releasePrefix_some hs
  have hlt := (List.getElem?_eq_some_iff.mp hp).1
  have hperm : w.handles.Perm (data.handles ++ ({ w with
      pool := { w.pool with store := w.pool.store.unrefBlocks data.handles }
      prefixes := w.prefixes.set p none } : World ρ σ).handles) := by
    unfold World.handles
    have hold := flatMap_perm prefixHandles hp
    have hnew := flatMap_set_perm prefixHandles (none : Option (PrefixData σ)) hlt
    rw [show prefixHandles (none : Option (PrefixData σ)) = [] from rfl, nil_append] at hnew
    refine (hold.append_left _).trans ?_
    refine (perm_append_comm_assoc _ _ _).trans ?_
    exact (hnew.symm.append_left _).append_left _
  have hstore := hI.unrefBlocks (hI.perm h.store hperm)
  refine
    { store := hstore
      sequences := h.sequences
      prefixes := fun p' data' hdata => ?_
      alone := h.alone_of_counted hI (hI.counted hstore) fun j r k b hr hw hb => ?_ }
  · exact h.prefixes p' data' (prefix_kept hdata)
  · have hnot := h.prefix_disjoint hI hp hr hw hb
    rw [hperm.count_eq, count_append, count_eq_zero.mpr hnot, Nat.zero_add]

end Worlds

end EffectTorch
