import EffectTorch.Cpu.PackedChain
import EffectTorch.Cpu.PoolContent
import Mathlib.Analysis.Complex.Exponential

/-!
# Paged attention is full attention

A pool that evicts by windows and retentions keeps what its layers still read. So the
output of each token of a chunk is that of causal attention over the whole history,
within the window of its layer, and a packed chain gives the same outputs row by row.

Results:
1. `Attending.perform`: every step of an appending run keeps the positions in reach.
2. `attendRows_full`: the loops over heads, queries and columns give full attention.
3. `paged_attention_exact`: chunks, packed chains and single tokens agree with it.
-/

namespace EffectTorch
open List Lib BlockStore

/-! ## Full attention -/

/-- The first position that a query after `length` positions, itself included, reads. -/
def windowStart (window : Option Nat) (length : Nat) : Nat :=
  match window with
  | some window => length - window
  | none => 0

theorem windowStart_mono (window : Option Nat) {length length' : Nat} (h : length ≤ length') :
    windowStart window length ≤ windowStart window length' := by
  cases window with
  | none => exact Nat.le_refl _
  | some window => exact Nat.sub_le_sub_right h window

section Full

variable {ρ σ α : Type} [Field α] (slab : SlabRow ρ α) (exp : α → α)

/-- Causal attention of the last token of a history over the whole of it, within the
window: the softmax mean of the values, over the rows that the model computes. -/
def fullAttention (m : Computation ρ σ) (kernel : AttentionKernel α) (command : AttentionCommand)
    (history : List Token) (query : Nat → Nat → α) (head column : Nat) : α :=
  let kvHead := head / (kernel.heads / command.kvHeads)
  let row := fun position => m.row command.layer (history.take (position + 1))
  softmaxMean exp (Finset.Ico (windowStart command.window history.length) history.length)
    (fun position => (∑ column ∈ Finset.range command.width,
      query head column * slab.key (row position) kvHead column) * kernel.scale)
    fun position => slab.value (row position) kvHead column

end Full

section Reach

variable {ρ σ : Type} {c : PoolConfig} {m : Computation ρ σ} {windows : Nat → Option Nat}
  {w w' : World ρ σ} {i : Nat} {q q' : Sequence σ}

/-! ## Windows and retentions -/

/-- A layer with a retention has a window, of at most one more. -/
def Retains (c : PoolConfig) (windows : Nat → Option Nat) : Prop :=
  ∀ (layer : Nat) (descriptor : KvLayerDescriptor), c.kvLayers[layer]? = some descriptor →
    ∀ retention ∈ descriptor.retention, ∃ window ∈ windows layer, window ≤ retention + 1

/-- The window of an executable is at least that of each layer. -/
def Covers (c : PoolConfig) (windows : Nat → Option Nat) (window : Option Nat) : Prop :=
  ∀ evicted ∈ window, ∀ layer < c.kvLayers.length, ∃ window ∈ windows layer, window ≤ evicted

variable {layer : Nat} {I : BlockStore σ → List Nat → Prop}

theorem retentionStart_le {descriptor : KvLayerDescriptor} (hlayer : c.kvLayers[layer]? = some descriptor)
    (cursor : Nat) :
    c.retentionStart cursor ≤ match descriptor.retention with
      | some retention => cursor - retention
      | none => 0 :=
  List.min?_getD_le_of_mem (mem_map_of_mem (mem_of_getElem? hlayer))

/-- Retention keeps what a query after `stop` positions reads. -/
theorem Retains.start_le (h : Retains c windows) {descriptor : KvLayerDescriptor}
    (hlayer : c.kvLayers[layer]? = some descriptor) (stop : Nat) :
    (match descriptor.retention with
      | some retention => stop - retention
      | none => 0) ≤ windowStart (windows layer) (stop + 1) := by
  cases hretention : descriptor.retention with
  | none => exact Nat.zero_le _
  | some retention =>
    obtain ⟨window, hwindow, hle⟩ := h layer descriptor hlayer retention hretention
    rw [hwindow]
    show stop - retention ≤ stop + 1 - window
    omega

theorem evictionStart_le_windowStart (h : Retains c windows) {window : Option Nat}
    (hcovers : c.explicitLayers = false → Covers c windows window) (hlayer : layer < c.kvLayers.length)
    (stop : Nat) : c.evictionStart window stop ≤ windowStart (windows layer) (stop + 1) := by
  obtain ⟨descriptor, hdescriptor⟩ : ∃ descriptor, c.kvLayers[layer]? = some descriptor :=
    ⟨_, List.getElem?_eq_getElem hlayer⟩
  unfold PoolConfig.evictionStart
  split
  · exact Nat.le_trans (retentionStart_le hdescriptor stop) (h.start_le hdescriptor stop)
  · next himplicit =>
    split
    · next evicted =>
      obtain ⟨window, hwindow, hle⟩ :=
        hcovers (Bool.eq_false_of_not_eq_true himplicit) evicted rfl layer hlayer
      rw [hwindow]
      show stop - evicted ≤ stop + 1 - window
      omega
    · exact Nat.zero_le _

/-! ## The invariant -/

/-- A sequence holds what its layers still read: the next query before its commit, the
one after its chunk from then on. -/
structure Sequence.Kept (c : PoolConfig) (windows : Nat → Option Nat) (q : Sequence σ) : Prop where
  opened : (∀ lane, q.lane = some lane → lane.Open) → ∀ layer < c.kvLayers.length,
    q.state.head * c.blockSize ≤ windowStart (windows layer) (q.state.cursor + 1)
  closed : ∀ layer < c.kvLayers.length,
    q.state.head * c.blockSize ≤ windowStart (windows layer) (q.state.cursor + q.state.advance + 1)
  covers : ∀ lane, q.lane = some lane → c.explicitLayers = false → Covers c windows lane.window

/-- What every sequence and prefix still holds. -/
structure Kept (c : PoolConfig) (windows : Nat → Option Nat) (w : World ρ σ) : Prop where
  sequences : ∀ (i : Nat) (q : Sequence σ), w.sequences[i]? = some q → q.released = false →
    q.Kept c windows
  prefixes : ∀ (p : Nat) (data : PrefixData σ), w.prefixes[p]? = some (some data) →
    ∀ layer < c.kvLayers.length,
      data.head * c.blockSize ≤ windowStart (windows layer) (data.cursor + 1)

/-- Executions on implicit layers have windows that cover those of the layers. -/
def CoversLayers (c : PoolConfig) (windows : Nat → Option Nat) : Event ρ σ → Prop
  | .begin _ window _ => c.explicitLayers = false → Covers c windows window
  | _ => True

/-- Before a commit what is needed is the same with any chunk. -/
theorem Sequence.Kept.of_opened
    (hopened : ∀ layer < c.kvLayers.length,
      q.state.head * c.blockSize ≤ windowStart (windows layer) (q.state.cursor + 1))
    (hcovers : ∀ lane, q.lane = some lane → c.explicitLayers = false →
      Covers c windows lane.window) : q.Kept c windows where
  opened _ := hopened
  closed layer hlayer := Nat.le_trans (hopened layer hlayer)
    (windowStart_mono _ (Nat.succ_le_succ (Nat.le_add_right _ _)))
  covers := hcovers

theorem Sequence.Kept.of_idle (hlane : q.lane = none)
    (hopened : ∀ layer < c.kvLayers.length,
      q.state.head * c.blockSize ≤ windowStart (windows layer) (q.state.cursor + 1)) :
    q.Kept c windows :=
  .of_opened hopened fun lane hsome => by
    rw [hlane] at hsome
    cases hsome

theorem Sequence.Kept.idle (h : q.Kept c windows) (hlane : q.lane = none) :
    ∀ layer < c.kvLayers.length,
      q.state.head * c.blockSize ≤ windowStart (windows layer) (q.state.cursor + 1) :=
  h.opened fun lane hsome => by
    rw [hlane] at hsome
    cases hsome

theorem Sequence.Kept.running (h : q.Kept c windows) {lane : Lane} (hlane : q.lane = some lane)
    (hopen : lane.Open) : ∀ layer < c.kvLayers.length,
      q.state.head * c.blockSize ≤ windowStart (windows layer) (q.state.cursor + 1) :=
  h.opened fun lane' hsome => by
    rw [hlane] at hsome
    obtain rfl := Option.some.inj hsome
    exact hopen

/-! ## Steps -/

theorem Kept.update (h : Kept c windows w) {pool : PoolInner ρ σ}
    (hlocal : q'.released = false → q'.Kept c windows) :
    Kept c windows { w with pool, sequences := w.sequences.set i q' } where
  sequences j r hr hrel := by
    rcases getElem?_set_cases hr with ⟨-, -, rfl⟩ | ⟨hj, hr⟩
    · exact hlocal hrel
    · exact h.sequences j r hr hrel
  prefixes := h.prefixes

theorem Kept.begin (h : Kept c windows w) {window : Option Nat} {tokens : List Token}
    (hcovers : CoversLayers c windows (.begin i window tokens : Event ρ σ))
    (hs : w.begin c i window tokens = some w') : Kept c windows w' := by
  obtain ⟨q, hidle, _, rfl⟩ := begin_some hs
  obtain ⟨hq, hr, hlane⟩ := idle_some hidle
  refine h.update fun _ => .of_opened ((h.sequences i q hq hr).idle hlane) fun lane hsome => ?_
  obtain rfl := Option.some.inj hsome
  exact hcovers

theorem Kept.attend (h : Kept c windows w) (hI : Lawful I) (hheld : Held c I w) {command : AttentionCommand}
    {rows : List ρ} (hs : w.attend c i command rows = some w') : Kept c windows w' := by
  obtain ⟨q, lane, r, pool, state, hrunning, hphase, hkv, rfl⟩ := attend_some hs
  obtain ⟨hq, hlane, hr, _⟩ := hheld.running hrunning
  have ht := hheld.touched hI hrunning hphase hkv
  obtain ⟨copiedBytes, blocks, rfl⟩ := ht.same
  have hkept := h.sequences i q hq hr
  refine h.update fun _ => .of_opened (hkept.running hlane (.inl hphase)) fun lane' hsome => ?_
  rw [← Option.some.inj hsome]
  cases r <;> exact hkept.covers lane hlane

theorem Kept.rollback (h : Kept c windows w) (hheld : Held c I w) (hs : w.rollback i = some w') :
    Kept c windows w' := by
  obtain ⟨q, lane, store, state, hrunning, hopen, hroll, rfl⟩ := rollback_some hs
  obtain ⟨hq, hlane, hr, _, hls⟩ := hheld.running hrunning
  obtain ⟨blocks, rfl, _⟩ := rollbackLane_fields hroll hls.frontier_le
  exact h.update fun _ => .of_idle rfl ((h.sequences i q hq hr).running hlane hopen)

/-- Eviction at commit passes no position that the query after the chunk reads. -/
theorem Kept.commit (h : Kept c windows w) (hretains : Retains c windows) (hheld : Held c I w)
    {kda conv : List (List σ)} (hs : w.commit c i kda conv = some w') : Kept c windows w' := by
  obtain ⟨q, lane, n, hrunning, _, _, _, hevict, rfl⟩ := commit_some hs
  obtain ⟨hq, hlane, hr, _, hls⟩ := hheld.running hrunning
  have hkept := h.sequences i q hq hr
  have hbound : ∀ layer < c.kvLayers.length, (q.state.head + n) * c.blockSize ≤
      windowStart (windows layer) (q.state.cursor + q.state.advance + 1) := by
    intro layer hlayer
    rcases Nat.eq_zero_or_pos n with rfl | hpos
    · exact hkept.closed layer hlayer
    · obtain ⟨start, hstart, hle⟩ := hevict hpos
      refine Nat.le_trans hle ?_
      rw [hls.eviction start hstart]
      exact evictionStart_le_windowStart hretains (hkept.covers lane hlane) hlayer _
  refine h.update fun _ =>
    { opened := fun hopen => ?_
      closed := hbound
      covers := fun lane' hsome => ?_ }
  · rcases hopen _ rfl with hcase | hcase
    · cases hcase
    · cases hcase
  · rw [← Option.some.inj hsome]
    exact hkept.covers lane hlane

theorem Kept.finish (h : Kept c windows w) (hheld : Held c I w) (hs : w.finish i = some w') : Kept c windows w' := by
  obtain ⟨q, lane, hrunning, _, rfl⟩ := finish_some hs
  obtain ⟨hq, hlane, hr, _⟩ := hheld.running hrunning
  have hkept := h.sequences i q hq hr
  refine h.update fun _ =>
    { opened := fun hopen => ?_
      closed := hkept.closed
      covers := fun lane' hsome => ?_ }
  · rcases hopen _ rfl with hcase | hcase
    · cases hcase
    · cases hcase
  · rw [← Option.some.inj hsome]
    exact hkept.covers lane hlane

theorem Kept.publish (h : Kept c windows w) (hheld : Held c I w) (hs : w.publish c i = some w') :
    Kept c windows w' := by
  obtain ⟨q, lane, store, state, hrunning, _, hpub, rfl⟩ := publish_some hs
  obtain ⟨hq, hlane, hr, hlive, _⟩ := hheld.running hrunning
  obtain ⟨rfl, _⟩ := publishLane_spec hlive.pending hpub
  exact h.update fun _ => .of_idle rfl (h.sequences i q hq hr).closed

theorem Kept.perform [Zero σ] (h : Kept c windows w) (hretains : Retains c windows) (hI : Lawful I)
    (hheld : Held c I w) {event : Event ρ σ} (hfork : event.ForkOnly)
    (hcovers : CoversLayers c windows event) (hs : w.perform c event = some w') : Kept c windows w' := by
  cases event with
  | create =>
    obtain rfl := Option.some.inj hs
    refine ⟨fun j r hr hrel => ?_, h.prefixes⟩
    rcases getElem?_concat hr with hold | rfl
    · exact h.sequences j r hold hrel
    · exact .of_idle rfl fun layer _ => by
        show 0 * c.blockSize ≤ _
        rw [Nat.zero_mul]
        exact Nat.zero_le _
  | prefillMatch i tokens => exact hfork.elim
  | snapshot i =>
    obtain ⟨q, hidle, rfl⟩ := snapshot_some hs
    obtain ⟨hq, hr, hlane⟩ := idle_some hidle
    refine ⟨h.sequences, fun p data hp => ?_⟩
    rcases getElem?_concat hp with hold | hnew
    · exact h.prefixes p data hold
    · obtain rfl := Option.some.inj hnew
      exact (h.sequences i q hq hr).idle hlane
  | fork p =>
    obtain ⟨data, q, hp, hseq, rfl⟩ := fork_some hs
    obtain ⟨_, hlane, _, state, _, hstate⟩ := toSequence_some hseq
    refine ⟨fun j r hr hrel => ?_, h.prefixes⟩
    rcases getElem?_concat hr with hold | rfl
    · exact h.sequences j r hold hrel
    · refine .of_idle hlane ?_
      rw [hstate]
      exact h.prefixes p data hp
  | releasePrefix p =>
    obtain ⟨data, hp, rfl⟩ := releasePrefix_some hs
    refine ⟨h.sequences, fun p' data' hp' => ?_⟩
    exact h.prefixes p' data' (prefix_kept hp')
  | releaseSequence i =>
    obtain ⟨q, store, state, hidle, _, rfl⟩ := releaseSequence_some hs
    exact h.update nofun
  | begin i window tokens => exact h.begin hcovers hs
  | attend i command rows => exact h.attend hI hheld hs
  | rollback i => exact h.rollback hheld hs
  | commit i kda conv => exact h.commit hretains hheld hs
  | finish i => exact h.finish hheld hs
  | publish i => exact h.publish hheld hs

/-! ## Whole runs -/

/-- The invariant of the runs that append what the model computes. -/
structure Attending (c : PoolConfig) (m : Computation ρ σ) (windows : Nat → Option Nat)
    (w : World ρ σ) : Prop where
  held : Held c Leased w
  retained : w.Retained c
  contents : Contents c m w
  kept : Kept c windows w

/-- Runs that append what the model computes. -/
def Appending (c : PoolConfig) (m : Computation ρ σ) (windows : Nat → Option Nat)
    (w : World ρ σ) (event : Event ρ σ) : Prop :=
  event.ForkOnly ∧ Computes m w event ∧ CoversLayers c windows event

theorem Attending.perform [Zero σ] (h : Attending c m windows w) (hretains : Retains c windows)
    (hnew : c.recurrent = true → captureRecurrentSnapshot (SeqState.new c) = m.recurrent [])
    {event : Event ρ σ} (happending : Appending c m windows w event)
    (hs : w.perform c event = some w') : Attending c m windows w' := by
  obtain ⟨hfork, hcomputes, hcovers⟩ := happending
  exact
    { held := h.held.perform_leased hfork hs
      retained := (h.held.sees leased_lawful h.retained hfork hs).2
      contents := h.contents.perform leased_lawful h.held h.retained hnew hfork hcomputes hs
      kept := h.kept.perform hretains leased_lawful h.held hfork hcovers hs }

theorem attending_reachable [Zero σ] (hretains : Retains c windows)
    (hnew : c.recurrent = true → captureRecurrentSnapshot (SeqState.new c) = m.recurrent [])
    (hw : (pagePool c (Appending c m windows)).Reachable w) : Attending c m windows w := by
  refine System.invariant ?_ ?_ hw
  · rintro _ ⟨rows, rfl⟩
    exact
      { held := held_new rows (leased_new _)
        retained := fun _ _ _ _ h => by cases h
        contents := contents_new rows
        kept := ⟨fun _ _ h => (by cases h), fun _ _ h => (by cases h)⟩ }
  · rintro w w' h ⟨event, happending, hs⟩
    exact h.perform hretains hnew happending hs

/-! ## Rows -/

/-- A lane that was prepared finds the rows of its history and of the tokens written so
far. -/
theorem Contents.attended (hI : Lawful I) (h : Contents c m w) (hheld : Held c I w) {lane : Lane}
    (hrunning : w.running i = some (q, lane)) (hphase : lane.phase = .running) {rows : List ρ}
    {pool : PoolInner ρ σ} {state : SeqState σ}
    (hattended : Attended c w.pool q.state layer 0 rows pool state)
    (hrows : ∀ (t : Nat) (row : ρ), rows[t]? = some row → row = m.row layer (q.history ++ lane.tokens.take (t + 1)))
    {position : Nat} (hlt : position < q.state.cursor + rows.length)
    (hkept : q.state.head ≤ position / c.blockSize) :
    rowAt c pool.rows state.blocks layer position =
      m.row layer ((q.history ++ lane.tokens).take (position + 1)) := by
  obtain ⟨hq, hlane, hr, hlive, _⟩ := hheld.running hrunning
  have hready := hheld.ready hI hrunning (.inl hphase)
  have hcontent := h.sequences i q hq hr
  have hlayer : layer < c.kvLayers.length := by
    obtain ⟨_, _, _, hlayer, _⟩ := hattended
    exact hlayer
  by_cases hold : position < q.state.cursor
  · obtain ⟨b, hb⟩ := page_of_lt hold (hlive.covered (paged_of_layer hlayer))
    rw [hattended.rowAt_before hI hready layer hkept (Nat.lt_of_lt_of_le hold (Nat.le_add_right _ _))
        (List.getElem?_eq_some_iff.mp hb).1,
      hcontent.holds layer hlayer position (by rw [hcontent.describes.length]; exact hold) hkept,
      take_append_of_le_length (by rw [hcontent.describes.length]; exact hold)]
  · obtain ⟨t, rfl⟩ := Nat.exists_eq_add_of_le (Nat.le_of_not_lt hold)
    obtain ⟨row, hrow⟩ : ∃ row, rows[t]? = some row :=
      ⟨_, List.getElem?_eq_getElem (by omega)⟩
    have hwritten := hattended.rowAt_written hI hready hrow
    rw [Nat.zero_add] at hwritten
    rw [hwritten, hrows t row hrow, ← hcontent.describes.length, Nat.add_assoc,
      take_length_add_append]

end Reach

section Outputs

variable {ρ σ α : Type} [Field α] [LinearOrder α] {c : PoolConfig} {slab : SlabRow ρ α}
  {exp : α → α} {m : Computation ρ σ} {windows : Nat → Option Nat} {w : World ρ σ} {i : Nat}
  {q : Sequence σ} {kernel : AttentionKernel α} {command : AttentionCommand}

omit [LinearOrder α] in
theorem attentionScore_eq (width : Nat) (query : Nat → α) (key : Nat → Nat → α) (position : Nat) :
    attentionScore kernel width query key position =
      (∑ column ∈ Finset.range width, query column * key position column) * kernel.scale := by
  unfold attentionScore
  rw [range_eq_range', foldl_add_range', Nat.zero_add, Finset.range_eq_Ico]

variable {query : Nat → Nat → Nat → α} {lane : Lane} {pool : PoolInner ρ σ} {state : SeqState σ}
  {window : Option Nat} {rows : Nat → ρ}

/-- The loops give full attention at a position whose window starts where its rows do. -/
theorem attendRows_full (hexp : ExpLaws exp) (hcausal : command.mode = .causal) {rows : Nat → Nat → ρ}
    {blocks : List Nat} {cursor first rowPosition valid token : Nat} {history : List Token}
    (hlength : history.length = rowPosition + token + 1)
    (hfirst : first ≤ windowStart command.window history.length)
    (hrows : ∀ position, windowStart command.window history.length ≤ position → position < history.length → rowAt c rows blocks command.layer position = m.row command.layer (history.take (position + 1)))
    (head column : Nat) :
    attendRows c slab exp kernel command rows blocks cursor first rowPosition valid query token
        head column =
      fullAttention slab exp m kernel command history (query token) head column := by
  have hstop : queryStop command.mode rowPosition valid token = history.length := by
    rw [hcausal, hlength]
    rfl
  have hstart : queryStart command.window command.mode cursor history.length first =
      windowStart command.window history.length := by
    rw [hcausal]
    cases hwindow : command.window with
    | none =>
      rw [hwindow] at hfirst
      exact Nat.le_zero.mp hfirst
    | some window =>
      rw [hwindow] at hfirst
      exact Nat.max_eq_left hfirst
  have hle : windowStart command.window history.length ≤ history.length := by
    cases command.window with
    | none => exact Nat.zero_le _
    | some window => exact Nat.sub_le _ _
  unfold attendRows
  dsimp only
  rw [hstop, hstart, attendColumn_eq hexp kernel hle]
  refine softmaxMean_congr (fun position hposition => ?_) fun position hposition => ?_
  · obtain ⟨hge, hlt⟩ := Finset.mem_Ico.mp hposition
    rw [attentionScore_eq, hrows position hge hlt]
  · obtain ⟨hge, hlt⟩ := Finset.mem_Ico.mp hposition
    rw [hrows position hge hlt]

/-- What a running lane attends over starts within its window. -/
theorem Kept.first_le (h : Kept c windows w) (hretains : Retains c windows) (hq : w.sequences[i]? = some q)
    (hr : q.released = false) (hlane : q.lane = some lane) (hphase : lane.phase = .running) {layer : Nat}
    {descriptor : KvLayerDescriptor} (hlayer : c.kvLayers[layer]? = some descriptor) :
    prefixStart c descriptor q.state ≤ windowStart (windows layer) (q.state.cursor + 1) :=
  Nat.max_le.mpr ⟨hretains.start_le hlayer _, (h.sequences i q hq hr).running hlane (.inl hphase)
    layer (List.getElem?_eq_some_iff.mp hlayer).1⟩

/-- The output of token `t` of a lane, over a pool where the tokens up to it are
written. -/
theorem Attending.output (h : Attending c m windows w) (hretains : Retains c windows) (hexp : ExpLaws exp)
    (hwindow : command.window = windows command.layer) (hcausal : command.mode = .causal)
    (hrunning : w.running i = some (q, lane)) (hphase : lane.phase = .running) {rows : List ρ}
    (hattended : Attended c w.pool q.state command.layer 0 rows pool state)
    (hrows : ∀ (t : Nat) (row : ρ), rows[t]? = some row → row = m.row command.layer (q.history ++ lane.tokens.take (t + 1)))
    {descriptor : KvLayerDescriptor} (hlayer : c.kvLayers[command.layer]? = some descriptor)
    {t rowPosition valid token : Nat} (ht : t < rows.length)
    (hposition : rowPosition + token = q.state.cursor + t) (query : Nat → Nat → Nat → α) (head column : Nat) :
    attendRows c slab exp kernel command pool.rows state.blocks q.state.cursor
        (prefixStart c descriptor q.state) rowPosition valid query token head column =
      fullAttention slab exp m kernel command (q.history ++ lane.tokens.take (t + 1)) (query token)
        head column := by
  obtain ⟨hq, hlane, hr, hlive, _⟩ := h.held.running hrunning
  have hcontent := h.contents.sequences i q hq hr
  have hadvance := (hlive.lane lane hlane).advance
  have hfit : rows.length ≤ q.state.advance := by
    obtain ⟨_, _, _, _, _, hfit, _⟩ := hattended
    rwa [Nat.zero_add] at hfit
  have hlength : (q.history ++ lane.tokens.take (t + 1)).length = rowPosition + token + 1 := by
    rw [length_append, hcontent.describes.length, length_take, hposition]
    omega
  have hfirst := h.kept.first_le hretains hq hr hlane hphase hlayer
  rw [← hwindow] at hfirst
  have hmono : windowStart command.window (q.state.cursor + 1) ≤
      windowStart command.window (q.history ++ lane.tokens.take (t + 1)).length :=
    windowStart_mono _ (by rw [hlength, hposition]; omega)
  refine attendRows_full hexp hcausal hlength (Nat.le_trans hfirst hmono)
    (fun position hge hlt => ?_) head column
  have hkept : q.state.head ≤ position / c.blockSize := by
    rw [Nat.le_div_iff_mul_le c.blockSize_pos]
    exact Nat.le_trans (Nat.le_trans (Nat.le_max_right _ _) hfirst) (Nat.le_trans hmono hge)
  rw [hlength, hposition] at hlt
  rw [h.contents.attended leased_lawful h.held hrunning hphase hattended hrows (by omega) hkept]
  congr 1
  have htake : q.history ++ lane.tokens.take (t + 1) =
      (q.history ++ lane.tokens).take (q.state.cursor + (t + 1)) := by
    rw [← hcontent.describes.length, take_length_add_append]
  rw [htake, take_take, Nat.min_eq_left (by omega)]

/-! ## Packed chains -/

/-- A lane of a packed execution: its slot, and a sequence that runs. -/
structure PackedLane (σ : Type) where
  physical : Nat
  index : Nat
  q : Sequence σ
  lane : Lane

/-- What `build` is given for a lane. -/
def PackedLane.entry (l : PackedLane σ) : Nat × Nat × Nat :=
  (l.physical, l.q.state.cursor, l.lane.tokens.length)

/-- A lane runs, its slot holds its state, and its graph rows from `base` on are what
the model computes. -/
structure PackedLane.Given (m : Computation ρ σ) (w : World ρ σ) (window : Option Nat)
    (command : AttentionCommand) (slots : List (Option (SeqState σ))) (rows : Nat → ρ)
    (base : Nat) (l : PackedLane σ) : Prop where
  running : w.running l.index = some (l.q, l.lane)
  phase : l.lane.phase = .running
  window : l.lane.window = window
  slot : slots[l.physical]? = some (some l.q.state)
  rows : ∀ t < l.lane.tokens.length,
    rows (base + t) = m.row command.layer (l.q.history ++ l.lane.tokens.take (t + 1))

/-- The lanes of a packed execution, in the order of its rows. -/
structure PackedBatch (m : Computation ρ σ) (w : World ρ σ) (window : Option Nat)
    (command : AttentionCommand) (slots : List (Option (SeqState σ))) (rows : Nat → ρ)
    (base : Nat → Nat) (lanes : List (PackedLane σ)) : Prop where
  slots_nodup : (lanes.map (·.physical)).Nodup
  sequences_nodup : (lanes.map (·.index)).Nodup
  given : ∀ (k : Nat) (l : PackedLane σ), lanes[k]? = some l →
    l.Given m w window command slots rows (base k)

/-- Rows without a lane are skipped. -/
theorem packedTurns_idle {packed : PackedCausalRows} {turns : List Nat}
    (hidle : ∀ row ∈ turns, packed.graphRow row = none) (pool : PoolInner ρ σ)
    (slots : List (Option (SeqState σ))) (out : Nat → Nat → Nat → α) :
    packedTurns c slab exp kernel window command packed rows query turns pool slots out =
      (.ok out, pool, slots) := by
  induction turns with
  | nil => rfl
  | cons row turns ih =>
    rw [packedTurns, hidle row mem_cons_self]
    exact ih fun row' hrow => hidle row' (mem_cons_of_mem _ hrow)

/-- The rows of a chain are those of its tokens. -/
theorem chainRows_given {base count t : Nat} {row : ρ} (h : (chainRows rows base count)[t]? = some row) :
    t < count ∧ row = rows (base + t) := by
  obtain ⟨u, hu, rfl⟩ := List.getElem?_eq_some_iff.mp h
  have hlt : t < count := by rwa [chainRows_length] at u
  refine ⟨hlt, ?_⟩
  simp [chainRows]

theorem attend_of_running {rows : List ρ} {start : Nat} (hrunning : w.running i = some (q, lane))
    (hphase : lane.phase = .running)
    (hkv : kvAttention c w.pool q.state lane.window command rows = (.ok start, pool, state)) :
    w.attend c i command rows = some { w with
      pool
      sequences := w.sequences.set i { q with
        state
        lane := some (lane.after command.layer (.ok start)) } } := by
  unfold World.attend
  rw [hrunning]
  dsimp only
  rw [if_pos hphase, hkv]
  rfl

/-- A step on the first lane leaves the others as they are. -/
theorem PackedBatch.rest {slots : List (Option (SeqState σ))} {base : Nat → Nat} {l : PackedLane σ}
    {lanes : List (PackedLane σ)} (h : PackedBatch m w window command slots rows base (l :: lanes))
    {q' : Sequence σ} :
    PackedBatch m { w with pool, sequences := w.sequences.set l.index q' } window command
      (slots.set l.physical (some state)) rows (fun k => base (k + 1)) lanes := by
  have hslots := h.slots_nodup
  have hindices := h.sequences_nodup
  rw [map_cons, nodup_cons] at hslots hindices
  refine ⟨hslots.2, hindices.2, fun k l' hk => ?_⟩
  have hgiven := h.given (k + 1) l' hk
  have hmem := mem_of_getElem? hk
  have hindex : l.index ≠ l'.index := fun heq => hindices.1 (heq ▸ mem_map_of_mem hmem)
  have hphysical : l.physical ≠ l'.physical := fun heq =>
    hslots.1 (heq ▸ mem_map_of_mem hmem)
  refine ⟨?_, hgiven.phase, hgiven.window, ?_, hgiven.rows⟩
  · unfold World.running
    dsimp only
    rw [List.getElem?_set_ne hindex]
    exact hgiven.running
  · rw [List.getElem?_set_ne hphysical]
    exact hgiven.slot

/-- The rows of the first lane of a packed execution. Their chain is one append of its
sequence. -/
theorem Attending.chain [Zero σ] (h : Attending c m windows w) (hretains : Retains c windows)
    (hnew : c.recurrent = true → captureRecurrentSnapshot (SeqState.new c) = m.recurrent [])
    (hexp : ExpLaws exp) (hwindow : command.window = windows command.layer)
    (hcausal : command.mode = .causal) {packed : PackedCausalRows} {l : PackedLane σ}
    {lanes : List (PackedLane σ)} {base : Nat → Nat} {turns : List Nat}
    {slots slots' : List (Option (SeqState σ))}
    (hbatch : PackedBatch m w window command slots rows base (l :: lanes)) (hpos : 0 < l.lane.tokens.length)
    (hgraph : ∀ t < l.lane.tokens.length, packed.graphRow (base 0 + t) = some (l.physical, l.q.state.cursor + t))
    {out out' : Nat → Nat → Nat → α} {pool' : PoolInner ρ σ}
    (hturns : packedTurns c slab exp kernel window command packed rows query (List.range' (base 0) l.lane.tokens.length ++ turns) w.pool slots out = (.ok out', pool', slots')) :
    ∃ (w₁ : World ρ σ) (slots₁ : List (Option (SeqState σ))) (out₁ : Nat → Nat → Nat → α),
      Attending c m windows w₁ ∧
      PackedBatch m w₁ window command slots₁ rows (fun k => base (k + 1)) lanes ∧
      packedTurns c slab exp kernel window command packed rows query turns w₁.pool slots₁ out₁ =
        (.ok out', pool', slots') ∧
      (∀ t < l.lane.tokens.length, ∀ head column,
        out₁ (base 0 + t) head column = fullAttention slab exp m kernel command
          (l.q.history ++ l.lane.tokens.take (t + 1)) (query (base 0 + t)) head column) ∧
      ∀ r < base 0, out₁ r = out r := by
  have hgiven := hbatch.given 0 l rfl
  obtain ⟨hq, hlane, hr, hlive, _⟩ := h.held.running hgiven.running
  have hadvance := (hlive.lane _ hlane).advance
  have hready := h.held.ready leased_lawful hgiven.running (.inl hgiven.phase)
  rw [← hadvance] at hpos hgraph hturns
  obtain ⟨pool₁, state₁, out₁, start, hkv, hattended, hrest, houts, hother⟩ :=
    packedTurns_lane leased_lawful hready hgiven.slot hpos hgraph hturns
  rw [← hgiven.window] at hkv
  have hchain : ∀ (count t : Nat) (row : ρ), count ≤ l.q.state.advance →
      (chainRows rows (base 0) count)[t]? = some row →
      row = m.row command.layer (l.q.history ++ l.lane.tokens.take (t + 1)) := by
    intro count t row hcount hrow
    obtain ⟨hlt, rfl⟩ := chainRows_given hrow
    exact hgiven.rows t (by omega)
  have hs := attend_of_running hgiven.running hgiven.phase hkv
  have hcomputes : Computes m w (.attend l.index { command with tokens := l.q.state.advance }
      (chainRows rows (base 0) l.q.state.advance)) := by
    intro lane hrunning t ht row hrow
    rw [hgiven.running] at hrunning
    obtain rfl := Option.some.inj hrunning
    exact hchain _ t row (Nat.le_refl _) hrow
  have hfork : (Event.attend l.index { command with tokens := l.q.state.advance }
      (chainRows rows (base 0) l.q.state.advance) : Event ρ σ).ForkOnly := trivial
  have h₁ := h.perform hretains hnew ⟨hfork, hcomputes, trivial⟩ hs
  refine ⟨_, _, out₁, h₁, hbatch.rest, hrest, fun t ht head column => ?_,
    fun r hr => hother r (.inl hr)⟩
  rw [← hadvance] at ht
  obtain ⟨descriptor, hlayer, hout⟩ := houts t ht
  rw [hout]
  exact h.output hretains hexp hwindow hcausal hgiven.running hgiven.phase
    (hattended (t + 1) ht) (fun u row => hchain (t + 1) u row ht) hlayer
    (by rw [chainRows_length]; omega) (Nat.add_zero (l.q.state.cursor + t))
    (fun _ => query (base 0 + t)) head column

/-- Each row of a packed execution gives full attention over its own history. -/
theorem Attending.packed [Zero σ] (h : Attending c m windows w) (hretains : Retains c windows)
    (hnew : c.recurrent = true → captureRecurrentSnapshot (SeqState.new c) = m.recurrent [])
    (hexp : ExpLaws exp) (hwindow : command.window = windows command.layer)
    (hcausal : command.mode = .causal) {window : Option Nat} {packed : PackedCausalRows}
    {rows : Nat → ρ} {query : Nat → Nat → Nat → α} {lanes : List (PackedLane σ)} (total : Nat)
    (base : Nat → Nat) (hbase : ∀ (k : Nat) (l : PackedLane σ), lanes[k]? = some l →
      base (k + 1) = base k + l.lane.tokens.length ∧ base (k + 1) ≤ total)
    (hgraph : ∀ (k : Nat) (l : PackedLane σ), lanes[k]? = some l → 0 < l.lane.tokens.length ∧
      ∀ t < l.lane.tokens.length, packed.graphRow (base k + t) =
        some (l.physical, l.q.state.cursor + t))
    (hidle : ∀ row, base lanes.length ≤ row → packed.graphRow row = none)
    {slots slots' : List (Option (SeqState σ))}
    (hbatch : PackedBatch m w window command slots rows base lanes)
    {out out' : Nat → Nat → Nat → α} {pool' : PoolInner ρ σ}
    (hturns : packedTurns c slab exp kernel window command packed rows query
      (List.range' (base 0) (total - base 0)) w.pool slots out = (.ok out', pool', slots')) :
    (∀ (k : Nat) (l : PackedLane σ), lanes[k]? = some l → ∀ t < l.lane.tokens.length,
      ∀ head column, out' (base k + t) head column = fullAttention slab exp m kernel command
        (l.q.history ++ l.lane.tokens.take (t + 1)) (query (base k + t)) head column) ∧
      ∀ r < base 0, out' r = out r := by
  induction lanes generalizing w base slots out with
  | nil =>
    have hskip : ∀ row ∈ List.range' (base 0) (total - base 0), packed.graphRow row = none :=
      fun row hrow => hidle row (mem_range'_1.mp hrow).1
    rw [packedTurns_idle hskip] at hturns
    cases hturns
    exact ⟨fun _ _ hk => (by cases hk), fun _ _ => rfl⟩
  | cons l lanes ih =>
    obtain ⟨hsucc, hle⟩ := hbase 0 l rfl
    obtain ⟨hpos, hrows⟩ := hgraph 0 l rfl
    have hsplit : List.range' (base 0) (total - base 0) =
        List.range' (base 0) l.lane.tokens.length ++
          List.range' (base (0 + 1)) (total - base (0 + 1)) := by
      rw [hsucc, List.range'_append_1]
      congr 1
      omega
    rw [hsplit] at hturns
    obtain ⟨w₁, slots₁, out₁, h₁, hbatch₁, hrest, houts, hother⟩ :=
      h.chain hretains hnew hexp hwindow hcausal hbatch hpos hrows hturns
    obtain ⟨hlater, hkept⟩ := ih h₁ (fun k => base (k + 1)) (fun k => hbase (k + 1))
      (fun k => hgraph (k + 1)) hidle hbatch₁ hrest
    refine ⟨fun k l' hk => ?_, fun r hr => ?_⟩
    · cases k with
      | succ k => exact hlater k l' hk
      | zero =>
        obtain rfl := Option.some.inj hk
        intro t ht head column
        rw [hkept _ (by omega)]
        exact houts t ht head column
    · rw [hkept r (by omega), hother r hr]

end Outputs

theorem exp_laws : ExpLaws Real.exp := ⟨Real.exp_sub, Real.exp_ne_zero⟩

section Exact

variable {ρ σ : Type} {c : PoolConfig} {m : Computation ρ σ} {windows : Nat → Option Nat}
  {w : World ρ σ} {command : AttentionCommand}

/-- The rows of the lanes of a packed execution, from their offsets on. -/
def PackedCausalRows.base (packed : PackedCausalRows) (k : Nat) : Nat :=
  packed.rowOffsets.getD k 0

theorem Attending.packed_exact [Zero σ] (slab : SlabRow ρ ℝ) (kernel : AttentionKernel ℝ)
    (h : Attending c m windows w) (hretains : Retains c windows)
    (hnew : c.recurrent = true → captureRecurrentSnapshot (SeqState.new c) = m.recurrent [])
    (hwindow : command.window = windows command.layer) (hcausal : command.mode = .causal)
    {lanes : List (PackedLane σ)} {graphRows physicalBatch : Nat} {packed : PackedCausalRows}
    (hbuild : PackedCausalRows.build graphRows physicalBatch (lanes.map (·.physical))
      (lanes.map (·.q.state.cursor)) (lanes.map (·.lane.tokens.length)) = .ok packed)
    {window : Option Nat} {slots slots' : List (Option (SeqState σ))} {rows : Nat → ρ}
    (hbatch : PackedBatch m w window command slots rows packed.base lanes)
    {query : Nat → Nat → Nat → ℝ} {out : Nat → Nat → Nat → ℝ} {pool' : PoolInner ρ σ}
    (hpacked : packedAttention c slab Real.exp kernel window command packed rows query w.pool
      slots = (.ok out, pool', slots')) {k : Nat} {l : PackedLane σ} (hk : lanes[k]? = some l)
    {t : Nat} (ht : t < l.lane.tokens.length) (head column : Nat) :
    out (packed.base k + t) head column = fullAttention slab Real.exp m kernel command
      (l.q.history ++ l.lane.tokens.take (t + 1)) (query (packed.base k + t)) head column := by
  have hmap : ∀ {β : Type} (f : Nat × Nat × Nat → β) (g : PackedLane σ → β),
      (∀ l, g l = f l.entry) → lanes.map g = (lanes.map PackedLane.entry).map f :=
    fun f g hfg => by
      rw [map_map]
      exact map_congr_left fun l _ => hfg l
  rw [hmap (·.1) (·.physical) fun _ => rfl, hmap (·.2.1) (·.q.state.cursor) fun _ => rfl,
    hmap (·.2.2) (·.lane.tokens.length) fun _ => rfl] at hbuild
  obtain ⟨htotal, hfit, hoffsets, hrows, hidle⟩ := build_laid hbuild
  rw [length_map] at hfit hoffsets hidle
  have hbase : ∀ k ≤ lanes.length, packed.base k = laneBase (lanes.map PackedLane.entry) k :=
    fun k hk => by
      rw [PackedCausalRows.base, getD_eq_getElem?_getD, hoffsets k hk]
      rfl
  have hentry : ∀ (k : Nat) (l : PackedLane σ), lanes[k]? = some l →
      (lanes.map PackedLane.entry)[k]? = some l.entry := fun k l hk => by
    rw [List.getElem?_map, hk]
    rfl
  unfold packedAttention at hpacked
  rw [htotal, range_eq_range'] at hpacked
  have hzero : packed.base 0 = 0 := hbase 0 (Nat.zero_le _)
  refine (h.packed hretains hnew exp_laws hwindow hcausal graphRows packed.base (fun k l hk => ?_) (fun k l hk => ?_) (fun row hrow => ?_) hbatch (by
      rw [hzero]
      exact hpacked)).1 k l hk t ht head column
  · have hlt := (List.getElem?_eq_some_iff.mp hk).1
    have hle := laneBase_le (hentry k l hk)
    rw [length_map] at hle
    rw [hbase k (Nat.le_of_lt hlt), hbase (k + 1) hlt, laneBase_succ (hentry k l hk)]
    exact ⟨rfl, Nat.le_trans hle hfit⟩
  · have hlt := (List.getElem?_eq_some_iff.mp hk).1
    rw [hbase k (Nat.le_of_lt hlt)]
    exact hrows k l.entry (hentry k l hk)
  · rw [hbase _ (Nat.le_refl _)] at hrow
    exact hidle row hrow

/-- The output of a chunk. -/
theorem Attending.append_exact (slab : SlabRow ρ ℝ) (kernel : AttentionKernel ℝ)
    (h : Attending c m windows w) (hretains : Retains c windows)
    (hwindow : command.window = windows command.layer) (hcausal : command.mode = .causal)
    {i : Nat} {q : Sequence σ} {lane : Lane} {rows : List ρ} {query : Nat → Nat → Nat → ℝ}
    {start : Nat} {out : Nat → Nat → Nat → ℝ} {pool : PoolInner ρ σ} {state : SeqState σ}
    (hrunning : w.running i = some (q, lane)) (hphase : lane.phase = .running)
    (hcomputes : Computes m w (.attend i command rows))
    (hrow : kvAttentionRow c slab Real.exp kernel w.pool q.state lane.window command none rows
      query = (.ok (start, out), pool, state))
    {token : Nat} (ht : token < lane.tokens.length) (head column : Nat) :
    out token head column = fullAttention slab Real.exp m kernel command
      (q.history ++ lane.tokens.take (token + 1)) (query token) head column := by
  obtain ⟨hq, hlane, hr, hlive, _⟩ := h.held.running hrunning
  have hadvance := (hlive.lane lane hlane).advance
  obtain ⟨⟨descriptor, hlayer, _, hout⟩, _, _, _, _⟩ := kvAttentionRow_ok c slab Real.exp hrow
  obtain ⟨hattended, hlen⟩ : Attended c w.pool q.state command.layer 0
      (rows.take q.state.advance) pool state ∧ q.state.advance ≤ rows.length := by
    rcases kvAttention_cases (kvAttentionRow_append c slab Real.exp hrow) with
      ⟨_, herr, _⟩ | ⟨hattended, ⟨_, herr⟩ | ⟨_, hlen⟩⟩
    · cases herr
    · cases herr
    · exact ⟨hattended, hlen⟩
  have hrows : ∀ (t : Nat) (row : ρ), (rows.take q.state.advance)[t]? = some row →
      row = m.row command.layer (q.history ++ lane.tokens.take (t + 1)) := by
    intro t row hget
    rw [List.getElem?_take] at hget
    split at hget
    · next hlt => exact hcomputes (q, lane) hrunning t (by rwa [← hadvance]) row hget
    · cases hget
  rw [hout]
  exact h.output hretains exp_laws hwindow hcausal hrunning hphase hattended hrows hlayer
    (by rw [length_take, Nat.min_eq_left hlen, hadvance]; exact ht) rfl query head column

/-- In every appending run: no position that a later query reads is evicted; each token
of a chunk gets full attention over its history; and each row of a packed chain gets
it too, which is the output of a single-token execution after the tokens before it. -/
theorem paged_attention_exact [Zero σ] (slab : SlabRow ρ ℝ) (kernel : AttentionKernel ℝ)
    (hretains : Retains c windows)
    (hnew : c.recurrent = true → captureRecurrentSnapshot (SeqState.new c) = m.recurrent [])
    (hw : (pagePool c (Appending c m windows)).Reachable w)
    (hwindow : command.window = windows command.layer) (hcausal : command.mode = .causal) :
    (∀ (i : Nat) (q : Sequence σ), w.sequences[i]? = some q → q.released = false →
      (∀ lane, q.lane = some lane → lane.Open) → ∀ layer < c.kvLayers.length,
      q.state.head * c.blockSize ≤ windowStart (windows layer) (q.state.cursor + 1)) ∧
    (∀ (i : Nat) (q : Sequence σ) (lane : Lane) (rows : List ρ) (query : Nat → Nat → Nat → ℝ)
        (start : Nat) (out : Nat → Nat → Nat → ℝ) (pool : PoolInner ρ σ) (state : SeqState σ),
      w.running i = some (q, lane) → lane.phase = .running →
      Computes m w (.attend i command rows) →
      kvAttentionRow c slab Real.exp kernel w.pool q.state lane.window command none rows query =
        (.ok (start, out), pool, state) →
      ∀ token < lane.tokens.length, ∀ head column,
        out token head column = fullAttention slab Real.exp m kernel command
          (q.history ++ lane.tokens.take (token + 1)) (query token) head column) ∧
    ∀ (lanes : List (PackedLane σ)) (graphRows physicalBatch : Nat) (packed : PackedCausalRows)
        (window : Option Nat) (slots slots' : List (Option (SeqState σ))) (rows : Nat → ρ)
        (query : Nat → Nat → Nat → ℝ) (out : Nat → Nat → Nat → ℝ) (pool : PoolInner ρ σ),
      PackedCausalRows.build graphRows physicalBatch (lanes.map (·.physical))
        (lanes.map (·.q.state.cursor)) (lanes.map (·.lane.tokens.length)) = .ok packed →
      PackedBatch m w window command slots rows packed.base lanes →
      packedAttention c slab Real.exp kernel window command packed rows query w.pool slots =
        (.ok out, pool, slots') →
      ∀ (k : Nat) (l : PackedLane σ), lanes[k]? = some l → ∀ t < l.lane.tokens.length,
        ∀ head column,
        out (packed.base k + t) head column = fullAttention slab Real.exp m kernel command
          (l.q.history ++ l.lane.tokens.take (t + 1)) (query (packed.base k + t)) head column ∧
        ∀ (w₁ : World ρ σ) (i : Nat) (q : Sequence σ) (lane : Lane) (start : Nat)
            (single : Nat → Nat → Nat → ℝ) (pool₁ : PoolInner ρ σ) (state₁ : SeqState σ),
          (pagePool c (Appending c m windows)).Reachable w₁ → w₁.running i = some (q, lane) →
          lane.phase = .running → q.history = l.q.history ++ l.lane.tokens.take t →
          lane.tokens = (l.lane.tokens.drop t).take 1 →
          kvAttentionRow c slab Real.exp kernel w₁.pool q.state lane.window command none
              [rows (packed.base k + t)] (fun _ => query (packed.base k + t)) =
            (.ok (start, single), pool₁, state₁) →
          single 0 head column = out (packed.base k + t) head column := by
  have h := attending_reachable hretains hnew hw
  refine ⟨fun i q hq hr hopen => (h.kept.sequences i q hq hr).opened hopen, ?_, ?_⟩
  · intro i q lane rows query start out pool state hrunning hphase hcomputes hrow token ht head
      column
    exact h.append_exact slab kernel hretains hwindow hcausal hrunning hphase hcomputes hrow ht
      head column
  · intro lanes graphRows physicalBatch packed window slots slots' rows query out pool hbuild
      hbatch hpacked k l hk t ht head column
    have hout := h.packed_exact slab kernel hretains hnew hwindow hcausal hbuild hbatch hpacked hk
      ht head column
    refine ⟨hout, ?_⟩
    intro w₁ i q lane start single pool₁ state₁ hw₁ hrunning hphase hhistory htokens hrow
    have h₁ := attending_reachable hretains hnew hw₁
    obtain ⟨token, htoken⟩ : ∃ token, l.lane.tokens[t]? = some token :=
      ⟨_, List.getElem?_eq_getElem ht⟩
    have hone : lane.tokens = [token] := by
      rw [htokens, take_one, List.head?_drop, htoken]
      rfl
    have hhistory' : q.history ++ [token] = l.q.history ++ l.lane.tokens.take (t + 1) := by
      rw [hhistory, take_add_one, htoken, append_assoc]
      rfl
    have hcomputes : Computes m w₁ (.attend i command [rows (packed.base k + t)]) := by
      intro lane' hrunning' u hu row hget
      rw [hrunning] at hrunning'
      obtain rfl := Option.some.inj hrunning'
      replace hu : u < lane.tokens.length := hu
      rw [hone, length_singleton] at hu
      obtain rfl := Nat.lt_one_iff.mp hu
      obtain rfl := Option.some.inj hget
      show _ = m.row command.layer (q.history ++ lane.tokens.take (0 + 1))
      rw [(hbatch.given k l hk).rows t ht, hone, ← hhistory']
      rfl
    rw [h₁.append_exact slab kernel hretains hwindow hcausal hrunning hphase hcomputes hrow
      (by rw [hone]; exact Nat.zero_lt_one) head column, hout, ← hhistory', hone]
    rfl

end Exact

section Decidable

variable {ρ σ : Type} {c : PoolConfig} {m : Computation ρ σ} {windows : Nat → Option Nat}

instance : (event : Event ρ σ) → Decidable event.ForkOnly
  | .prefillMatch .. => isFalse id
  | .create | .snapshot .. | .fork .. | .releasePrefix .. | .releaseSequence .. | .begin ..
  | .attend .. | .rollback .. | .commit .. | .finish .. | .publish .. => isTrue trivial

instance (window : Option Nat) : Decidable (Covers c windows window) :=
  inferInstanceAs (Decidable (∀ evicted ∈ window, ∀ layer < c.kvLayers.length,
    ∃ window ∈ windows layer, window ≤ evicted))

instance : (event : Event ρ σ) → Decidable (CoversLayers c windows event)
  | .begin _ window _ =>
    inferInstanceAs (Decidable (c.explicitLayers = false → Covers c windows window))
  | .create | .prefillMatch .. | .snapshot .. | .fork .. | .releasePrefix ..
  | .releaseSequence .. | .attend .. | .rollback .. | .commit .. | .finish .. | .publish .. =>
    isTrue trivial

instance [DecidableEq ρ] [DecidableEq σ] [DecidablePred (· ∈ m.used)] (w : World ρ σ)
    (event : Event ρ σ) : Decidable (Appending c m windows w event) :=
  inferInstanceAs (Decidable (event.ForkOnly ∧ Computes m w event ∧ CoversLayers c windows event))

end Decidable

/-- A model whose row is the decimal number of the history. -/
def decimal : Computation Nat Nat where
  used := Set.univ
  row := fun _ history => history.foldl (fun number token => number * 10 + token.toNat) 0
  recurrent := fun _ => ⟨[], []⟩

instance : DecidablePred (· ∈ decimal.used) := fun _ => isTrue trivial

/-- A command with a window of one position. -/
def windowedCommand : AttentionCommand := ⟨0, some 1, .causal, 1, 1, 4⟩

/-- Three tokens, whose first page is evicted, then a chunk of two. -/
def windowedRun : List (Event Nat Nat) :=
  [.create, .begin 0 (some 1) [7, 8, 9], .attend 0 windowedCommand [7, 78, 789],
    .commit 0 [] [], .finish 0, .publish 0, .begin 0 (some 1) [6, 4]]

/-- A row is its own key and value. -/
noncomputable def plainSlab : SlabRow Nat ℝ := ⟨fun row _ _ => row, fun row _ _ => row⟩

noncomputable def plainKernel : AttentionKernel ℝ := ⟨1, 1, false⟩

/-- The inputs of the chunk of two, one graph row each. -/
def windowedRows (row : Nat) : Nat := if row = 0 then 7896 else 78964

/-- The chunk of two as an append and as a packed chain. -/
theorem paged_attention_exact_windowed :
    ∃ (w : World Nat Nat) (q : Sequence Nat) (lane : Lane) (out chain : Nat → Nat → Nat → ℝ),
      (pagePool smallPool (Appending smallPool decimal fun _ => some 1)).Reachable w ∧
      w.running 0 = some (q, lane) ∧ q.state.head = 1 ∧
      (∃ start pool state, kvAttentionRow smallPool plainSlab Real.exp plainKernel w.pool q.state
        lane.window windowedCommand none [7896, 78964] (fun _ _ _ => 1) =
          (.ok (start, out), pool, state)) ∧
      (∃ packed pool slots, PackedCausalRows.build 3 1 [0] [q.state.cursor] [2] = .ok packed ∧
        packedAttention smallPool plainSlab Real.exp plainKernel (some 1) windowedCommand packed
          windowedRows (fun _ _ _ => 1) w.pool [some q.state] = (.ok chain, pool, slots)) ∧
      out 1 0 0 = fullAttention plainSlab Real.exp decimal plainKernel windowedCommand
        [7, 8, 9, 6, 4] (fun _ _ => 1) 0 0 ∧
      chain 1 0 0 = out 1 0 0 := by
  have hrun : (windowedRun.foldlM (fun w event =>
      if Appending smallPool decimal (fun _ => some 1) w event then w.perform smallPool event
      else none) (World.new smallPool fun _ _ => 0)).map (fun w => (w.running 0).map fun lane =>
        decide (lane.1.history = [7, 8, 9] ∧ lane.2.tokens = [6, 4] ∧ lane.2.phase = .running ∧
          lane.2.window = some 1 ∧ lane.1.state.head = 1) &&
        (kvAttentionRow smallPool plainSlab Real.exp plainKernel w.pool lane.1.state lane.2.window
          windowedCommand none [7896, 78964] fun _ _ _ => 1).1.toBool &&
        ((PackedCausalRows.build 3 1 [0] [lane.1.state.cursor] [2]).map fun packed =>
          (packedAttention smallPool plainSlab Real.exp plainKernel (some 1) windowedCommand packed
            windowedRows (fun _ _ _ => 1) w.pool [some lane.1.state]).1.toBool).toOption.getD
              false) = some (some true) := by
    decide +kernel
  obtain ⟨w, hw, hmap⟩ := Option.map_eq_some_iff.mp hrun
  obtain ⟨⟨q, lane⟩, hrunning, hfacts⟩ := Option.map_eq_some_iff.mp hmap
  have hreach := reachable_checked (Appending smallPool decimal fun _ => some 1)
    (.init ⟨_, rfl⟩) hw
  rw [Bool.and_eq_true, Bool.and_eq_true, decide_eq_true_eq] at hfacts
  obtain ⟨⟨⟨hhistory, htokens, hphase, hwindow, hhead⟩, happend⟩, hchain⟩ := hfacts
  obtain ⟨start, out, pool, state, hrow⟩ : ∃ start out pool state,
      kvAttentionRow smallPool plainSlab Real.exp plainKernel w.pool q.state lane.window
        windowedCommand none [7896, 78964] (fun _ _ _ => 1) = (.ok (start, out), pool, state) := by
    rcases hresult : kvAttentionRow smallPool plainSlab Real.exp plainKernel w.pool q.state
      lane.window windowedCommand none [7896, 78964] (fun _ _ _ => 1) with
      ⟨_ | ⟨start, out⟩, pool, state⟩
    · rw [hresult] at happend
      cases happend
    · exact ⟨start, out, pool, state, rfl⟩
  obtain ⟨packed, chain, pool', slots, hbuild, hpacked⟩ : ∃ packed chain pool slots,
      PackedCausalRows.build 3 1 [0] [q.state.cursor] [2] = .ok packed ∧
      packedAttention smallPool plainSlab Real.exp plainKernel (some 1) windowedCommand packed
        windowedRows (fun _ _ _ => 1) w.pool [some q.state] = (.ok chain, pool, slots) := by
    rcases hlayout : PackedCausalRows.build 3 1 [0] [q.state.cursor] [2] with _ | packed
    · rw [hlayout] at hchain
      cases hchain
    · rw [hlayout] at hchain
      rcases hresult : packedAttention smallPool plainSlab Real.exp plainKernel (some 1)
        windowedCommand packed windowedRows (fun _ _ _ => 1) w.pool [some q.state] with
        ⟨_ | chain, pool, slots⟩
      · replace hchain : (packedAttention smallPool plainSlab Real.exp plainKernel (some 1)
          windowedCommand packed windowedRows (fun _ _ _ => 1) w.pool [some q.state]).1.toBool =
            true := hchain
        rw [hresult] at hchain
        cases hchain
      · exact ⟨packed, chain, pool, slots, rfl, hresult⟩
  have hrows : ∀ t < lane.tokens.length, ∀ row ∈ ([7896, 78964] : List Nat)[t]?,
      row = decimal.row 0 (q.history ++ lane.tokens.take (t + 1)) := by
    rw [hhistory, htokens]
    decide +kernel
  have hcomputes : Computes decimal w (.attend 0 windowedCommand [7896, 78964]) := by
    intro lane' hrunning' t ht row hget
    rw [hrunning] at hrunning'
    obtain rfl := Option.some.inj hrunning'
    exact hrows t ht row hget
  have hbase : packed.base 0 = 0 := by
    obtain ⟨_, _, hoffsets, _⟩ := @build_laid [(0, q.state.cursor, 2)] packed 3 1 hbuild
    rw [PackedCausalRows.base, getD_eq_getElem?_getD, hoffsets 0 (Nat.zero_le _)]
    rfl
  have hbatch : PackedBatch decimal w (some 1) windowedCommand [some q.state] windowedRows
      packed.base [⟨0, 0, q, lane⟩] := by
    refine ⟨nodup_singleton _, nodup_singleton _, fun k l hk => ?_⟩
    cases k with
    | succ k => cases hk
    | zero =>
      obtain rfl := Option.some.inj hk
      have hgiven : ∀ t < lane.tokens.length, windowedRows (0 + t) =
          decimal.row 0 (q.history ++ lane.tokens.take (t + 1)) := by
        rw [hhistory, htokens]
        decide +kernel
      refine ⟨hrunning, hphase, hwindow, rfl, ?_⟩
      rw [hbase]
      exact hgiven
  have hretains : Retains smallPool fun _ => some 1 := by
    intro layer descriptor hlayer retention hretention
    cases layer with
    | zero =>
      obtain rfl := Option.some.inj hlayer
      cases hretention
    | succ layer => cases hlayer
  obtain ⟨_, happends, hchains⟩ := paged_attention_exact plainSlab plainKernel hretains
    (fun hrec => by cases hrec) hreach (show windowedCommand.window = some 1 from rfl)
    (show windowedCommand.mode = .causal from rfl)
  have hout := happends 0 q lane _ _ start out pool state hrunning hphase hcomputes hrow 1
    (by rw [htokens]; decide) 0 0
  have hpair : PackedCausalRows.build 3 1 [0] [q.state.cursor] [lane.tokens.length] =
      .ok packed := by
    rw [htokens]
    exact hbuild
  have hlast := (hchains [⟨0, 0, q, lane⟩] 3 1 packed (some 1) _ _ windowedRows _ chain pool' hpair
    hbatch hpacked 0 ⟨0, 0, q, lane⟩ rfl 1 (by rw [htokens]; decide) 0 0).1
  rw [hbase] at hlast
  refine ⟨w, q, lane, out, chain, hreach, hrunning, hhead, ⟨start, pool, state, hrow⟩,
    ⟨packed, pool', slots, hbuild, hpacked⟩, ?_, hlast.trans hout.symm⟩
  rw [hout, hhistory, htokens]
  rfl

end EffectTorch
