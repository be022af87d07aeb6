import EffectTorch.Cpu.PoolShared

/-!
# What the pages of sequences and prefixes hold

A model computes a row for each layer and a recurrent state from a token history.
While executions write what the model computes, live tables hold the rows of their
history.

Results:
1. `Contents.update`: a step on one sequence that leaves the pages of the others alone.
2. `Contents.perform`: every step but `prefillMatch` keeps the contents, for every
   lawful invariant.
-/

namespace EffectTorch
open List Option Lib BlockStore

/-- What a model computes from a token history: the row of its last position at each
layer, and the recurrent states. `used` are the histories in use. -/
structure Computation (ρ σ : Type) where
  used : Set (List Token)
  row : Nat → List Token → ρ
  recurrent : List Token → RecurrentSnapshot σ

section Contents

variable {ρ σ : Type} {c : PoolConfig} {m : Computation ρ σ} {w w' : World ρ σ} {i : Nat}
  {q q' : Sequence σ} {rows rows' : Nat → Nat → ρ} {I : BlockStore σ → List Nat → Prop}

def Computation.InUse (m : Computation ρ σ) (history : List Token) : Prop :=
  ∀ k, history.take k ∈ m.used

theorem Computation.InUse.take {history : List Token} (h : m.InUse history) (n : Nat) :
    m.InUse (history.take n) := fun k => by
  rw [take_take]
  exact h _

theorem Computation.InUse.mem {history : List Token} (h : m.InUse history) :
    history ∈ m.used := by
  have := h history.length
  rwa [take_length] at this

/-! ## The invariant -/

/-- A table holds the rows of a history, where its head has not passed. -/
def Holds (c : PoolConfig) (m : Computation ρ σ) (rows : Nat → Nat → ρ) (blocks : List Nat)
    (head : Nat) (history : List Token) : Prop :=
  ∀ layer < c.kvLayers.length, ∀ position < history.length, head ≤ position / c.blockSize →
    rowAt c rows blocks layer position = m.row layer (history.take (position + 1))

/-- What the metadata of a table of `cursor` positions says of its history. -/
structure Describes (c : PoolConfig) (m : Computation ρ σ) (cursor : Nat) (lastHash : UInt64)
    (pending : List Token) (history : List Token) : Prop where
  used : m.InUse history
  length : history.length = cursor
  lastHash : lastHash = chainHash hashSeed (history.take (cursor / c.blockSize * c.blockSize))
  pending : pending = history.drop (cursor / c.blockSize * c.blockSize)

/-- A lane works on the history of its sequence and its tokens. -/
structure Lane.Content (c : PoolConfig) (m : Computation ρ σ) (rows : Nat → Nat → ρ)
    (q : Sequence σ) (lane : Lane) : Prop where
  used : m.InUse (q.history ++ lane.tokens)
  rows : lane.phase ≠ .failed → ∀ layer ∈ lane.attended, ∀ t < lane.tokens.length,
    q.state.head ≤ (q.state.cursor + t) / c.blockSize →
    rowAt c rows q.state.blocks layer (q.state.cursor + t) =
      m.row layer (q.history ++ lane.tokens.take (t + 1))
  opened : c.recurrent = true → lane.Open →
    captureRecurrentSnapshot q.state = m.recurrent q.history
  closed : c.recurrent = true → ¬ lane.Open →
    captureRecurrentSnapshot q.state = m.recurrent (q.history ++ lane.tokens)

structure Sequence.Content (c : PoolConfig) (m : Computation ρ σ) (rows : Nat → Nat → ρ)
    (q : Sequence σ) : Prop where
  describes : Describes c m q.state.cursor q.state.lastHash q.state.pending q.history
  holds : Holds c m rows q.state.blocks q.state.head q.history
  idle : c.recurrent = true → q.lane = none →
    captureRecurrentSnapshot q.state = m.recurrent q.history
  lane : ∀ lane, q.lane = some lane → lane.Content c m rows q

structure PrefixData.Content (c : PoolConfig) (m : Computation ρ σ) (rows : Nat → Nat → ρ)
    (p : PrefixData σ) : Prop where
  describes : Describes c m p.cursor p.lastHash p.pending p.history
  holds : Holds c m rows p.blocks p.head p.history
  recurrent : c.recurrent = true → p.recurrent = m.recurrent p.history

structure Contents (c : PoolConfig) (m : Computation ρ σ) (w : World ρ σ) : Prop where
  sequences : ∀ (i : Nat) (q : Sequence σ), w.sequences[i]? = some q → q.released = false →
    q.Content c m w.pool.rows
  prefixes : ∀ (p : Nat) (data : PrefixData σ), w.prefixes[p]? = some (some data) →
    data.Content c m w.pool.rows

theorem contents_new (rows : Nat → Nat → ρ) : Contents c m (World.new c rows : World ρ σ) where
  sequences _ _ h := by cases h
  prefixes _ _ h := by cases h

/-- The inputs of an execution are what the model computes. -/
def Computes (m : Computation ρ σ) (w : World ρ σ) : Event ρ σ → Prop
  | .begin i _ tokens => ∀ q ∈ w.idle i, m.InUse (q.history ++ tokens)
  | .attend i command rows => ∀ lane ∈ w.running i, ∀ t < lane.2.tokens.length,
      ∀ row ∈ rows[t]?, row = m.row command.layer (lane.1.history ++ lane.2.tokens.take (t + 1))
  | .commit i kda conv => ∀ lane ∈ w.running i,
      ⟨kda, conv⟩ = m.recurrent (lane.1.history ++ lane.2.tokens)
  | .prefillMatch _ tokens => m.InUse tokens
  | .create => m.InUse []
  | _ => True

theorem Computation.inUse_iff {history : List Token} :
    m.InUse history ↔ ∀ k < history.length + 1, history.take k ∈ m.used := by
  refine ⟨fun h k _ => h k, fun h k => ?_⟩
  rcases Nat.lt_or_ge k (history.length + 1) with hlt | hge
  · exact h k hlt
  · have hlast := h history.length (Nat.lt_succ_self _)
    rwa [take_length, ← take_of_length_le (by omega : history.length ≤ k)] at hlast

section Decidable

variable [DecidablePred (· ∈ m.used)]

instance (history : List Token) : Decidable (m.InUse history) :=
  decidable_of_iff _ Computation.inUse_iff.symm

instance [DecidableEq ρ] [DecidableEq σ] (w : World ρ σ) :
    (event : Event ρ σ) → Decidable (Computes m w event)
  | .begin i _ tokens =>
    inferInstanceAs (Decidable (∀ q ∈ w.idle i, m.InUse (q.history ++ tokens)))
  | .attend i command rows =>
    inferInstanceAs (Decidable (∀ lane ∈ w.running i, ∀ t < lane.2.tokens.length,
      ∀ row ∈ rows[t]?, row = m.row command.layer (lane.1.history ++ lane.2.tokens.take (t + 1))))
  | .commit i kda conv =>
    inferInstanceAs (Decidable (∀ lane ∈ w.running i,
      ⟨kda, conv⟩ = m.recurrent (lane.1.history ++ lane.2.tokens)))
  | .prefillMatch _ tokens => inferInstanceAs (Decidable (m.InUse tokens))
  | .create => inferInstanceAs (Decidable (m.InUse []))
  | .snapshot .. | .fork .. | .releasePrefix .. | .releaseSequence .. | .rollback .. | .finish ..
  | .publish .. => isTrue trivial

end Decidable

/-! ## Steps -/

theorem Holds.congr {blocks : List Nat} {head : Nat} {history : List Token}
    (h : Holds c m rows blocks head history)
    (hcovered : c.kvLayers ≠ [] → history.length ≤ blocks.length * c.blockSize)
    (hsame : ∀ k b : Nat, head ≤ k → blocks[k]? = some b → ∀ layer, ∀ off < c.blockSize,
      rows' layer (b * c.blockSize + off) = rows layer (b * c.blockSize + off)) :
    Holds c m rows' blocks head history := by
  intro layer hlayer position hlt hhead
  obtain ⟨b, hb⟩ := page_of_lt hlt (hcovered (paged_of_layer hlayer))
  rw [← h layer hlayer position hlt hhead, rowAt_of_getElem? hb, rowAt_of_getElem? hb]
  exact hsame _ b hhead hb layer _ (Nat.mod_lt _ c.blockSize_pos)

/-- Rows that stay in the pages of a sequence stay in its content. -/
theorem Sequence.Content.congr (h : q.Content c m rows) (hlive : q.Live c)
    (hsame : ∀ b ∈ q.handles, ∀ layer, ∀ off < c.blockSize,
      rows' layer (b * c.blockSize + off) = rows layer (b * c.blockSize + off)) :
    q.Content c m rows' where
  describes := h.describes
  holds := h.holds.congr (fun hpaged => h.describes.length ▸ hlive.covered hpaged)
    fun k b hk hb => hsame b (live_subset_handles q (mem_live hk hb))
  idle := h.idle
  lane lane hlane :=
    { h.lane lane hlane with
      rows := fun hphase layer hlayer t ht hhead => by
        rw [← (h.lane lane hlane).rows hphase layer hlayer t ht hhead]
        have hls := hlive.lane lane hlane
        have hle := (hls.attended (ne_nil_of_mem hlayer)).2
        rw [hls.advance] at hle
        obtain ⟨b, hb⟩ := page_of_lt (show q.state.cursor + t < _ by omega) hle
        rw [rowAt_of_getElem? hb, rowAt_of_getElem? hb]
        exact hsame b (live_subset_handles q (mem_live hhead hb)) layer _
          (Nat.mod_lt _ c.blockSize_pos) }

theorem PrefixData.Content.congr {data : PrefixData σ} (h : data.Content c m rows)
    (hshaped : data.Shaped c)
    (hsame : ∀ b ∈ data.handles, ∀ layer, ∀ off < c.blockSize,
      rows' layer (b * c.blockSize + off) = rows layer (b * c.blockSize + off)) :
    data.Content c m rows' where
  describes := h.describes
  holds := h.holds.congr (fun hpaged => h.describes.length ▸ hshaped.length_ge hpaged)
    fun k b hk hb => hsame b (by
      have hidx : (data.blocks.drop data.head)[k - data.head]? = some b := by
        rw [List.getElem?_drop, Nat.add_sub_cancel' hk, hb]
      exact mem_of_getElem? hidx)
  recurrent := h.recurrent

/-- A step on one sequence that leaves the pages of the others alone. -/
theorem Contents.update (h : Contents c m w) (hheld : Held c I w) {pool : PoolInner ρ σ}
    (hframe : ∀ b ∈ w.others i, ∀ layer, ∀ off < c.blockSize,
      pool.rows layer (b * c.blockSize + off) = w.pool.rows layer (b * c.blockSize + off))
    (hlocal : q'.released = false → q'.Content c m pool.rows) :
    Contents c m { w with pool, sequences := w.sequences.set i q' } where
  sequences j r hr hrel := by
    rcases getElem?_set_cases hr with ⟨-, -, rfl⟩ | ⟨hj, hr⟩
    · exact hlocal hrel
    · exact (h.sequences j r hr hrel).congr ((hheld.sequences j r hr).live hrel)
        fun b hb => hframe b (mem_others hr hj hb)
  prefixes p data hp := (h.prefixes p data hp).congr (hheld.prefixes p data hp)
    fun b hb => hframe b (prefix_mem_others hp hb)

/-- A step on one sequence that writes nothing. -/
theorem Contents.update_same (h : Contents c m w) (hheld : Held c I w) {store : BlockStore σ}
    (hlocal : q'.released = false → q'.Content c m w.pool.rows) :
    Contents c m (w.setSequence i store q') :=
  h.update hheld (fun _ _ _ _ _ => rfl) hlocal

theorem Contents.begin (h : Contents c m w) (hheld : Held c I w) {window : Option Nat} {tokens : List Token}
    (hcomputes : Computes m w (.begin i window tokens))
    (hs : w.begin c i window tokens = some w') : Contents c m w' := by
  obtain ⟨q, hidle, _, rfl⟩ := begin_some hs
  obtain ⟨hq, hr, hlane⟩ := idle_some hidle
  have hcontent := h.sequences i q hq hr
  refine h.update_same hheld fun _ => ?_
  exact
    { describes := hcontent.describes
      holds := hcontent.holds
      idle := fun _ hnone => by cases hnone
      lane := fun lane hsome => by
        obtain rfl := some.inj hsome
        exact
          { used := hcomputes q hidle
            rows := fun _ layer hlayer => by cases hlayer
            opened := fun hrec _ => hcontent.idle hrec hlane
            closed := fun _ hclosed => absurd (.inl rfl) hclosed } }

/-- What a sequence saw, it still holds. -/
theorem Holds.sees {history : List Token}
    (h : Holds c m rows q.state.blocks q.state.head history)
    (hlen : history.length = q.state.cursor) (hsees : q.Sees c rows rows' q')
    (hr : q'.released = false) :
    Holds c m rows' q'.state.blocks q'.state.head history := by
  obtain ⟨_, _, hhead, hrows⟩ := hsees hr
  intro layer hlayer position hlt hkept
  rw [← h layer hlayer position hlt (Nat.le_trans hhead hkept)]
  exact hrows layer hlayer position (hlen ▸ hlt) hkept

/-- A lane finds its old rows and the ones it has written. -/
theorem Contents.attend (hI : Lawful I) (h : Contents c m w) (hheld : Held c I w)
    (hretained : w.Retained c) {command : AttentionCommand} {rows : List ρ}
    (hcomputes : Computes m w (.attend i command rows))
    (hs : w.attend c i command rows = some w') : Contents c m w' := by
  obtain ⟨hsees, _⟩ := hheld.attend_sees hI hretained hs
  obtain ⟨q, lane, r, pool, state, hrunning, hphase, hkv, rfl⟩ := attend_some hs
  obtain ⟨hq, hlane, hr, hlive, hls⟩ := hheld.running hrunning
  have hcontent := h.sequences i q hq hr
  have hlc := hcontent.lane lane hlane
  have hready := hheld.ready hI hrunning (.inl hphase)
  have ht := hheld.touched hI hrunning hphase hkv
  refine h.update hheld
    (fun b hb layer off => ht.frame layer b off (mem_append_right _ hb)) fun _ => ?_
  -- the sequence sees what it saw, and the rows that were written
  have hlocal := hcontent.holds.sees hcontent.describes.length (hsees.changed hq) hr
  have hrows : ∀ start, r = .ok start → ∀ layer ∈ command.layer :: lane.attended,
      ∀ t < lane.tokens.length, state.head ≤ (state.cursor + t) / c.blockSize →
      rowAt c pool.rows state.blocks layer (state.cursor + t) =
        m.row layer (q.history ++ lane.tokens.take (t + 1)) := by
    rintro start rfl layer hlayer t ht' hhead
    rcases kvAttention_cases hkv with ⟨_, herr, _⟩ | ⟨hattended, ⟨_, herr⟩ | ⟨_, hlen⟩⟩
    · cases herr
    · cases herr
    obtain ⟨_, _, hsame⟩ := ht.same
    rw [hsame] at hhead
    have hcursor : state.cursor = q.state.cursor := by rw [hsame]
    rw [hcursor]
    have hadvance := hls.advance
    by_cases hl : layer = command.layer
    · subst hl
      obtain ⟨row, hrow⟩ : ∃ row, rows[t]? = some row :=
        ⟨_, List.getElem?_eq_getElem (by omega)⟩
      have hwritten := hattended.rowAt_written hI hready
        ((List.getElem?_take_of_lt (by omega)).trans hrow)
      rw [Nat.zero_add] at hwritten
      rw [hwritten]
      exact hcomputes (q, lane) hrunning t ht' row hrow
    · have hold := (mem_cons.mp hlayer).resolve_left hl
      have hle := (hls.attended (ne_nil_of_mem hold)).2
      obtain ⟨b, hb⟩ := page_of_lt (show q.state.cursor + t < _ by omega) hle
      rw [hattended.rowAt_layer hI hready hl hhead
        (List.getElem?_eq_some_iff.mp hb).1]
      exact hlc.rows (by rw [hphase]; decide) layer hold t ht' hhead
  obtain ⟨copiedBytes, blocks, rfl⟩ := ht.same
  exact
    { describes := hcontent.describes
      holds := hlocal
      idle := fun _ hnone => by cases hnone
      lane := fun lane' hsome => by
        obtain rfl := some.inj hsome
        have htokens : (lane.after command.layer r).tokens = lane.tokens := by
          cases r <;> rfl
        have hopen : (lane.after command.layer r).Open := by
          cases r with
          | ok start => exact .inl hphase
          | error e => exact .inr rfl
        exact
          { used := by rw [htokens]; exact hlc.used
            rows := fun hfailed => by
              cases r with
              | ok start => exact hrows start rfl
              | error e => exact absurd rfl hfailed
            opened := fun hrec _ => hlc.opened hrec (.inl hphase)
            closed := fun _ hclosed => absurd hopen hclosed } }

theorem Contents.rollback (h : Contents c m w) (hheld : Held c I w)
    (hretained : w.Retained c) (hs : w.rollback i = some w') :
    Contents c m w' := by
  obtain ⟨hsees, _⟩ := hheld.rollback_sees hretained hs
  obtain ⟨q, lane, store, state, hrunning, hopen, hroll, rfl⟩ := rollback_some hs
  obtain ⟨hq, hlane, hr, hlive, hls⟩ := hheld.running hrunning
  have hcontent := h.sequences i q hq hr
  have hlc := hcontent.lane lane hlane
  have hholds := hcontent.holds.sees hcontent.describes.length (hsees.changed hq) hr
  obtain ⟨blocks, rfl, _⟩ := rollbackLane_fields hroll hls.frontier_le
  refine h.update_same hheld fun _ => ?_
  exact
    { describes := hcontent.describes
      holds := hholds
      idle := fun hrec _ => hlc.opened hrec hopen
      lane := nofun }

theorem Contents.commit (h : Contents c m w) (hheld : Held c I w) {kda conv : List (List σ)}
    (hcomputes : Computes m w (.commit i kda conv)) (hs : w.commit c i kda conv = some w') :
    Contents c m w' := by
  obtain ⟨q, lane, n, hrunning, hphase, _, _, _, rfl⟩ := commit_some hs
  obtain ⟨hq, hlane, hr, _⟩ := hheld.running hrunning
  have hcontent := h.sequences i q hq hr
  have hlc := hcontent.lane lane hlane
  refine h.update_same hheld fun _ => ?_
  exact
    { describes := hcontent.describes
      holds := fun layer hlayer position hlt hkept => hcontent.holds layer hlayer position hlt
        (Nat.le_trans (Nat.le_add_right _ n) hkept)
      idle := fun _ hnone => by cases hnone
      lane := fun lane' hsome => by
        obtain rfl := some.inj hsome
        exact
          { used := hlc.used
            rows := fun _ layer hlayer t ht hkept => hlc.rows (by rw [hphase]; decide) layer hlayer
              t ht (Nat.le_trans (Nat.le_add_right _ n) hkept)
            opened := fun _ hopen => absurd hopen (Lane.not_open (.inl rfl))
            closed := fun _ _ => hcomputes (q, lane) hrunning } }

theorem Contents.finish (h : Contents c m w) (hheld : Held c I w)
    (hs : w.finish i = some w') : Contents c m w' := by
  obtain ⟨q, lane, hrunning, hphase, rfl⟩ := finish_some hs
  obtain ⟨hq, hlane, hr, _⟩ := hheld.running hrunning
  have hcontent := h.sequences i q hq hr
  have hlc := hcontent.lane lane hlane
  refine h.update_same hheld fun _ => ?_
  exact
    { describes := hcontent.describes
      holds := hcontent.holds
      idle := fun _ hnone => by cases hnone
      lane := fun lane' hsome => by
        obtain rfl := some.inj hsome
        exact
          { used := hlc.used
            rows := fun _ => hlc.rows (by rw [hphase]; decide)
            opened := fun _ hopen => absurd hopen (Lane.not_open (.inr rfl))
            closed := fun hrec _ => hlc.closed hrec (Lane.not_open (.inl hphase)) } }

/-- The tokens pending before a chunk and the chunk continue the whole pages. -/
theorem Describes.continue {cursor : Nat} {lastHash : UInt64} {pending history : List Token}
    (h : Describes c m cursor lastHash pending history) (tokens : List Token) (n : Nat) :
    chainHash lastHash ((pending ++ tokens).take n) =
        chainHash hashSeed ((history ++ tokens).take (cursor / c.blockSize * c.blockSize + n)) ∧
      (pending ++ tokens).drop n =
        (history ++ tokens).drop (cursor / c.blockSize * c.blockSize + n) := by
  have hcut : (history.take (cursor / c.blockSize * c.blockSize)).length =
      cursor / c.blockSize * c.blockSize := by
    rw [length_take, h.length]
    exact Nat.min_eq_left (Nat.div_mul_le_self _ _)
  have hall : history ++ tokens =
      history.take (cursor / c.blockSize * c.blockSize) ++ (pending ++ tokens) := by
    rw [h.pending, ← append_assoc, take_append_drop]
  rw [h.lastHash, ← chainHash_append, hall]
  generalize history.take (cursor / c.blockSize * c.blockSize) = front at hcut
  rw [← hcut, take_length_add_append, drop_length_add_append]
  exact ⟨rfl, rfl⟩

theorem whole_pages_add (cursor advance : Nat) :
    cursor / c.blockSize * c.blockSize +
        (cursor % c.blockSize + advance) / c.blockSize * c.blockSize =
      (cursor + advance) / c.blockSize * c.blockSize := by
  rw [← Nat.add_mul]
  congr 1
  have hcut := Nat.div_add_mod cursor c.blockSize
  conv_rhs => rw [← hcut, Nat.add_assoc, Nat.mul_add_div c.blockSize_pos]

/-- After its publication a lane's tokens are part of the history. -/
theorem Contents.published (h : Contents c m w) (hheld : Held c I w) {lane : Lane}
    (hrunning : w.running i = some (q, lane)) (hphase : lane.phase = .finished)
    {store : BlockStore σ} {state : SeqState σ}
    (hpub : publishLane c w.pool.store q.state lane.tokens = (store, state)) :
    Sequence.Content c m w.pool.rows { q with
      state
      lane := none
      history := q.history ++ lane.tokens } := by
  obtain ⟨hq, hlane, hr, hlive, hls⟩ := hheld.running hrunning
  have hcontent := h.sequences i q hq hr
  have hlc := hcontent.lane lane hlane
  have hclosed := Lane.not_open (.inr hphase)
  obtain ⟨hstate, _⟩ := publishLane_spec hlive.pending hpub
  have hlength : (q.history ++ lane.tokens).length = q.state.cursor + q.state.advance := by
    rw [length_append, hcontent.describes.length, hls.advance]
  have hwhole : q.state.cursor / c.blockSize * c.blockSize + wholePages c q.state lane.tokens =
      (q.state.cursor + q.state.advance) / c.blockSize * c.blockSize := by
    rw [wholePages, length_append, hlive.pending, ← hls.advance]
    exact whole_pages_add _ _
  have hholds : Holds c m w.pool.rows q.state.blocks q.state.head (q.history ++ lane.tokens) := by
    intro layer hlayer position hlt hkept
    by_cases hbefore : position < q.state.cursor
    · rw [take_append_of_le_length (by rw [hcontent.describes.length]; omega)]
      exact hcontent.holds layer hlayer position (by rw [hcontent.describes.length]; exact hbefore)
        hkept
    · obtain ⟨t, rfl⟩ := Nat.exists_eq_add_of_le (Nat.le_of_not_lt hbefore)
      have ht : t < lane.tokens.length := by
        rw [hlength, hls.advance] at hlt
        omega
      rw [hlc.rows (by rw [hphase]; decide) layer ((hls.head_closed hclosed).2 layer hlayer) t ht
        hkept, ← hcontent.describes.length, Nat.add_assoc, take_length_add_append]
  have hnamed : Describes c m (q.state.cursor + q.state.advance) state.lastHash state.pending
      (q.history ++ lane.tokens) := by
    obtain ⟨hhash, hpending⟩ :=
      hcontent.describes.continue lane.tokens (wholePages c q.state lane.tokens)
    rw [hwhole] at hhash hpending
    exact
      { used := hlc.used
        length := hlength
        lastHash := by rw [hstate]; exact hhash
        pending := by rw [hstate]; exact hpending }
  have hcapture : c.recurrent = true →
      captureRecurrentSnapshot state = m.recurrent (q.history ++ lane.tokens) := fun hrec => by
    rw [hstate]
    exact hlc.closed hrec hclosed
  refine
    { describes := ?_
      holds := ?_
      idle := fun hrec _ => hcapture hrec
      lane := by rintro _ ⟨⟩ }
  · have hcursor : state.cursor = q.state.cursor + q.state.advance := by rw [hstate]
    show Describes c m state.cursor state.lastHash state.pending _
    rw [hcursor]
    exact hnamed
  · have hblocks : state.blocks = q.state.blocks := by rw [hstate]
    have hhead : state.head = q.state.head := by rw [hstate]
    show Holds c m w.pool.rows state.blocks state.head _
    rw [hblocks, hhead]
    exact hholds

theorem Contents.publish (h : Contents c m w) (hheld : Held c I w)
    (hs : w.publish c i = some w') : Contents c m w' := by
  obtain ⟨q, lane, store, state, hrunning, hphase, hpub, rfl⟩ := publish_some hs
  obtain ⟨hq, _⟩ := running_some hrunning
  exact h.update_same hheld fun _ => h.published hheld hrunning hphase hpub

/-! ## Snapshots and releases -/

theorem Contents.snapshot (h : Contents c m w) (hs : w.snapshot i = some w') :
    Contents c m w' := by
  obtain ⟨q, hidle, rfl⟩ := snapshot_some hs
  obtain ⟨hq, hr, hlane⟩ := idle_some hidle
  have hcontent := h.sequences i q hq hr
  refine ⟨h.sequences, fun p data hp => ?_⟩
  rcases getElem?_concat hp with hold | hnew
  · exact h.prefixes p data hold
  · obtain rfl := some.inj hnew
    exact ⟨hcontent.describes, hcontent.holds, fun hrec => hcontent.idle hrec hlane⟩

theorem Contents.releasePrefix (h : Contents c m w) {p : Nat}
    (hs : w.releasePrefix p = some w') : Contents c m w' := by
  obtain ⟨data, hp, rfl⟩ := releasePrefix_some hs
  refine ⟨h.sequences, fun p' data' hp' => ?_⟩
  exact h.prefixes p' data' (prefix_kept hp')

theorem Contents.releaseSequence (h : Contents c m w) (hheld : Held c I w)
    (hs : w.releaseSequence i = some w') : Contents c m w' := by
  obtain ⟨q, store, state, hidle, _, rfl⟩ := releaseSequence_some hs
  exact h.update_same hheld nofun

section Forks

variable [Zero σ]

theorem Contents.create (h : Contents c m w) (hused : m.InUse [])
    (hnew : c.recurrent = true → captureRecurrentSnapshot (SeqState.new c) = m.recurrent []) :
    Contents c m { w with sequences := w.sequences ++ [⟨SeqState.new c, false, none, []⟩] } where
  sequences j r hr hrel := by
    rcases getElem?_concat hr with hold | rfl
    · exact h.sequences j r hold hrel
    · exact
        { describes := ⟨hused, rfl, by rw [take_nil, chainHash_nil]; rfl, drop_nil.symm⟩
          holds := fun _ _ _ hlt => absurd hlt (Nat.not_lt_zero _)
          idle := fun hrec _ => hnew hrec
          lane := nofun }
  prefixes := h.prefixes

theorem Contents.fork (h : Contents c m w) {p : Nat} (hs : w.fork c p = some w') :
    Contents c m w' := by
  obtain ⟨data, q, hp, hseq, rfl⟩ := fork_some hs
  obtain ⟨_, hlane, hhistory, state, hrestore, hstate⟩ := toSequence_some hseq
  have hcontent := h.prefixes p data hp
  have hcapture : captureRecurrentSnapshot q.state = data.recurrent := by
    rw [hstate, restore_some hrestore]
    rfl
  refine ⟨fun j r hr hrel => ?_, h.prefixes⟩
  rcases getElem?_concat hr with hold | rfl
  · exact h.sequences j r hold hrel
  · exact
      { describes := by rw [hstate, hhistory]; exact hcontent.describes
        holds := by rw [hstate, hhistory]; exact hcontent.holds
        idle := fun hrec _ => by rw [hcapture, hhistory]; exact hcontent.recurrent hrec
        lane := fun lane hsome => by
          rw [hlane] at hsome
          cases hsome }

/-- Every step but a match keeps the contents. -/
theorem Contents.perform (hI : Lawful I) (h : Contents c m w) (hheld : Held c I w)
    (hretained : w.Retained c)
    (hnew : c.recurrent = true → captureRecurrentSnapshot (SeqState.new c) = m.recurrent [])
    {event : Event ρ σ} (hfork : event.ForkOnly) (hcomputes : Computes m w event)
    (hs : w.perform c event = some w') : Contents c m w' := by
  cases event with
  | create =>
    obtain rfl := some.inj hs
    exact h.create hcomputes hnew
  | prefillMatch i tokens => exact hfork.elim
  | snapshot i => exact h.snapshot hs
  | fork p => exact h.fork hs
  | releasePrefix p => exact h.releasePrefix hs
  | releaseSequence i => exact h.releaseSequence hheld hs
  | begin i window tokens => exact h.begin hheld hcomputes hs
  | attend i command rows => exact h.attend hI hheld hretained hcomputes hs
  | rollback i => exact h.rollback hheld hretained hs
  | commit i kda conv => exact h.commit hheld hcomputes hs
  | finish i => exact h.finish hheld hs
  | publish i => exact h.publish hheld hs

end Forks

end Contents

end EffectTorch
