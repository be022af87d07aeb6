import EffectTorch.Cpu.Sequence
import EffectTorch.Lib.Transition

/-!
# The page pool as a transition system

Sequences and prefixes over one pool. A sequence runs in at most one execution at a
time (`run_lock`), and an execution over a batch is the interleaving of its lanes:
`begin`, one `attend` for each attention command, then `rollback`, or `commit` (the
recurrent states and `kv_evict`), `finish` (the transaction is dropped) and `publish`
(hashes, cursor and recurrent snapshot). Between two of these any other operation may
run, so the runs here include every interleaving of executions on disjoint batches.

An executable has an attention command for each layer of its pool: `commit` is
enabled once every layer was attended.
-/

namespace EffectTorch
open Lib

/-! ## State -/

/-- Where a lane of an execution stands. `failed`: a command returned an error, so
that only the rollback is left. -/
inductive Phase where
  | running
  | failed
  | committed
  | finished
deriving DecidableEq, Repr

/-- One lane of a stateful execution: its window and tokens, its frontier and entry
of `eviction_starts` (`none` for `usize::MAX`), and the layers attended so far. -/
structure Lane where
  window : Option Nat
  tokens : List Token
  frontier : CpuSequenceFrontier
  evictionStart : Option Nat
  attended : List Nat
  phase : Phase
deriving DecidableEq

/-- A `NativeKvSequence`. `history` is no data of the source: the tokens whose rows
the pages hold, for statements about them. -/
structure Sequence (σ : Type) where
  state : SeqState σ
  released : Bool
  lane : Option Lane
  history : List Token
deriving DecidableEq

/-- `history` as for a sequence. -/
structure PrefixData (σ : Type) where
  blocks : List Nat
  head : Nat
  cursor : Nat
  lastHash : UInt64
  pending : List Token
  recurrent : RecurrentSnapshot σ
  copiedBytes : Nat
  history : List Token
deriving DecidableEq

/-- A pool with everything that holds pages of it. Sequences and prefixes keep their
index; a released prefix leaves `none`. -/
structure World (ρ σ : Type) where
  pool : PoolInner ρ σ
  sequences : List (Sequence σ)
  prefixes : List (Option (PrefixData σ))

inductive Event (ρ σ : Type) where
  | create
  | prefillMatch (i : Nat) (tokens : List Token)
  | snapshot (i : Nat)
  | fork (p : Nat)
  | releasePrefix (p : Nat)
  | releaseSequence (i : Nat)
  | begin (i : Nat) (window : Option Nat) (tokens : List Token)
  | attend (i : Nat) (command : AttentionCommand) (rows : List ρ)
  | rollback (i : Nat)
  | commit (i : Nat) (kda conv : List (List σ))
  | finish (i : Nat)
  | publish (i : Nat)

section Transitions

variable {ρ σ : Type} (c : PoolConfig)

/-! ## Prefixes -/

/-- `NativeKvSequence::snapshot`. -/
def Sequence.toPrefix (q : Sequence σ) : PrefixData σ where
  blocks := q.state.blocks
  head := q.state.head
  cursor := q.state.cursor
  lastHash := q.state.lastHash
  pending := q.state.pending
  recurrent := captureRecurrentSnapshot q.state
  copiedBytes := q.state.copiedBytes
  history := q.history

/-- `fork_sequence`. -/
def PrefixData.toSequence [Zero σ] (p : PrefixData σ) : Option (Sequence σ) :=
  (restoreRecurrentSnapshot (SeqState.new c) p.recurrent).map fun state =>
    { state := { state with
        blocks := p.blocks
        head := p.head
        cursor := p.cursor
        lastHash := p.lastHash
        pending := p.pending
        copiedBytes := p.copiedBytes }
      released := false
      lane := none
      history := p.history }

/-! ## Handles -/

/-- The pages a sequence holds a reference to: its blocks from `head` on, and the
tail that its transaction retains. -/
def Sequence.handles (q : Sequence σ) : List Nat :=
  q.state.blocks.drop q.state.head ++
    match q.lane with
    | some lane => lane.frontier.tail.toList.map (·.block)
    | none => []

/-- `live_blocks`. -/
def PrefixData.handles (p : PrefixData σ) : List Nat :=
  p.blocks.drop p.head

def prefixHandles (p : Option (PrefixData σ)) : List Nat :=
  match p with
  | some p => p.handles
  | none => []

/-- Every live reference to a page. -/
def World.handles (w : World ρ σ) : List Nat :=
  w.sequences.flatMap Sequence.handles ++ w.prefixes.flatMap prefixHandles

/-! ## Steps -/

def World.setSequence (w : World ρ σ) (i : Nat) (store : BlockStore σ) (q : Sequence σ) :
    World ρ σ :=
  { w with
    pool := { w.pool with store }
    sequences := w.sequences.set i q }

/-- The sequence at `i`, when an operation may use it. -/
def World.idle (w : World ρ σ) (i : Nat) : Option (Sequence σ) :=
  match w.sequences[i]? with
  | some q => if q.released = false ∧ q.lane = none then some q else none
  | none => none

/-- The sequence at `i` with its lane, while it runs in an execution. -/
def World.running (w : World ρ σ) (i : Nat) : Option (Sequence σ × Lane) :=
  match w.sequences[i]? with
  | some q => q.lane.map fun lane => (q, lane)
  | none => none

/-- The checks of `execute_stateful` on one lane. -/
def admitted (window : Option Nat) (state : SeqState σ) (tokens : List Token) : Bool :=
  let windowed :=
    match window with
    | some window => decide (0 < window) && decide (window ≤ c.maxTokens)
    | none => true
  let stop := state.cursor + tokens.length
  windowed && decide (stop ≤ usizeMax) &&
    !(window.isNone && decide (c.retentionStart state.cursor = 0) && decide (c.maxTokens < stop))

/-- Lane `i` enters an execution. -/
def World.begin (w : World ρ σ) (i : Nat) (window : Option Nat) (tokens : List Token) :
    Option (World ρ σ) :=
  match w.idle i with
  | none => none
  | some q =>
    if admitted c window q.state tokens then
      let (store, state, frontier) := beginLane c w.pool.store q.state tokens
      some (w.setSequence i store { q with
        state
        lane := some ⟨window, tokens, frontier, none, [], .running⟩ })
    else none

/-- An attention command reaches lane `i`. -/
def World.attend (w : World ρ σ) (i : Nat) (command : AttentionCommand) (rows : List ρ) :
    Option (World ρ σ) :=
  match w.running i with
  | none => none
  | some (q, lane) =>
    if lane.phase = .running then
      match kvAttention c w.pool q.state lane.window command rows with
      | (.ok start, pool, state) =>
        some { w with
          pool
          sequences := w.sequences.set i { q with
            state
            lane := some { lane with
              evictionStart := some start
              attended := command.layer :: lane.attended } } }
      | (.error _, pool, state) =>
        some { w with
          pool
          sequences := w.sequences.set i { q with
            state
            lane := some { lane with phase := .failed } } }
    else none

/-- The rollback of lane `i`, after a failed command or a cancellation. -/
def World.rollback (w : World ρ σ) (i : Nat) : Option (World ρ σ) :=
  match w.running i with
  | none => none
  | some (q, lane) =>
    if lane.phase = .running ∨ lane.phase = .failed then
      let (store, state) := rollbackLane w.pool.store q.state lane.frontier
      some (w.setSequence i store { q with
        state
        lane := none })
    else none

/-- `commit` on lane `i`: `commit_recurrent_state` copies states of the same shape,
then `kv_evict` runs if a command set an eviction start. -/
def World.commit (w : World ρ σ) (i : Nat) (kda conv : List (List σ)) : Option (World ρ σ) :=
  match w.running i with
  | none => none
  | some (q, lane) =>
    if lane.phase = .running ∧ (∀ layer < c.kvLayers.length, layer ∈ lane.attended) ∧
        kda.map List.length = q.state.kdaStates.map List.length ∧
        conv.map List.length = q.state.convStates.map List.length then
      let state := { q.state with
        kdaStates := kda
        convStates := conv }
      let (store, state) :=
        match lane.evictionStart with
        | some start => kvEvict c w.pool.store state start
        | none => (w.pool.store, state)
      some (w.setSequence i store { q with
        state
        lane := some { lane with phase := .committed } })
    else none

/-- The transaction of lane `i` is dropped, with the tail it retains. -/
def World.finish (w : World ρ σ) (i : Nat) : Option (World ρ σ) :=
  match w.running i with
  | none => none
  | some (q, lane) =>
    if lane.phase = .committed then
      some (w.setSequence i (w.pool.store.unrefBlocks (lane.frontier.tail.toList.map (·.block)))
        { q with
          lane := some { lane with
            frontier := { lane.frontier with tail := none }
            phase := .finished } })
    else none

/-- The end of `execute_stateful` for lane `i`. -/
def World.publish (w : World ρ σ) (i : Nat) : Option (World ρ σ) :=
  match w.running i with
  | none => none
  | some (q, lane) =>
    if lane.phase = .finished then
      let (store, state) := publishLane c w.pool.store q.state lane.tokens
      some (w.setSequence i store { q with
        state
        lane := none
        history := q.history ++ lane.tokens })
    else none

/-- `prefill_match` on sequence `i`. -/
def World.prefill (w : World ρ σ) (i : Nat) (tokens : List Token) : Option (World ρ σ) :=
  match w.idle i with
  | none => none
  | some q =>
    match prefillMatch c w.pool.store q.state tokens with
    | (.ok cursor, store, state) =>
      some (w.setSequence i store { q with
        state
        history := tokens.take cursor })
    | (.error _, store, state) => some (w.setSequence i store { q with state })

def World.snapshot (w : World ρ σ) (i : Nat) : Option (World ρ σ) :=
  match w.idle i with
  | none => none
  | some q =>
    some { w with
      pool := { w.pool with store := w.pool.store.refBlocks (q.state.blocks.drop q.state.head) }
      prefixes := w.prefixes ++ [some q.toPrefix] }

def World.fork [Zero σ] (w : World ρ σ) (p : Nat) : Option (World ρ σ) :=
  match w.prefixes[p]? with
  | some (some data) =>
    match data.toSequence c with
    | some q =>
      some { w with
        pool := { w.pool with store := w.pool.store.refBlocks data.handles }
        sequences := w.sequences ++ [q] }
    | none => none
  | _ => none

/-- Dropping the last reference to a prefix. -/
def World.releasePrefix (w : World ρ σ) (p : Nat) : Option (World ρ σ) :=
  match w.prefixes[p]? with
  | some (some data) =>
    some { w with
      pool := { w.pool with store := w.pool.store.unrefBlocks data.handles }
      prefixes := w.prefixes.set p none }
  | _ => none

def World.releaseSequence (w : World ρ σ) (i : Nat) : Option (World ρ σ) :=
  match w.idle i with
  | none => none
  | some q =>
    let (store, state) := returnBlocks w.pool.store q.state
    some (w.setSequence i store { q with
      state
      released := true })

def World.perform [Zero σ] (w : World ρ σ) : Event ρ σ → Option (World ρ σ)
  | .create =>
    some { w with sequences := w.sequences ++ [⟨SeqState.new c, false, none, []⟩] }
  | .prefillMatch i tokens => w.prefill c i tokens
  | .snapshot i => w.snapshot i
  | .fork p => w.fork c p
  | .releasePrefix p => w.releasePrefix p
  | .releaseSequence i => w.releaseSequence i
  | .begin i window tokens => w.begin c i window tokens
  | .attend i command rows => w.attend c i command rows
  | .rollback i => w.rollback i
  | .commit i kda conv => w.commit c i kda conv
  | .finish i => w.finish i
  | .publish i => w.publish c i

/-- A run of events, if each is enabled in turn. -/
def World.performAll [Zero σ] (w : World ρ σ) (events : List (Event ρ σ)) :
    Option (World ρ σ) :=
  events.foldlM (World.perform c) w

/-- A new pool, with any slab contents. -/
def World.new (rows : Nat → Nat → ρ) : World ρ σ where
  pool := ⟨.new c.numBlocks, rows⟩
  sequences := []
  prefixes := []

/-- The runs of a pool whose events meet a condition on the state before them. -/
def pagePool [Zero σ] (allowed : World ρ σ → Event ρ σ → Prop) : System (World ρ σ) where
  init w := ∃ rows, w = World.new c rows
  step w w' := ∃ event, allowed w event ∧ w.perform c event = some w'

end Transitions

end EffectTorch
