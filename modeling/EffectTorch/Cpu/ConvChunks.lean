import EffectTorch.Cpu.ConvState

/-!
# A convolution in chunks

A kernel of `past + 1` taps runs over one chunk after another, from a state of zeros. In each
chunk a lane advances by some of its steps; the steps behind the advance are not kept.

Results:
1. `Carried.step`: the state is the window of the last inputs, with zeros before the sequence.
2. `convChunks_whole`: the chunks give what the convolution of the whole sequence gives.
-/

namespace EffectTorch
open List Lib

variable {K : Type} {lanes past channels total : Nat}

/-- A chunk for `lanes` lanes with its two planned destinations. -/
structure Chunk (K : Type) (lanes past channels : Nat) where
  lead : List Nat
  steps : Nat
  x : Dense K
  advances : List Nat
  output : Dense K
  stateNext : Dense K
  lanes_eq : lead.prod = lanes
  shape_eq : x.shape = lead ++ [steps, channels]
  advances_length : advances.length = lanes
  advance_le : ∀ advance ∈ advances, advance ≤ steps
  output_shape : output.shape = x.shape
  next_shape : stateNext.shape = [lanes, past, channels]

namespace Chunk

def advance (chunk : Chunk K lanes past channels) (lane : Nat) : Nat :=
  chunk.advances.getD lane 0

/-- How far some chunks take a lane. -/
def consumed (chunks : List (Chunk K lanes past channels)) (lane : Nat) : Nat :=
  (chunks.map (·.advance lane)).sum

end Chunk

variable [Semiring K]

/-- The chunks one after another: their outputs and the last state. -/
def convChunks (weight : Dense K) :
    Dense K → List (Chunk K lanes past channels) → Fallible String (List (Dense K) × Dense K)
  | state, [] => .ok ([], state)
  | state, chunk :: chunks => do
    let (out, next) ←
      convStateInto chunk.x weight state chunk.advances chunk.output chunk.stateNext
    let (outs, last) ← convChunks weight next chunks
    .ok (out :: outs, last)

/-- From `start` on, the steps that a chunk advances by are those of the whole sequence. -/
def Chunk.Continues (chunk : Chunk K lanes past channels) (whole : Dense K) (total : Nat)
    (start : Nat → Nat) : Prop :=
  ∀ lane < lanes, ∀ step < chunk.advance lane, start lane + step < total ∧ ∀ channel < channels,
    chunk.x.at ((lane * chunk.steps + step) * channels + channel) =
      whole.at ((lane * total + (start lane + step)) * channels + channel)

/-- The chunks are the whole sequence, split. -/
def Splits (whole : Dense K) (total : Nat) (chunks : List (Chunk K lanes past channels)) : Prop :=
  ∀ before chunk after, chunks = before ++ chunk :: after →
    chunk.Continues whole total (Chunk.consumed before)

/-! ## The sequence behind zeros -/

/-- The whole sequence behind `past` zeros. -/
def convPadded (whole : Dense K) (total channels past lane window channel : Nat) : K :=
  if window < past then 0 else whole.at ((lane * total + (window - past)) * channels + channel)

theorem shortConvAt_eq {whole weight : Dense K} {lane step channel : Nat} :
    shortConvAt whole weight total channels (past + 1) lane step channel =
      ((List.range (past + 1)).map fun tap =>
        convPadded whole total channels past lane (step + tap) channel *
          weight.at (channel * (past + 1) + tap)).sum := by
  refine congrArg List.sum (map_congr_left fun tap _ => ?_)
  unfold convPadded
  by_cases hpast : step + tap < past
  · rw [if_pos hpast, zero_mul, if_neg (by omega)]
  · have hsource : step + tap + 1 - (past + 1) = step + tap - past := by omega
    rw [if_neg hpast, if_pos (by omega), hsource]

/-! ## One chunk -/

/-- The state holds the window behind `start` steps. -/
structure Carried (whole : Dense K) (total : Nat) (start : Nat → Nat) (lanes past channels : Nat)
    (state : Dense K) : Prop where
  shape_eq : state.shape = [lanes, past, channels]
  at_eq : ∀ lane < lanes, ∀ index < past, ∀ channel < channels,
    state.at ((lane * past + index) * channels + channel) =
      convPadded whole total channels past lane (start lane + index) channel

theorem kept_zeros (whole : Dense K) (total : Nat) :
    Carried whole total (fun _ => 0) lanes past channels (Dense.zeros [lanes, past, channels]) where
  shape_eq := rfl
  at_eq lane _ index hindex channel _ := by
    rw [Dense.at_zeros, convPadded, Nat.zero_add, if_pos hindex]

variable {whole weight state : Dense K} {start : Nat → Nat} {chunk : Chunk K lanes past channels}

/-- Up to the advance, kept inputs and chunk make up the window of the sequence. -/
theorem Carried.window (h : Carried whole total start lanes past channels state)
    (hc : chunk.Continues whole total start) {lane window channel : Nat} (hlane : lane < lanes)
    (hchannel : channel < channels) (hwindow : window < past + chunk.advance lane) :
    windowAt chunk.x state chunk.steps channels past lane window channel =
      convPadded whole total channels past lane (start lane + window) channel := by
  unfold windowAt
  split
  · next hlt => exact h.at_eq lane hlane window hlt channel hchannel
  · next hge =>
    have hle : past ≤ window := Nat.le_of_not_lt hge
    rw [(hc lane hlane (window - past) (by omega)).2 channel hchannel, convPadded, if_neg (by omega),
      Nat.add_sub_assoc hle]

/-- A chunk computes the convolution of the sequence, and keeps the window behind its advance. -/
theorem Carried.step (h : Carried whole total start lanes past channels state)
    (hweight : weight.shape = [channels, past + 1]) (hc : chunk.Continues whole total start) :
    ∃ out next,
      convStateInto chunk.x weight state chunk.advances chunk.output chunk.stateNext =
        .ok (out, next) ∧
      Carried whole total (fun lane => start lane + chunk.advance lane) lanes past channels next ∧
      ∀ lane < lanes, ∀ step < chunk.advance lane, ∀ channel < channels,
        out.at ((lane * chunk.steps + step) * channels + channel) =
          shortConvAt whole weight total channels (past + 1) lane (start lane + step) channel := by
  have hstate : state.shape = [chunk.lead.prod, past, channels] := by rw [chunk.lanes_eq, h.shape_eq]
  obtain ⟨out, next, hrun, -, hnext, hout, hkept⟩ := convStateInto_ok chunk.shape_eq hweight hstate
    (chunk.advances_length.trans chunk.lanes_eq.symm) chunk.advance_le chunk.output_shape
    (chunk.next_shape.trans h.shape_eq.symm)
  rw [chunk.lanes_eq] at hout hkept
  refine ⟨out, next, hrun, ⟨hnext.trans h.shape_eq, ?_⟩, ?_⟩
  · intro lane hlane index hindex channel hchannel
    have hwindow : chunk.advance lane + index < past + chunk.advance lane := by omega
    rw [hkept lane hlane index hindex channel hchannel, Nat.add_assoc]
    exact h.window hc hlane hchannel hwindow
  · intro lane hlane step hstep channel hchannel
    have hsteps : step < chunk.steps := by
      refine Nat.lt_of_lt_of_le hstep (chunk.advance_le _ ?_)
      have hlt : lane < chunk.advances.length := by
        rw [chunk.advances_length]
        exact hlane
      rw [Chunk.advance, getD_eq_getElem _ _ hlt]
      exact getElem_mem hlt
    rw [hout lane hlane step hsteps channel hchannel, shortConvAt_eq]
    refine congrArg List.sum (map_congr_left fun tap htap => ?_)
    have htap := mem_range.mp htap
    rw [h.window hc hlane hchannel (by omega), Nat.add_assoc]

/-! ## All chunks -/

omit [Semiring K] in
theorem Chunk.consumed_cons (chunk : Chunk K lanes past channels) (chunks) (lane : Nat) :
    consumed (chunk :: chunks) lane = chunk.advance lane + consumed chunks lane :=
  sum_cons

/-- The chunks from `start` on. -/
theorem Carried.run (hweight : weight.shape = [channels, past + 1])
    {chunks : List (Chunk K lanes past channels)}
    (h : Carried whole total start lanes past channels state)
    (hsplit : ∀ before chunk after, chunks = before ++ chunk :: after →
      chunk.Continues whole total fun lane => start lane + Chunk.consumed before lane) :
    ∃ outs last, convChunks weight state chunks = .ok (outs, last) ∧
      Carried whole total (fun lane => start lane + Chunk.consumed chunks lane) lanes past channels
        last ∧
      ∀ before chunk after, chunks = before ++ chunk :: after →
        ∃ out, outs[before.length]? = some out ∧
          ∀ lane < lanes, ∀ step < chunk.advance lane, ∀ channel < channels,
            out.at ((lane * chunk.steps + step) * channels + channel) =
              shortConvAt whole weight total channels (past + 1) lane
                (start lane + Chunk.consumed before lane + step) channel := by
  induction chunks generalizing state start with
  | nil => exact ⟨[], state, rfl, h, fun before _ _ heq => absurd heq (by simp)⟩
  | cons chunk chunks ih =>
    obtain ⟨out, next, hrun, hkept, hout⟩ := h.step hweight (hsplit [] chunk chunks rfl)
    have hshift : ∀ before lane, start lane + chunk.advance lane + Chunk.consumed before lane =
        start lane + Chunk.consumed (chunk :: before) lane := fun before lane => by
      rw [Chunk.consumed_cons, Nat.add_assoc]
    obtain ⟨outs, last, hruns, hlast, houts⟩ := ih hkept fun before later after heq => by
      have hlater := hsplit (chunk :: before) later after (by rw [heq]; rfl)
      simpa only [hshift] using hlater
    refine ⟨out :: outs, last, ?_, by simpa only [hshift] using hlast, ?_⟩
    · rw [convChunks, hrun, ok_bind]
      dsimp only
      rw [hruns, ok_bind]
    · rintro (_ | ⟨first, before⟩) later after heq
      · obtain ⟨rfl, rfl⟩ := List.cons.inj heq
        exact ⟨out, rfl, hout⟩
      · obtain ⟨rfl, rfl⟩ := List.cons.inj heq
        obtain ⟨out', hget, hout'⟩ := houts before later after rfl
        refine ⟨out', hget, ?_⟩
        simpa only [hshift] using hout'

/-- From a state of zeros, the chunks of a sequence give at every step they advance by what
the convolution of the whole sequence gives there, and leave the last `past` inputs with
zeros before the sequence. -/
theorem convChunks_whole {lead : List Nat} (hweight : weight.shape = [channels, past + 1])
    (hwhole : whole.shape = lead ++ [total, channels]) (hlanes : lead.prod = lanes)
    {chunks : List (Chunk K lanes past channels)} (hsplit : Splits whole total chunks)
    {output : Dense K} (houtput : output.shape = whole.shape) :
    ∃ outs last,
      convChunks weight (Dense.zeros [lanes, past, channels]) chunks = .ok (outs, last) ∧
      last.shape = [lanes, past, channels] ∧
      (∀ lane < lanes, ∀ index < past, ∀ channel < channels,
        last.at ((lane * past + index) * channels + channel) =
          if Chunk.consumed chunks lane + index < past then 0
          else whole.at
            ((lane * total + (Chunk.consumed chunks lane + index - past)) * channels + channel)) ∧
      (0 ∉ whole.shape → lead.prod ≤ usizeMax →
        ∃ y, shortConv1dForwardInto whole weight output = .ok y ∧
          ∀ before chunk after, chunks = before ++ chunk :: after →
            ∃ out, outs[before.length]? = some out ∧
              ∀ lane < lanes, ∀ step < chunk.advance lane, ∀ channel < channels,
                out.at ((lane * chunk.steps + step) * channels + channel) =
                  y.at ((lane * total + (Chunk.consumed before lane + step)) * channels +
                    channel)) := by
  obtain ⟨outs, last, hrun, hlast, houts⟩ := Carried.run hweight
    (kept_zeros whole total)
    fun before chunk after heq => by simpa only [Nat.zero_add] using hsplit before chunk after heq
  simp only [Nat.zero_add] at hlast houts
  refine ⟨outs, last, hrun, hlast.shape_eq, hlast.at_eq, fun hpos hfits => ?_⟩
  obtain ⟨y, hy, -, hyat⟩ := shortConv1dForwardInto_ok hwhole hweight (Nat.succ_ne_zero past) hpos
    hfits houtput
  refine ⟨y, hy, fun before chunk after heq => ?_⟩
  obtain ⟨out, hget, hout⟩ := houts before chunk after heq
  refine ⟨out, hget, fun lane hlane step hstep channel hchannel => ?_⟩
  have hinside := (hsplit before chunk after heq lane hlane step hstep).1
  rw [hout lane hlane step hstep channel hchannel,
    hyat lane (by rw [hlanes]; exact hlane) _ hinside channel hchannel]

/-! ## A sequence of three steps -/

def threeSteps : Dense Nat := ⟨[1, 3, 1], [1, 2, 3], rfl⟩

def threeTaps : Dense Nat := ⟨[1, 3], [10, 100, 1000], rfl⟩

/-- Two steps, of which one is kept. -/
def draftChunk : Chunk Nat 1 2 1 where
  lead := [1]
  steps := 2
  x := ⟨[1, 2, 1], [1, 7], rfl⟩
  advances := [1]
  output := .zeros [1, 2, 1]
  stateNext := .zeros [1, 2, 1]
  lanes_eq := rfl
  shape_eq := rfl
  advances_length := rfl
  advance_le := by decide
  output_shape := rfl
  next_shape := rfl

def lastChunk : Chunk Nat 1 2 1 where
  lead := [1]
  steps := 2
  x := ⟨[1, 2, 1], [2, 3], rfl⟩
  advances := [2]
  output := .zeros [1, 2, 1]
  stateNext := .zeros [1, 2, 1]
  lanes_eq := rfl
  shape_eq := rfl
  advances_length := rfl
  advance_le := by decide
  output_shape := rfl
  next_shape := rfl

theorem threeSteps_splits : Splits threeSteps 3 [draftChunk, lastChunk] := by
  rintro (_ | ⟨first, _ | ⟨second, before⟩⟩) chunk after heq
  · obtain ⟨rfl, -⟩ := List.cons.inj heq
    unfold Chunk.Continues
    decide
  · obtain ⟨rfl, hrest⟩ := List.cons.inj heq
    obtain ⟨rfl, -⟩ := List.cons.inj hrest
    unfold Chunk.Continues
    decide
  · obtain ⟨-, hrest⟩ := List.cons.inj heq
    obtain ⟨-, hnil⟩ := List.cons.inj hrest
    exact absurd hnil (by simp)

theorem convChunks_threeSteps :
    ∃ outs last, convChunks threeTaps (.zeros [1, 2, 1]) [draftChunk, lastChunk] = .ok (outs, last) ∧
      last.at 0 = 2 ∧ last.at 1 = 3 ∧
      ∃ y, shortConv1dForwardInto threeSteps threeTaps (.zeros [1, 3, 1]) = .ok y ∧
        ∃ out, outs[1]? = some out ∧ out.at 0 = y.at 1 ∧ out.at 1 = y.at 2 := by
  have hweight : threeTaps.shape = [1, 3] := rfl
  have hwhole : threeSteps.shape = [1] ++ [3, 1] := rfl
  have houtput : (Dense.zeros [1, 3, 1] : Dense Nat).shape = threeSteps.shape := rfl
  obtain ⟨outs, last, hrun, -, hlast, hwhole⟩ :=
    convChunks_whole hweight hwhole rfl threeSteps_splits houtput
  obtain ⟨y, hy, houts⟩ := hwhole (by decide) (by decide)
  obtain ⟨out, hget, hout⟩ := houts [draftChunk] lastChunk [] rfl
  exact ⟨outs, last, hrun, hlast 0 (by decide) 0 (by decide) 0 (by decide),
    hlast 0 (by decide) 1 (by decide) 0 (by decide), y, hy, out, hget,
    hout 0 (by decide) 0 (by decide) 0 (by decide), hout 0 (by decide) 1 (by decide) 0 (by decide)⟩

end EffectTorch
