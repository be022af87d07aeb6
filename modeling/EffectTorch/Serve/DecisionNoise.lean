import EffectTorch.Core.Chat
import EffectTorch.Lib.Fault
import Mathlib

/-!
# Decision noise

`make` of `packages/serve/src/DecisionNoise.ts`: token ids from the words of SHA-256 digests of a
counter, with rejection sampling. The hash, the encoder of texts and the messages of the schema
decoder are not of the repository.

Results:
1. `Filled.block`: the loop over a digest takes accepted words in order, until there are enough.
2. `generates_iff`: what the generator returns, and when it does.
3. `card_residue`: every token is the image of as many accepted words.
4. `noise_extends`: shorter noise is the front of longer noise, and its tokens are uniform.
-/

namespace EffectTorch.DecisionNoise
open List Option Lib Chat

/-! ## Options -/

/-- The noise options, and the names of other properties of the same object. -/
structure Options where
  semanticKey : Text
  seed : Text
  readIndex : Number
  length : Number
  vocabularySize : Number
  excess : List Text

structure NoiseError where
  message : Text

/-- The digest of SHA-256. -/
structure Digest where
  bytes : List UInt8
  length_eq : bytes.length = 32

/-- What the generator is given: the hash, the bytes of a text, how many elements a `Uint32Array` may
have, and the texts of errors. -/
structure Runtime where
  sha256 : List UInt8 → Digest
  encode : Text → List UInt8
  maxLength : Nat
  schemaMessage : Options → Text
  rangeMessage : Nat → Text

/-- Options that the schema accepts. -/
structure Config where
  semanticKey : Text
  seed : Text
  readIndex : Number
  length : Nat
  vocabularySize : Nat
  vocabularyText : Text
deriving DecidableEq

/-- `NonNegativeInteger`. -/
def nonNegativeInteger (n : Number) : Option Nat :=
  match n.safeInteger with
  | some (.ofNat i) => some i
  | _ => none

/-- The schema `Options`. -/
def decodeOptions (options : Options) : Option Config := do
  guard (options.semanticKey ≠ [])
  let _ ← nonNegativeInteger options.readIndex
  let length ← nonNegativeInteger options.length
  let vocabularySize ← nonNegativeInteger options.vocabularySize
  guard (1 ≤ vocabularySize ∧ vocabularySize ≤ 2 ^ 32)
  guard (options.excess = [])
  some ⟨options.semanticKey, options.seed, options.readIndex, length, vocabularySize, options.vocabularySize.text⟩

/-! ## The generator -/

/-- `JSON.stringify` of the identity of the noise. The length does not enter it. -/
def noisePrefix (config : Config) : Text :=
  text "[\"decision-model/uniform-noise/v1\"," ++ jsonStringify config.seed ++ text "," ++
    jsonStringify config.semanticKey ++ text "," ++ config.readIndex.text ++ text "," ++
    config.vocabularyText ++ text "]"

def limit (vocabularySize : Nat) : Nat :=
  2 ^ 32 / vocabularySize * vocabularySize

def readUInt32BE (bytes : List UInt8) (offset : Nat) : Nat :=
  (bytes.getD offset 0).toNat * 2 ^ 24 + (bytes.getD (offset + 1) 0).toNat * 2 ^ 16 +
    (bytes.getD (offset + 2) 0).toNat * 2 ^ 8 + (bytes.getD (offset + 3) 0).toNat

/-- The tokens, and how many of them are set. -/
structure Canvas where
  tokens : List UInt32
  position : Nat

/-- A word that is not in the incomplete final bucket becomes a token. -/
def Canvas.accept (vocabularySize word : Nat) (canvas : Canvas) : Canvas :=
  if word < limit vocabularySize then
    ⟨canvas.tokens.set canvas.position (UInt32.ofNat (word % vocabularySize)), canvas.position + 1⟩
  else canvas

/-- The loop over the offsets of a digest. -/
def fillBlock (vocabularySize : Nat) (bytes : List UInt8) : List Nat → Canvas → Canvas
  | [], canvas => canvas
  | offset :: offsets, canvas =>
    if canvas.position < canvas.tokens.length then
      fillBlock vocabularySize bytes offsets (canvas.accept vocabularySize (readUInt32BE bytes offset))
    else canvas

def offsets (bytes : List UInt8) : List Nat :=
  List.range' 0 ((bytes.length + 3) / 4) 4

/-- The digest of a counter. -/
def digest (runtime : Runtime) (config : Config) (counter : Nat) : Digest :=
  runtime.sha256 (runtime.encode (noisePrefix config) ++ runtime.encode (text (":" ++ toString counter)))

/-- The loop over the counter; `none` when the fuel does not last. -/
def fillTokens (runtime : Runtime) (config : Config) : (fuel counter : Nat) → Canvas → Option (List UInt32)
  | fuel, counter, canvas =>
    if canvas.position < canvas.tokens.length then
      match fuel with
      | 0 => none
      | fuel + 1 =>
        let bytes := (digest runtime config counter).bytes
        fillTokens runtime config fuel (counter + 1) (fillBlock config.vocabularySize bytes (offsets bytes) canvas)
    else some canvas.tokens

def make (runtime : Runtime) (fuel : Nat) (options : Options) : Option (Except NoiseError (List UInt32)) :=
  match decodeOptions options with
  | none => some (.error ⟨runtime.schemaMessage options⟩)
  | some config =>
    if runtime.maxLength < config.length then some (.error ⟨runtime.rangeMessage config.length⟩)
    else (fillTokens runtime config fuel 0 ⟨List.replicate config.length 0, 0⟩).map .ok

/-! ## Blocks -/

/-- The words of a digest that become tokens. -/
def acceptedWords (vocabularySize : Nat) (bytes : List UInt8) (offsets : List Nat) : List Nat :=
  (offsets.map (readUInt32BE bytes)).filter (· < limit vocabularySize)

def token (vocabularySize word : Nat) : UInt32 := UInt32.ofNat (word % vocabularySize)

/-- The canvas holds the first tokens of a list of accepted words, and the rest of it is untouched. -/
structure Filled (vocabularySize length : Nat) (words : List Nat) (canvas : Canvas) : Prop where
  length_eq : canvas.tokens.length = length
  position_eq : canvas.position = min length words.length
  tokens_eq : canvas.tokens.take canvas.position = (words.take length).map (token vocabularySize)

section Blocks

variable {vocabularySize length word : Nat} {words : List Nat} {canvas : Canvas} {bytes : List UInt8}

theorem take_set_succ {α : Type} {l : List α} {n : Nat} (h : n < l.length) (a : α) :
    (l.set n a).take (n + 1) = l.take n ++ [a] := by
  rw [take_succ_eq_append_getElem (by rwa [length_set]), getElem_set_self, take_set,
    set_eq_of_length_le (length_take_le n l)]

theorem Filled.accept (h : Filled vocabularySize length words canvas) (hroom : canvas.position < canvas.tokens.length)
    (hword : word < limit vocabularySize) :
    Filled vocabularySize length (words ++ [word]) (canvas.accept vocabularySize word) := by
  have hfew : words.length < length := by
    have hlt := h.length_eq ▸ hroom
    rw [h.position_eq] at hlt
    exact (min_lt_iff.mp hlt).resolve_left (Nat.lt_irrefl _)
  have hposition : canvas.position = words.length := h.position_eq.trans (Nat.min_eq_right (Nat.le_of_lt hfew))
  rw [Canvas.accept, if_pos hword]
  refine ⟨by rw [length_set, h.length_eq], ?_, ?_⟩
  · rw [length_append, length_singleton, Nat.min_eq_right hfew]
    exact congrArg (· + 1) hposition
  · have htokens := h.tokens_eq
    rw [hposition, take_of_length_le (Nat.le_of_lt hfew)] at htokens
    have hshort : (words ++ [word]).length ≤ length := by
      rw [length_append]
      exact hfew
    dsimp only
    rw [hposition, take_of_length_le hshort, map_append, ← htokens]
    exact take_set_succ (hposition ▸ hroom) _

/-- The loop over a digest takes its accepted words in order, until the canvas is full. -/
theorem Filled.block (h : Filled vocabularySize length words canvas) (offsets : List Nat) :
    Filled vocabularySize length (words ++ acceptedWords vocabularySize bytes offsets)
      (fillBlock vocabularySize bytes offsets canvas) := by
  induction offsets generalizing words canvas with
  | nil =>
    rw [acceptedWords, map_nil, filter_nil, append_nil]
    exact h
  | cons offset offsets ih =>
    rw [fillBlock]
    split
    · next hroom =>
      rw [acceptedWords, map_cons, filter_cons]
      split
      · next hword =>
        rw [← singleton_append, ← append_assoc]
        exact ih (h.accept hroom (of_decide_eq_true hword))
      · next hword =>
        rw [Canvas.accept, if_neg fun hlt => hword (decide_eq_true hlt)]
        exact ih h
    · next hfull =>
      -- no word behind a full canvas counts
      have henough : length ≤ words.length := by
        have hle := Nat.not_lt.mp hfull
        rw [h.length_eq, h.position_eq] at hle
        exact Nat.le_trans hle (Nat.min_le_right _ _)
      refine ⟨h.length_eq, ?_, ?_⟩
      · rw [h.position_eq, Nat.min_eq_left henough, length_append,
          Nat.min_eq_left (Nat.le_trans henough (Nat.le_add_right _ _))]
      · rw [h.tokens_eq, take_append_of_le_length henough]

/-- A full canvas holds as many tokens as it has room for. -/
theorem Filled.full (h : Filled vocabularySize length words canvas) (hfull : ¬canvas.position < canvas.tokens.length) :
    length ≤ words.length ∧ canvas.tokens = (words.take length).map (token vocabularySize) := by
  have hle := Nat.not_lt.mp hfull
  have htokens := h.tokens_eq
  rw [take_of_length_le hle] at htokens
  rw [h.length_eq, h.position_eq] at hle
  exact ⟨Nat.le_trans hle (Nat.min_le_right _ _), htokens⟩

end Blocks

/-! ## Runs -/

section Runs

variable {runtime : Runtime} {config : Config}

/-- The accepted words of the first digests. -/
def stream (runtime : Runtime) (config : Config) (blocks : Nat) : List Nat :=
  (List.range blocks).flatMap fun counter =>
    acceptedWords config.vocabularySize (digest runtime config counter).bytes
      (offsets (digest runtime config counter).bytes)

theorem stream_succ (blocks : Nat) : stream runtime config (blocks + 1) = stream runtime config blocks ++
    acceptedWords config.vocabularySize (digest runtime config blocks).bytes
      (offsets (digest runtime config blocks).bytes) := by
  rw [stream, range_succ, flatMap_append, flatMap_singleton]
  rfl

theorem stream_prefix {blocks blocks' : Nat} (h : blocks ≤ blocks') :
    stream runtime config blocks <+: stream runtime config blocks' := by
  induction h with
  | refl => exact prefix_refl _
  | step _ ih => exact ih.trans (stream_succ _ ▸ prefix_append _ _)

/-- More digests do not change the first accepted words. -/
theorem take_stream {blocks blocks' length : Nat} (h : length ≤ (stream runtime config blocks).length)
    (h' : length ≤ (stream runtime config blocks').length) :
    (stream runtime config blocks).take length = (stream runtime config blocks').take length := by
  rcases Nat.le_total blocks blocks' with hle | hle
  · obtain ⟨rest, hrest⟩ := @ stream_prefix runtime config _ _ hle
    rw [← hrest, take_append_of_le_length h]
  · obtain ⟨rest, hrest⟩ := @ stream_prefix runtime config _ _ hle
    rw [← hrest, take_append_of_le_length h']

/-- What the loop returns are the first accepted words. -/
theorem fillTokens_some {fuel counter length : Nat} {canvas : Canvas} {tokens : List UInt32}
    (h : Filled config.vocabularySize length (stream runtime config counter) canvas)
    (hrun : fillTokens runtime config fuel counter canvas = some tokens) :
    ∃ blocks, length ≤ (stream runtime config blocks).length ∧
      tokens = ((stream runtime config blocks).take length).map (token config.vocabularySize) := by
  induction fuel generalizing counter canvas with
  | zero =>
    rw [fillTokens] at hrun
    split at hrun
    · cases hrun
    · next hfull =>
      cases hrun
      exact ⟨counter, h.full hfull⟩
  | succ fuel ih =>
    rw [fillTokens] at hrun
    split at hrun
    · exact ih (stream_succ counter ▸ h.block _) hrun
    · next hfull =>
      cases hrun
      exact ⟨counter, h.full hfull⟩

/-- With enough accepted words the loop returns. -/
theorem fillTokens_returns {fuel counter length : Nat} {canvas : Canvas}
    (h : Filled config.vocabularySize length (stream runtime config counter) canvas)
    (henough : length ≤ (stream runtime config (counter + fuel)).length) :
    ∃ tokens, fillTokens runtime config fuel counter canvas = some tokens := by
  induction fuel generalizing counter canvas with
  | zero =>
    rw [Nat.add_zero] at henough
    have hfull : ¬canvas.position < canvas.tokens.length := by
      rw [h.length_eq, h.position_eq, Nat.min_eq_left henough]
      exact Nat.lt_irrefl length
    rw [fillTokens, if_neg hfull]
    exact ⟨_, rfl⟩
  | succ fuel ih =>
    rw [fillTokens]
    split
    · exact ih (stream_succ counter ▸ h.block _) (by rwa [Nat.add_right_comm])
    · exact ⟨_, rfl⟩

/-- The loop returns when the first digests hold enough accepted words, and returns the first of them. -/
theorem fillTokens_iff {length : Nat} {tokens : List UInt32} :
    (∃ fuel, fillTokens runtime config fuel 0 ⟨List.replicate length 0, 0⟩ = some tokens) ↔
      ∃ blocks, length ≤ (stream runtime config blocks).length ∧
        tokens = ((stream runtime config blocks).take length).map (token config.vocabularySize) := by
  have hstart : Filled config.vocabularySize length (stream runtime config 0) ⟨List.replicate length 0, 0⟩ :=
    ⟨length_replicate, (Nat.min_zero length).symm, by simp [stream]⟩
  constructor
  · rintro ⟨fuel, hrun⟩
    exact fillTokens_some hstart hrun
  · rintro ⟨blocks, henough, rfl⟩
    obtain ⟨tokens, hrun⟩ : ∃ tokens, fillTokens runtime config blocks 0 ⟨List.replicate length 0, 0⟩ = some tokens :=
      fillTokens_returns hstart (by rwa [Nat.zero_add])
    obtain ⟨blocks', henough', rfl⟩ := fillTokens_some hstart hrun
    exact ⟨blocks, by rw [hrun, take_stream henough henough']⟩

end Runs

/-! ## Uniform tokens -/

/-- The numbers below the last multiple of `v` up to `n` fall evenly on the residues. -/
theorem card_residue {n v t : Nat} (ht : t < v) :
    ((Finset.range n).filter fun word => word < n / v * v ∧ word % v = t).card = n / v := by
  have himage : (Finset.range n).filter (fun word => word < n / v * v ∧ word % v = t) =
      (Finset.range (n / v)).image fun bucket => bucket * v + t := by
    ext word
    rw [Finset.mem_filter, Finset.mem_image, Finset.mem_range]
    constructor
    · rintro ⟨_, hlt, rfl⟩
      exact ⟨word / v, Finset.mem_range.mpr (Nat.div_lt_of_lt_mul (Nat.mul_comm _ v ▸ hlt)), Nat.div_add_mod' word v⟩
    · rintro ⟨bucket, hbucket, rfl⟩
      have hlt : bucket * v + t < n / v * v := by
        have hroom : (bucket + 1) * v ≤ n / v * v := Nat.mul_le_mul_right v (Finset.mem_range.mp hbucket)
        rw [Nat.succ_mul] at hroom
        exact Nat.lt_of_lt_of_le (Nat.add_lt_add_left ht _) hroom
      refine ⟨Nat.lt_of_lt_of_le hlt (Nat.div_mul_le_self n v), hlt, ?_⟩
      rw [Nat.mul_comm, Nat.mul_add_mod, Nat.mod_eq_of_lt ht]
  rw [himage, Finset.card_image_of_injective, Finset.card_range]
  intro bucket bucket' h
  exact Nat.eq_of_mul_eq_mul_right (Nat.lt_of_le_of_lt (Nat.zero_le t) ht) (Nat.add_right_cancel h)

theorem toNat_token {v : Nat} (hpos : 0 < v) (hle : v ≤ 2 ^ 32) (word : Nat) : (token v word).toNat = word % v := by
  rw [token, UInt32.toNat_ofNat']
  exact Nat.mod_eq_of_lt (Nat.lt_of_lt_of_le (Nat.mod_lt word hpos) hle)

/-! ## The noise -/

/-- The noise of some options: what the generator returns when its loop ends. -/
def Generates (runtime : Runtime) (options : Options) (tokens : List UInt32) : Prop :=
  ∃ fuel, make runtime fuel options = some (.ok tokens)

def Options.withLength (options : Options) (length : Nat) (lengthText : Text) : Options :=
  { options with length := ⟨some length, lengthText⟩ }

section Noise

variable {runtime : Runtime} {options : Options} {config : Config} {tokens : List UInt32}

theorem generates_iff (hvalid : decodeOptions options = some config) :
    Generates runtime options tokens ↔ config.length ≤ runtime.maxLength ∧
      ∃ blocks, config.length ≤ (stream runtime config blocks).length ∧
        tokens = ((stream runtime config blocks).take config.length).map (token config.vocabularySize) := by
  rw [← fillTokens_iff]
  constructor
  · rintro ⟨fuel, hrun⟩
    simp only [make, hvalid] at hrun
    split at hrun
    · cases hrun
    · next hroom =>
      obtain ⟨tokens', hfill, heq⟩ := map_eq_some_iff.mp hrun
      cases heq
      exact ⟨Nat.not_lt.mp hroom, fuel, hfill⟩
  · rintro ⟨hroom, fuel, hfill⟩
    refine ⟨fuel, ?_⟩
    simp only [make, hvalid, if_neg (Nat.not_lt.mpr hroom), hfill]
    rfl

theorem decodeOptions_some : decodeOptions options = some config ↔
    options.semanticKey ≠ [] ∧ (∃ readIndex, nonNegativeInteger options.readIndex = some readIndex) ∧
      nonNegativeInteger options.length = some config.length ∧
      nonNegativeInteger options.vocabularySize = some config.vocabularySize ∧
      (1 ≤ config.vocabularySize ∧ config.vocabularySize ≤ 2 ^ 32) ∧ options.excess = [] ∧
      config = ⟨options.semanticKey, options.seed, options.readIndex, config.length, config.vocabularySize,
        options.vocabularySize.text⟩ := by
  simp only [decodeOptions, bind_eq_bind, bind_eq_some_iff, guard_eq_some', Option.some.injEq]
  constructor
  · rintro ⟨_, hkey, readIndex, hread, length, hlength, v, hv, _, hbounds, _, hexcess, rfl⟩
    exact ⟨hkey, ⟨readIndex, hread⟩, hlength, hv, hbounds, hexcess, rfl⟩
  · rintro ⟨hkey, ⟨readIndex, hread⟩, hlength, hv, hbounds, hexcess, hconfig⟩
    exact ⟨(), hkey, readIndex, hread, _, hlength, _, hv, (), hbounds, (), hexcess, hconfig.symm⟩

theorem decodeOptions_withLength (hvalid : decodeOptions options = some config) (m : Nat) (lengthText : Text) :
    decodeOptions (options.withLength m lengthText) = some { config with length := m } := by
  obtain ⟨hkey, hread, _, hv, hbounds, hexcess, hconfig⟩ := decodeOptions_some.mp hvalid
  refine decodeOptions_some.mpr ⟨hkey, hread, rfl, hv, hbounds, hexcess, ?_⟩
  rw [hconfig]
  rfl

theorem stream_length (m blocks : Nat) :
    stream runtime { config with length := m } blocks = stream runtime config blocks := rfl

/-- Shorter noise is the front of longer noise, and every token is the image of as many accepted
words. -/
theorem noise_extends (hvalid : decodeOptions options = some config) :
    ((∃ tokens, Generates runtime options tokens) ↔ config.length ≤ runtime.maxLength ∧
      ∃ blocks, config.length ≤ (stream runtime config blocks).length) ∧
    (∀ tokens, Generates runtime options tokens → tokens.length = config.length ∧
      (∀ t ∈ tokens, t.toNat < config.vocabularySize) ∧
      ∀ m ≤ config.length, ∀ lengthText tokens',
        Generates runtime (options.withLength m lengthText) tokens' ↔ tokens' = tokens.take m) ∧
    ∀ t < config.vocabularySize, ((Finset.range (2 ^ 32)).filter fun word =>
      word < limit config.vocabularySize ∧ (token config.vocabularySize word).toNat = t).card =
        2 ^ 32 / config.vocabularySize := by
  obtain ⟨_, _, _, _, ⟨hpos, hle⟩, _, _⟩ := decodeOptions_some.mp hvalid
  refine ⟨⟨?_, ?_⟩, ?_, ?_⟩
  · rintro ⟨tokens, h⟩
    obtain ⟨hroom, blocks, henough, _⟩ := (generates_iff hvalid).mp h
    exact ⟨hroom, blocks, henough⟩
  · rintro ⟨hroom, blocks, henough⟩
    exact ⟨_, (generates_iff hvalid).mpr ⟨hroom, blocks, henough, rfl⟩⟩
  · intro tokens h
    obtain ⟨hroom, blocks, henough, rfl⟩ := (generates_iff hvalid).mp h
    refine ⟨?_, ?_, fun m hm lengthText tokens' => ?_⟩
    · rw [length_map, length_take, Nat.min_eq_left henough]
    · intro t ht
      obtain ⟨word, _, rfl⟩ := mem_map.mp ht
      rw [toNat_token hpos hle]
      exact Nat.mod_lt word hpos
    · rw [generates_iff (decodeOptions_withLength hvalid m lengthText), ← map_take, take_take,
        Nat.min_eq_left hm]
      simp only [stream_length]
      constructor
      · rintro ⟨_, blocks', henough', rfl⟩
        rw [take_stream henough' (Nat.le_trans hm henough)]
      · rintro rfl
        exact ⟨Nat.le_trans hm hroom, blocks, Nat.le_trans hm henough, rfl⟩
  · intro t ht
    simp only [toNat_token hpos hle]
    exact card_residue ht

/-- Two tokens of a vocabulary of three. -/
def threeTokens : Options :=
  ⟨text "key", [], ⟨some 0, text "0"⟩, ⟨some 2, text "2"⟩, ⟨some 3, text "3"⟩, []⟩

/-- Every word of the digest is one. -/
def constantRuntime : Runtime where
  sha256 _ := ⟨(List.replicate 8 [0, 0, 0, 1]).flatten, rfl⟩
  encode t := t.map fun c => c.toUInt8
  maxLength := 2 ^ 32
  schemaMessage _ := []
  rangeMessage _ := []

theorem noise_extends_three : Generates constantRuntime threeTokens [1, 1] ∧
    Generates constantRuntime (threeTokens.withLength 1 []) [1] := by
  have h : Generates constantRuntime threeTokens [1, 1] := ⟨1, rfl⟩
  have hvalid : decodeOptions threeTokens = some ⟨text "key", [], ⟨some 0, text "0"⟩, 2, 3, text "3"⟩ := by decide
  exact ⟨h, (((noise_extends hvalid).2.1 _ h).2.2 1 (by decide) [] _).mpr rfl⟩

end Noise

end EffectTorch.DecisionNoise
