import EffectTorch.Lib.Fault
import Mathlib

/-!
# Encoding text around special tokens

`split_around_specials` and `TokenizerInner` (`packages/tokenizers/src/tokenizer.rs`).
A string is the list of its characters, a byte offset is counted with `utf8Len`. The
external tokenizer is a parameter: its added tokens, its encoding of a string with or
without added specials, and its post-processor.
-/

namespace EffectTorch
open Lib

/-! ## Byte offsets -/

/-- `str::len`. -/
def utf8Len (s : List Char) : Nat := (s.map Char.utf8Size).sum

/-- `str::is_char_boundary`. -/
def isCharBoundary : List Char → Nat → Bool
  | [], i => i == 0
  | c :: s, i => i == 0 || (decide (c.utf8Size ≤ i) && isCharBoundary s (i - c.utf8Size))

/-- `&s[..i]`. -/
def takeBytes : List Char → Nat → List Char
  | [], _ => []
  | c :: s, i => if c.utf8Size ≤ i then c :: takeBytes s (i - c.utf8Size) else []

/-- `&s[i..]`. -/
def dropBytes : List Char → Nat → List Char
  | [], _ => []
  | c :: s, i => if c.utf8Size ≤ i then dropBytes s (i - c.utf8Size) else c :: s

/-! ## The external tokenizer -/

structure AddedToken where
  content : List Char
  special : Bool
  id : Nat

structure Tokenizer (ε : Type) where
  addedTokens : List AddedToken
  encode : List Char → Bool → Except ε (List Nat)
  postProcessor : Option (List Nat → Except ε (List Nat))

structure TokenizerInner (ε : Type) where
  tokenizer : Tokenizer ε
  parseSpecials : Bool
  specials : List (List Char)

/-! ## Segments -/

/-- Pushes `text[start..i]` unless it is empty. -/
def flush (pending : List Char) : List (List Char) :=
  if pending = [] then [] else [pending]

/-- The loop of `split_around_specials` with `text[start..i]` and `text[i..]`, for at
most `fuel` turns. A turn at an offset inside a character only moves on. -/
def splitFrom (specials : List (List Char)) : Nat → List Char → List Char → List (List Char)
  | 0, pending, _ => flush pending
  | _ + 1, pending, [] => flush pending
  | fuel + 1, pending, c :: rest =>
    match specials.find? (·.isPrefixOf (c :: rest)) with
    | some special =>
      flush pending ++ special :: splitFrom specials fuel [] ((c :: rest).drop special.length)
    | none => splitFrom specials fuel (pending ++ [c]) rest

/-- `split_around_specials`. -/
def splitAroundSpecials (specials : List (List Char)) (text : List Char) : List (List Char) :=
  if specials = [] then [text] else splitFrom specials text.length [] text

/-- `while !is_char_boundary(mid) { mid -= 1 }`. -/
def boundaryBelow (s : List Char) : Nat → Nat
  | 0 => 0
  | mid + 1 => if isCharBoundary s (mid + 1) then mid + 1 else boundaryBelow s mid

/-- Where `encode_segment` cuts a segment: at the middle, or after the first
character. -/
def cutOf (segment : List Char) : Nat :=
  let mid := boundaryBelow segment (utf8Len segment / 2)
  if mid = 0 then
    match segment with
    | c :: _ :: _ => c.utf8Size
    | _ => utf8Len segment
  else mid

namespace TokenizerInner

variable {ε : Type}

/-- `TokenizerInner::new`: the special strings, longest first. -/
def new (tokenizer : Tokenizer ε) (parseSpecials : Bool) : TokenizerInner ε where
  tokenizer
  parseSpecials
  specials :=
    ((tokenizer.addedTokens.filter (·.special)).map (·.content)).insertionSort fun a b =>
      utf8Len b ≤ utf8Len a

/-- `encode_segment`, halving at most `fuel` times. -/
def encodeSegmentFrom (t : TokenizerInner ε) : Nat → List Char → Except ε (List Nat)
  | 0, segment => t.tokenizer.encode segment false
  | fuel + 1, segment =>
    if 1 < segment.length ∧ segment ∈ t.specials then
      let mid := cutOf segment
      if mid < utf8Len segment then do
        let merged ← t.encodeSegmentFrom fuel (takeBytes segment mid)
        let right ← t.encodeSegmentFrom fuel (dropBytes segment mid)
        .ok (merged ++ right)
      else t.tokenizer.encode segment false
    else t.tokenizer.encode segment false

/-- `encode_segment`. -/
def encodeSegment (t : TokenizerInner ε) (segment : List Char) : Except ε (List Nat) :=
  t.encodeSegmentFrom segment.length segment

/-- One turn of the loop of `encode_ids_with`. -/
def mergeSegment (t : TokenizerInner ε) (merged : List Nat) (segment : List Char) :
    Except ε (List Nat) :=
  if segment = [] then .ok merged
  else do
    let encoding ← t.encodeSegment segment
    .ok (merged ++ encoding)

/-- `encode_ids_with`. -/
def encodeIdsWith (t : TokenizerInner ε) (text : List Char) (addSpecialTokens : Bool) :
    Except ε (List Nat) :=
  if t.parseSpecials ∨ t.specials = [] then t.tokenizer.encode text addSpecialTokens
  else do
    let merged ← (splitAroundSpecials t.specials text).foldlM t.mergeSegment []
    if addSpecialTokens then
      match t.tokenizer.postProcessor with
      | some process => process merged
      | none => .ok merged
    else .ok merged

/-- The strings that `encodeSegmentFrom` gives to the external tokenizer. -/
def segmentPieces (specials : List (List Char)) : Nat → List Char → List (List Char)
  | 0, segment => [segment]
  | fuel + 1, segment =>
    if 1 < segment.length ∧ segment ∈ specials ∧ cutOf segment < utf8Len segment then
      segmentPieces specials fuel (takeBytes segment (cutOf segment)) ++
        segmentPieces specials fuel (dropBytes segment (cutOf segment))
    else [segment]

/-- The strings that `encodeIdsWith` gives to the external tokenizer. -/
def encodedPieces (t : TokenizerInner ε) (text : List Char) : List (List Char) :=
  if t.parseSpecials ∨ t.specials = [] then [text]
  else
    ((splitAroundSpecials t.specials text).filter (· ≠ [])).flatMap fun segment =>
      segmentPieces t.specials segment.length segment

end TokenizerInner

end EffectTorch
