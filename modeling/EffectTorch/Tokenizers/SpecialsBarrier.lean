import EffectTorch.Tokenizers.Specials
import Mathlib

/-!
# Text never becomes a special token

What keeps the id of a special token out of the encoding of a text, over every set of
special tokens and every text.

Results:
1. `splitAroundSpecials_flatten`, `splitAroundSpecials_segment`: the scan cuts the
   text into specials and segments without one.
2. `segmentPieces_clean`: halving a special leaves only pieces without a special
   exactly when the special dissolves.
3. `special_barrier_iff`: no text encodes to a special id exactly when every special
   dissolves.
4. `specials_leak`: specials that do not.
-/

namespace EffectTorch
open List Lib

/-! ## Cutting -/

theorem takeBytes_append_dropBytes (s : List Char) (i : Nat) :
    takeBytes s i ++ dropBytes s i = s := by
  induction s generalizing i with
  | nil => rfl
  | cons c s ih =>
    unfold takeBytes dropBytes
    split
    · rw [cons_append, ih]
    · rfl

theorem utf8Len_cons (c : Char) (s : List Char) : utf8Len (c :: s) = c.utf8Size + utf8Len s := by
  simp [utf8Len]

theorem utf8Len_append (s s' : List Char) : utf8Len (s ++ s') = utf8Len s + utf8Len s' := by
  simp [utf8Len]

theorem utf8Len_takeBytes_le (s : List Char) (i : Nat) : utf8Len (takeBytes s i) ≤ i := by
  induction s generalizing i with
  | nil => exact Nat.zero_le i
  | cons c s ih =>
    unfold takeBytes
    split
    · next hle =>
      have hrest := ih (i - c.utf8Size)
      rw [utf8Len_cons]
      omega
    · exact Nat.zero_le i

theorem utf8Len_pos {s : List Char} (h : s ≠ []) : 0 < utf8Len s := by
  cases s with
  | nil => exact absurd rfl h
  | cons c s =>
    have := c.utf8Size_pos
    rw [utf8Len_cons]
    omega

/-- A nonzero boundary lies after the first character. -/
theorem takeBytes_ne_nil {s : List Char} {i : Nat} (hs : s ≠ []) (hi : i ≠ 0)
    (hb : isCharBoundary s i = true) : takeBytes s i ≠ [] := by
  cases s with
  | nil => exact absurd rfl hs
  | cons c s =>
    have hle : c.utf8Size ≤ i := by
      simp only [isCharBoundary, Bool.or_eq_true, Bool.and_eq_true, beq_iff_eq,
        decide_eq_true_eq] at hb
      exact (hb.resolve_left hi).1
    rw [takeBytes, if_pos hle]
    exact cons_ne_nil _ _

theorem boundaryBelow_le (s : List Char) (mid : Nat) : boundaryBelow s mid ≤ mid := by
  induction mid with
  | zero => exact Nat.le_refl 0
  | succ mid ih =>
    rw [boundaryBelow]
    split
    · exact Nat.le_refl _
    · exact Nat.le_succ_of_le ih

theorem boundaryBelow_boundary (s : List Char) (mid : Nat) (h : boundaryBelow s mid ≠ 0) :
    isCharBoundary s (boundaryBelow s mid) = true := by
  induction mid with
  | zero => exact absurd rfl h
  | succ mid ih =>
    rw [boundaryBelow] at h ⊢
    split
    · next hb => exact hb
    · next hb =>
      rw [if_neg hb] at h
      exact ih h

/-- A segment of two characters or more is cut inside. -/
theorem cutOf_inside {segment : List Char} (h : 1 < segment.length) :
    cutOf segment < utf8Len segment ∧ takeBytes segment (cutOf segment) ≠ [] := by
  match segment, h with
  | c :: d :: rest, _ =>
    have hc := c.utf8Size_pos
    have hd := d.utf8Size_pos
    have hlen : utf8Len (c :: d :: rest) = c.utf8Size + (d.utf8Size + utf8Len rest) := by
      rw [utf8Len_cons, utf8Len_cons]
    have hle := boundaryBelow_le (c :: d :: rest) (utf8Len (c :: d :: rest) / 2)
    unfold cutOf
    dsimp only
    split
    · refine ⟨by omega, ?_⟩
      rw [takeBytes, if_pos (Nat.le_refl _)]
      exact cons_ne_nil _ _
    · next hmid =>
      exact ⟨by omega, takeBytes_ne_nil (cons_ne_nil _ _) hmid
        (boundaryBelow_boundary _ _ hmid)⟩

/-- Both halves are shorter than the segment. -/
theorem halves_shorter {segment : List Char} (h : 1 < segment.length) :
    (takeBytes segment (cutOf segment)).length < segment.length ∧
      (dropBytes segment (cutOf segment)).length < segment.length := by
  obtain ⟨hlt, hne⟩ := cutOf_inside h
  have happ := takeBytes_append_dropBytes segment (cutOf segment)
  have hlen := congrArg List.length happ
  rw [length_append] at hlen
  have htake := length_pos_of_ne_nil hne
  have hdrop : dropBytes segment (cutOf segment) ≠ [] := by
    intro hnil
    rw [hnil, append_nil] at happ
    have hle := utf8Len_takeBytes_le segment (cutOf segment)
    rw [happ] at hle
    omega
  have := length_pos_of_ne_nil hdrop
  omega

/-! ## The scan -/

/-- No special string occurs in a piece. -/
def ContainsNone (specials : List (List Char)) (piece : List Char) : Prop :=
  ∀ special ∈ specials, ¬ special <:+: piece

section Scan

variable {specials : List (List Char)}

@[simp] theorem flush_flatten (pending : List Char) : (flush pending).flatten = pending := by
  unfold flush
  split
  · next h => simp [h]
  · simp

theorem find_isPrefixOf {text special : List Char}
    (h : specials.find? (·.isPrefixOf text) = some special) :
    special ∈ specials ∧ ∃ rest, text = special ++ rest := by
  have hp := List.find?_some h
  obtain ⟨rest, hrest⟩ := List.isPrefixOf_iff_prefix.mp hp
  exact ⟨mem_of_find?_eq_some h, rest, hrest.symm⟩

theorem splitFrom_flatten (hne : ∀ special ∈ specials, special ≠ []) :
    ∀ (fuel : Nat) (pending text : List Char), text.length ≤ fuel →
      (splitFrom specials fuel pending text).flatten = pending ++ text := by
  intro fuel
  induction fuel with
  | zero =>
    intro pending text hlen
    rw [length_eq_zero_iff.mp (Nat.le_zero.mp hlen)]
    simp [splitFrom]
  | succ fuel ih =>
    intro pending text hlen
    match text with
    | [] => simp [splitFrom]
    | c :: text =>
      rw [length_cons] at hlen
      rw [splitFrom]
      split
      · next special hfind =>
        obtain ⟨hmem, rest, hrest⟩ := find_isPrefixOf hfind
        have hpos := length_pos_of_ne_nil (hne special hmem)
        have hlen' := congrArg List.length hrest
        rw [length_append, length_cons] at hlen'
        have hdrop : (c :: text).drop special.length = rest := by rw [hrest, drop_left]
        rw [flatten_append, flatten_cons, flush_flatten, hdrop,
          ih [] rest (by omega), nil_append, hrest]
      · rw [ih _ _ (by omega), append_assoc, singleton_append]

theorem splitAroundSpecials_flatten (hne : ∀ special ∈ specials, special ≠ [])
    (text : List Char) : (splitAroundSpecials specials text).flatten = text := by
  unfold splitAroundSpecials
  split
  · simp
  · rw [splitFrom_flatten hne _ _ _ (Nat.le_refl _), nil_append]

/-- No special starts inside `pending` when `text` follows it. -/
def Unmatched (specials : List (List Char)) (pending text : List Char) : Prop :=
  ∀ special ∈ specials, ∀ k < pending.length, ¬ special <+: pending.drop k ++ text

theorem Unmatched.containsNone (hne : ∀ special ∈ specials, special ≠ [])
    {pending text : List Char} (h : Unmatched specials pending text) :
    ContainsNone specials pending := by
  rintro special hmem ⟨front, back, heq⟩
  have hpos := length_pos_of_ne_nil (hne special hmem)
  have hlen := congrArg List.length heq
  rw [length_append, length_append] at hlen
  refine h special hmem front.length (by omega) ⟨back ++ text, ?_⟩
  rw [← heq, append_assoc front, drop_left, append_assoc]

theorem Unmatched.push {pending text : List Char} {c : Char}
    (h : Unmatched specials pending (c :: text))
    (hfind : specials.find? (·.isPrefixOf (c :: text)) = none) :
    Unmatched specials (pending ++ [c]) text := by
  intro special hmem k hk hprefix
  rw [length_append, length_singleton] at hk
  rcases Nat.lt_or_eq_of_le (Nat.lt_succ_iff.mp hk) with hlt | rfl
  · rw [drop_append_of_le_length hlt.le, append_assoc, singleton_append] at hprefix
    exact h special hmem k hlt hprefix
  · rw [drop_left, singleton_append] at hprefix
    have hnone := List.find?_eq_none.mp hfind special hmem
    exact hnone (List.isPrefixOf_iff_prefix.mpr hprefix)

theorem mem_flush {pending segment : List Char} (h : segment ∈ flush pending) :
    segment = pending := by
  unfold flush at h
  split at h
  · cases h
  · exact mem_singleton.mp h

theorem splitFrom_segment (hne : ∀ special ∈ specials, special ≠ []) :
    ∀ (fuel : Nat) (pending text : List Char), Unmatched specials pending text →
      ∀ segment ∈ splitFrom specials fuel pending text,
        segment ∈ specials ∨ ContainsNone specials segment := by
  intro fuel
  induction fuel with
  | zero =>
    intro pending text hun segment hmem
    rw [mem_flush hmem]
    exact .inr (hun.containsNone hne)
  | succ fuel ih =>
    intro pending text hun segment hmem
    match text with
    | [] =>
      rw [mem_flush hmem]
      exact .inr (hun.containsNone hne)
    | c :: text =>
      rw [splitFrom] at hmem
      split at hmem
      · next special hfind =>
        rcases mem_append.mp hmem with hflush | hcons
        · rw [mem_flush hflush]
          exact .inr (hun.containsNone hne)
        · rcases mem_cons.mp hcons with rfl | hrest
          · exact .inl (find_isPrefixOf hfind).1
          · exact ih [] _ (fun _ _ k hk => absurd hk (Nat.not_lt_zero k)) segment hrest
      · next hfind => exact ih _ _ (hun.push hfind) segment hmem

/-- A segment of the scan is a special, or contains none. -/
theorem splitAroundSpecials_segment (hne : ∀ special ∈ specials, special ≠ [])
    {text segment : List Char} (h : segment ∈ splitAroundSpecials specials text) :
    segment ∈ specials ∨ ContainsNone specials segment := by
  unfold splitAroundSpecials at h
  split at h
  · next hnil =>
    rw [hnil]
    exact .inr fun special hmem => absurd hmem not_mem_nil
  · exact splitFrom_segment hne _ [] text (fun _ _ k hk => absurd hk (Nat.not_lt_zero k)) segment h

/-- A special is its own only segment, because longer specials come first. -/
theorem splitAroundSpecials_special
    (hsorted : specials.Pairwise fun a b => utf8Len b ≤ utf8Len a) {special : List Char}
    (hmem : special ∈ specials) (hne : special ≠ []) :
    splitAroundSpecials specials special = [special] := by
  obtain ⟨found, hfind⟩ : ∃ found, specials.find? (·.isPrefixOf special) = some found :=
    Option.isSome_iff_exists.mp (List.find?_isSome.mpr
      ⟨special, hmem, List.isPrefixOf_iff_prefix.mpr (prefix_refl _)⟩)
  obtain ⟨_, rest, hrest⟩ := find_isPrefixOf hfind
  have hfound : found = special := by
    obtain ⟨_, front, back, hsplit, hbefore⟩ := List.find?_eq_some_iff_append.mp hfind
    rw [hsplit] at hmem hsorted
    rcases mem_append.mp hmem with hfront | hback
    · have hself : special.isPrefixOf special = true :=
        List.isPrefixOf_iff_prefix.mpr (prefix_refl _)
      have hfalse := hbefore special hfront
      rw [hself] at hfalse
      cases hfalse
    · rcases mem_cons.mp hback with heq | hlater
      · exact heq.symm
      · have hle := (pairwise_cons.mp (pairwise_append.mp hsorted).2.1).1 special hlater
        rw [hrest, utf8Len_append] at hle
        have hnil : rest = [] := by
          by_contra hrestne
          have := utf8Len_pos hrestne
          omega
        rw [hrest, hnil, append_nil]
  subst hfound
  unfold splitAroundSpecials
  rw [if_neg (ne_nil_of_mem hmem)]
  cases found with
  | nil => exact absurd rfl hne
  | cons c tail =>
    rw [length_cons, splitFrom, hfind]
    dsimp only
    rw [drop_length]
    cases tail <;> rfl

end Scan

/-! ## Halving -/

/-- Halving a piece while it is a special ends in pieces that contain none. -/
inductive Harmless (specials : List (List Char)) : List Char → Prop
  | plain {piece : List Char} : ContainsNone specials piece → Harmless specials piece
  | halved {piece : List Char} : piece ∈ specials → 1 < piece.length →
      Harmless specials (takeBytes piece (cutOf piece)) →
      Harmless specials (dropBytes piece (cutOf piece)) → Harmless specials piece

/-- A special dissolves: it has more than one character, and each of its halves
contains no special or is a special that dissolves. -/
def Dissolves (specials : List (List Char)) (special : List Char) : Prop :=
  1 < special.length ∧ Harmless specials (takeBytes special (cutOf special)) ∧
    Harmless specials (dropBytes special (cutOf special))

section Halving

variable {specials : List (List Char)}

theorem harmless_special {piece : List Char} (h : piece ∈ specials) :
    Harmless specials piece ↔ Dissolves specials piece := by
  constructor
  · intro hh
    cases hh with
    | plain hnone => exact absurd (infix_refl piece) (hnone piece h)
    | halved _ hlen hleft hright => exact ⟨hlen, hleft, hright⟩
  · rintro ⟨hlen, hleft, hright⟩
    exact .halved h hlen hleft hright

theorem harmless_plain {piece : List Char} (h : piece ∉ specials) :
    Harmless specials piece ↔ ContainsNone specials piece := by
  constructor
  · intro hh
    cases hh with
    | plain hnone => exact hnone
    | halved hmem => exact absurd hmem h
  · exact .plain

theorem segmentPieces_flatten (fuel : Nat) (segment : List Char) :
    (TokenizerInner.segmentPieces specials fuel segment).flatten = segment := by
  induction fuel generalizing segment with
  | zero => simp [TokenizerInner.segmentPieces]
  | succ fuel ih =>
    rw [TokenizerInner.segmentPieces]
    split
    · rw [flatten_append, ih, ih, takeBytes_append_dropBytes]
    · simp

/-- Induction on the halving; the fuel is enough because halves are shorter. -/
theorem segmentPieces_clean (fuel : Nat) (segment : List Char) (h : segment.length ≤ fuel) :
    (∀ piece ∈ TokenizerInner.segmentPieces specials fuel segment, ContainsNone specials piece) ↔
      Harmless specials segment := by
  induction fuel generalizing segment with
  | zero =>
    rw [TokenizerInner.segmentPieces, forall_mem_singleton]
    by_cases hmem : segment ∈ specials
    · rw [harmless_special hmem]
      constructor
      · intro hnone
        exact absurd (infix_refl segment) (hnone segment hmem)
      · intro hd
        have := hd.1
        omega
    · exact (harmless_plain hmem).symm
  | succ fuel ih =>
    rw [TokenizerInner.segmentPieces]
    split
    · next hc =>
      obtain ⟨hlen, hmem, _⟩ := hc
      obtain ⟨hleft, hright⟩ := halves_shorter hlen
      rw [forall_mem_append, ih _ (by omega), ih _ (by omega), harmless_special hmem]
      exact ⟨fun hh => ⟨hlen, hh.1, hh.2⟩, fun hh => ⟨hh.2.1, hh.2.2⟩⟩
    · next hc =>
      rw [forall_mem_singleton]
      by_cases hmem : segment ∈ specials
      · have hshort : ¬ 1 < segment.length := fun hlen => hc ⟨hlen, hmem, (cutOf_inside hlen).1⟩
        rw [harmless_special hmem]
        constructor
        · intro hnone
          exact absurd (infix_refl segment) (hnone segment hmem)
        · intro hd
          exact absurd hd.1 hshort
      · exact (harmless_plain hmem).symm

end Halving

/-! ## What reaches the external tokenizer -/

/-- `ids` are the encodings of `pieces` in a row. -/
def Encoded {ε : Type} (encode : List Char → Except ε (List Nat)) (pieces : List (List Char))
    (ids : List Nat) : Prop :=
  ∃ parts, List.Forall₂ (fun piece part => encode piece = .ok part) pieces parts ∧
    ids = parts.flatten

section Encoding

variable {ε : Type}

theorem encoded_singleton (encode : List Char → Except ε (List Nat)) {piece : List Char}
    {ids : List Nat} : Encoded encode [piece] ids ↔ encode piece = .ok ids := by
  constructor
  · rintro ⟨parts, hparts, rfl⟩
    cases hparts with
    | cons h hnil =>
      cases hnil
      simpa using h
  · intro h
    exact ⟨[ids], .cons h .nil, by simp⟩

theorem encoded_append {encode : List Char → Except ε (List Nat)}
    {pieces pieces' : List (List Char)} {ids : List Nat} :
    Encoded encode (pieces ++ pieces') ids ↔
      ∃ left right, Encoded encode pieces left ∧ Encoded encode pieces' right ∧
        ids = left ++ right := by
  constructor
  · rintro ⟨parts, hparts, rfl⟩
    have hflip : List.Forall₂ (fun part piece => encode piece = .ok part) parts
        (pieces ++ pieces') := List.Forall₂.flip hparts
    have hl := forall₂_take_append _ _ _ hflip
    have hr := forall₂_drop_append _ _ _ hflip
    refine ⟨_, _, ⟨_, List.Forall₂.flip hl, rfl⟩, ⟨_, List.Forall₂.flip hr, rfl⟩, ?_⟩
    rw [← flatten_append, take_append_drop]
  · rintro ⟨_, _, ⟨left, hl, rfl⟩, ⟨right, hr, rfl⟩, rfl⟩
    exact ⟨left ++ right, rel_append hl hr, flatten_append.symm⟩

variable (t : TokenizerInner ε)

theorem encodeSegmentFrom_ok (fuel : Nat) (segment : List Char) (ids : List Nat) :
    t.encodeSegmentFrom fuel segment = .ok ids ↔
      Encoded (t.tokenizer.encode · false)
        (TokenizerInner.segmentPieces t.specials fuel segment) ids := by
  induction fuel generalizing segment ids with
  | zero => exact (encoded_singleton (t.tokenizer.encode · false)).symm
  | succ fuel ih =>
    rw [TokenizerInner.encodeSegmentFrom, TokenizerInner.segmentPieces]
    split
    · next hc =>
      dsimp only
      rw [if_pos (cutOf_inside hc.1).1, if_pos ⟨hc.1, hc.2, (cutOf_inside hc.1).1⟩, bind_ok,
        encoded_append]
      constructor
      · rintro ⟨left, hl, hrest⟩
        obtain ⟨right, hr, heq⟩ := bind_ok.mp hrest
        cases heq
        exact ⟨left, right, (ih _ _).mp hl, (ih _ _).mp hr, rfl⟩
      · rintro ⟨left, right, hl, hr, rfl⟩
        exact ⟨left, (ih _ _).mpr hl, bind_ok.mpr ⟨right, (ih _ _).mpr hr, rfl⟩⟩
    · next hc =>
      rw [if_neg fun h => hc ⟨h.1, h.2.1⟩]
      exact (encoded_singleton (t.tokenizer.encode · false)).symm

theorem mergeSegments_ok (segments : List (List Char)) (merged ids : List Nat) :
    segments.foldlM t.mergeSegment merged = .ok ids ↔
      ∃ added, Encoded (t.tokenizer.encode · false)
        ((segments.filter (· ≠ [])).flatMap fun segment =>
          TokenizerInner.segmentPieces t.specials segment.length segment) added ∧
        ids = merged ++ added := by
  induction segments generalizing merged with
  | nil =>
    constructor
    · intro h
      cases h
      exact ⟨[], ⟨[], .nil, rfl⟩, (append_nil _).symm⟩
    · rintro ⟨_, ⟨parts, hparts, rfl⟩, rfl⟩
      cases hparts
      rw [flatten_nil, append_nil]
      rfl
  | cons segment segments ih =>
    rw [foldlM_cons, bind_ok]
    by_cases hseg : segment = []
    · have hturn : t.mergeSegment merged segment = .ok merged := if_pos hseg
      rw [hturn, filter_cons_of_neg (by simp [hseg])]
      constructor
      · rintro ⟨_, heq, hrest⟩
        cases heq
        exact (ih merged).mp hrest
      · intro h
        exact ⟨merged, rfl, (ih merged).mpr h⟩
    · rw [filter_cons_of_pos (by simp [hseg]), flatMap_cons]
      constructor
      · rintro ⟨next, hturn, hrest⟩
        unfold TokenizerInner.mergeSegment at hturn
        rw [if_neg hseg] at hturn
        obtain ⟨encoding, henc, heq⟩ := bind_ok.mp hturn
        cases heq
        obtain ⟨added, hadded, rfl⟩ := (ih _).mp hrest
        exact ⟨encoding ++ added, encoded_append.mpr
          ⟨encoding, added, (encodeSegmentFrom_ok t _ _ _).mp henc, hadded, rfl⟩,
          append_assoc _ _ _⟩
      · rintro ⟨_, hadded, rfl⟩
        obtain ⟨left, right, hl, hr, rfl⟩ := encoded_append.mp hadded
        refine ⟨merged ++ left, ?_, (ih _).mpr ⟨right, hr, (append_assoc _ _ _).symm⟩⟩
        unfold TokenizerInner.mergeSegment
        rw [if_neg hseg]
        exact bind_ok.mpr ⟨left, (encodeSegmentFrom_ok t _ _ _).mpr hl, rfl⟩

/-- Encoding without added specials encodes the pieces in a row. -/
theorem encodeIdsWith_ok (text : List Char) (ids : List Nat) :
    t.encodeIdsWith text false = .ok ids ↔
      Encoded (t.tokenizer.encode · false) (t.encodedPieces text) ids := by
  unfold TokenizerInner.encodeIdsWith TokenizerInner.encodedPieces
  split
  · exact (encoded_singleton (t.tokenizer.encode · false)).symm
  · rw [bind_ok]
    constructor
    · rintro ⟨merged, hloop, heq⟩
      cases heq
      obtain ⟨added, hadded, rfl⟩ := (mergeSegments_ok t _ _ _).mp hloop
      exact hadded
    · intro h
      exact ⟨ids, (mergeSegments_ok t _ _ _).mpr ⟨ids, h, rfl⟩, rfl⟩

end Encoding

/-! ## The barrier -/

namespace Tokenizer

variable {ε : Type} (tok : Tokenizer ε)

/-- The strings of the special tokens. -/
def specialContents : List (List Char) := (tok.addedTokens.filter (·.special)).map (·.content)

/-- Some id is the id of a special token. -/
def YieldsSpecial (ids : List Nat) : Prop :=
  ∃ token ∈ tok.addedTokens, token.special = true ∧ token.id ∈ ids

/-- Encoding a piece yields a special id when and only when the piece contains the
string of a special token. -/
def MatchesSpecials : Prop :=
  ∀ piece ids, tok.encode piece false = .ok ids →
    (tok.YieldsSpecial ids ↔ ∃ special ∈ tok.specialContents, special <:+: piece)

/-- A text stays text: its pieces are the text, and no id is special. -/
def Barrier (text : List Char) : Prop :=
  ((TokenizerInner.new tok false).encodedPieces text).flatten = text ∧
    ∀ ids, (TokenizerInner.new tok false).encodeIdsWith text false = .ok ids →
      ¬ tok.YieldsSpecial ids

variable {tok}

theorem mem_specials {special : List Char} :
    special ∈ (TokenizerInner.new tok false).specials ↔ special ∈ tok.specialContents :=
  mem_insertionSort _

theorem specials_sorted :
    (TokenizerInner.new tok false).specials.Pairwise fun a b => utf8Len b ≤ utf8Len a := by
  have : Std.Total fun a b : List Char => utf8Len b ≤ utf8Len a :=
    ⟨fun a b => Nat.le_total (utf8Len b) (utf8Len a)⟩
  have : IsTrans (List Char) fun a b => utf8Len b ≤ utf8Len a :=
    ⟨fun a b d hab hbd => Nat.le_trans hbd hab⟩
  exact pairwise_insertionSort _ _

theorem containsNone_iff {piece : List Char} :
    ContainsNone (TokenizerInner.new tok false).specials piece ↔
      ¬ ∃ special ∈ tok.specialContents, special <:+: piece := by
  simp only [ContainsNone, mem_specials, not_exists, not_and]

/-- The ids of some pieces hold a special one exactly when a piece contains a
special. -/
theorem MatchesSpecials.encoded (hm : tok.MatchesSpecials) {pieces : List (List Char)}
    {ids : List Nat} (h : Encoded (tok.encode · false) pieces ids) :
    ¬ tok.YieldsSpecial ids ↔
      ∀ piece ∈ pieces, ContainsNone (TokenizerInner.new tok false).specials piece := by
  obtain ⟨parts, hparts, rfl⟩ := h
  induction hparts with
  | nil => simp [YieldsSpecial]
  | @cons piece part pieces parts hpiece _ ih =>
    have hhead : ¬ tok.YieldsSpecial part ↔
        ContainsNone (TokenizerInner.new tok false).specials piece := by
      rw [hm piece part hpiece, containsNone_iff]
    have hsplit : tok.YieldsSpecial (part :: parts).flatten ↔
        tok.YieldsSpecial part ∨ tok.YieldsSpecial parts.flatten := by
      simp only [YieldsSpecial, flatten_cons, mem_append, and_or_left, exists_or]
    rw [hsplit, not_or, hhead, ih, forall_mem_cons]

theorem encodedPieces_flatten (hne : ∀ special ∈ tok.specialContents, special ≠ [])
    (text : List Char) :
    ((TokenizerInner.new tok false).encodedPieces text).flatten = text := by
  have hne' : ∀ special ∈ (TokenizerInner.new tok false).specials, special ≠ [] :=
    fun special h => hne special (mem_specials.mp h)
  unfold TokenizerInner.encodedPieces
  split
  · simp
  · have hinner : ∀ segments : List (List Char),
        ((segments.filter (· ≠ [])).flatMap fun segment =>
          TokenizerInner.segmentPieces (TokenizerInner.new tok false).specials segment.length
            segment).flatten = segments.flatten := by
      intro segments
      induction segments with
      | nil => rfl
      | cons segment segments ih =>
        by_cases hseg : segment = []
        · rw [filter_cons_of_neg (by simp [hseg]), ih, hseg]
          rfl
        · rw [filter_cons_of_pos (by simp [hseg]), flatMap_cons, flatten_append,
            segmentPieces_flatten, ih, flatten_cons]
    rw [hinner, splitAroundSpecials_flatten hne']

/-- The pieces of a text contain no special when every special dissolves. -/
theorem encodedPieces_clean (hne : ∀ special ∈ tok.specialContents, special ≠ [])
    (hd : ∀ special ∈ tok.specialContents,
      Dissolves (TokenizerInner.new tok false).specials special) (text : List Char) :
    ∀ piece ∈ (TokenizerInner.new tok false).encodedPieces text,
      ContainsNone (TokenizerInner.new tok false).specials piece := by
  have hne' : ∀ special ∈ (TokenizerInner.new tok false).specials, special ≠ [] :=
    fun special h => hne special (mem_specials.mp h)
  intro piece hpiece
  unfold TokenizerInner.encodedPieces at hpiece
  split at hpiece
  · next hnil =>
    rw [hnil.resolve_left (by simp [TokenizerInner.new])]
    exact fun special h => absurd h not_mem_nil
  · obtain ⟨segment, hseg, hpiece⟩ := mem_flatMap.mp hpiece
    refine (segmentPieces_clean _ segment (Nat.le_refl _)).mpr ?_ piece hpiece
    rcases splitAroundSpecials_segment hne' (mem_filter.mp hseg).1 with hspecial | hnone
    · exact (harmless_special hspecial).mpr (hd segment (mem_specials.mp hspecial))
    · exact .plain hnone

/-- A special that does not dissolve is a text with a piece that contains a special. -/
theorem encodedPieces_special {special : List Char} (hmem : special ∈ tok.specialContents)
    (hne : special ≠ []) :
    (TokenizerInner.new tok false).encodedPieces special =
      TokenizerInner.segmentPieces (TokenizerInner.new tok false).specials special.length
        special := by
  have hmem' := mem_specials.mpr hmem
  unfold TokenizerInner.encodedPieces
  rw [if_neg (by
      rintro (hparse | hnil)
      · cases hparse
      · rw [hnil] at hmem'
        exact not_mem_nil hmem'),
    splitAroundSpecials_special specials_sorted hmem' hne]
  simp [hne]

/-- The barrier stands for every text if every special dissolves, and only if, for an
external tokenizer that encodes every string. -/
theorem special_barrier_iff (tok : Tokenizer ε) (hm : tok.MatchesSpecials)
    (hne : ∀ special ∈ tok.specialContents, special ≠ []) :
    ((∀ special ∈ tok.specialContents,
        Dissolves (TokenizerInner.new tok false).specials special) →
      ∀ text, tok.Barrier text) ∧
    ((∀ piece, ∃ ids, tok.encode piece false = .ok ids) → (∀ text, tok.Barrier text) →
      ∀ special ∈ tok.specialContents,
        Dissolves (TokenizerInner.new tok false).specials special) := by
  constructor
  · intro hd text
    refine ⟨encodedPieces_flatten hne text, fun ids hids => ?_⟩
    exact (hm.encoded ((encodeIdsWith_ok _ text ids).mp hids)).mpr
      (encodedPieces_clean hne hd text)
  · intro htotal hbarrier special hmem
    have hencoded : ∀ pieces : List (List Char),
        ∃ ids, Encoded (tok.encode · false) pieces ids := by
      intro pieces
      induction pieces with
      | nil => exact ⟨[], [], .nil, rfl⟩
      | cons piece pieces ih =>
        obtain ⟨part, hpart⟩ := htotal piece
        obtain ⟨_, parts, hparts, rfl⟩ := ih
        exact ⟨_, part :: parts, .cons hpart hparts, rfl⟩
    obtain ⟨ids, hids⟩ := hencoded ((TokenizerInner.new tok false).encodedPieces special)
    have hclean := (hm.encoded hids).mp
      ((hbarrier special).2 ids ((encodeIdsWith_ok _ special ids).mpr hids))
    rw [encodedPieces_special hmem (hne special hmem)] at hclean
    exact (harmless_special (mem_specials.mpr hmem)).mp
      ((segmentPieces_clean _ special (Nat.le_refl _)).mp hclean)

/-! ## Special tokens that do not dissolve -/

/-- A tokenizer with one id per character, which gives a piece with specials the ids of
those it contains. -/
def characterTokenizer (tokens : List AddedToken) : Tokenizer Unit where
  addedTokens := tokens
  encode piece _ :=
    match tokens.filter fun token => token.special && decide (token.content <:+: piece) with
    | [] => .ok (piece.map Char.toNat)
    | found => .ok (found.map (·.id))
  postProcessor := none

theorem characterTokenizer_total (tokens : List AddedToken) (piece : List Char) :
    ∃ ids, (characterTokenizer tokens).encode piece false = .ok ids := by
  unfold characterTokenizer
  dsimp only
  split
  · exact ⟨_, rfl⟩
  · exact ⟨_, rfl⟩

theorem characterTokenizer_matches {tokens : List AddedToken}
    (hids : ∀ token ∈ tokens, 0x110000 ≤ token.id) :
    (characterTokenizer tokens).MatchesSpecials := by
  intro piece ids h
  have hspecials : (∃ special ∈ (characterTokenizer tokens).specialContents, special <:+: piece) ↔
      ∃ token ∈ tokens, token.special = true ∧ token.content <:+: piece := by
    simp [specialContents, characterTokenizer, and_assoc]
  rw [hspecials]
  unfold characterTokenizer at h
  dsimp only at h
  split at h
  · next hnone =>
    cases h
    rw [filter_eq_nil_iff] at hnone
    constructor
    · rintro ⟨token, hmem, _, hid⟩
      obtain ⟨c, _, hc⟩ := mem_map.mp hid
      have hge := hids token hmem
      have hlt : c.toNat < 0x110000 := by
        have := c.valid
        unfold UInt32.isValidChar Nat.isValidChar at this
        unfold Char.toNat
        omega
      omega
    · rintro ⟨token, hmem, hspecial, hinfix⟩
      exact absurd (by simp [hspecial, hinfix]) (hnone token hmem)
  · next found hfound =>
    cases h
    have hmem_found : ∀ token, token ∈ tokens.filter (fun token => token.special &&
        decide (token.content <:+: piece)) ↔
        token ∈ tokens ∧ token.special = true ∧ token.content <:+: piece := by
      simp [mem_filter]
    constructor
    · rintro ⟨_, _, _, hid⟩
      obtain ⟨token, htoken, _⟩ := mem_map.mp hid
      exact ⟨token, (hmem_found token).mp htoken⟩
    · rintro ⟨token, hmem, hspecial, hinfix⟩
      exact ⟨token, hmem, hspecial,
        mem_map.mpr ⟨token, (hmem_found token).mpr ⟨hmem, hspecial, hinfix⟩, rfl⟩⟩

/-- One special of several characters. -/
def endOfText : Tokenizer Unit := characterTokenizer [⟨['<', 'e', '>'], true, 0x110000⟩]

theorem endOfText_barrier :
    endOfText.Barrier ['a', '<', 'e', '>', 'b'] ∧
      Dissolves (TokenizerInner.new endOfText false).specials ['<', 'e', '>'] := by
  have hm : endOfText.MatchesSpecials := characterTokenizer_matches (by decide)
  have hcontents : endOfText.specialContents = [['<', 'e', '>']] := rfl
  have hspecials : (TokenizerInner.new endOfText false).specials = [['<', 'e', '>']] := rfl
  have hne : ∀ special ∈ endOfText.specialContents, special ≠ [] := by
    rw [hcontents]
    decide
  have hd : ∀ special ∈ endOfText.specialContents,
      Dissolves (TokenizerInner.new endOfText false).specials special := by
    rw [hcontents, hspecials, forall_mem_singleton]
    refine ⟨by decide, .plain ?_, .plain ?_⟩
    · unfold ContainsNone
      decide +kernel
    · unfold ContainsNone
      decide +kernel
  have hiff := special_barrier_iff endOfText hm hne
  refine ⟨hiff.1 hd _, hiff.2 (characterTokenizer_total _) (hiff.1 hd) _ ?_⟩
  rw [hcontents]
  exact mem_singleton_self _

/-- One special of one character. -/
def singleCharacter : Tokenizer Unit := characterTokenizer [⟨['x'], true, 0x110000⟩]

/-- A special with another one inside its first half. -/
def nestedSpecials : Tokenizer Unit :=
  characterTokenizer
    [⟨['<', 's', '>'], true, 0x110000⟩, ⟨['a', '<', 's', '>', 'w', 'x', 'y', 'z'], true, 0x110001⟩]

/-- Both come back from text as special ids. -/
theorem specials_leak :
    (singleCharacter.MatchesSpecials ∧ ¬ singleCharacter.Barrier ['x']) ∧
      nestedSpecials.MatchesSpecials ∧
        ¬ nestedSpecials.Barrier ['a', '<', 's', '>', 'w', 'x', 'y', 'z'] := by
  refine ⟨⟨characterTokenizer_matches (by decide), fun hb => ?_⟩,
    characterTokenizer_matches (by decide), fun hb => ?_⟩
  · have hids : (TokenizerInner.new singleCharacter false).encodeIdsWith ['x'] false =
        .ok [0x110000] := by
      decide +kernel
    exact hb.2 _ hids ⟨_, mem_cons_self, rfl, mem_cons_self⟩
  · have hids : (TokenizerInner.new nestedSpecials false).encodeIdsWith
        ['a', '<', 's', '>', 'w', 'x', 'y', 'z'] false =
        .ok (0x110000 :: ['w', 'x', 'y', 'z'].map Char.toNat) := by
      decide +kernel
    exact hb.2 _ hids ⟨_, mem_cons_self, rfl, mem_cons_self⟩

end Tokenizer

end EffectTorch
