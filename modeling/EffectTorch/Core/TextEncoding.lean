import EffectTorch.Core.Chat
import Mathlib.Data.List.Basic

/-!
# Encodings of texts

What is read back from `JSON.stringify` of a text, and from the bytes of UTF-8.

Results:
1. `jsonStringify_append`: a quoted text is read back, whatever follows it.
2. `wellFormed_jsonStringify`: a quoted text has no lone surrogates.
3. `utf8_inj`: texts without lone surrogates are known by their bytes.
-/

namespace EffectTorch.Chat
open List

/-! ## Reading a quoted text -/

def hexValue (c : UInt16) : Nat := if c < 97 then c.toNat - 48 else c.toNat - 87

/-- The unit that stands for a short escape. -/
def shortEscape (c : UInt16) : UInt16 :=
  if c = 0x62 then 8 else if c = 0x74 then 9 else if c = 0x6e then 10 else if c = 0x66 then 12
  else if c = 0x72 then 13 else c

/-- The text up to the closing quote, and what is behind it. -/
def unquote : Text → Option (Text × Text)
  | [] => none
  | 0x22 :: rest => some ([], rest)
  | 0x5c :: 0x75 :: a :: b :: c :: d :: rest =>
    (unquote rest).map fun p =>
      ((((hexValue a * 16 + hexValue b) * 16 + hexValue c) * 16 + hexValue d).toUInt16 :: p.1, p.2)
  | 0x5c :: c :: rest => (unquote rest).map fun p => (shortEscape c :: p.1, p.2)
  | c :: rest => (unquote rest).map fun p => (c :: p.1, p.2)

/-- One more unit in front of what is read. -/
def pushUnit (c : UInt16) (p : Text × Text) : Text × Text := (c :: p.1, p.2)

theorem hexValue_hexDigit {n : Nat} (h : n < 16) : hexValue (hexDigit n) = n := by
  revert n
  decide

theorem unquote_unit {c : UInt16} (hquote : c ≠ 0x22) (hslash : c ≠ 0x5c) (rest : Text) :
    unquote (c :: rest) = (unquote rest).map (pushUnit c) := by
  rw [unquote]
  · rfl
  · exact hquote
  · rintro _ _ _ _ _ h -
    exact hslash h
  · rintro _ _ h -
    exact hslash h

theorem unquote_unicode (c : UInt16) (rest : Text) :
    unquote (unicodeEscape c ++ rest) = (unquote rest).map (pushUnit c) := by
  have hdigit : ∀ shift, hexValue (hexDigit (c.toNat >>> shift % 16)) = c.toNat >>> shift % 16 := fun shift =>
    hexValue_hexDigit (Nat.mod_lt _ (by decide))
  have hlt := c.toNat_lt
  have hwhole : ((c.toNat >>> 12 % 16 * 16 + c.toNat >>> 8 % 16) * 16 + c.toNat >>> 4 % 16) * 16 + c.toNat >>> 0 % 16 =
      c.toNat := by
    simp only [Nat.shiftRight_eq_div_pow]
    omega
  show (unquote rest).map (fun p => _) = _
  refine congrArg (Option.map · (unquote rest)) (funext fun p => ?_)
  rw [hdigit, hdigit, hdigit, hdigit, hwhole]
  show ((UInt16.ofNat c.toNat) :: p.1, p.2) = _
  rw [UInt16.ofNat_toNat]
  rfl

/-- A short escape is read back. -/
theorem unquote_short {e c : UInt16} (he : e ≠ 0x75) (hshort : shortEscape e = c) (rest : Text) :
    unquote (0x5c :: e :: rest) = (unquote rest).map (pushUnit c) := by
  subst hshort
  rw [unquote]
  · rfl
  · rintro _ _ _ _ _ h -
    exact he h

theorem unquote_escapeUnit (c : UInt16) (rest : Text) :
    unquote (escapeUnit c ++ rest) = (unquote rest).map (pushUnit c) := by
  unfold escapeUnit
  split
  · next h => exact unquote_short (e := 0x22) (by decide) h.symm rest
  · next hquote =>
    split
    · next h => exact unquote_short (e := 0x5c) (by decide) h.symm rest
    · next hslash =>
      split
      · next h => exact unquote_short (e := 0x62) (by decide) h.symm rest
      split
      · next h => exact unquote_short (e := 0x74) (by decide) h.symm rest
      split
      · next h => exact unquote_short (e := 0x6e) (by decide) h.symm rest
      split
      · next h => exact unquote_short (e := 0x66) (by decide) h.symm rest
      split
      · next h => exact unquote_short (e := 0x72) (by decide) h.symm rest
      split
      · exact unquote_unicode c rest
      · exact unquote_unit hquote hslash rest

theorem surrogate_raw {c : UInt16} (h : (isHighSurrogate c || isLowSurrogate c) = true) : c ≠ 0x22 ∧ c ≠ 0x5c := by
  constructor
  · rintro rfl
    exact absurd h (by decide)
  · rintro rfl
    exact absurd h (by decide)

/-- The text is read back from its escapes. -/
theorem unquote_escapeText (t rest : Text) : unquote (escapeText t ++ 0x22 :: rest) = some (t, rest) := by
  induction t using escapeText.induct with
  | case1 => rfl
  | case2 c hlone =>
    rw [escapeText, if_pos hlone, unquote_unicode]
    rfl
  | case3 c hplain =>
    rw [escapeText, if_neg hplain, unquote_escapeUnit]
    rfl
  | case4 c c' tail hpair ih =>
    -- the two halves of a pair stand for themselves
    obtain ⟨hhigh, hlow⟩ := Bool.and_eq_true _ _ |>.mp hpair
    have hc := surrogate_raw (c := c) (by rw [hhigh, Bool.true_or])
    have hc' := surrogate_raw (c := c') (by rw [hlow, Bool.or_true])
    rw [escapeText, if_pos hpair, cons_append, cons_append, unquote_unit hc.1 hc.2, unquote_unit hc'.1 hc'.2, ih]
    rfl
  | case5 c c' tail hpair hlone ih =>
    rw [escapeText, if_neg hpair, if_pos hlone, append_assoc, unquote_unicode, ih]
    rfl
  | case6 c c' tail hpair hplain ih =>
    rw [escapeText, if_neg hpair, if_neg hplain, append_assoc, unquote_escapeUnit, ih]
    rfl

/-- A quoted text is read back, whatever follows it. -/
theorem jsonStringify_append {t t' rest rest' : Text} (h : jsonStringify t ++ rest = jsonStringify t' ++ rest') :
    t = t' ∧ rest = rest' := by
  have hread : ∀ t rest, (jsonStringify t ++ rest).tail = escapeText t ++ 0x22 :: rest := fun t rest => by
    rw [jsonStringify, append_assoc, append_assoc]
    rfl
  have hunquote := congrArg (fun s => unquote s.tail) h
  simp only [hread, unquote_escapeText, Option.some.injEq, Prod.mk.injEq] at hunquote
  exact hunquote

/-! ## Surrogates -/

/-- Every half of a surrogate pair has the other half next to it. -/
def wellFormed : Text → Bool
  | [] => true
  | [c] => !(isHighSurrogate c || isLowSurrogate c)
  | c :: c' :: rest =>
    if isHighSurrogate c && isLowSurrogate c' then wellFormed rest
    else !(isHighSurrogate c || isLowSurrogate c) && wellFormed (c' :: rest)

theorem wellFormed_cons {c : UInt16} (hc : (isHighSurrogate c || isLowSurrogate c) = false) (rest : Text) :
    wellFormed (c :: rest) = wellFormed rest := by
  cases rest with
  | nil => simp [wellFormed, hc]
  | cons c' rest =>
    obtain ⟨hhigh, hlow⟩ := Bool.or_eq_false_iff.mp hc
    rw [wellFormed, hhigh, hlow]
    simp

theorem wellFormed_append {t t' : Text} (h : wellFormed t = true) (h' : wellFormed t' = true) :
    wellFormed (t ++ t') = true := by
  induction t using wellFormed.induct with
  | case1 => exact h'
  | case2 c =>
    rw [wellFormed, Bool.not_eq_true'] at h
    rw [singleton_append, wellFormed_cons h]
    exact h'
  | case3 c c' tail hpair ih =>
    rw [wellFormed, if_pos hpair] at h
    rw [cons_append, cons_append, wellFormed, if_pos hpair]
    exact ih h
  | case4 c c' tail hpair ih =>
    rw [wellFormed, if_neg hpair, Bool.and_eq_true, Bool.not_eq_true'] at h
    rw [cons_append, wellFormed_cons h.1]
    exact ih h.2

/-- A text without surrogates. -/
theorem wellFormed_plain {t : Text} (h : ∀ c ∈ t, (isHighSurrogate c || isLowSurrogate c) = false) : wellFormed t = true := by
  induction t with
  | nil => rfl
  | cons c t ih =>
    rw [wellFormed_cons (h c mem_cons_self)]
    exact ih fun c hc => h c (mem_cons_of_mem _ hc)

theorem wellFormed_unicodeEscape (c : UInt16) : wellFormed (unicodeEscape c) = true := by
  have hdigit : ∀ n < 16, (isHighSurrogate (hexDigit n) || isLowSurrogate (hexDigit n)) = false := by decide
  refine wellFormed_plain fun d hd => ?_
  rcases mem_append.mp hd with hslash | hdigits
  · rw [show text "\\u" = [0x5c, 0x75] from rfl] at hslash
    rcases mem_pair.mp hslash with rfl | rfl
    · decide
    · decide
  · obtain ⟨shift, -, rfl⟩ := mem_map.mp hdigits
    exact hdigit _ (Nat.mod_lt _ (by decide))

theorem wellFormed_escapeUnit {c : UInt16} (hc : (isHighSurrogate c || isLowSurrogate c) = false) :
    wellFormed (escapeUnit c) = true := by
  unfold escapeUnit
  split
  · decide
  split
  · decide
  split
  · decide
  split
  · decide
  split
  · decide
  split
  · decide
  split
  · decide
  split
  · exact wellFormed_unicodeEscape c
  · rw [wellFormed, hc]
    rfl

theorem wellFormed_escapeText (t : Text) : wellFormed (escapeText t) = true := by
  induction t using escapeText.induct with
  | case1 => rfl
  | case2 c hlone =>
    rw [escapeText, if_pos hlone]
    exact wellFormed_unicodeEscape c
  | case3 c hplain =>
    rw [escapeText, if_neg hplain]
    exact wellFormed_escapeUnit (Bool.not_eq_true _ |>.mp hplain)
  | case4 c c' tail hpair ih =>
    rw [escapeText, if_pos hpair, wellFormed, if_pos hpair]
    exact ih
  | case5 c c' tail hpair hlone ih =>
    rw [escapeText, if_neg hpair, if_pos hlone]
    exact wellFormed_append (wellFormed_unicodeEscape c) ih
  | case6 c c' tail hpair hplain ih =>
    rw [escapeText, if_neg hpair, if_neg hplain]
    exact wellFormed_append (wellFormed_escapeUnit (Bool.not_eq_true _ |>.mp hplain)) ih

/-- A quoted text has no lone surrogates. -/
theorem wellFormed_jsonStringify (t : Text) : wellFormed (jsonStringify t) = true :=
  wellFormed_append (wellFormed_append (by decide) (wellFormed_escapeText t)) (by decide)

/-! ## UTF-8 -/

/-- The character of a surrogate pair. -/
def pairCode (high low : UInt16) : Nat := 0x10000 + (high.toNat - 0xd800) * 0x400 + (low.toNat - 0xdc00)

/-- The characters of a text; a lone surrogate is replaced. -/
def characters : Text → List Char
  | [] => []
  | [c] => [Char.ofNat (if isHighSurrogate c || isLowSurrogate c then 0xfffd else c.toNat)]
  | c :: c' :: rest =>
    if isHighSurrogate c && isLowSurrogate c' then Char.ofNat (pairCode c c') :: characters rest
    else Char.ofNat (if isHighSurrogate c || isLowSurrogate c then 0xfffd else c.toNat) :: characters (c' :: rest)

/-- The bytes of a text. -/
def utf8 (t : Text) : List UInt8 := (characters t).flatMap String.utf8EncodeChar

/-- The units of a character. -/
def units (c : Char) : Text :=
  if c.toNat < 0x10000 then [c.toNat.toUInt16]
  else [(0xd800 + (c.toNat - 0x10000) / 0x400).toUInt16, (0xdc00 + (c.toNat - 0x10000) % 0x400).toUInt16]

theorem isHighSurrogate_iff {c : UInt16} : isHighSurrogate c = true ↔ 0xd800 ≤ c.toNat ∧ c.toNat ≤ 0xdbff := by
  simp [isHighSurrogate, UInt16.le_iff_toNat_le]

theorem isLowSurrogate_iff {c : UInt16} : isLowSurrogate c = true ↔ 0xdc00 ≤ c.toNat ∧ c.toNat ≤ 0xdfff := by
  simp [isLowSurrogate, UInt16.le_iff_toNat_le]

theorem toNat_ofNat_valid {n : Nat} (h : n.isValidChar) : (Char.ofNat n).toNat = n := by
  rw [Char.ofNat, dif_pos h]
  rfl

theorem units_plain {c : UInt16} (hc : (isHighSurrogate c || isLowSurrogate c) = false) :
    units (Char.ofNat (if isHighSurrogate c || isLowSurrogate c then 0xfffd else c.toNat)) = [c] := by
  have hlt := c.toNat_lt
  have hvalid : c.toNat.isValidChar := by
    rw [Bool.or_eq_false_iff, ← Bool.not_eq_true, ← Bool.not_eq_true, isHighSurrogate_iff, isLowSurrogate_iff] at hc
    unfold Nat.isValidChar
    omega
  rw [hc, if_neg Bool.false_ne_true, units, toNat_ofNat_valid hvalid, if_pos hlt]
  exact congrArg (List.cons · []) UInt16.ofNat_toNat

theorem units_pair {c c' : UInt16} (hpair : (isHighSurrogate c && isLowSurrogate c') = true) :
    units (Char.ofNat (pairCode c c')) = [c, c'] := by
  obtain ⟨hhigh, hlow⟩ := Bool.and_eq_true _ _ |>.mp hpair
  rw [isHighSurrogate_iff] at hhigh
  rw [isLowSurrogate_iff] at hlow
  have hvalid : (pairCode c c').isValidChar := by
    unfold Nat.isValidChar pairCode
    omega
  have hbig : ¬ pairCode c c' < 0x10000 := by
    unfold pairCode
    omega
  have hfirst : 0xd800 + (pairCode c c' - 0x10000) / 0x400 = c.toNat := by
    unfold pairCode
    omega
  have hsecond : 0xdc00 + (pairCode c c' - 0x10000) % 0x400 = c'.toNat := by
    unfold pairCode
    omega
  rw [units, toNat_ofNat_valid hvalid, if_neg hbig, hfirst, hsecond]
  show [UInt16.ofNat c.toNat, UInt16.ofNat c'.toNat] = _
  rw [UInt16.ofNat_toNat, UInt16.ofNat_toNat]

theorem characters_units {t : Text} (h : wellFormed t = true) : (characters t).flatMap units = t := by
  induction t using characters.induct with
  | case1 => rfl
  | case2 c =>
    rw [wellFormed, Bool.not_eq_true'] at h
    rw [characters, flatMap_singleton]
    exact units_plain h
  | case3 c c' tail hpair ih =>
    rw [wellFormed, if_pos hpair] at h
    rw [characters, if_pos hpair, flatMap_cons, units_pair hpair, ih h]
    rfl
  | case4 c c' tail hpair ih =>
    rw [wellFormed, if_neg hpair, Bool.and_eq_true, Bool.not_eq_true'] at h
    rw [characters, if_neg hpair, flatMap_cons, units_plain h.1, ih h.2]
    rfl

theorem utf8Encode_inj {l l' : List Char} (h : l.flatMap String.utf8EncodeChar = l'.flatMap String.utf8EncodeChar) :
    l = l' := by
  have hbytes : l.utf8Encode = l'.utf8Encode := congrArg List.toByteArray h
  have hstrings : String.ofList l = String.ofList l' := String.toByteArray_inj.mp hbytes
  exact String.ofList_injective hstrings

/-- Texts without lone surrogates are known by their bytes. -/
theorem utf8_inj {t t' : Text} (ht : wellFormed t = true) (ht' : wellFormed t' = true) (h : utf8 t = utf8 t') : t = t' := by
  have hcharacters := utf8Encode_inj h
  rw [← characters_units ht, ← characters_units ht', hcharacters]

end EffectTorch.Chat
