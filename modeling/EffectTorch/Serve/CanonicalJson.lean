import EffectTorch.Serve.NumberText
import Mathlib.Data.List.Lex
import Mathlib.Data.List.Sort

/-!
# Canonical JSON

`canonicalJson` of `packages/serve/src/DecisionPlanner.ts`, over the values of `Schema.Json`. The fields
of an object are listed in the order of its enumeration, and no key twice.

Results:
1. `canonicalJson_append`: the value is known by its text, whatever follows it.
2. `canonicalJson_iff`: values have the same text when they have the same meaning.
3. `wellFormed_canonicalJson`: the text has no lone surrogates.
-/

namespace EffectTorch.DecisionPlanner
open List Chat

/-! ## Values -/

inductive Json where
  | null
  | bool (b : Bool)
  | number (n : JsonNumber)
  | string (t : Text)
  | array (items : List Json)
  | object (fields : List (Text × Json))

/-- The meaning of a value: an object is a map from keys, whose order does not matter. -/
inductive JsonValue where
  | null
  | bool (b : Bool)
  | number (value : ℚ)
  | string (t : Text)
  | array (items : List JsonValue)
  | object (fields : Text → Option JsonValue)

mutual

/-- The meaning. -/
def Json.denote : Json → JsonValue
  | .null => .null
  | .bool b => .bool b
  | .number n => .number n.value
  | .string t => .string t
  | .array items => .array (denoteItems items)
  | .object fields => .object (denoteFields fields)

def denoteItems : List Json → List JsonValue
  | [] => []
  | a :: items => a.denote :: denoteItems items

def denoteFields : List (Text × Json) → Text → Option JsonValue
  | [], _ => none
  | f :: fields, key => if key = f.1 then some f.2.denote else denoteFields fields key

end

mutual

/-- No object has a key twice. -/
def Json.Distinct : Json → Prop
  | .array items => distinctItems items
  | .object fields => (fields.map Prod.fst).Nodup ∧ distinctFields fields
  | _ => True

def distinctItems : List Json → Prop
  | [] => True
  | a :: items => a.Distinct ∧ distinctItems items

def distinctFields : List (Text × Json) → Prop
  | [] => True
  | f :: fields => f.2.Distinct ∧ distinctFields fields

end

/-! ## Texts -/

/-- The order of `sort`: by code units. -/
def unitsLe (a b : Text) : Prop := a.map UInt16.toNat ≤ b.map UInt16.toNat

instance : DecidableRel unitsLe := fun _ _ => inferInstanceAs (Decidable (_ ≤ _))

/-- `Object.keys(value).sort()`, with what the keys lead to. -/
def sortKeys {α : Type} (fields : List (Text × α)) : List (Text × α) :=
  fields.insertionSort fun f g => unitsLe f.1 g.1

/-- The items behind the first. -/
def joinTail : List Text → Text
  | [] => []
  | t :: rest => 0x2c :: (t ++ joinTail rest)

/-- `join(",")`. -/
def joinTexts : List Text → Text
  | [] => []
  | t :: rest => t ++ joinTail rest

/-- A field, from the text of its value. -/
def fieldText (f : Text × Text) : Text := jsonStringify f.1 ++ 0x3a :: f.2

mutual

def canonicalJson : Json → Text
  | .null => text "null"
  | .bool true => text "true"
  | .bool false => text "false"
  | .number n => numberText n
  | .string t => jsonStringify t
  | .array items => 0x5b :: (joinTexts (canonicalItems items) ++ [0x5d])
  | .object fields => 0x7b :: (joinTexts ((sortKeys (canonicalFields fields)).map fieldText) ++ [0x7d])

def canonicalItems : List Json → List Text
  | [] => []
  | a :: items => canonicalJson a :: canonicalItems items

def canonicalFields : List (Text × Json) → List (Text × Text)
  | [] => []
  | f :: fields => (f.1, canonicalJson f.2) :: canonicalFields fields

end

/-- A property of all values that items and fields hand on. -/
theorem Json.induct {P : Json → Prop} (null : P .null) (bool : ∀ b, P (.bool b)) (number : ∀ n, P (.number n))
    (string : ∀ t, P (.string t)) (array : ∀ items, (∀ a ∈ items, P a) → P (.array items))
    (object : ∀ fields, (∀ f ∈ fields, P f.2) → P (.object fields)) (a : Json) : P a :=
  @Json.rec P (fun items => ∀ a ∈ items, P a) (fun fields => ∀ f ∈ fields, P f.2) (fun f => P f.2) null bool number string
    array object (fun _ ha => absurd ha not_mem_nil)
    (fun _ _ ha hitems _ hb => (mem_cons.mp hb).elim (fun heq => heq ▸ ha) (hitems _))
    (fun _ hf => absurd hf not_mem_nil)
    (fun _ _ hf hfields _ hg => (mem_cons.mp hg).elim (fun heq => heq ▸ hf) (hfields _)) (fun _ _ ha => ha) a

section Equations

theorem denoteItems_eq (items : List Json) : denoteItems items = items.map Json.denote := by
  induction items with
  | nil => rfl
  | cons a items ih => rw [denoteItems, ih, map_cons]

theorem canonicalItems_eq (items : List Json) : canonicalItems items = items.map canonicalJson := by
  induction items with
  | nil => rfl
  | cons a items ih => rw [canonicalItems, ih, map_cons]

theorem canonicalFields_eq (fields : List (Text × Json)) :
    canonicalFields fields = fields.map fun f => (f.1, canonicalJson f.2) := by
  induction fields with
  | nil => rfl
  | cons f fields ih => rw [canonicalFields, ih, map_cons]

theorem canonicalJson_array (items : List Json) :
    canonicalJson (.array items) = 0x5b :: (joinTexts (items.map canonicalJson) ++ [0x5d]) := by
  rw [canonicalJson, canonicalItems_eq]

theorem distinctItems_iff {items : List Json} : distinctItems items ↔ ∀ a ∈ items, a.Distinct := by
  induction items with
  | nil => simp [distinctItems]
  | cons a items ih => simp [distinctItems, ih]

theorem distinctFields_iff {fields : List (Text × Json)} : distinctFields fields ↔ ∀ f ∈ fields, f.2.Distinct := by
  induction fields with
  | nil => simp [distinctFields]
  | cons f fields ih => simp [distinctFields, ih]

end Equations

/-! ## Sorted fields -/

section Sorted

variable {α : Type} {fields fields' : List (Text × α)}

instance : Std.Total unitsLe := ⟨fun a b => le_total (a.map UInt16.toNat) (b.map UInt16.toNat)⟩

instance : IsTrans Text unitsLe := ⟨fun _ _ _ => le_trans⟩

theorem unitsLe_antisymm {a b : Text} (h : unitsLe a b) (h' : unitsLe b a) : a = b :=
  map_injective_iff.mpr (fun _ _ => UInt16.toNat_inj.mp) (le_antisymm h h')

theorem sortKeys_perm (fields : List (Text × α)) : (sortKeys fields).Perm fields := perm_insertionSort _ fields

/-- Fields with the same keys and values are sorted alike. -/
theorem sortKeys_eq (h : fields.Perm fields') (hkeys : (fields.map Prod.fst).Nodup) : sortKeys fields = sortKeys fields' := by
  have hsorted : ∀ fields : List (Text × α), (sortKeys fields).Pairwise fun f g => unitsLe f.1 g.1 := fun fields => by
    have hmap := map_insertionSort (fun f g : Text × α => unitsLe f.1 g.1) unitsLe Prod.fst fields fun _ _ _ _ => Iff.rfl
    exact pairwise_map.mp (hmap ▸ pairwise_insertionSort unitsLe (fields.map Prod.fst))
  refine List.Perm.eq_of_pairwise (fun f g hf hg hle hle' => ?_) (hsorted fields) (hsorted fields')
    ((sortKeys_perm fields).trans (h.trans (sortKeys_perm fields').symm))
  have hf := (sortKeys_perm fields).mem_iff.mp hf
  have hg := h.mem_iff.mpr ((sortKeys_perm fields').mem_iff.mp hg)
  exact inj_on_of_nodup_map hkeys hf hg (unitsLe_antisymm hle hle')

theorem sortKeys_map {β : Type} (value : α → β) (fields : List (Text × α)) :
    sortKeys (fields.map fun f => (f.1, value f.2)) = (sortKeys fields).map fun f => (f.1, value f.2) :=
  (map_insertionSort (fun f g : Text × α => unitsLe f.1 g.1) (fun f g : Text × β => unitsLe f.1 g.1) _ fields
    fun _ _ _ _ => Iff.rfl).symm

theorem canonicalJson_object (fields : List (Text × Json)) : canonicalJson (.object fields) =
    0x7b :: (joinTexts ((sortKeys fields).map fun f => fieldText (f.1, canonicalJson f.2)) ++ [0x7d]) := by
  rw [canonicalJson, canonicalFields_eq, sortKeys_map, map_map]
  rfl

end Sorted

/-! ## Fields as a map -/

section Fields

variable {fields fields' : List (Text × Json)}

theorem denoteFields_some (hkeys : (fields.map Prod.fst).Nodup) {key : Text} {value : JsonValue} :
    denoteFields fields key = some value ↔ ∃ f ∈ fields, f.1 = key ∧ f.2.denote = value := by
  induction fields with
  | nil => simp [denoteFields]
  | cons f fields ih =>
    rw [map_cons, nodup_cons] at hkeys
    rw [denoteFields]
    split
    · next hkey =>
      subst hkey
      constructor
      · intro h
        exact ⟨f, mem_cons_self, rfl, Option.some.inj h⟩
      · rintro ⟨g, hg, hkey, rfl⟩
        rcases mem_cons.mp hg with rfl | hg
        · rfl
        · exact absurd (hkey ▸ mem_map_of_mem hg) hkeys.1
    · next hkey =>
      rw [ih hkeys.2]
      constructor
      · rintro ⟨g, hg, h⟩
        exact ⟨g, mem_cons_of_mem f hg, h⟩
      · rintro ⟨g, hg, hgkey, h⟩
        rcases mem_cons.mp hg with rfl | hg
        · exact absurd hgkey.symm hkey
        · exact ⟨g, hg, hgkey, h⟩

/-- The order of the fields does not matter. -/
theorem denoteFields_perm (h : fields.Perm fields') (hkeys : (fields.map Prod.fst).Nodup) :
    denoteFields fields = denoteFields fields' := by
  have hkeys' := (h.map Prod.fst).nodup_iff.mp hkeys
  refine funext fun key => Option.ext fun value => ?_
  rw [denoteFields_some hkeys, denoteFields_some hkeys']
  exact exists_congr fun f => and_congr_left fun _ => h.mem_iff

/-- The fields as a map, from their keys and meanings. -/
theorem denoteFields_congr (h : fields.map (fun f => (f.1, f.2.denote)) = fields'.map fun f => (f.1, f.2.denote)) :
    denoteFields fields = denoteFields fields' := by
  induction fields generalizing fields' with
  | nil => rw [map_eq_nil_iff.mp h.symm]
  | cons f fields ih =>
    obtain ⟨f', rest, rfl, hf, hrest⟩ := map_eq_cons_iff.mp h.symm
    obtain ⟨hkey, hvalue⟩ := Prod.mk.inj hf
    refine funext fun key => ?_
    rw [denoteFields, denoteFields, hkey, hvalue, ih hrest.symm]

theorem denoteFields_none {key : Text} (h : key ∉ fields.map Prod.fst) : denoteFields fields key = none := by
  induction fields with
  | nil => rfl
  | cons f fields ih =>
    rw [map_cons, mem_cons, not_or] at h
    rw [denoteFields, if_neg h.1, ih h.2]

/-- Records of the same keys mean the same when their values do. -/
theorem denoteFields_iff (hkeys : (fields.map Prod.fst).Nodup) (h : fields.map Prod.fst = fields'.map Prod.fst) :
    denoteFields fields = denoteFields fields' ↔ (fields.map fun f => f.2.denote) = fields'.map fun f => f.2.denote := by
  induction fields generalizing fields' with
  | nil => rw [map_eq_nil_iff.mp h.symm]; exact ⟨fun _ => rfl, fun _ => rfl⟩
  | cons f fields ih =>
    obtain ⟨f', fields', rfl, hkey, hrest⟩ := map_eq_cons_iff.mp h.symm
    obtain ⟨hnew, hkeys⟩ := nodup_cons.mp hkeys
    rw [map_cons, map_cons, List.cons.injEq, ← ih hkeys hrest.symm]
    constructor
    · intro heq
      refine ⟨?_, funext fun key => ?_⟩
      · have hvalue := congrFun heq f.1
        rw [denoteFields, denoteFields, if_pos rfl, if_pos hkey.symm] at hvalue
        exact Option.some.inj hvalue
      · by_cases hfirst : key = f.1
        · subst hfirst
          rw [denoteFields_none hnew, denoteFields_none (hrest ▸ hnew)]
        · have hvalue := congrFun heq key
          rwa [denoteFields, denoteFields, if_neg hfirst, if_neg (hkey ▸ hfirst)] at hvalue
    · rintro ⟨hvalue, hvalues⟩
      refine funext fun key => ?_
      rw [denoteFields, denoteFields, hkey, hvalue, hvalues]

end Fields

/-! ## Reading a value back -/

section Reading

/-- What follows a value does not go on with a number. -/
def Ends (rest : Text) : Prop := ∀ c ∈ rest.head?, isNumeric c = false

/-- The items behind the first are read back one by one. -/
theorem joinTail_append {β γ : Type} {render : β → Text} {meaning : β → γ} {close : UInt16} (hclose : close ≠ 0x2c)
    (hends : isNumeric close = false) {xs ys : List β}
    (hread : ∀ x ∈ xs, ∀ y ∈ ys, ∀ r r', Ends r → Ends r' → render x ++ r = render y ++ r' → meaning x = meaning y ∧ r = r')
    {r r' : Text} (h : joinTail (xs.map render) ++ close :: r = joinTail (ys.map render) ++ close :: r') :
    xs.map meaning = ys.map meaning ∧ r = r' := by
  have htail : ∀ (zs : List β) (r : Text), Ends (joinTail (zs.map render) ++ close :: r) := by
    intro zs r c hc
    cases zs with
    | nil => rwa [← Option.mem_some.mp hc]
    | cons z zs =>
      rw [← Option.mem_some.mp hc]
      decide
  induction xs generalizing ys with
  | nil =>
    cases ys with
    | nil => exact ⟨rfl, (List.cons.inj h).2⟩
    | cons y ys => exact absurd (List.cons.inj h).1 hclose
  | cons x xs ih =>
    cases ys with
    | nil => exact absurd (List.cons.inj h).1.symm hclose
    | cons y ys =>
      simp only [map_cons, joinTail, cons_append, append_assoc] at h
      obtain ⟨hx, hrest⟩ := hread x mem_cons_self y mem_cons_self _ _ (htail xs r) (htail ys r') (List.cons.inj h).2
      obtain ⟨hxs, hr⟩ := ih (fun x hx y hy => hread x (mem_cons_of_mem _ hx) y (mem_cons_of_mem _ hy)) hrest
      exact ⟨cons_eq_cons.mpr ⟨hx, hxs⟩, hr⟩

/-- The items of a list are read back; none of them starts like the end of the list. -/
theorem joinTexts_append {β γ : Type} {render : β → Text} (meaning : β → γ) {close : UInt16} (hclose : close ≠ 0x2c)
    (hends : isNumeric close = false) {xs ys : List β} (hstart : ∀ x, ∃ c rest, render x = c :: rest ∧ c ≠ close)
    (hread : ∀ x ∈ xs, ∀ y ∈ ys, ∀ r r', Ends r → Ends r' → render x ++ r = render y ++ r' → meaning x = meaning y ∧ r = r')
    {r r' : Text} (h : joinTexts (xs.map render) ++ close :: r = joinTexts (ys.map render) ++ close :: r') :
    xs.map meaning = ys.map meaning ∧ r = r' := by
  have hnonempty : ∀ (z : β) (zs : List β) {r r' : Text}, close :: r ≠ joinTexts ((z :: zs).map render) ++ close :: r' := by
    intro z zs r r' heq
    obtain ⟨c, rest, hz, hc⟩ := hstart z
    rw [map_cons, joinTexts, hz] at heq
    exact hc (List.cons.inj heq).1.symm
  cases xs with
  | nil =>
    cases ys with
    | nil => exact ⟨rfl, (List.cons.inj h).2⟩
    | cons y ys => exact absurd h (hnonempty y ys)
  | cons x xs =>
    cases ys with
    | nil => exact absurd h.symm (hnonempty x xs)
    | cons y ys => exact joinTail_append hclose hends hread (congrArg (List.cons 0x2c) h)

/-- What the first unit says of a value. -/
def unitKind (c : UInt16) : Nat :=
  if isNumeric c then 0 else if c = 0x6e then 1 else if c = 0x74 ∨ c = 0x66 then 2 else if c = 0x22 then 3
  else if c = 0x5b then 4 else if c = 0x7b then 5 else 6

def Json.kind : Json → Nat
  | .number _ => 0
  | .null => 1
  | .bool _ => 2
  | .string _ => 3
  | .array _ => 4
  | .object _ => 5

theorem canonicalJson_kind (a : Json) : ∃ c rest, canonicalJson a = c :: rest ∧ unitKind c = a.kind := by
  cases a with
  | null => exact ⟨_, _, rfl, by decide⟩
  | bool b =>
    cases b with
    | true => exact ⟨_, _, rfl, by decide⟩
    | false => exact ⟨_, _, rfl, by decide⟩
  | number n =>
    obtain ⟨c, rest, htext⟩ := exists_cons_of_ne_nil (numberText_ne_nil n)
    have hc := numberText_numeric n c (htext ▸ mem_cons_self)
    exact ⟨c, rest, htext, by rw [unitKind, if_pos hc]; rfl⟩
  | string t => exact ⟨0x22, _, rfl, (by decide : unitKind 0x22 = 3)⟩
  | array items => exact ⟨0x5b, _, rfl, (by decide : unitKind 0x5b = 4)⟩
  | object fields => exact ⟨0x7b, _, rfl, (by decide : unitKind 0x7b = 5)⟩

theorem Json.kind_le (a : Json) : a.kind ≤ 5 := by
  unfold Json.kind
  split <;> decide

/-- A value does not start like the end of a list. -/
theorem canonicalJson_start (a : Json) : ∃ c rest, canonicalJson a = c :: rest ∧ c ≠ 0x5d := by
  obtain ⟨c, rest, htext, hkind⟩ := canonicalJson_kind a
  refine ⟨c, rest, htext, ?_⟩
  rintro rfl
  exact absurd (hkind ▸ a.kind_le) (by decide)

/-- Values whose texts agree are of one kind. -/
theorem kind_eq {a b : Json} {r r' : Text} (h : canonicalJson a ++ r = canonicalJson b ++ r') : a.kind = b.kind := by
  obtain ⟨c, rest, ha, hc⟩ := canonicalJson_kind a
  obtain ⟨c', rest', hb, hc'⟩ := canonicalJson_kind b
  rw [ha, hb] at h
  rw [← hc, ← hc', (List.cons.inj h).1]

theorem numberText_append {n n' : JsonNumber} {r r' : Text} (hr : Ends r) (hr' : Ends r')
    (h : numberText n ++ r = numberText n' ++ r') : n.value = n'.value ∧ r = r' := by
  obtain ⟨hfront, hback⟩ := split_at (numberText_numeric n) hr
  obtain ⟨hfront', hback'⟩ := split_at (numberText_numeric n') hr'
  have htext : numberText n = numberText n' := by rw [← hfront, h, hfront']
  exact ⟨numberText_iff.mp htext, by rw [← hback, h, hback']⟩

/-- The value is known by its text, whatever follows it. -/
theorem canonicalJson_append {a b : Json} (ha : a.Distinct) (hb : b.Distinct) {r r' : Text} (hr : Ends r) (hr' : Ends r')
    (h : canonicalJson a ++ r = canonicalJson b ++ r') : a.denote = b.denote ∧ r = r' := by
  have hkind := kind_eq h
  induction a using Json.induct generalizing b r r' with
  | null =>
    cases b with
    | null => exact ⟨rfl, append_cancel_left h⟩
    | _ => cases hkind
  | bool c =>
    cases b with
    | bool c' =>
      cases c <;> cases c'
      · exact ⟨rfl, append_cancel_left h⟩
      · exact absurd (List.cons.inj h).1 (by decide)
      · exact absurd (List.cons.inj h).1 (by decide)
      · exact ⟨rfl, append_cancel_left h⟩
    | _ => cases hkind
  | number n =>
    cases b with
    | number n' =>
      obtain ⟨hvalue, hrest⟩ := numberText_append hr hr' h
      exact ⟨congrArg JsonValue.number hvalue, hrest⟩
    | _ => cases hkind
  | string t =>
    cases b with
    | string t' =>
      obtain ⟨ht, hrest⟩ := jsonStringify_append h
      exact ⟨congrArg JsonValue.string ht, hrest⟩
    | _ => cases hkind
  | array items ih =>
    cases b with
    | array items' =>
      have ha := distinctItems_iff.mp ha
      have hb := distinctItems_iff.mp hb
      rw [canonicalJson_array, canonicalJson_array, cons_append, cons_append, append_assoc,
        append_assoc] at h
      obtain ⟨hitems, hrest⟩ := joinTexts_append Json.denote (by decide) (by decide) canonicalJson_start (fun x hx y hy r r' hr hr' h =>
        ih x hx (ha x hx) (hb y hy) hr hr' h (kind_eq h)) (List.cons.inj h).2
      refine ⟨?_, hrest⟩
      rw [Json.denote, Json.denote, denoteItems_eq, denoteItems_eq, hitems]
    | _ => cases hkind
  | object fields ih =>
    cases b with
    | object fields' =>
      have hvalues := distinctFields_iff.mp ha.2
      have hvalues' := distinctFields_iff.mp hb.2
      rw [canonicalJson_object, canonicalJson_object, cons_append, cons_append, append_assoc,
        append_assoc] at h
      -- a key is read back, then the colon, then its value
      have hread : ∀ f ∈ sortKeys fields, ∀ g ∈ sortKeys fields', ∀ r r', Ends r → Ends r' →
          fieldText (f.1, canonicalJson f.2) ++ r = fieldText (g.1, canonicalJson g.2) ++ r' →
            (f.1, f.2.denote) = (g.1, g.2.denote) ∧ r = r' := by
        intro f hf g hg r r' hr hr' h
        rw [fieldText, fieldText, append_assoc, append_assoc] at h
        obtain ⟨hkey, hvalue⟩ := jsonStringify_append h
        have hf := (sortKeys_perm fields).mem_iff.mp hf
        have hg := (sortKeys_perm fields').mem_iff.mp hg
        have hvalue := (List.cons.inj hvalue).2
        obtain ⟨hdenote, hrest⟩ := ih f hf (hvalues f hf) (hvalues' g hg) hr hr' hvalue (kind_eq hvalue)
        exact ⟨Prod.ext hkey hdenote, hrest⟩
      have hstart : ∀ f : Text × Json, ∃ c rest, fieldText (f.1, canonicalJson f.2) = c :: rest ∧ c ≠ 0x7d := fun f =>
        ⟨0x22, _, rfl, by decide⟩
      obtain ⟨hfields, hrest⟩ := joinTexts_append (fun f : Text × Json => (f.1, f.2.denote)) (by decide) (by decide) hstart
        hread (List.cons.inj h).2
      refine ⟨congrArg JsonValue.object ?_, hrest⟩
      calc denoteFields fields = denoteFields (sortKeys fields) := denoteFields_perm (sortKeys_perm fields).symm ha.1
        _ = denoteFields (sortKeys fields') := denoteFields_congr hfields
        _ = denoteFields fields' := (denoteFields_perm (sortKeys_perm fields').symm hb.1).symm
    | _ => cases hkind

end Reading

/-! ## Texts and meanings -/

section Meaning

theorem map_eq_of_map_eq {α β γ : Type} {f : α → β} {g : α → γ} {xs ys : List α} (h : xs.map f = ys.map f)
    (heq : ∀ x ∈ xs, ∀ y ∈ ys, f x = f y → g x = g y) : xs.map g = ys.map g := by
  induction xs generalizing ys with
  | nil => rw [map_eq_nil_iff.mp h.symm]
  | cons x xs ih =>
    obtain ⟨y, ys, rfl, hxy, hrest⟩ := map_eq_cons_iff.mp h.symm
    rw [map_cons, map_cons, heq x mem_cons_self y mem_cons_self hxy.symm,
      ih hrest.symm fun x hx y hy => heq x (mem_cons_of_mem _ hx) y (mem_cons_of_mem _ hy)]

/-- Objects with the same meaning have the same keys, with the same texts of their values. -/
theorem canonicalFields_perm {fields fields' : List (Text × Json)} (hkeys : (fields.map Prod.fst).Nodup)
    (hkeys' : (fields'.map Prod.fst).Nodup) (h : denoteFields fields = denoteFields fields')
    (heq : ∀ f ∈ fields, ∀ g ∈ fields', f.2.denote = g.2.denote → canonicalJson f.2 = canonicalJson g.2) :
    (canonicalFields fields).Perm (canonicalFields fields') := by
  rw [canonicalFields_eq, canonicalFields_eq]
  have hnodup : ∀ {fields : List (Text × Json)}, (fields.map Prod.fst).Nodup →
      (fields.map fun f => (f.1, canonicalJson f.2)).Nodup := fun {fields} hkeys =>
    List.Nodup.of_map Prod.fst (by rw [map_map]; exact hkeys)
  refine (perm_ext_iff_of_nodup (hnodup hkeys) (hnodup hkeys')).mpr fun p => ?_
  simp only [mem_map]
  constructor
  · rintro ⟨f, hf, rfl⟩
    have hsome := (denoteFields_some hkeys).mpr ⟨f, hf, rfl, rfl⟩
    obtain ⟨g, hg, hkey, hvalue⟩ := (denoteFields_some hkeys').mp (h ▸ hsome)
    exact ⟨g, hg, Prod.ext hkey (heq f hf g hg hvalue.symm).symm⟩
  · rintro ⟨g, hg, rfl⟩
    have hsome := (denoteFields_some hkeys').mpr ⟨g, hg, rfl, rfl⟩
    obtain ⟨f, hf, hkey, hvalue⟩ := (denoteFields_some hkeys).mp (h ▸ hsome)
    exact ⟨f, hf, Prod.ext hkey (heq f hf g hg hvalue)⟩

/-- Values with the same meaning have the same text. -/
theorem canonicalJson_congr {a b : Json} (ha : a.Distinct) (hb : b.Distinct) (h : a.denote = b.denote) :
    canonicalJson a = canonicalJson b := by
  induction a using Json.induct generalizing b with
  | null =>
    cases b with
    | null => rfl
    | _ => cases h
  | bool c =>
    cases b with
    | bool c' => rw [JsonValue.bool.inj h]
    | _ => cases h
  | number n =>
    cases b with
    | number n' => exact numberText_iff.mpr (JsonValue.number.inj h)
    | _ => cases h
  | string t =>
    cases b with
    | string t' => rw [JsonValue.string.inj h]
    | _ => cases h
  | array items ih =>
    cases b with
    | array items' =>
      have ha := distinctItems_iff.mp ha
      have hb := distinctItems_iff.mp hb
      have hitems := JsonValue.array.inj h
      rw [denoteItems_eq, denoteItems_eq] at hitems
      rw [canonicalJson_array, canonicalJson_array,
        map_eq_of_map_eq hitems fun x hx y hy heq => ih x hx (ha x hx) (hb y hy) heq]
    | _ => cases h
  | object fields ih =>
    cases b with
    | object fields' =>
      have hvalues := distinctFields_iff.mp ha.2
      have hvalues' := distinctFields_iff.mp hb.2
      have hperm := canonicalFields_perm ha.1 hb.1 (JsonValue.object.inj h) fun f hf g hg heq =>
        ih f hf (hvalues f hf) (hvalues' g hg) heq
      have hkeys : ((canonicalFields fields).map Prod.fst).Nodup := by
        rw [canonicalFields_eq, map_map]
        exact ha.1
      rw [canonicalJson, canonicalJson, sortKeys_eq hperm hkeys]
    | _ => cases h

/-- Values have the same text when they have the same meaning. -/
theorem canonicalJson_iff {a b : Json} (ha : a.Distinct) (hb : b.Distinct) :
    canonicalJson a = canonicalJson b ↔ a.denote = b.denote := by
  constructor
  · intro h
    have hends : Ends [] := fun _ hc => absurd hc (Option.not_mem_none _)
    exact (canonicalJson_append ha hb hends hends (congrArg (· ++ []) h)).1
  · exact canonicalJson_congr ha hb

end Meaning

/-! ## Surrogates -/

section Surrogates

theorem wellFormed_joinTexts {texts : List Text} (h : ∀ t ∈ texts, wellFormed t = true) :
    wellFormed (joinTexts texts) = true := by
  have htail : ∀ rest : List Text, (∀ t ∈ rest, wellFormed t = true) → wellFormed (joinTail rest) = true := by
    intro rest
    induction rest with
    | nil => exact fun _ => rfl
    | cons t rest ih =>
      intro h
      rw [joinTail, wellFormed_cons (by decide)]
      exact wellFormed_append (h t mem_cons_self) (ih fun t ht => h t (mem_cons_of_mem _ ht))
  cases texts with
  | nil => rfl
  | cons t rest => exact wellFormed_append (h t mem_cons_self) (htail rest fun t ht => h t (mem_cons_of_mem _ ht))

theorem isNumeric_plain {c : UInt16} (h : isNumeric c = true) : (isHighSurrogate c || isLowSurrogate c) = false := by
  simp only [isNumeric, isDigitUnit, isHighSurrogate, isLowSurrogate, Bool.or_eq_true, Bool.and_eq_true, beq_iff_eq,
    decide_eq_true_eq, Bool.or_eq_false_iff, Bool.and_eq_false_iff, decide_eq_false_iff_not] at h ⊢
  grind

/-- The text of a value has no lone surrogates. -/
theorem wellFormed_canonicalJson (a : Json) : wellFormed (canonicalJson a) = true := by
  induction a using Json.induct with
  | null => decide
  | bool b => cases b <;> decide
  | number n => exact wellFormed_plain fun c hc => isNumeric_plain (numberText_numeric n c hc)
  | string t => exact wellFormed_jsonStringify t
  | array items ih =>
    rw [canonicalJson_array, wellFormed_cons (by decide)]
    refine wellFormed_append (wellFormed_joinTexts fun t ht => ?_) (by decide)
    obtain ⟨a, ha, rfl⟩ := mem_map.mp ht
    exact ih a ha
  | object fields ih =>
    rw [canonicalJson_object, wellFormed_cons (by decide)]
    refine wellFormed_append (wellFormed_joinTexts fun t ht => ?_) (by decide)
    obtain ⟨f, hf, rfl⟩ := mem_map.mp ht
    refine wellFormed_append (wellFormed_jsonStringify f.1) ?_
    rw [wellFormed_cons (by decide)]
    exact ih f ((sortKeys_perm fields).mem_iff.mp hf)

end Surrogates

end EffectTorch.DecisionPlanner
