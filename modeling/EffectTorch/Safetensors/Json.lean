import EffectTorch.Runtime.Storage
import Mathlib.Data.List.Sort

/-!
# JSON with unique keys

`UniqueObject` and `UniqueValue` of `napi/src/safetensors.rs`. The JSON text is read by
`serde_json`, which is a parameter: it visits a value, whose objects list their members
as the text does, repeated keys included. A `serde_json::Map` is a list of members with
distinct keys; it iterates in key order.

Results:
1. `uniqueValue_ok`: the reader accepts a value exactly if no object in it repeats a
   key, and returns it as it stands.
-/

namespace EffectTorch
open List Lib

/-- A JSON value, as the reader visits it. A non-negative integer is a `u64`. -/
inductive Json where
  | null
  | bool (value : Bool)
  | u64 (value : UInt64)
  | i64 (value : Int64)
  | f64 (value : F64)
  | str (value : String)
  | arr (values : List Json)
  | obj (members : List (String × Json))

/-- `serde_json::Map`. -/
abbrev JsonMap := List (String × Json)

namespace Json

def asU64 : Json → Option Nat
  | u64 value => some value.toNat
  | _ => none

def asStr : Json → Option String
  | str value => some value
  | _ => none

def asArray : Json → Option (List Json)
  | arr values => some values
  | _ => none

def asObject : Json → Option JsonMap
  | obj members => some members
  | _ => none

/-- No object repeats a key, at any depth. -/
inductive UniqueKeys : Json → Prop
  | null : UniqueKeys null
  | bool (value : Bool) : UniqueKeys (bool value)
  | u64 (value : UInt64) : UniqueKeys (u64 value)
  | i64 (value : Int64) : UniqueKeys (i64 value)
  | f64 (value : F64) : UniqueKeys (f64 value)
  | str (value : String) : UniqueKeys (str value)
  | arr {values : List Json} (h : ∀ value ∈ values, UniqueKeys value) : UniqueKeys (arr values)
  | obj {members : List (String × Json)} (hkeys : (members.map Prod.fst).Nodup)
      (h : ∀ key value, (key, value) ∈ members → UniqueKeys value) : UniqueKeys (obj members)

end Json

/-- The members of a map in key order, as a `for` loop visits them. -/
def JsonMap.sorted (object : JsonMap) : JsonMap :=
  object.insertionSort fun a b => a.1 ≤ b.1

theorem JsonMap.sorted_perm (object : JsonMap) : object.sorted.Perm object :=
  perm_insertionSort _ _

theorem JsonMap.sorted_nodup {object : JsonMap} (h : (object.map Prod.fst).Nodup) :
    (object.sorted.map Prod.fst).Nodup :=
  (object.sorted_perm.map Prod.fst).nodup_iff.mpr h

/-- In a table with distinct keys, a lookup finds every entry. -/
theorem lookup_eq_some_iff_mem {κ α : Type} [BEq κ] [LawfulBEq κ] {table : List (κ × α)}
    (hnodup : (table.map Prod.fst).Nodup) {key : κ} {a : α} :
    table.lookup key = some a ↔ (key, a) ∈ table := by
  induction table with
  | nil => exact ⟨nofun, nofun⟩
  | cons entry table ih =>
    obtain ⟨key', a'⟩ := entry
    obtain ⟨hkey, hrest⟩ := nodup_cons.mp hnodup
    rw [lookup_cons]
    split
    · next heq =>
      obtain rfl := LawfulBEq.eq_of_beq heq
      rw [Option.some.injEq, mem_cons, Prod.mk.injEq]
      refine ⟨fun h => .inl ⟨rfl, h.symm⟩, fun h => h.elim (fun h => h.2.symm) fun hmem => ?_⟩
      exact absurd (mem_map_of_mem hmem) hkey
    · next hne =>
      rw [ih hrest, mem_cons]
      refine ⟨.inr, fun h => h.resolve_left fun heq => ?_⟩
      rw [(Prod.mk.inj heq).1, beq_self_eq_true] at hne
      cases hne

/-! ## Duplicate keys -/

mutual

/-- `UniqueValue::deserialize`. JSON text has no number that is not finite. -/
def uniqueValue : Json → Fallible String Json
  | .arr values => (uniqueElements values).map .arr
  | .obj members => (uniqueMembers [] members).map .obj
  | value => .ok value

/-- `visit_seq`. -/
def uniqueElements : List Json → Fallible String (List Json)
  | [] => .ok []
  | value :: values => do
    let value ← uniqueValue value
    let values ← uniqueElements values
    return value :: values

/-- `UniqueVisitor::visit_map`. -/
def uniqueMembers (object : JsonMap) : List (String × Json) → Fallible String JsonMap
  | [] => .ok object
  | (key, value) :: members => do
    rejectIf (key ∈ object.map Prod.fst) ("safetensors: duplicate JSON key " ++ key.quote)
    let value ← uniqueValue value
    uniqueMembers (object ++ [(key, value)]) members

end

mutual

theorem uniqueValue_ok : ∀ (value : Json) {result : Json},
    uniqueValue value = .ok result ↔ value.UniqueKeys ∧ result = value
  | .null, result => by simp [uniqueValue, Json.UniqueKeys.null, eq_comm]
  | .bool value, result => by simp [uniqueValue, Json.UniqueKeys.bool, eq_comm]
  | .u64 value, result => by simp [uniqueValue, Json.UniqueKeys.u64, eq_comm]
  | .i64 value, result => by simp [uniqueValue, Json.UniqueKeys.i64, eq_comm]
  | .f64 value, result => by simp [uniqueValue, Json.UniqueKeys.f64, eq_comm]
  | .str value, result => by simp [uniqueValue, Json.UniqueKeys.str, eq_comm]
  | .arr values, result => by
    rw [uniqueValue, map_ok]
    constructor
    · rintro ⟨values', h, rfl⟩
      obtain ⟨hunique, rfl⟩ := (uniqueElements_ok values).mp h
      exact ⟨.arr hunique, rfl⟩
    · rintro ⟨hunique, rfl⟩
      cases hunique with
      | arr hunique => exact ⟨values, (uniqueElements_ok values).mpr ⟨hunique, rfl⟩, rfl⟩
  | .obj members, result => by
    rw [uniqueValue, map_ok]
    constructor
    · rintro ⟨members', h, rfl⟩
      obtain ⟨hkeys, _, hunique, rfl⟩ := (uniqueMembers_ok members).mp h
      exact ⟨.obj hkeys hunique, rfl⟩
    · rintro ⟨hunique, rfl⟩
      cases hunique with
      | obj hkeys hunique =>
        refine ⟨members, (uniqueMembers_ok members).mpr ⟨hkeys, ?_, hunique, rfl⟩, rfl⟩
        exact fun _ _ hmem => nomatch hmem

theorem uniqueElements_ok : ∀ (values : List Json) {result : List Json},
    uniqueElements values = .ok result ↔
      (∀ value ∈ values, value.UniqueKeys) ∧ result = values
  | [], result => by simp [uniqueElements, eq_comm]
  | value :: values, result => by
    simp only [uniqueElements, bind_ok, uniqueValue_ok value, uniqueElements_ok values,
      forall_mem_cons, pure, Except.pure, Except.ok.injEq]
    constructor
    · rintro ⟨_, ⟨hvalue, rfl⟩, _, ⟨hvalues, rfl⟩, rfl⟩
      exact ⟨⟨hvalue, hvalues⟩, rfl⟩
    · rintro ⟨⟨hvalue, hvalues⟩, rfl⟩
      exact ⟨_, ⟨hvalue, rfl⟩, _, ⟨hvalues, rfl⟩, rfl⟩

/-- The members join the object in order if their keys are new and distinct. -/
theorem uniqueMembers_ok : ∀ (members : List (String × Json)) {object result : JsonMap},
    uniqueMembers object members = .ok result ↔
      (members.map Prod.fst).Nodup ∧ (∀ key ∈ members.map Prod.fst, key ∉ object.map Prod.fst) ∧
      (∀ key value, (key, value) ∈ members → value.UniqueKeys) ∧ result = object ++ members
  | [], object, result => by simp [uniqueMembers, eq_comm]
  | (key, value) :: members, object, result => by
    simp only [uniqueMembers, bind_ok, rejectIf_ok, uniqueValue_ok value,
      uniqueMembers_ok members, map_append, map_cons, map_nil, nodup_cons,
      forall_mem_cons, append_assoc, singleton_append]
    constructor
    · rintro ⟨_, hkey, _, ⟨hvalue, rfl⟩, hnodup, hnew, hunique, rfl⟩
      refine ⟨⟨fun hmem => ?_, hnodup⟩, ⟨hkey, fun k hk hmem => ?_⟩, fun k v hmem => ?_, rfl⟩
      · exact hnew key hmem (mem_append_right _ mem_cons_self)
      · exact hnew k hk (mem_append_left _ hmem)
      · rcases mem_cons.mp hmem with heq | hmem
        · obtain ⟨rfl, rfl⟩ := Prod.mk.inj heq
          exact hvalue
        · exact hunique k v hmem
    · rintro ⟨⟨hkey, hnodup⟩, ⟨hhead, hnew⟩, hunique, rfl⟩
      refine ⟨(), hhead, value, ⟨hunique key value mem_cons_self, rfl⟩, hnodup,
        fun k hk hmem => ?_, fun k v hmem => hunique k v (mem_cons_of_mem _ hmem), rfl⟩
      rcases mem_append.mp hmem with hmem | hmem
      · exact hnew k hk hmem
      · obtain rfl := mem_singleton.mp hmem
        exact hkey hk

end

/-! ## Text -/

/-- The JSON reader: it visits one value and leaves the bytes after it, which `finish`
(`Deserializer::end`) accepts if they are blank. -/
structure JsonText where
  visit : List UInt8 → Except String (Json × List UInt8)
  finish : List UInt8 → Except String Unit

/-- The bytes are the text of one JSON value. -/
def JsonText.Reads (json : JsonText) (bytes : List UInt8) (value : Json) : Prop :=
  ∃ rest, json.visit bytes = .ok (value, rest) ∧ json.finish rest = .ok ()

/-- The error of a third-party call, behind a prefix. -/
def described {α : Type} (about : String) : Except String α → Fallible String α
  | .ok a => .ok a
  | .error e => fail (about ++ e)

theorem described_ok {α : Type} {about : String} {x : Except String α} {a : α} :
    described about x = .ok a ↔ x = .ok a := by
  cases x with
  | ok b => simp [described]
  | error e => simp [described]

/-- `UniqueObject::deserialize`. -/
def uniqueObject : Json → Fallible String JsonMap
  | .obj members => uniqueMembers [] members
  | _ => fail "invalid type, expected a JSON object with unique keys"

theorem uniqueObject_ok {value : Json} {object : JsonMap} :
    uniqueObject value = .ok object ↔ value = .obj object ∧ value.UniqueKeys := by
  have hobj : ∀ members, uniqueMembers [] members = .ok object ↔
      (Json.obj members = .obj object ∧ (Json.obj members).UniqueKeys) := fun members => by
    have hvalue : uniqueValue (.obj members) = .ok (.obj object) ↔ _ := uniqueValue_ok _
    rw [uniqueValue, map_ok] at hvalue
    simpa [eq_comm, and_comm] using hvalue
  cases value with
  | obj members => exact hobj members
  | _ => exact ⟨nofun, fun h => nomatch h.1⟩

def parseUniqueObject (json : JsonText) (bytes : List UInt8) : Fallible String JsonMap := do
  let (value, rest) ← described "safetensors: invalid header JSON: " (json.visit bytes)
  let object ← mapErr ("safetensors: invalid header JSON: " ++ ·) (uniqueObject value)
  let _ ← described "safetensors: trailing data in header JSON: " (json.finish rest)
  return object

theorem parseUniqueObject_ok {json : JsonText} {bytes : List UInt8} {object : JsonMap} :
    parseUniqueObject json bytes = .ok object ↔
      json.Reads bytes (.obj object) ∧ (Json.obj object).UniqueKeys := by
  simp only [parseUniqueObject, bind_ok, described_ok, mapErr_ok, uniqueObject_ok, pure,
    Except.pure, Except.ok.injEq]
  constructor
  · rintro ⟨⟨value, rest⟩, hvisit, _, ⟨rfl, hunique⟩, _, hfinish, rfl⟩
    exact ⟨⟨rest, hvisit, hfinish⟩, hunique⟩
  · rintro ⟨⟨rest, hvisit, hfinish⟩, hunique⟩
    exact ⟨(.obj object, rest), hvisit, object, ⟨rfl, hunique⟩, (), hfinish, rfl⟩

end EffectTorch
