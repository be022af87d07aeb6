import EffectTorch.Lib.LittleEndian
import EffectTorch.Lib.Fault
import Mathlib.Data.List.Nodup

/-!
# Readers of binary data

A reader consumes bytes behind a cursor and may fail. `Reads limit read format` says all
there is to know of a reader: on a cursor inside `limit` it returns `a` exactly if the
bytes that it consumed are in the relation `format a` and end inside the limit, and it
never panics. The rules build the specification of a reader from those of its parts.

Results:
1. `Reads.of`, `Reads.pure`, `Reads.bind`: sequencing.
2. `Reads.many`, `Reads.iterate`: counted loops.
3. `Reads.counted`: a check of a count against the bytes that are left accepts whatever
   the reading behind it accepts.
-/

namespace Lib
open List

/-- The bytes that are left, and how many were consumed. -/
structure Cursor where
  rest : List UInt8
  position : Nat
deriving DecidableEq, Repr

abbrev Reader (ε α : Type) := StateT Cursor (Except (Fault ε)) α

/-- A computation that reads nothing. -/
def Reader.of {ε α : Type} (x : Fallible ε α) : Reader ε α := StateT.lift x

/-- What the bytes of a value are. -/
abbrev Format (α : Type) := α → List UInt8 → Prop

/-- Cursor `s'` is cursor `s` behind `bytes`, inside the limit. -/
structure Consumes (limit : Nat) (s : Cursor) (bytes : List UInt8) (s' : Cursor) : Prop where
  rest : s.rest = bytes ++ s'.rest
  position : s'.position = s.position + bytes.length
  inside : s'.position ≤ limit

variable {ε α β σ : Type} {limit : Nat}

/-- A computation that does not panic. -/
def NoPanic (x : Fallible ε α) : Prop := ∀ message, x ≠ .error (.panic message)

theorem noPanic_ok (a : α) : NoPanic (.ok a : Fallible ε α) := fun _ h => nomatch h

theorem noPanic_fail (e : ε) : NoPanic (fail e : Fallible ε α) := fun _ h => nomatch h

theorem noPanic_okOr (x : Option α) (e : ε) : NoPanic (okOr x e) := by
  cases x with
  | none => exact noPanic_fail e
  | some a => exact noPanic_ok a

theorem noPanic_rejectIf (b : Prop) [Decidable b] (e : ε) : NoPanic (rejectIf b e) := by
  unfold rejectIf
  split
  · exact noPanic_fail e
  · exact noPanic_ok ()

theorem NoPanic.bind {x : Fallible ε α} {f : α → Fallible ε β} (h : NoPanic x)
    (h' : ∀ a, x = .ok a → NoPanic (f a)) : NoPanic (x >>= f) := by
  intro message hpanic
  rcases bind_error.mp hpanic with hx | ⟨a, hx, hf⟩
  · exact h message hx
  · exact h' a hx message hf

theorem noPanic_mapM {f : α → Fallible ε β} {l : List α} (h : ∀ a ∈ l, NoPanic (f a)) :
    NoPanic (l.mapM f) := by
  induction l with
  | nil => exact noPanic_ok []
  | cons a l ih =>
    obtain ⟨ha, hl⟩ := forall_mem_cons.mp h
    rw [mapM_cons]
    exact ha.bind fun b _ => (ih hl).bind fun bs _ => noPanic_ok (b :: bs)

/-- What a reader does, whatever the file. -/
structure Reads (limit : Nat) (read : Reader ε α) (format : Format α) : Prop where
  ok : ∀ {s : Cursor} {a : α} {s' : Cursor}, s.position ≤ limit →
    (read s = .ok (a, s') ↔ ∃ bytes, format a bytes ∧ Consumes limit s bytes s')
  noPanic : ∀ {s : Cursor}, s.position ≤ limit → NoPanic (read s)

theorem Consumes.nil {s s' : Cursor} (h : s.position ≤ limit) :
    Consumes limit s [] s' ↔ s' = s := by
  constructor
  · rintro ⟨hrest, hposition, _⟩
    obtain ⟨rest, position⟩ := s
    obtain ⟨rest', position'⟩ := s'
    obtain rfl : rest = rest' := hrest
    obtain rfl : position' = position := hposition
    rfl
  · rintro rfl
    exact ⟨rfl, rfl, h⟩

theorem Consumes.trans {s s' s'' : Cursor} {bytes bytes' : List UInt8}
    (h : Consumes limit s bytes s') (h' : Consumes limit s' bytes' s'') :
    Consumes limit s (bytes ++ bytes') s'' :=
  ⟨by rw [h.rest, h'.rest, append_assoc],
    by rw [h'.position, h.position, length_append, Nat.add_assoc], h'.inside⟩

/-- Consuming two pieces stops between them. -/
theorem Consumes.split {s s'' : Cursor} {bytes bytes' : List UInt8}
    (h : Consumes limit s (bytes ++ bytes') s'') :
    ∃ s', Consumes limit s bytes s' ∧ Consumes limit s' bytes' s'' := by
  obtain ⟨hrest, hposition, hinside⟩ := h
  rw [length_append, ← Nat.add_assoc] at hposition
  refine ⟨⟨bytes' ++ s''.rest, s.position + bytes.length⟩, ⟨?_, rfl, ?_⟩, rfl, hposition, hinside⟩
  · rw [hrest, append_assoc]
  · exact Nat.le_trans (Nat.le_trans (Nat.le_add_right _ _) (Nat.le_of_eq hposition.symm)) hinside

namespace Reads

theorem congr {read : Reader ε α} {format format' : Format α} (h : Reads limit read format)
    (heq : ∀ a bytes, format a bytes ↔ format' a bytes) : Reads limit read format' :=
  ⟨fun hs => (h.ok hs).trans (by simp only [heq]), h.noPanic⟩

theorem of {x : Fallible ε α} (h : NoPanic x) :
    Reads limit (Reader.of x) fun a bytes => x = .ok a ∧ bytes = [] := by
  refine ⟨fun {s a s'} hs => ?_, fun {s} hs => ?_⟩
  · cases x with
    | error e => simp [Reader.of, StateT.lift, bind, Except.bind]
    | ok b =>
      simp only [Reader.of, StateT.lift, bind, Except.bind, pure, Except.pure, Except.ok.injEq, Prod.mk.injEq]
      constructor
      · rintro ⟨rfl, rfl⟩
        exact ⟨[], ⟨rfl, rfl⟩, (Consumes.nil hs).mpr rfl⟩
      · rintro ⟨_, ⟨rfl, rfl⟩, hconsumes⟩
        exact ⟨rfl, ((Consumes.nil hs).mp hconsumes).symm⟩
  · exact NoPanic.bind h fun a _ => noPanic_ok (a, s)

theorem pure (a : α) :
    Reads limit (Pure.pure a : Reader ε α) fun b bytes => b = a ∧ bytes = [] :=
  (of (noPanic_ok a)).congr fun b bytes => by rw [Except.ok.injEq, eq_comm]

theorem bind {read : Reader ε α} {next : α → Reader ε β} {format : Format α}
    {format' : α → Format β} (h : Reads limit read format)
    (h' : ∀ a front, format a front → Reads limit (next a) (format' a)) :
    Reads limit (read >>= next) fun b bytes =>
      ∃ a front back, format a front ∧ format' a b back ∧ bytes = front ++ back := by
  refine ⟨fun {s b s''} hs => ?_, fun {s} hs => ?_⟩
  · change (read s >>= fun result => next result.1 result.2) = _ ↔ _
    rw [bind_ok]
    constructor
    · rintro ⟨⟨a, s'⟩, hread, hnext⟩
      obtain ⟨front, hfront, hconsumes⟩ := (h.ok hs).mp hread
      obtain ⟨back, hback, hconsumes'⟩ := ((h' a front hfront).ok hconsumes.inside).mp hnext
      exact ⟨_, ⟨a, front, back, hfront, hback, rfl⟩, hconsumes.trans hconsumes'⟩
    · rintro ⟨_, ⟨a, front, back, hfront, hback, rfl⟩, hconsumes⟩
      obtain ⟨s', hfirst, hsecond⟩ := hconsumes.split
      exact ⟨(a, s'), (h.ok hs).mpr ⟨front, hfront, hfirst⟩,
        ((h' a front hfront).ok hfirst.inside).mpr ⟨back, hback, hsecond⟩⟩
  · refine NoPanic.bind (h.noPanic hs) fun result hread => ?_
    obtain ⟨front, hfront, hconsumes⟩ := (h.ok hs).mp hread
    exact (h' _ front hfront).noPanic hconsumes.inside

/-- A test between two readings. -/
theorem guard {x : Fallible ε Unit} (hx : NoPanic x)
    {next : Reader ε β} {format : Format β} (h : Reads limit next format) :
    Reads limit (do Reader.of x; next) fun b bytes =>
      x = .ok () ∧ format b bytes := by
  refine ((of hx).bind fun _ _ _ => h).congr fun b bytes => ?_
  constructor
  · rintro ⟨_, _, back, ⟨hok, rfl⟩, hback, rfl⟩
    exact ⟨hok, hback⟩
  · rintro ⟨hok, hformat⟩
    exact ⟨(), [], bytes, ⟨hok, rfl⟩, hformat, rfl⟩

theorem map {read : Reader ε α} {format : Format α} (h : Reads limit read format) (f : α → β) :
    Reads limit (f <$> read) fun b bytes => ∃ a, f a = b ∧ format a bytes := by
  have hmap : f <$> read = read >>= fun a => Pure.pure (f a) := (bind_pure_comp f read).symm
  rw [hmap]
  refine (h.bind fun a _ _ => pure (f a)).congr fun b bytes => ?_
  constructor
  · rintro ⟨a, front, back, hfront, ⟨rfl, rfl⟩, rfl⟩
    exact ⟨a, rfl, by rwa [append_nil]⟩
  · rintro ⟨a, rfl, hformat⟩
    exact ⟨a, bytes, [], hformat, ⟨rfl, rfl⟩, (append_nil _).symm⟩

end Reads

/-! ## Counted loops -/

/-- `for _ in 0..count { state = turn(state)? }`. -/
def iterate (turn : σ → Reader ε σ) : Nat → σ → Reader ε σ
  | 0, state => pure state
  | count + 1, state => do
    let state ← turn state
    iterate turn count state

/-- `for _ in 0..count { values.push(read()?) }`. -/
def readMany (read : Reader ε α) : Nat → Reader ε (List α)
  | 0 => pure []
  | count + 1 => do
    let value ← read
    let values ← readMany read count
    return value :: values

/-- The bytes of a list are those of its elements, one after the other. -/
def ManyFormat (format : Format α) (values : List α) (bytes : List UInt8) : Prop :=
  ∃ parts, List.Forall₂ format values parts ∧ bytes = parts.flatten

/-- The bytes of a loop are those of its turns. -/
def IterateFormat (format : σ → Format σ) : Nat → σ → Format σ
  | 0, state, final, bytes => final = state ∧ bytes = []
  | count + 1, state, final, bytes => ∃ next front back, format state next front ∧
      IterateFormat format count next final back ∧ bytes = front ++ back

theorem Reads.iterate {turn : σ → Reader ε σ} {format : σ → Format σ}
    (h : ∀ state, Reads limit (turn state) (format state)) (count : Nat) (state : σ) :
    Reads limit (Lib.iterate turn count state) (IterateFormat format count state) := by
  induction count generalizing state with
  | zero => exact Reads.pure state
  | succ count ih => exact (h state).bind fun next _ _ => ih next

theorem Reads.many {read : Reader ε α} {format : Format α} (h : Reads limit read format)
    (count : Nat) :
    Reads limit (readMany read count) fun values bytes =>
      values.length = count ∧ ManyFormat format values bytes := by
  induction count with
  | zero =>
    refine (Reads.pure []).congr fun values bytes => ?_
    rw [length_eq_zero_iff]
    refine and_congr_right fun hnil => ?_
    rw [hnil, ManyFormat]
    simp
  | succ count ih =>
    refine (h.bind fun value _ _ => ih.bind fun values _ _ => Reads.pure (value :: values)).congr
      fun values bytes => ?_
    constructor
    · rintro ⟨value, front, _, hfront, ⟨values, back, _, ⟨hlen, parts, hparts, rfl⟩, ⟨rfl, rfl⟩, rfl⟩,
        rfl⟩
      refine ⟨congrArg _ hlen, front :: parts, .cons hfront hparts, ?_⟩
      rw [append_nil, flatten_cons]
    · rintro ⟨hlen, parts, hparts, rfl⟩
      cases hparts with
      | nil => cases hlen
      | cons hfront hparts =>
        refine ⟨_, _, _, hfront, ⟨_, _, [], ⟨Nat.succ.inj hlen, _, hparts, rfl⟩, ⟨rfl, rfl⟩, rfl⟩, ?_⟩
        rw [append_nil, flatten_cons]

/-- The turns of a loop that appends an element whose key is new. -/
def AppendFormat {κ : Type} (key : α → κ) (format : Format α) (state : List α) :
    Format (List α) :=
  fun next bytes => ∃ a, key a ∉ state.map key ∧ format a bytes ∧ next = state ++ [a]

/-- Such a loop appends elements of distinct keys. -/
theorem iterateFormat_append {κ : Type} {key : α → κ} {format : Format α} {count : Nat}
    {state final : List α} {bytes : List UInt8} (hstate : (state.map key).Nodup) :
    IterateFormat (AppendFormat key format) count state final bytes ↔
      ∃ values, final = state ++ values ∧ values.length = count ∧
        ((state ++ values).map key).Nodup ∧ ManyFormat format values bytes := by
  induction count generalizing state bytes with
  | zero =>
    constructor
    · rintro ⟨rfl, rfl⟩
      exact ⟨[], by rw [append_nil], rfl, by rwa [append_nil], [], .nil, rfl⟩
    · rintro ⟨values, rfl, hlen, -, parts, hparts, rfl⟩
      obtain rfl := length_eq_zero_iff.mp hlen
      cases hparts
      exact ⟨append_nil _, rfl⟩
  | succ count ih =>
    constructor
    · rintro ⟨_, front, back, ⟨a, hnew, hfront, rfl⟩, hback, rfl⟩
      have hnodup : ((state ++ [a]).map key).Nodup := by
        rw [map_append, map_singleton, nodup_append]
        refine ⟨hstate, nodup_singleton _, fun k hk k' hk' heq => hnew ?_⟩
        rw [← mem_singleton.mp hk', ← heq]
        exact hk
      obtain ⟨values, rfl, rfl, hvalues, parts, hparts, rfl⟩ := (ih hnodup).mp hback
      rw [append_assoc] at hvalues
      exact ⟨a :: values, append_assoc _ _ _, rfl, hvalues, front :: parts,
        .cons hfront hparts, rfl⟩
    · rintro ⟨values, rfl, hlen, hnodup, parts, hparts, rfl⟩
      cases hparts with
      | nil => cases hlen
      | @cons a front values parts hfront hparts =>
        have hsplit : state ++ a :: values = state ++ [a] ++ values := by
          rw [append_assoc, singleton_append]
        rw [hsplit] at hnodup
        have hfirst : ((state ++ [a]).map key).Nodup := by
          rw [map_append, nodup_append] at hnodup
          exact hnodup.1
        refine ⟨_, front, parts.flatten, ⟨a, ?_, hfront, rfl⟩,
          (ih hfirst).mpr ⟨values, hsplit, Nat.succ.inj hlen, hnodup, parts, hparts, rfl⟩, rfl⟩
        rw [map_append, map_singleton, nodup_append] at hfirst
        exact fun hmem => hfirst.2.2 _ hmem _ (mem_singleton_self _) rfl

theorem iterateFormat_collect {κ : Type} {key : α → κ} {format : Format α} {count : Nat}
    {final : List α} {bytes : List UInt8} :
    IterateFormat (AppendFormat key format) count [] final bytes ↔
      final.length = count ∧ (final.map key).Nodup ∧ ManyFormat format final bytes := by
  have hnil : (([] : List α).map key).Nodup := nodup_nil
  rw [iterateFormat_append hnil]
  constructor
  · rintro ⟨values, rfl, h⟩
    exact h
  · exact fun h => ⟨final, rfl, h⟩

/-! ## Formats with one encoding -/

/-- The valid values, each with its encoding. -/
def Encoded (valid : α → Prop) (encode : α → List UInt8) : Format α :=
  fun a bytes => valid a ∧ bytes = encode a

section Encoding

variable {valid : α → Prop} {encode : α → List UInt8} {read : Reader ε α}

theorem manyFormat_encoded {values : List α} {bytes : List UInt8} :
    ManyFormat (Encoded valid encode) values bytes ↔
      (∀ value ∈ values, valid value) ∧ bytes = values.flatMap encode := by
  constructor
  · rintro ⟨parts, hparts, rfl⟩
    induction hparts with
    | nil => exact ⟨nofun, rfl⟩
    | cons h _ ih =>
      obtain ⟨hvalid, rfl⟩ := h
      exact ⟨forall_mem_cons.mpr ⟨hvalid, ih.1⟩, by
        rw [flatten_cons, flatMap_cons, ih.2]⟩
  · rintro ⟨hvalid, rfl⟩
    refine ⟨values.map encode, ?_, flatMap_def⟩
    rw [forall₂_map_right_iff, forall₂_same]
    exact fun value hvalue => ⟨hvalid value hvalue, rfl⟩

namespace Reads

theorem encodedMany (h : Reads limit read (Encoded valid encode)) (count : Nat) :
    Reads limit (readMany read count) (Encoded
      (fun values => values.length = count ∧ ∀ value ∈ values, valid value)
      fun values => values.flatMap encode) :=
  (h.many count).congr fun values bytes => by
    rw [manyFormat_encoded]
    exact and_assoc.symm

/-- Reading under another name of the value. -/
theorem rename (h : Reads limit read (Encoded valid encode)) {f : α → β} (g : β → α)
    (hfg : ∀ b, f (g b) = b) (hgf : ∀ a, valid a → g (f a) = a) :
    Reads limit (f <$> read) (Encoded (fun b => valid (g b)) fun b => encode (g b)) := by
  refine (h.map f).congr fun b bytes => ?_
  constructor
  · rintro ⟨a, rfl, hvalid, rfl⟩
    rw [Encoded, hgf a hvalid]
    exact ⟨hvalid, rfl⟩
  · rintro ⟨hvalid, rfl⟩
    exact ⟨g b, hfg b, hvalid, rfl⟩

/-- A check of the value that was read. -/
theorem checked (h : Reads limit read (Encoded valid encode)) (check : α → Fallible ε α)
    (good : α → Prop) (hpanic : ∀ a, NoPanic (check a))
    (hcheck : ∀ a b, check a = .ok b ↔ b = a ∧ good a) :
    Reads limit (read >>= fun a => Reader.of (check a))
      (Encoded (fun a => valid a ∧ good a) encode) := by
  refine (h.bind fun a _ _ => of (hpanic a)).congr fun b bytes => ?_
  constructor
  · rintro ⟨a, front, _, ⟨hvalid, rfl⟩, ⟨hok, rfl⟩, rfl⟩
    obtain ⟨rfl, hgood⟩ := (hcheck a b).mp hok
    exact ⟨⟨hvalid, hgood⟩, append_nil _⟩
  · rintro ⟨⟨hvalid, hgood⟩, rfl⟩
    exact ⟨b, _, [], ⟨hvalid, rfl⟩, ⟨(hcheck b b).mpr ⟨rfl, hgood⟩, rfl⟩,
      (append_nil _).symm⟩

end Reads

end Encoding

/-! ## Counts -/

/-- A check of a count against the bytes that are left, ahead of readers that consume at
least `width` bytes for each, accepts what the count's own maximum and those readers
accept. -/
theorem Reads.counted (check : Nat → Reader ε Nat) {next : Nat → Reader ε β}
    {value width maximum : Nat} {format : Format β}
    (hcheck : ∀ {s : Cursor}, s.position ≤ limit →
      (∃ error, check value s = .error (.error error)) ∨ check value s = .ok (value, s))
    (haccept : ∀ {s : Cursor}, s.position ≤ limit →
      (check value s = .ok (value, s) ↔
        value ≤ maximum ∧ (0 < width → value ≤ (limit - s.position) / width)))
    (h : Reads limit (next value) format)
    (hwidth : ∀ b bytes, format b bytes → value * width ≤ bytes.length) :
    Reads limit (check value >>= next) fun b bytes => value ≤ maximum ∧ format b bytes := by
  refine ⟨fun {s b s'} hs => ?_, fun {s} hs => ?_⟩
  · change (check value s >>= fun result => next result.1 result.2) = _ ↔ _
    rw [bind_ok]
    constructor
    · rintro ⟨⟨count, s1⟩, hcount, hnext⟩
      rcases hcheck hs with ⟨error, herror⟩ | hok
      · exact nomatch herror.symm.trans hcount
      · obtain ⟨rfl, rfl⟩ := Prod.mk.inj (Except.ok.inj (hok.symm.trans hcount))
        obtain ⟨bytes, hbytes, hconsumes⟩ := (h.ok hs).mp hnext
        exact ⟨bytes, ⟨((haccept hs).mp hok).1, hbytes⟩, hconsumes⟩
    · rintro ⟨bytes, ⟨hmaximum, hbytes⟩, hconsumes⟩
      -- the elements fit, so there was room for them
      have hroom : 0 < width → value ≤ (limit - s.position) / width := fun hpos => by
        rw [Nat.le_div_iff_mul_le hpos]
        refine Nat.le_trans (hwidth b bytes hbytes) (Nat.le_sub_of_add_le ?_)
        rw [Nat.add_comm, ← hconsumes.position]
        exact hconsumes.inside
      exact ⟨(value, s), (haccept hs).mpr ⟨hmaximum, hroom⟩,
        (h.ok hs).mpr ⟨bytes, hbytes, hconsumes⟩⟩
  · refine NoPanic.bind ?_ fun result hcount => ?_
    · rcases hcheck hs with ⟨error, herror⟩ | hok
      · rw [herror]
        exact noPanic_fail error
      · rw [hok]
        exact noPanic_ok _
    · rcases hcheck hs with ⟨error, herror⟩ | hok
      · exact nomatch herror.symm.trans hcount
      · obtain rfl := Except.ok.inj (hok.symm.trans hcount)
        exact h.noPanic hs

end Lib
