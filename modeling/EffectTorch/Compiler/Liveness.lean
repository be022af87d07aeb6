import EffectTorch.Compiler.Alias

/-!
# Liveness

`analyze_liveness` of `compiler/src/planner.rs`: one pass over the resource uses
records the first read, the first write and the last access of every root, the
outputs push the last access of their root to the last instruction, and the
tables are closed into half-open intervals.

Results:
1. `analyzeLiveness_sound`: every use of a value lies in the interval of its
   root, an output root stays live to the end, and the interval of a planned
   value opens at a write.
2. `analyzeLiveness_total`: the analysis returns for every well-formed program
   whose aliases are acyclic and in bounds, whose alignments are powers of two
   and whose reads follow a write.
-/

namespace EffectTorch
open List Option Lib

/-- Half-open instruction range `[start, stop)` of a value's storage. -/
structure LiveInterval where
  value : ValueId
  start : InstructionId
  stop : InstructionId
deriving DecidableEq, Repr

namespace LiveInterval

/-- Whether two intervals share at least one instruction. -/
def overlaps (a b : LiveInterval) : Bool :=
  decide (a.start.index < b.stop.index ∧ b.start.index < a.stop.index)

/-- Whether `instruction` falls inside the interval. -/
def contains (a : LiveInterval) (instruction : InstructionId) : Bool :=
  decide (a.start.index ≤ instruction.index ∧ instruction.index < a.stop.index)

variable {a : LiveInterval}

theorem contains_iff {i : InstructionId} :
    a.contains i = true ↔ a.start.index ≤ i.index ∧ i.index < a.stop.index := by
  simp [contains]

theorem overlaps_iff {b : LiveInterval} :
    a.overlaps b = true ↔ a.start.index < b.stop.index ∧ b.start.index < a.stop.index := by
  simp [overlaps]

/-- Two intervals that hold one instruction overlap. -/
theorem overlaps_of_contains {b : LiveInterval} {i : InstructionId} (ha : a.contains i = true)
    (hb : b.contains i = true) : a.overlaps b = true := by
  rw [contains_iff] at ha hb
  rw [overlaps_iff]
  omega

end LiveInterval

/-- Per-value liveness tables. Alias entries are `none`: their uses extend the
interval of the root. -/
structure Liveness where
  aliases : List NormalizedAlias
  intervals : List (Option LiveInterval)
deriving DecidableEq, Repr

/-- `first_read`, `first_write` and `last_access`. -/
structure AccessTables where
  firstRead : List (Option Nat)
  firstWrite : List (Option Nat)
  lastAccess : List (Option Nat)

/-- `table[root].get_or_insert(index)`. -/
def insertFirst (table : List (Option Nat)) (root index : Nat) : List (Option Nat) :=
  table.modify root fun first => some (first.getD index)

/-- `table[root] = Some(table[root].map_or(index, |last| last.max(index)))`. -/
def raiseLast (table : List (Option Nat)) (root index : Nat) : List (Option Nat) :=
  table.modify root fun last => some ((last.map (max index)).getD index)

/-- All uses of a program in the order of the pass, each with its instruction. -/
def LoweredProgram.uses {K M : Type} (schedule : LoweredProgram K M) :
    List (InstructionId × ValueUse) :=
  schedule.instructions.flatMap fun instruction =>
    instruction.resourceUses.map fun valueUse => (instruction.id, valueUse)

section Analysis

variable {K M : Type}

/-- The closure `record`. -/
def recordUse (aliases : List NormalizedAlias) (tables : AccessTables)
    (entry : InstructionId × ValueUse) : Fallible PlannerError AccessTables := do
  let (instruction, valueUse) := entry
  let normalized ← okOr aliases[valueUse.value.index]?
    (.unknownValue (some instruction) valueUse.value)
  let root := normalized.root.index
  let index := instruction.index
  .ok {
    firstRead := if valueUse.access.reads then insertFirst tables.firstRead root index
      else tables.firstRead
    firstWrite := if valueUse.access.writes then insertFirst tables.firstWrite root index
      else tables.firstWrite
    lastAccess := raiseLast tables.lastAccess root index }

/-- One turn of the loop over the outputs. -/
def recordOutput (schedule : LoweredProgram K M) (aliases : List NormalizedAlias)
    (lastAccess : List (Option Nat)) (output : ValueId) :
    Fallible PlannerError (List (Option Nat)) := do
  rejectIf (schedule.values[output.index]? = none) (.unknownValue none output)
  let normalized ← expect aliases[output.index]? "index out of bounds"
  match checkedSub schedule.instructions.length 1 with
  | some lastInstruction => .ok (raiseLast lastAccess normalized.root.index lastInstruction)
  | none => .ok lastAccess

/-- The interval start of a planned value: its first write, which no read may
precede. -/
def plannedStart (tables : AccessTables) (index : Nat) (value : ValueId) (alignment : Nat) :
    Fallible PlannerError Nat := do
  rejectIf (alignment = 0 ∨ ¬ isPowerOfTwo alignment) (.invalidValueAlignment value alignment)
  let definition ← okOr tables.firstWrite[index]?.join (.undefinedPlannedValue value)
  match tables.firstRead[index]?.join with
  | some read =>
    if read < definition then
      let read ← okOr (InstructionId.fromIndex read) .tooManyInstructions
      let definition ← okOr (InstructionId.fromIndex definition) .tooManyInstructions
      fail (.readBeforeDefinition value read definition)
    else .ok definition
  | none => .ok definition

/-- The interval start of a value that the planner does not place. -/
def fixedStart (tables : AccessTables) (index : Nat) : Option Nat :=
  match tables.firstRead[index]?.join, tables.firstWrite[index]?.join with
  | some read, some write => some (min read write)
  | some read, none => some read
  | none, some write => some write
  | none, none => none

/-- Closes an interval one past the last access. -/
def closeInterval (tables : AccessTables) (index : Nat) (value : ValueId) (start : Nat) :
    Fallible PlannerError LiveInterval := do
  let last ← okOr tables.lastAccess[index]?.join .tooManyInstructions
  let stop ← okOr (checkedAdd last 1) .tooManyInstructions
  let start ← okOr (InstructionId.fromIndex start) .tooManyInstructions
  let stop ← okOr (InstructionId.fromIndex stop) .tooManyInstructions
  .ok ⟨value, start, stop⟩

/-- One turn of the loop that fills the interval table. -/
def intervalOf (tables : AccessTables) (entry : ValueDecl M × Nat) :
    Fallible PlannerError (Option LiveInterval) := do
  let (value, index) := entry
  match value.storage with
  | .aliasOf .. => .ok none
  | .planned _ alignment _ _ =>
    let start ← plannedStart tables index value.id alignment
    let interval ← closeInterval tables index value.id start
    .ok (some interval)
  | .fixed .. =>
    match fixedStart tables index with
    | some start =>
      let interval ← closeInterval tables index value.id start
      .ok (some interval)
    | none => .ok none

/-- `analyze_liveness`. -/
def analyzeLiveness (schedule : LoweredProgram K M) : Fallible PlannerError Liveness := do
  validateLoweredProgram schedule
  let aliases ← normalizeAliases schedule.values
  let empty := List.replicate schedule.values.length none
  let tables ← schedule.uses.foldlM (recordUse aliases) ⟨empty, empty, empty⟩
  let lastAccess ← schedule.outputs.foldlM (recordOutput schedule aliases) tables.lastAccess
  let intervals ← schedule.values.zipIdx.mapM (intervalOf { tables with lastAccess })
  .ok ⟨aliases, intervals⟩

/-! ## What the tables hold -/

/-- The entry of the value table whose storage a use touches. -/
def rootOf (aliases : List NormalizedAlias) (valueUse : ValueUse) : Option Nat :=
  aliases[valueUse.value.index]?.map fun normalized => normalized.root.index

/-- The instruction of the first use of `root` whose access satisfies `p`. -/
def firstUse (aliases : List NormalizedAlias) (p : ValueAccess → Bool)
    (uses : List (InstructionId × ValueUse)) (root : Nat) : Option Nat :=
  (uses.find? fun e => p e.2.access && rootOf aliases e.2 == some root).map fun e => e.1.index

/-- The tables after the uses `done`. The bound `n` is the instruction count. -/
structure Recorded (aliases : List NormalizedAlias) (size n : Nat)
    (done : List (InstructionId × ValueUse)) (t : AccessTables) : Prop where
  reads : ∀ r, r < size → t.firstRead[r]? = some (firstUse aliases ValueAccess.reads done r)
  writes : ∀ r, r < size → t.firstWrite[r]? = some (firstUse aliases ValueAccess.writes done r)
  last : ∀ r, r < size → ∃ last, t.lastAccess[r]? = some last ∧
    (∀ e ∈ done, rootOf aliases e.2 = some r → ∃ l, last = some l ∧ e.1.index ≤ l) ∧
    ∀ l, last = some l → l < n

variable {aliases : List NormalizedAlias} {p : ValueAccess → Bool} {e : InstructionId × ValueUse}
  {t : AccessTables} {done uses : List (InstructionId × ValueUse)} {schedule : LoweredProgram K M}
  {values : List (ValueDecl M)} {root size index r n start i : Nat} {v : ValueDecl M}

theorem firstUse_snoc :
    firstUse aliases p (done ++ [e]) root =
      (firstUse aliases p done root).or
        (if p e.2.access && rootOf aliases e.2 == some root then some e.1.index else none) := by
  unfold firstUse
  rw [List.find?_append, List.find?_singleton]
  cases done.find? (fun e => p e.2.access && rootOf aliases e.2 == some root) with
  | some a => rfl
  | none =>
    simp only [none_or, map_none]
    split <;> rfl

theorem insertFirst_snoc {table : List (Option Nat)} (hroot : rootOf aliases e.2 = some root)
    (h : ∀ r, r < size → table[r]? = some (firstUse aliases p done r)) (r : Nat) (hr : r < size) :
    (if p e.2.access then insertFirst table root e.1.index else table)[r]? =
      some (firstUse aliases p (done ++ [e]) r) := by
  rw [firstUse_snoc, hroot]
  cases hp : p e.2.access with
  | false => simp [h r hr]
  | true =>
    simp only [if_true, Bool.true_and, insertFirst, List.getElem?_modify, h r hr]
    by_cases hrr : root = r
    · subst hrr
      cases firstUse aliases p done root <;> simp
    · have hne : (some root == some r) = false := by simpa using hrr
      simp [hrr]

theorem raiseLast_getElem? {table : List (Option Nat)} {last : Option Nat} (h : table[r]? = some last) :
    (raiseLast table root index)[r]? =
      some (if root = r then some ((last.map (max index)).getD index) else last) := by
  unfold raiseLast
  rw [List.getElem?_modify, h]
  split <;> simp [*]

theorem raised_bounds {last : Option Nat} {index : Nat} :
    ∃ l, some ((last.map (max index)).getD index) = some l ∧ index ≤ l ∧
      (∀ l0, last = some l0 → l0 ≤ l) ∧ (l = index ∨ last = some l) := by
  cases last with
  | none => exact ⟨index, rfl, Nat.le_refl _, nofun, .inl rfl⟩
  | some l0 =>
    refine ⟨max index l0, rfl, Nat.le_max_left _ _, ?_, ?_⟩
    · rintro _ ⟨⟩
      exact Nat.le_max_right _ _
    · rcases Nat.le_total index l0 with h | h
      · exact .inr (by rw [Nat.max_eq_right h])
      · exact .inl (Nat.max_eq_left h)

theorem recordUse_recorded {t' : AccessTables} (he : e.1.index < n) (inv : Recorded aliases size n done t)
    (h : recordUse aliases t e = .ok t') : Recorded aliases size n (done ++ [e]) t' := by
  obtain ⟨instruction, valueUse⟩ := e
  unfold recordUse at h
  obtain ⟨normalized, ha, h⟩ := bind_ok.mp h
  cases h
  have hroot : rootOf aliases valueUse = some normalized.root.index := by
    rw [rootOf, okOr_ok.mp ha]
    rfl
  refine ⟨insertFirst_snoc (e := (instruction, valueUse)) hroot inv.reads,
    insertFirst_snoc (e := (instruction, valueUse)) hroot inv.writes, fun r hr => ?_⟩
  obtain ⟨last, hl, hdone, hlt⟩ := inv.last r hr
  refine ⟨_, raiseLast_getElem? hl, ?_, ?_⟩
  · intro e' he' hr'
    obtain ⟨l, hsome, hindex, hkeep, _⟩ := @raised_bounds last instruction.index
    rcases mem_append.mp he' with he' | he'
    · obtain ⟨l0, rfl, hle⟩ := hdone e' he' hr'
      by_cases hrr : normalized.root.index = r
      · rw [if_pos hrr]
        exact ⟨l, hsome, Nat.le_trans hle (hkeep l0 rfl)⟩
      · rw [if_neg hrr]
        exact ⟨l0, rfl, hle⟩
    · rw [mem_singleton.mp he', hroot] at hr'
      rw [mem_singleton.mp he', if_pos (some.inj hr')]
      exact ⟨l, hsome, hindex⟩
  · intro l hl'
    split at hl'
    · obtain ⟨l', hsome, _, _, hor⟩ := @raised_bounds last instruction.index
      rw [hsome] at hl'
      cases hl'
      exact hor.elim (fun h => h ▸ he) (hlt l)
    · exact hlt l hl'

theorem firstUse_none :
    firstUse aliases p uses root = none ↔
      ∀ e ∈ uses, p e.2.access = true → rootOf aliases e.2 ≠ some root := by
  simp only [firstUse, map_eq_none_iff, List.find?_eq_none, Bool.and_eq_true, beq_iff_eq,
    not_and, ne_eq]

/-- In a list of uses in instruction order, the first use is the earliest. -/
theorem firstUse_some {k : Nat} :
    ∀ {uses : List (InstructionId × ValueUse)},
      uses.Pairwise (fun a b => a.1.index ≤ b.1.index) → firstUse aliases p uses root = some k →
      (∃ e ∈ uses, e.1.index = k ∧ p e.2.access = true ∧ rootOf aliases e.2 = some root) ∧
        ∀ e ∈ uses, p e.2.access = true → rootOf aliases e.2 = some root → k ≤ e.1.index := by
  intro uses hs h
  obtain ⟨e, he, rfl⟩ := map_eq_some_iff.mp h
  obtain ⟨hp, before, after, rfl, hbefore⟩ := List.find?_eq_some_iff_append.mp he
  rw [Bool.and_eq_true, beq_iff_eq] at hp
  refine ⟨⟨e, by simp, rfl, hp.1, hp.2⟩, fun e' he' hp' hr' => ?_⟩
  rcases mem_append.mp he' with he' | he'
  · have := hbefore e' he'
    rw [hp', hr'] at this
    simp at this
  · rcases mem_cons.mp he' with rfl | he'
    · exact Nat.le_refl _
    · exact (pairwise_cons.mp (pairwise_append.mp hs).2.1).1 e' he'

/-! ## The uses of a well-formed program -/

theorem mem_uses :
    e ∈ schedule.uses ↔ ∃ ins ∈ schedule.instructions, ins.id = e.1 ∧ e.2 ∈ ins.resourceUses := by
  obtain ⟨k, u⟩ := e
  simp only [LoweredProgram.uses, mem_flatMap, List.mem_map, Prod.mk.injEq]
  constructor
  · rintro ⟨ins, hm, u', hu, rfl, rfl⟩
    exact ⟨ins, hm, rfl, hu⟩
  · rintro ⟨ins, hm, rfl, hu⟩
    exact ⟨ins, hm, u, hu, rfl, rfl⟩

theorem WellFormed.instruction_lt (hw : WellFormed schedule) {ins : LoweredInstruction K}
    (hm : ins ∈ schedule.instructions) : ins.id.index < schedule.instructions.length := by
  obtain ⟨i, hlt, hi⟩ := mem_iff_getElem.mp hm
  rw [(hw.instructions_dense i ins (by rw [List.getElem?_eq_getElem hlt, hi])).1]
  exact hlt

theorem WellFormed.use_bounds (hw : WellFormed schedule) (he : e ∈ schedule.uses) :
    e.1.index < schedule.instructions.length ∧ e.2.value.index < schedule.values.length := by
  obtain ⟨ins, hm, hid, hu⟩ := mem_uses.mp he
  exact ⟨hid ▸ hw.instruction_lt hm, hw.uses_known ins hm e.2 hu⟩

/-- The pass visits the uses in instruction order. -/
theorem WellFormed.uses_sorted (hw : WellFormed schedule) :
    schedule.uses.Pairwise (fun a b => a.1.index ≤ b.1.index) := by
  unfold LoweredProgram.uses
  rw [pairwise_flatMap]
  constructor
  · intro ins _
    exact pairwise_map.mpr (pairwise_of_forall fun _ _ => Nat.le_refl _)
  · rw [pairwise_iff_getElem]
    intro i j hi hj hij a ha b hb
    obtain ⟨_, _, rfl⟩ := mem_map.mp ha
    obtain ⟨_, _, rfl⟩ := mem_map.mp hb
    rw [(hw.instructions_dense i _ (List.getElem?_eq_getElem hi)).1,
      (hw.instructions_dense j _ (List.getElem?_eq_getElem hj)).1]
    exact Nat.le_of_lt hij

/-! ## Soundness -/

/-- What a finished analysis says about its program. -/
structure LivenessSound (schedule : LoweredProgram K M) (liveness : Liveness) : Prop where
  well_formed : WellFormed schedule
  aliases_length : liveness.aliases.length = schedule.values.length
  chain : ∀ (i : Nat) (a : NormalizedAlias), liveness.aliases[i]? = some a →
    AliasChain schedule.values i a.root a.byteOffset
  intervals_length : liveness.intervals.length = schedule.values.length
  bounds : ∀ (i : Nat) (iv : LiveInterval), liveness.intervals[i]? = some (some iv) → iv.value = ⟨i⟩ ∧
    iv.start.index < iv.stop.index ∧ iv.stop.index ≤ schedule.instructions.length
  use_covered : ∀ e ∈ schedule.uses, ∀ r : Nat, rootOf liveness.aliases e.2 = some r →
    ∃ iv, liveness.intervals[r]? = some (some iv) ∧ iv.contains e.1 = true
  output_covered : ∀ o ∈ schedule.outputs, ∀ (a : NormalizedAlias) (iv : LiveInterval),
    liveness.aliases[o.index]? = some a → liveness.intervals[a.root.index]? = some (some iv) →
    iv.stop.index = schedule.instructions.length
  planned : ∀ (i : Nat) v c alignment m o, schedule.values[i]? = some v →
    v.storage = .planned c alignment m o → isPowerOfTwo alignment = true ∧
      ∃ iv, liveness.intervals[i]? = some (some iv) ∧ ∃ e ∈ schedule.uses, e.1 = iv.start ∧
        e.2.access.writes = true ∧ rootOf liveness.aliases e.2 = some i

/-- The tables that the interval loop reads. -/
structure Tabulated (schedule : LoweredProgram K M) (aliases : List NormalizedAlias)
    (t : AccessTables) : Prop where
  recorded : Recorded aliases schedule.values.length schedule.instructions.length schedule.uses t
  outputs : ∀ o ∈ schedule.outputs, ∀ (a : NormalizedAlias) l, aliases[o.index]? = some a →
    t.lastAccess[a.root.index]? = some (some l) → schedule.instructions.length ≤ l + 1

theorem tables_recorded (hw : WellFormed schedule)
    (h : schedule.uses.foldlM (recordUse aliases) ⟨List.replicate schedule.values.length none, List.replicate schedule.values.length none, List.replicate schedule.values.length none⟩ = .ok t) :
    Recorded aliases schedule.values.length schedule.instructions.length schedule.uses t := by
  refine foldlM_invariant
    (fun done t => Recorded aliases schedule.values.length schedule.instructions.length done t)
    _ (fun done e rest s s' hl inv hstep => ?_) ?_ h
  · have he : e ∈ schedule.uses := by
      rw [hl]
      simp
    exact recordUse_recorded (hw.use_bounds he).1 inv hstep
  · refine ⟨fun r hr => ?_, fun r hr => ?_, fun r hr => ⟨none, ?_, by simp, nofun⟩⟩
    all_goals simp [hr, firstUse]

/-- One output keeps the tables and pushes the last access of its root to the
last instruction. -/
theorem recordOutput_tabulated {last last' : List (Option Nat)} {done : List ValueId} {o : ValueId}
    (hroots : ∀ (i : Nat) a, aliases[i]? = some a → a.root.index < schedule.values.length)
    (inv : Recorded aliases schedule.values.length schedule.instructions.length schedule.uses { t with lastAccess := last } ∧ ∀ o ∈ done, ∀ (a : NormalizedAlias) l, aliases[o.index]? = some a → last[a.root.index]? = some (some l) → schedule.instructions.length ≤ l + 1)
    (h : recordOutput schedule aliases last o = .ok last') :
    Recorded aliases schedule.values.length schedule.instructions.length schedule.uses
        { t with lastAccess := last' } ∧
      ∀ o' ∈ done ++ [o], ∀ (a : NormalizedAlias) l, aliases[o'.index]? = some a →
        last'[a.root.index]? = some (some l) → schedule.instructions.length ≤ l + 1 := by
  obtain ⟨hrec, hout⟩ := inv
  unfold recordOutput at h
  obtain ⟨_, _, h⟩ := bind_ok.mp h
  obtain ⟨normalized, ha, h⟩ := bind_ok.mp h
  have ha := expect_ok.mp ha
  by_cases hn : 1 ≤ schedule.instructions.length
  · rw [checkedSub_of_le hn] at h
    cases h
    constructor
    · refine ⟨hrec.reads, hrec.writes, fun r hr => ?_⟩
      obtain ⟨l0, hl0, hdone, hlt⟩ := hrec.last r hr
      refine ⟨_, raiseLast_getElem? hl0, ?_, ?_⟩
      · intro e he hr'
        obtain ⟨l1, rfl, hle⟩ := hdone e he hr'
        split
        · obtain ⟨l, hsome, _, hkeep, _⟩ := @raised_bounds (some l1) (schedule.instructions.length - 1)
          exact ⟨l, hsome, Nat.le_trans hle (hkeep l1 rfl)⟩
        · exact ⟨l1, rfl, hle⟩
      · intro l hl
        split at hl
        · obtain ⟨l', hsome, _, _, hor⟩ := @raised_bounds l0 (schedule.instructions.length - 1)
          rw [hsome] at hl
          cases hl
          exact hor.elim (fun h => by omega) (hlt l)
        · exact hlt l hl
    · intro o' ho' a l ha' hl
      obtain ⟨l0, hl0, _, _⟩ := hrec.last _ (hroots _ _ ha')
      rw [raiseLast_getElem? hl0] at hl
      have hl := some.inj hl
      by_cases hrr : normalized.root.index = a.root.index
      · rw [if_pos hrr] at hl
        obtain ⟨l', hsome, hle, _, _⟩ := @raised_bounds l0 (schedule.instructions.length - 1)
        rw [hsome] at hl
        cases hl
        omega
      · rw [if_neg hrr] at hl
        subst hl
        rcases mem_append.mp ho' with ho' | ho'
        · exact hout o' ho' a l ha' hl0
        · rw [mem_singleton.mp ho', ha] at ha'
          cases ha'
          exact absurd rfl hrr
  · have hnone : checkedSub schedule.instructions.length 1 = none := if_neg hn
    rw [hnone] at h
    cases h
    exact ⟨hrec, fun o' _ a l _ _ => by omega⟩

theorem closeInterval_ok {value : ValueId} {iv : LiveInterval} :
    closeInterval t index value start = .ok iv ↔ ∃ last, t.lastAccess[index]?.join = some last ∧
      last + 1 ≤ u32Max ∧ start ≤ u32Max ∧ last + 1 ≤ usizeMax ∧
      iv = ⟨value, ⟨start⟩, ⟨last + 1⟩⟩ := by
  unfold closeInterval
  simp only [bind_ok, okOr_ok, checkedAdd_some, InstructionId.fromIndex_some, Except.ok.injEq]
  constructor
  · rintro ⟨last, hl, _, ⟨hmax, rfl⟩, _, ⟨hs, rfl⟩, _, ⟨hstop, rfl⟩, rfl⟩
    exact ⟨last, hl, hstop, hs, hmax, rfl⟩
  · rintro ⟨last, hl, hstop, hs, hmax, rfl⟩
    exact ⟨last, hl, _, ⟨hmax, rfl⟩, _, ⟨hs, rfl⟩, _, ⟨hstop, rfl⟩, rfl⟩

theorem plannedStart_ok {alignment : Nat} {value : ValueId} :
    plannedStart t index value alignment = .ok start ↔ isPowerOfTwo alignment = true ∧
      t.firstWrite[index]?.join = some start ∧
      ∀ read, t.firstRead[index]?.join = some read → start ≤ read := by
  have hzero : isPowerOfTwo alignment = true → alignment ≠ 0 := by
    rintro h rfl
    cases h
  unfold plannedStart
  simp only [bind_ok, okOr_ok, rejectIf_ok, not_or, not_not]
  constructor
  · rintro ⟨_, ⟨_, hp⟩, definition, hw, h⟩
    cases hr : t.firstRead[index]?.join with
    | none =>
      rw [hr] at h
      cases h
      exact ⟨hp, hw, by rintro _ ⟨⟩⟩
    | some read =>
      rw [hr] at h
      dsimp only at h
      split at h
      · simp [bind_ok] at h
      · next hlt =>
        cases h
        refine ⟨hp, hw, ?_⟩
        rintro _ ⟨⟩
        exact Nat.le_of_not_lt hlt
  · rintro ⟨hp, hw, hread⟩
    refine ⟨(), ⟨hzero hp, hp⟩, start, hw, ?_⟩
    cases hr : t.firstRead[index]?.join with
    | none => rfl
    | some read => exact if_neg (Nat.not_lt.mpr (hread read hr))

theorem AliasChain.root_lt (hd : DenseValues values) {r : ValueId} {o : Nat} (h : AliasChain values i r o) :
    r.index < values.length := by
  obtain ⟨_, _, _, hr, _, _⟩ := h.bounds hd
  exact (List.getElem?_eq_some_iff.mp hr).1

theorem tables_tabulated {last : List (Option Nat)}
    (hroots : ∀ (i : Nat) a, aliases[i]? = some a → a.root.index < schedule.values.length)
    (hrec : Recorded aliases schedule.values.length schedule.instructions.length schedule.uses t)
    (h : schedule.outputs.foldlM (recordOutput schedule aliases) t.lastAccess = .ok last) :
    Tabulated schedule aliases { t with lastAccess := last } := by
  obtain ⟨hr, ho⟩ := foldlM_invariant
    (fun done last => Recorded aliases schedule.values.length schedule.instructions.length
        schedule.uses { t with lastAccess := last } ∧
      ∀ o ∈ done, ∀ (a : NormalizedAlias) l, aliases[o.index]? = some a →
        last[a.root.index]? = some (some l) → schedule.instructions.length ≤ l + 1)
    _ (fun _ _ _ _ _ _ inv => recordOutput_tabulated hroots inv) ⟨hrec, by simp⟩ h
  exact ⟨hr, ho⟩

/-- What the loop over the values puts in an entry that is not an alias. -/
theorem intervalOf_some {iv : LiveInterval} (h : intervalOf t (v, i) = .ok (some iv)) : ∃ start last,
      (t.firstRead[i]?.join = some start ∨ t.firstWrite[i]?.join = some start) ∧
      (∀ k, t.firstRead[i]?.join = some k → start ≤ k) ∧
      (∀ k, t.firstWrite[i]?.join = some k → start ≤ k) ∧
      t.lastAccess[i]?.join = some last ∧ iv = ⟨v.id, ⟨start⟩, ⟨last + 1⟩⟩ ∧
      ∀ c alignment m o, v.storage = .planned c alignment m o →
        isPowerOfTwo alignment = true ∧ t.firstWrite[i]?.join = some start := by
  unfold intervalOf at h
  cases hs : v.storage with
  | aliasOf source offset => simp [hs] at h
  | planned c alignment m o =>
    simp only [hs, bind_ok, closeInterval_ok, plannedStart_ok] at h
    obtain ⟨start, ⟨hp, hw, hr⟩, iv', ⟨last, hl, _, _, _, rfl⟩, h⟩ := h
    cases h
    refine ⟨start, last, .inr hw, hr, fun k hk => ?_, hl, rfl, ?_⟩
    · rw [hw] at hk
      exact Nat.le_of_eq (some.inj hk)
    · rintro _ _ _ _ ⟨⟩
      exact ⟨hp, hw⟩
  | fixed c l =>
    simp only [hs] at h
    unfold fixedStart at h
    cases hr : t.firstRead[i]?.join with
    | none =>
      cases hw : t.firstWrite[i]?.join with
      | none => simp [hr, hw] at h
      | some write =>
        simp only [hr, hw, bind_ok, closeInterval_ok] at h
        obtain ⟨iv', ⟨last, hl, _, _, _, rfl⟩, h⟩ := h
        cases h
        exact ⟨write, last, .inr rfl, nofun, by simp, hl, rfl, nofun⟩
    | some read =>
      cases hw : t.firstWrite[i]?.join with
      | none =>
        simp only [hr, hw, bind_ok, closeInterval_ok] at h
        obtain ⟨iv', ⟨last, hl, _, _, _, rfl⟩, h⟩ := h
        cases h
        exact ⟨read, last, .inl rfl, by simp, nofun, hl, rfl, nofun⟩
      | some write =>
        simp only [hr, hw, bind_ok, closeInterval_ok] at h
        obtain ⟨iv', ⟨last, hl, _, _, _, rfl⟩, h⟩ := h
        cases h
        refine ⟨min read write, last, ?_, ?_, ?_, hl, rfl, nofun⟩
        · rcases Nat.le_total read write with hle | hle
          · exact .inl (by rw [Nat.min_eq_left hle])
          · exact .inr (by rw [Nat.min_eq_right hle])
        · rintro _ ⟨⟩
          exact Nat.min_le_left _ _
        · rintro _ ⟨⟩
          exact Nat.min_le_right _ _

/-- A value with a recorded first access that owns its storage gets an interval. -/
theorem intervalOf_none (h : intervalOf t (v, i) = .ok none) (ha : v.storage.isAlias = false) :
    t.firstRead[i]?.join = none ∧ t.firstWrite[i]?.join = none := by
  unfold intervalOf at h
  cases hs : v.storage with
  | aliasOf source offset =>
    rw [hs] at ha
    cases ha
  | planned c alignment m o => simp [hs, bind_ok] at h
  | fixed c l =>
    simp only [hs] at h
    unfold fixedStart at h
    cases hr : t.firstRead[i]?.join with
    | none =>
      cases hw : t.firstWrite[i]?.join with
      | none => exact ⟨rfl, rfl⟩
      | some write => simp [hr, hw, bind_ok] at h
    | some read =>
      cases hw : t.firstWrite[i]?.join <;> simp [hr, hw, bind_ok] at h

/-- A first access of one of the two kinds precedes every use of the root. -/
theorem Recorded.first_le (hs : uses.Pairwise (fun a b => a.1.index ≤ b.1.index))
    (inv : Recorded aliases size n uses t) (hr : r < size)
    (hread : ∀ k, t.firstRead[r]?.join = some k → start ≤ k)
    (hwrite : ∀ k, t.firstWrite[r]?.join = some k → start ≤ k) :
    ∀ e ∈ uses, rootOf aliases e.2 = some r → start ≤ e.1.index := by
  have key : ∀ (p : ValueAccess → Bool), (∀ k, firstUse aliases p uses r = some k → start ≤ k) →
      ∀ e ∈ uses, p e.2.access = true → rootOf aliases e.2 = some r → start ≤ e.1.index := by
    intro p hp e he hpe hre
    cases hf : firstUse aliases p uses r with
    | none => exact absurd hre (firstUse_none.mp hf e he hpe)
    | some k => exact Nat.le_trans (hp k hf) ((firstUse_some hs hf).2 e he hpe hre)
  rw [inv.reads r hr] at hread
  rw [inv.writes r hr] at hwrite
  intro e he hre
  cases hacc : e.2.access with
  | read => exact key _ hread e he (by rw [hacc]; rfl) hre
  | write => exact key _ hwrite e he (by rw [hacc]; rfl) hre
  | readWrite => exact key _ hread e he (by rw [hacc]; rfl) hre

/-- A root that is used has a recorded first access. -/
theorem Recorded.first_of_use (inv : Recorded aliases size n uses t) (hr : r < size) (he : e ∈ uses)
    (hre : rootOf aliases e.2 = some r) (hread : t.firstRead[r]?.join = none)
    (hwrite : t.firstWrite[r]?.join = none) : False := by
  rw [inv.reads r hr] at hread
  rw [inv.writes r hr] at hwrite
  cases hacc : e.2.access with
  | read => exact firstUse_none.mp hread e he (by rw [hacc]; rfl) hre
  | write => exact firstUse_none.mp hwrite e he (by rw [hacc]; rfl) hre
  | readWrite => exact firstUse_none.mp hread e he (by rw [hacc]; rfl) hre

/-- The recorded first access is a use of the root. -/
theorem Recorded.first_mem (hs : uses.Pairwise (fun a b => a.1.index ≤ b.1.index))
    (inv : Recorded aliases size n uses t) (hr : r < size)
    (h : t.firstRead[r]?.join = some start ∨ t.firstWrite[r]?.join = some start) :
    ∃ e ∈ uses, e.1.index = start ∧ rootOf aliases e.2 = some r := by
  rw [inv.reads r hr, inv.writes r hr] at h
  rcases h with h | h
  · obtain ⟨⟨e, he, hk, _, hre⟩, _⟩ := firstUse_some hs h
    exact ⟨e, he, hk, hre⟩
  · obtain ⟨⟨e, he, hk, _, hre⟩, _⟩ := firstUse_some hs h
    exact ⟨e, he, hk, hre⟩

/-- The analysis is sound for its program. -/
theorem analyzeLiveness_sound {liveness : Liveness} (h : analyzeLiveness schedule = .ok liveness) :
    LivenessSound schedule liveness := by
  unfold analyzeLiveness at h
  simp only [bind_ok, Except.ok.injEq] at h
  obtain ⟨_, hvalid, aliases, haliases, t, ht, last, hlast, intervals, hiv, rfl⟩ := h
  have hw := validateLoweredProgram_ok.mp hvalid
  obtain ⟨halen, hchain⟩ := normalizeAliases_chain haliases
  have hroots : ∀ (i : Nat) a, aliases[i]? = some a → a.root.index < schedule.values.length :=
    fun i a ha => (hchain i a ha).root_lt hw.values_dense
  obtain ⟨hrec, hout⟩ := tables_tabulated hroots (tables_recorded hw ht) hlast
  obtain ⟨hilen, hget⟩ := mapM_ok.mp hiv
  rw [length_zipIdx] at hilen
  have hentry : ∀ (i : Nat) v, schedule.values[i]? = some v →
      ∃ o, intervals[i]? = some o ∧ intervalOf { t with lastAccess := last } (v, i) = .ok o := by
    intro i v hv
    exact hget i (v, i) (by rw [List.getElem?_zipIdx, hv]; simp)
  have hfind : ∀ (i : Nat) iv, intervals[i]? = some (some iv) → ∃ v, schedule.values[i]? = some v ∧
      intervalOf { t with lastAccess := last } (v, i) = .ok (some iv) := by
    intro i iv hi
    have hlt : i < schedule.values.length := hilen ▸ (List.getElem?_eq_some_iff.mp hi).1
    obtain ⟨o, ho, hf⟩ := hentry i _ (List.getElem?_eq_getElem hlt)
    rw [hi] at ho
    cases ho
    exact ⟨_, List.getElem?_eq_getElem hlt, hf⟩
  have hsorted := hw.uses_sorted
  refine ⟨hw, halen, hchain, hilen.symm, ?_, ?_, ?_, ?_⟩
  · intro i iv hi
    obtain ⟨v, hv, hf⟩ := hfind i iv hi
    have hlt := (List.getElem?_eq_some_iff.mp hv).1
    obtain ⟨start, l, hfirst, _, _, hl, rfl, _⟩ := intervalOf_some hf
    obtain ⟨e, he, hk, hre⟩ := hrec.first_mem hsorted hlt hfirst
    obtain ⟨lr, hlr, hcover, hbound⟩ := hrec.last i hlt
    rw [hlr] at hl
    obtain ⟨l', hl', hle⟩ := hcover e he hre
    have hl : lr = some l := hl
    rw [hl] at hl'
    cases hl'
    have := hbound l hl
    exact ⟨(hw.values_dense i v hv).1, by dsimp only; omega, by dsimp only; omega⟩
  · intro e he r hre
    obtain ⟨a, ha, rfl⟩ := map_eq_some_iff.mp hre
    obtain ⟨_, rv, _, hrv, howner, _⟩ := (hchain _ a ha).bounds hw.values_dense
    have hlt := hroots _ a ha
    obtain ⟨o, ho, hf⟩ := hentry _ rv hrv
    cases o with
    | none =>
      obtain ⟨h1, h2⟩ := intervalOf_none hf howner
      exact (hrec.first_of_use hlt he hre h1 h2).elim
    | some iv =>
      obtain ⟨start, l, _, hr1, hw1, hl, rfl, _⟩ := intervalOf_some hf
      obtain ⟨lr, hlr, hcover, _⟩ := hrec.last _ hlt
      obtain ⟨l', hl', hle⟩ := hcover e he hre
      have hstart := hrec.first_le hsorted hlt hr1 hw1 e he hre
      rw [hlr, hl'] at hl
      cases hl
      refine ⟨_, ho, ?_⟩
      rw [LiveInterval.contains_iff]
      exact ⟨hstart, Nat.lt_succ_of_le hle⟩
  · intro o ho a iv ha hi
    obtain ⟨v, _, hf⟩ := hfind _ iv hi
    obtain ⟨start, l, _, _, _, hl, rfl, _⟩ := intervalOf_some hf
    obtain ⟨lr, hlr, _, hbound⟩ := hrec.last _ (hroots _ a ha)
    rw [hlr] at hl
    have hl : lr = some l := hl
    rw [hl] at hlr
    have h1 := hout o ho a l ha hlr
    have h2 := hbound l hl
    dsimp only
    omega
  · intro i v c alignment m o hv hs
    have hlt := (List.getElem?_eq_some_iff.mp hv).1
    obtain ⟨oi, hi, hf⟩ := hentry i v hv
    cases oi with
    | none =>
      simp [intervalOf, hs, bind_ok] at hf
    | some iv =>
      obtain ⟨start, l, _, _, _, _, rfl, hp⟩ := intervalOf_some hf
      obtain ⟨hpow, hfw⟩ := hp c alignment m o hs
      rw [hrec.writes i hlt] at hfw
      obtain ⟨⟨e, he, hk, hacc, hre⟩, _⟩ := firstUse_some hsorted hfw
      exact ⟨hpow, _, hi, e, he, by rw [← hk], hacc, hre⟩

/-! ## Totality -/

/-- The alias chain of an entry has one end and one offset. -/
theorem AliasChain.unique {r r' : ValueId} {o o' : Nat} (h : AliasChain values i r o)
    (h' : AliasChain values i r' o') : r = r' ∧ o = o' := by
  induction h generalizing r' o' with
  | @root i v hv ha =>
    cases h' with
    | @root _ v' hv' _ =>
      rw [hv] at hv'
      cases hv'
      exact ⟨rfl, rfl⟩
    | @hop _ v' _ _ _ _ _ hv' hs' =>
      rw [hv] at hv'
      cases hv'
      rw [hs'] at ha
      cases ha
  | @hop i v s source offset r o hv hs _ _ _ ih =>
    cases h' with
    | @root _ v' hv' ha' =>
      rw [hv] at hv'
      cases hv'
      rw [hs] at ha'
      cases ha'
    | @hop _ v' _ _ _ _ _ hv' hs' _ _ hchain =>
      rw [hv] at hv'
      cases hv'
      rw [hs] at hs'
      cases hs'
      obtain ⟨h1, h2⟩ := ih hchain
      exact ⟨h1, by rw [h2]⟩

/-- The use touches the storage of entry `i`, directly or through views. -/
def UsesRoot (values : List (ValueDecl M)) (valueUse : ValueUse) (i : Nat) : Prop :=
  ∃ offset, AliasChain values valueUse.value.index ⟨i⟩ offset

theorem rootOf_iff (hlen : aliases.length = values.length)
    (hchain : ∀ (i : Nat) a, aliases[i]? = some a → AliasChain values i a.root a.byteOffset) {u : ValueUse}
    (hu : u.value.index < values.length) : rootOf aliases u = some i ↔ UsesRoot values u i := by
  have ha := List.getElem?_eq_getElem (hlen ▸ hu)
  have hc := hchain _ _ ha
  rw [rootOf, ha, map_some, Option.some.injEq]
  constructor
  · rintro rfl
    exact ⟨_, hc⟩
  · rintro ⟨o, ho⟩
    rw [(hc.unique ho).1]

/-- The premises under which liveness analysis can only miss a definition. -/
structure Analyzable (schedule : LoweredProgram K M) : Prop where
  well_formed : WellFormed schedule
  acyclic : AliasAcyclic schedule.values
  in_bounds : AliasInBounds schedule.values
  bytes_fit : ∀ v ∈ schedule.values, v.bytes ≤ usizeMax
  count_fits : schedule.instructions.length ≤ u32Max
  aligned : ∀ v ∈ schedule.values, ∀ c alignment m o, v.storage = .planned c alignment m o →
    isPowerOfTwo alignment = true
  reads_follow : ∀ (i : Nat) v, schedule.values[i]? = some v → v.storage.isPlanned = true →
    ∀ e ∈ schedule.uses, e.2.access.reads = true → UsesRoot schedule.values e.2 i →
      ∃ e' ∈ schedule.uses, e'.2.access.writes = true ∧ UsesRoot schedule.values e'.2 i ∧
        e'.1.index ≤ e.1.index

/-- Every planned value has a defining write. -/
def PlannedWritten (schedule : LoweredProgram K M) : Prop :=
  ∀ (i : Nat) v, schedule.values[i]? = some v → v.storage.isPlanned = true →
    ∃ e ∈ schedule.uses, e.2.access.writes = true ∧ UsesRoot schedule.values e.2 i

theorem recordUses_total (hw : WellFormed schedule) (hlen : aliases.length = schedule.values.length)
    (t : AccessTables) : ∃ t', schedule.uses.foldlM (recordUse aliases) t = .ok t' := by
  obtain ⟨t', h, _⟩ := foldlM_total (fun _ _ => True) schedule.uses (f := recordUse aliases)
    (fun done e rest s hl _ => by
      have hu := (hw.use_bounds (show e ∈ schedule.uses by rw [hl]; simp)).2
      obtain ⟨instruction, valueUse⟩ := e
      simp only [recordUse, List.getElem?_eq_getElem (hlen ▸ hu), okOr_some, ok_bind]
      exact ⟨_, rfl, trivial⟩) t trivial
  exact ⟨t', h⟩

theorem recordOutputs_total (hw : WellFormed schedule) (hlen : aliases.length = schedule.values.length)
    (last : List (Option Nat)) :
    ∃ last', schedule.outputs.foldlM (recordOutput schedule aliases) last = .ok last' := by
  obtain ⟨last', h, _⟩ := foldlM_total (fun _ _ => True) schedule.outputs
    (f := recordOutput schedule aliases) (fun done o rest s hl _ => by
      have ho := hw.outputs_known o (by rw [hl]; simp)
      have hknown : rejectIf (schedule.values[o.index]? = none)
          (PlannerError.unknownValue none o) = .ok () := rejectIf_ok.mpr (getElem?_known.mpr ho)
      simp only [recordOutput, hknown, List.getElem?_eq_getElem (hlen ▸ ho), expect_some, ok_bind]
      cases checkedSub schedule.instructions.length 1 with
      | some l => exact ⟨_, rfl, trivial⟩
      | none => exact ⟨_, rfl, trivial⟩) last trivial
  exact ⟨last', h⟩

theorem Tabulated.close (hw : WellFormed schedule) (hcount : schedule.instructions.length ≤ u32Max)
    (tab : Tabulated schedule aliases t) (value : ValueId) (hi : i < schedule.values.length)
    (hfirst : t.firstRead[i]?.join = some start ∨ t.firstWrite[i]?.join = some start) :
    ∃ iv, closeInterval t i value start = .ok iv := by
  obtain ⟨e, he, hk, hre⟩ := tab.recorded.first_mem hw.uses_sorted hi hfirst
  obtain ⟨_, hlast, hcover, hbound⟩ := tab.recorded.last i hi
  obtain ⟨l, rfl, hle⟩ := hcover e he hre
  have hl := hbound l rfl
  have hmax : u32Max ≤ usizeMax := by decide
  exact ⟨_, closeInterval_ok.mpr ⟨l, by rw [hlast]; rfl, by omega, by omega, by omega, rfl⟩⟩

/-- The interval loop returns for every entry with a definition. -/
theorem intervalOf_total (h : Analyzable schedule) (hwritten : PlannedWritten schedule)
    (hlen : aliases.length = schedule.values.length)
    (hchain : ∀ (i : Nat) a, aliases[i]? = some a → AliasChain schedule.values i a.root a.byteOffset)
    (tab : Tabulated schedule aliases t) (hv : schedule.values[i]? = some v) : ∃ o, intervalOf t (v, i) = .ok o := by
  have hi := (List.getElem?_eq_some_iff.mp hv).1
  have hroot : ∀ e ∈ schedule.uses, rootOf aliases e.2 = some i ↔ UsesRoot schedule.values e.2 i :=
    fun e he => rootOf_iff hlen hchain (h.well_formed.use_bounds he).2
  have hsorted := h.well_formed.uses_sorted
  cases hs : v.storage with
  | aliasOf source offset => exact ⟨none, by simp [intervalOf, hs]⟩
  | planned c alignment m o =>
    have hplanned : v.storage.isPlanned = true := by rw [hs]; rfl
    obtain ⟨e, he, hacc, hre⟩ := hwritten i v hv hplanned
    have hfw : ∃ k, firstUse aliases ValueAccess.writes schedule.uses i = some k := by
      cases hf : firstUse aliases ValueAccess.writes schedule.uses i with
      | some k => exact ⟨k, rfl⟩
      | none => exact absurd ((hroot e he).mpr hre) (firstUse_none.mp hf e he hacc)
    obtain ⟨k, hk⟩ := hfw
    have hwrite : t.firstWrite[i]?.join = some k := by rw [tab.recorded.writes i hi, hk]; rfl
    have hstart : plannedStart t i v.id alignment = .ok k := by
      refine plannedStart_ok.mpr ⟨h.aligned v (mem_of_getElem? hv) c alignment m o hs,
        hwrite, fun read hread => ?_⟩
      rw [tab.recorded.reads i hi] at hread
      obtain ⟨⟨e1, he1, rfl, hacc1, hre1⟩, _⟩ := firstUse_some hsorted hread
      obtain ⟨e2, he2, hacc2, hre2, hle⟩ :=
        h.reads_follow i v hv hplanned e1 he1 hacc1 ((hroot e1 he1).mp hre1)
      exact Nat.le_trans ((firstUse_some hsorted hk).2 e2 he2 hacc2 ((hroot e2 he2).mpr hre2)) hle
    obtain ⟨iv, hiv⟩ := tab.close h.well_formed h.count_fits v.id hi (.inr hwrite)
    exact ⟨some iv, by simp [intervalOf, hs, hstart, hiv]⟩
  | fixed c l =>
    cases hf : fixedStart t i with
    | none => exact ⟨none, by simp [intervalOf, hs, hf]⟩
    | some start =>
      have hfirst : t.firstRead[i]?.join = some start ∨ t.firstWrite[i]?.join = some start := by
        unfold fixedStart at hf
        cases hr : t.firstRead[i]?.join with
        | none =>
          cases hw : t.firstWrite[i]?.join with
          | none => simp [hr, hw] at hf
          | some w => simpa [hr, hw] using hf
        | some r =>
          cases hw : t.firstWrite[i]?.join with
          | none => simpa [hr, hw] using hf
          | some w =>
            simp only [hr, hw, Option.some.injEq] at hf
            rcases Nat.le_total r w with hle | hle
            · exact .inl (by rw [← hf, Nat.min_eq_left hle])
            · exact .inr (by rw [← hf, Nat.min_eq_right hle])
      obtain ⟨iv, hiv⟩ := tab.close h.well_formed h.count_fits v.id hi hfirst
      exact ⟨some iv, by simp [intervalOf, hs, hf, hiv]⟩

/-- Under the premises the analysis returns, unless a planned value is never
written. -/
theorem analyzeLiveness_total (h : Analyzable schedule) :
    (∃ liveness, analyzeLiveness schedule = .ok liveness) ↔ PlannedWritten schedule := by
  constructor
  · rintro ⟨liveness, hok⟩ i v hv hp
    have hs := analyzeLiveness_sound hok
    cases hst : v.storage with
    | planned c alignment m o =>
      obtain ⟨_, _, _, e, he, _, hacc, hre⟩ := hs.planned i v c alignment m o hv hst
      exact ⟨e, he, hacc, (rootOf_iff hs.aliases_length hs.chain
        (h.well_formed.use_bounds he).2).mp hre⟩
    | fixed c l =>
      rw [hst] at hp
      cases hp
    | aliasOf s o =>
      rw [hst] at hp
      cases hp
  · intro hwritten
    have hd := h.well_formed.values_dense
    obtain ⟨aliases, ha⟩ := normalizeAliases_total hd h.acyclic h.in_bounds h.bytes_fit
    obtain ⟨hlen, hchain⟩ := normalizeAliases_chain ha
    obtain ⟨t, ht⟩ := recordUses_total h.well_formed hlen
      ⟨List.replicate schedule.values.length none, List.replicate schedule.values.length none,
        List.replicate schedule.values.length none⟩
    obtain ⟨last, hlast⟩ := recordOutputs_total h.well_formed hlen t.lastAccess
    have tab := tables_tabulated (fun i a ha => (hchain i a ha).root_lt hd)
      (tables_recorded h.well_formed ht) hlast
    obtain ⟨intervals, hiv⟩ := mapM_total (f := intervalOf { t with lastAccess := last })
      (l := schedule.values.zipIdx) (fun ⟨v, i⟩ hm =>
        intervalOf_total h hwritten hlen hchain tab (mk_mem_zipIdx_iff_getElem?.mp hm))
    refine ⟨⟨aliases, intervals⟩, ?_⟩
    unfold analyzeLiveness
    simp only [bind_ok, Except.ok.injEq]
    exact ⟨(), validateLoweredProgram_ok.mpr h.well_formed, aliases, ha, t, ht, last, hlast,
      intervals, hiv, rfl⟩

end Analysis

end EffectTorch
