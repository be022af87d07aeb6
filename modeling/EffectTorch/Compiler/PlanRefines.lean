import EffectTorch.Compiler.Plan
import EffectTorch.Lib.Relocation

/-!
# A plan refines private storage

An abstract meaning of a lowered program: instructions act on the bytes of the
values that they declare, and every value that is not a view has storage of its
own. The plan runs the same instructions with planned values in shared segments.

Results:
1. `privateByte_chain`: a byte of a view is the byte of its root at the sum of
   the offsets.
2. `plan_refines_private_storage`: both runs leave the same contents in every
   output.
-/

set_option linter.unusedSectionVars false

namespace EffectTorch
open List Lib

/-- Byte `byte` of entry `value` of the value table. -/
structure ValueByte where
  value : Nat
  byte : Nat
deriving DecidableEq, Repr

/-- Byte `byte` of the storage of entry `root`. -/
structure StorageByte where
  root : Nat
  byte : Nat
deriving DecidableEq, Repr

/-- A byte of a segment, or of storage that the planner does not share. -/
inductive Address where
  | segment (segment : SegmentId) (byte : Nat)
  | own (root byte : Nat)
deriving DecidableEq, Repr

section Refines

variable {K M : Type} [DecidableEq M]

/-! ## Where bytes live -/

/-- Follows at most `fuel` views from byte `j` of entry `i`. -/
def resolveViews (values : List (ValueDecl M)) : Nat → Nat → Nat → StorageByte
  | 0, i, j => ⟨i, j⟩
  | fuel + 1, i, j =>
    match values[i]?.map ValueDecl.storage with
    | some (.aliasOf source byteOffset) => resolveViews values fuel source.index (byteOffset + j)
    | _ => ⟨i, j⟩

/-- The private storage of a value's byte. -/
def privateByte (values : List (ValueDecl M)) (x : ValueByte) : StorageByte :=
  resolveViews values values.length x.value x.byte

/-- The planned address of a storage byte. -/
def storageAddress (schedule : LoweredProgram K M) (plan : MemoryPlan M) (x : StorageByte) :
    Address :=
  match schedule.values[x.root]?.map (·.storage.isPlanned), plan.locations[x.root]? with
  | some true, some (.segment segment offset _) => .segment segment (offset + x.byte)
  | _, _ => .own x.root x.byte

/-- The planned address of a value's byte: a view adds its accumulated offset to
the address of its root. -/
def valueAddress (schedule : LoweredProgram K M) (plan : MemoryPlan M) (x : ValueByte) : Address :=
  match schedule.values[x.value]?.map (·.storage.isAlias), plan.locations[x.value]? with
  | some true, some (.aliasOf root byteOffset) =>
    storageAddress schedule plan ⟨root.index, byteOffset + x.byte⟩
  | _, _ => storageAddress schedule plan ⟨x.value, x.byte⟩

/-! ## What instructions mean -/

/-- Byte `x` belongs to a value that the instruction declares with an access of
kind `p`. -/
def DeclaredByte (schedule : LoweredProgram K M) (instruction : LoweredInstruction K)
    (p : ValueAccess → Bool) (x : ValueByte) : Prop :=
  ∃ u ∈ instruction.resourceUses, p u.access = true ∧ u.value.index = x.value ∧
    ∃ v, schedule.values[x.value]? = some v ∧ x.byte < v.bytes

/-- A meaning of the instructions: each reads only bytes of its declared reads
and writes only bytes of its declared writes. -/
structure Interpretation (schedule : LoweredProgram K M) (β : Type) where
  action : Nat → Action ValueByte β
  reads_declared : ∀ (k : Nat) instruction, schedule.instructions[k]? = some instruction →
    ∀ m, ∀ x ∈ (action k).reads m, DeclaredByte schedule instruction ValueAccess.reads x
  writes_declared : ∀ (k : Nat) instruction, schedule.instructions[k]? = some instruction →
    ∀ m, ∀ w ∈ (action k).emit m, DeclaredByte schedule instruction ValueAccess.writes w.1

/-- The instruction sequence. -/
def Interpretation.actions {schedule : LoweredProgram K M} {β : Type}
    (interp : Interpretation schedule β) : List (Action ValueByte β) :=
  (List.range schedule.instructions.length).map interp.action

/-- A byte that a binding may supply: one of a value with fixed storage. -/
def BindableByte (schedule : LoweredProgram K M) (x : StorageByte) : Prop :=
  ∃ v c location, schedule.values[x.root]? = some v ∧ v.storage = .fixed c location ∧
    x.byte < v.bytes

/-! ## Views -/

/-- Entry `i` is `d` views away from its root. -/
inductive ViewDepth (values : List (ValueDecl M)) : Nat → Nat → Prop
  | root {i : Nat} {v : ValueDecl M} :
      values[i]? = some v → v.storage.isAlias = false → ViewDepth values i 0
  | hop {i d : Nat} {v : ValueDecl M} {source : ValueId} {offset : Nat} :
      values[i]? = some v → v.storage = .aliasOf source offset →
      ViewDepth values source.index d → ViewDepth values i (d + 1)

variable {values : List (ValueDecl M)} {i : Nat} {v : ValueDecl M} {schedule : LoweredProgram K M}
  {liveness : Liveness} {x : StorageByte}

theorem ViewDepth.unique {d d' : Nat} (h : ViewDepth values i d) (h' : ViewDepth values i d') : d = d' := by
  induction h generalizing d' with
  | root hv ha =>
    cases h' with
    | root _ _ => rfl
    | hop hv' hs _ =>
      rw [hv] at hv'
      cases hv'
      rw [hs] at ha
      cases ha
  | hop hv hs _ ih =>
    cases h' with
    | root hv' ha =>
      rw [hv] at hv'
      cases hv'
      rw [hs] at ha
      cases ha
    | hop hv' hs' hd =>
      rw [hv] at hv'
      cases hv'
      rw [hs] at hs'
      cases hs'
      rw [ih hd]

/-- The views on the way to a root are distinct entries of the table. -/
theorem ViewDepth.path {values : List (ValueDecl M)} {i d : Nat} (h : ViewDepth values i d) :
    ∃ path : List Nat, path.length = d ∧ path.Nodup ∧
      ∀ p ∈ path, p < values.length ∧ ∃ d', ViewDepth values p d' ∧ d' ≤ d := by
  induction h with
  | root _ _ => exact ⟨[], rfl, nodup_nil, by simp⟩
  | @hop i d v source offset hv hs hd ih =>
    obtain ⟨path, hlen, hn, hp⟩ := ih
    refine ⟨i :: path, by simp [hlen], nodup_cons.mpr ⟨fun hi => ?_, hn⟩, ?_⟩
    · obtain ⟨_, d', hd', hle⟩ := hp i hi
      have := hd'.unique (.hop hv hs hd)
      omega
    · refine forall_mem_cons.mpr
        ⟨⟨(List.getElem?_eq_some_iff.mp hv).1, d + 1, .hop hv hs hd, Nat.le_refl _⟩, ?_⟩
      intro p hm
      obtain ⟨hlt, d', hd', hle⟩ := hp p hm
      exact ⟨hlt, d', hd', by omega⟩

theorem ViewDepth.le_length {d : Nat} (h : ViewDepth values i d) : d ≤ values.length := by
  obtain ⟨path, rfl, hn, hp⟩ := h.path
  exact nodup_length_le hn fun p hm => (hp p hm).1

theorem resolveViews_root (hv : values[i]? = some v) (ha : v.storage.isAlias = false) (fuel j : Nat) :
    resolveViews values fuel i j = ⟨i, j⟩ := by
  cases fuel with
  | zero => rfl
  | succ fuel =>
    unfold resolveViews
    rw [hv, Option.map_some]
    cases hs : v.storage with
    | aliasOf s o =>
      rw [hs] at ha
      cases ha
    | fixed c l => rfl
    | planned c a m o => rfl

theorem resolveViews_chain (hd : DenseValues values) {r : ValueId} {o : Nat} (h : AliasChain values i r o) :
    ∃ d, ViewDepth values i d ∧ ∀ fuel j, d ≤ fuel →
      resolveViews values fuel i j = ⟨r.index, o + j⟩ := by
  induction h with
  | @root i v hv ha =>
    refine ⟨0, .root hv ha, fun fuel j _ => ?_⟩
    rw [resolveViews_root hv ha, (hd i v hv).1, Nat.zero_add]
  | @hop i v s source offset r o hv hs hsv _ _ ih =>
    obtain ⟨d, hdepth, hres⟩ := ih
    refine ⟨d + 1, .hop hv hs hdepth, fun fuel j hle => ?_⟩
    obtain ⟨fuel, rfl⟩ : ∃ n, fuel = n + 1 := ⟨fuel - 1, by omega⟩
    unfold resolveViews
    rw [hv, Option.map_some, hs]
    dsimp only
    rw [hres fuel (offset + j) (by omega), Nat.add_assoc]

/-- A byte of a view is the byte of its root at the sum of the offsets. -/
theorem privateByte_chain (hd : DenseValues values) {j : Nat} {r : ValueId} {o : Nat}
    (h : AliasChain values i r o) : privateByte values ⟨i, j⟩ = ⟨r.index, o + j⟩ := by
  obtain ⟨d, hdepth, hres⟩ := resolveViews_chain hd h
  exact hres values.length j hdepth.le_length

/-! ## Lifetimes of bytes -/

/-- The instructions during which a storage byte is alive. Fixed storage lives
through the whole program; a byte past the end of its value never lives. -/
def lifetime (schedule : LoweredProgram K M) (liveness : Liveness) (x : StorageByte) : Nat × Nat :=
  match schedule.values[x.root]? with
  | none => (0, 0)
  | some v =>
    if x.byte < v.bytes then
      match v.storage, liveness.intervals[x.root]? with
      | .fixed .., _ => (0, schedule.instructions.length)
      | .planned .., some (some interval) => (interval.start.index, interval.stop.index)
      | _, _ => (0, 0)
    else (0, 0)

theorem lifetime_fixed {c : StorageClass} {l : Location} (hv : schedule.values[x.root]? = some v)
    (hs : v.storage = .fixed c l) (hx : x.byte < v.bytes) :
    lifetime schedule liveness x = (0, schedule.instructions.length) := by
  simp [lifetime, hv, hs, hx]

theorem lifetime_planned {c : StorageClass} {alignment : Nat} {m : M} {o : SegmentOwnership}
    {iv : LiveInterval} (hv : schedule.values[x.root]? = some v) (hs : v.storage = .planned c alignment m o)
    (hx : x.byte < v.bytes) (hi : liveness.intervals[x.root]? = some (some iv)) :
    lifetime schedule liveness x = (iv.start.index, iv.stop.index) := by
  simp [lifetime, hv, hs, hx, hi]

/-- A byte with a lifetime is a byte of a value with storage. -/
theorem lifetime_pos (h : 0 < (lifetime schedule liveness x).2) : ∃ v, schedule.values[x.root]? = some v ∧
      x.byte < v.bytes ∧ (v.storage.isPlanned = true → ∃ iv,
        liveness.intervals[x.root]? = some (some iv) ∧
        lifetime schedule liveness x = (iv.start.index, iv.stop.index)) := by
  cases hv : schedule.values[x.root]? with
  | none => simp [lifetime, hv] at h
  | some v =>
    by_cases hx : x.byte < v.bytes
    · refine ⟨v, rfl, hx, fun hp => ?_⟩
      cases hs : v.storage with
      | fixed c l => simp [hs, ValueStorage.isPlanned] at hp
      | aliasOf s o => simp [hs, ValueStorage.isPlanned] at hp
      | planned c a m o =>
        cases hi : liveness.intervals[x.root]? with
        | none => simp [lifetime, hv, hs, hx, hi] at h
        | some iv? =>
          cases iv? with
          | none => simp [lifetime, hv, hs, hx, hi] at h
          | some iv => exact ⟨iv, rfl, lifetime_planned hv hs hx hi⟩
    · simp [lifetime, hv, hx] at h

/-- A byte of a value has its storage at the root of the value's chain, inside
the root. -/
theorem LivenessSound.storage (h : LivenessSound schedule liveness) {x : ValueByte}
    (hv : schedule.values[x.value]? = some v) (hx : x.byte < v.bytes) :
    ∃ a rv, liveness.aliases[x.value]? = some a ∧
      privateByte schedule.values x = ⟨a.root.index, a.byteOffset + x.byte⟩ ∧
      schedule.values[a.root.index]? = some rv ∧ rv.storage.isAlias = false ∧
      a.byteOffset + x.byte < rv.bytes := by
  have hlt := (List.getElem?_eq_some_iff.mp hv).1
  have ha := List.getElem?_eq_getElem (h.aliases_length ▸ hlt)
  have hchain := h.chain _ _ ha
  obtain ⟨v', rv, hv', hr, howner, hle⟩ := hchain.bounds h.well_formed.values_dense
  rw [hv] at hv'
  cases hv'
  exact ⟨_, rv, ha, privateByte_chain h.well_formed.values_dense hchain, hr, howner, by omega⟩

/-- Every byte that an instruction declares is alive at the instruction. -/
theorem LivenessSound.declared_alive (h : LivenessSound schedule liveness) {k : Nat}
    {instruction : LoweredInstruction K} (hk : schedule.instructions[k]? = some instruction)
    {p : ValueAccess → Bool} {x : ValueByte} (hx : DeclaredByte schedule instruction p x) :
    (lifetime schedule liveness (privateByte schedule.values x)).1 ≤ k ∧
      k < (lifetime schedule liveness (privateByte schedule.values x)).2 := by
  obtain ⟨u, hu, _, hux, v, hv, hbyte⟩ := hx
  obtain ⟨a, rv, ha, hprivate, hrv, howner, hin⟩ := h.storage hv hbyte
  have hid := (h.well_formed.instructions_dense k instruction hk).1
  have hklt := (List.getElem?_eq_some_iff.mp hk).1
  have huse : (instruction.id, u) ∈ schedule.uses :=
    mem_uses.mpr ⟨instruction, mem_of_getElem? hk, rfl, hu⟩
  obtain ⟨iv, hiv, hcontains⟩ := h.use_covered _ huse a.root.index (by
    simp [rootOf, hux, ha])
  rw [LiveInterval.contains_iff, hid] at hcontains
  rw [hprivate]
  cases hs : rv.storage with
  | aliasOf s o =>
    rw [hs] at howner
    cases howner
  | fixed c l =>
    rw [lifetime_fixed hrv hs hin]
    exact ⟨Nat.zero_le _, hklt⟩
  | planned c al m o =>
    rw [lifetime_planned hrv hs hin hiv]
    exact hcontains

/-- Bytes of one address are not alive together. -/
theorem PlanSound.not_together {config : MemoryPlannerConfig M} {plan : MemoryPlan M}
    (h : PlanSound schedule config liveness plan) {y : StorageByte} (hne : x ≠ y)
    (haddr : storageAddress schedule plan x = storageAddress schedule plan y) :
    ¬ ((lifetime schedule liveness x).1 < (lifetime schedule liveness y).2 ∧
      (lifetime schedule liveness y).1 < (lifetime schedule liveness x).2) := by
  rintro ⟨h1, h2⟩
  obtain ⟨vx, hvx, hx, hix⟩ := lifetime_pos (Nat.lt_of_le_of_lt (Nat.zero_le _) h2)
  obtain ⟨vy, hvy, hy, hiy⟩ := lifetime_pos (Nat.lt_of_le_of_lt (Nat.zero_le _) h1)
  have haddrOf : ∀ {z : StorageByte} {v : ValueDecl M}, schedule.values[z.root]? = some v →
      (v.storage.isPlanned = true ∧ ∃ value segment offset,
        PlannedAt schedule plan z.root value segment offset ∧ value.bytes = v.bytes ∧
        storageAddress schedule plan z = .segment ⟨segment⟩ (offset + z.byte)) ∨
      storageAddress schedule plan z = .own z.root z.byte := by
    intro z v hv
    cases hp : v.storage.isPlanned with
    | false =>
      refine .inr ?_
      simp [storageAddress, hv, hp]
    | true =>
      obtain ⟨value, segment, offset, hat⟩ := h.placed _ v hv hp
      obtain ⟨v', _, hv', _, _, hb⟩ := hat.declared
      rw [hv] at hv'
      cases hv'
      exact .inl ⟨rfl, value, segment, offset, hat, hb.symm,
        by simp [storageAddress, hv, hp, hat.located]⟩
  rcases haddrOf hvx with ⟨hpx, valx, segx, offx, hatx, hbx, hax⟩ | hax
  · rcases haddrOf hvy with ⟨hpy, valy, segy, offy, haty, hby, hay⟩ | hay
    · rw [hax, hay, Address.segment.injEq, SegmentId.mk.injEq] at haddr
      obtain ⟨rfl, hoff⟩ := haddr
      have hroot : x.root ≠ y.root := by
        intro hroot
        have hloc := hatx.located
        rw [hroot, haty.located] at hloc
        simp only [Option.some.injEq, Location.segment.injEq] at hloc
        refine hne ?_
        cases x
        cases y
        simp only [StorageByte.mk.injEq] at *
        exact ⟨hroot, by omega⟩
      obtain ⟨ivx, hivx, hlx⟩ := hix hpx
      obtain ⟨ivy, hivy, hly⟩ := hiy hpy
      rw [hlx, hly] at h1 h2
      have := h.apart _ _ _ _ _ _ _ _ _ hroot hatx haty hivx hivy
        (LiveInterval.overlaps_iff.mpr ⟨h1, h2⟩)
      omega
    · rw [hax, hay] at haddr
      cases haddr
  · rcases haddrOf hvy with ⟨_, _, _, _, _, _, hay⟩ | hay
    · rw [hax, hay] at haddr
      cases haddr
    · rw [hax, hay, Address.own.injEq] at haddr
      exact hne (by cases x; cases y; simpa using haddr)

/-- The planned address of a byte is the address of its storage. -/
theorem PlanSound.valueAddress_eq {config : MemoryPlannerConfig M} {plan : MemoryPlan M}
    (h : PlanSound schedule config liveness plan) {x : ValueByte} (hv : schedule.values[x.value]? = some v) :
    valueAddress schedule plan x =
      storageAddress schedule plan (privateByte schedule.values x) := by
  have hd := h.liveness_sound.well_formed.values_dense
  cases ha : v.storage.isAlias with
  | false =>
    have hchain : AliasChain schedule.values x.value ⟨x.value⟩ 0 := by
      have := AliasChain.root hv ha
      rwa [(hd _ v hv).1] at this
    have hprivate : privateByte schedule.values x = ⟨x.value, x.byte⟩ := by
      rw [privateByte_chain hd hchain, Nat.zero_add]
    rw [hprivate]
    simp [valueAddress, hv, ha]
  | true =>
    cases hs : v.storage with
    | fixed c l => simp [hs, ValueStorage.isAlias] at ha
    | planned c a m o => simp [hs, ValueStorage.isAlias] at ha
    | aliasOf source offset =>
      obtain ⟨a, hal, hloc⟩ := h.view _ v source offset hv hs
      rw [privateByte_chain hd (h.liveness_sound.chain _ a hal)]
      simp [valueAddress, hv, ha, hloc]

/-! ## Refinement -/

theorem Interpretation.action_at {β : Type} (interp : Interpretation schedule β) {k : Nat}
    {a : Action ValueByte β} (h : interp.actions[k]? = some a) :
    ∃ instruction, schedule.instructions[k]? = some instruction ∧ a = interp.action k := by
  unfold Interpretation.actions at h
  rw [List.getElem?_map] at h
  obtain ⟨k', hk', rfl⟩ := Option.map_eq_some_iff.mp h
  obtain ⟨hlt, rfl⟩ := List.getElem?_eq_some_iff.mp hk'
  rw [length_range] at hlt
  exact ⟨_, List.getElem?_eq_getElem hlt, by rw [getElem_range]⟩

/-- Running the planned program gives every output the contents that it has when
every value owns its storage. Both memories start with the same bound bytes, and
every byte read has been bound or written before. -/
theorem plan_refines_private_storage {schedule : LoweredProgram K M}
    {config : MemoryPlannerConfig M} {plan : MemoryPlan M} {β : Type}
    (hplan : planMemory schedule config = .ok plan) (interp : Interpretation schedule β)
    (bound : Set StorageByte) (storage : StorageByte → β) (memory : Address → β)
    (hbound : ∀ x ∈ bound, BindableByte schedule x)
    (hagree : ∀ x ∈ bound, memory (storageAddress schedule plan x) = storage x)
    (hreads : ReadsWritten (privateByte schedule.values) bound storage interp.actions) :
    ∀ o ∈ schedule.outputs, ∀ v, schedule.values[o.index]? = some v → ∀ j, j < v.bytes →
      Written (privateByte schedule.values) bound storage interp.actions
        (privateByte schedule.values ⟨o.index, j⟩) →
      execAll (valueAddress schedule plan) interp.actions memory
          (valueAddress schedule plan ⟨o.index, j⟩) =
        execAll (privateByte schedule.values) interp.actions storage
          (privateByte schedule.values ⟨o.index, j⟩) := by
  obtain ⟨liveness, _, sound⟩ := planMemory_sound hplan
  have hls := sound.liveness_sound
  intro o ho v hv j hj hwritten
  -- Declared bytes have the address of their storage.
  have hsame : execAll (valueAddress schedule plan) interp.actions memory =
      execAll (storageAddress schedule plan ∘ privateByte schedule.values) interp.actions
        memory := by
    refine execAll_congr fun a ha m => ?_
    obtain ⟨k, hk⟩ := mem_iff_getElem?.mp ha
    obtain ⟨instruction, hinstruction, rfl⟩ := interp.action_at hk
    constructor
    · intro x hx
      obtain ⟨_, _, _, _, v, hv, _⟩ := interp.reads_declared k instruction hinstruction m x hx
      exact sound.valueAddress_eq hv
    · intro w hw
      obtain ⟨_, _, _, _, v, hv, _⟩ := interp.writes_declared k instruction hinstruction m w hw
      exact sound.valueAddress_eq hv
  have hlife : Lifetimes (privateByte schedule.values) bound interp.actions
      (fun x => (lifetime schedule liveness x).1) (fun x => (lifetime schedule liveness x).2) := by
    refine ⟨fun x hx => ?_, fun k a hk m x hx => ?_, fun k a hk m w hw => ?_⟩
    · obtain ⟨v, c, l, hv, hs, hx⟩ := hbound x hx
      rw [lifetime_fixed hv hs hx]
    · obtain ⟨instruction, hinstruction, rfl⟩ := interp.action_at hk
      exact hls.declared_alive hinstruction (interp.reads_declared k instruction hinstruction m x hx)
    · obtain ⟨instruction, hinstruction, rfl⟩ := interp.action_at hk
      exact hls.declared_alive hinstruction
        (interp.writes_declared k instruction hinstruction m w hw)
  obtain ⟨a, rv, ha, hprivate, hrv, howner, hin⟩ := hls.storage (x := ⟨o.index, j⟩) hv hj
  -- An output byte is alive at the end.
  have hend : interp.actions.length ≤
      (lifetime schedule liveness (privateByte schedule.values ⟨o.index, j⟩)).2 := by
    have hlen : interp.actions.length = schedule.instructions.length := by
      simp [Interpretation.actions]
    rw [hlen, hprivate]
    cases hs : rv.storage with
    | aliasOf s off =>
      rw [hs] at howner
      cases howner
    | fixed c l => rw [lifetime_fixed hrv hs hin]
    | planned c al m own =>
      obtain ⟨_, iv, hiv, _⟩ := hls.planned _ rv c al m own hrv hs
      rw [lifetime_planned hrv hs hin hiv, hls.output_covered o ho a iv ha hiv]
  rw [hsame, sound.valueAddress_eq hv]
  exact relocation (fun x y hne haddr => sound.not_together hne haddr) hagree interp.actions hlife
    hreads _ hwritten hend

end Refines

/-! ## A run with reuse -/

/-- Applies `f` to one byte. -/
def unaryAction (f : Nat → Nat) (source target : ValueByte) : Action ValueByte Nat where
  emit m := [(target, f (m source))]
  reads _ := {source}
  emit_local m m' h := by rw [h source rfl]

/-- The arithmetic of `reuseProgram`. -/
def reuseAction : Nat → Action ValueByte Nat
  | 0 => unaryAction (· + 1) ⟨0, 0⟩ ⟨1, 0⟩
  | 1 => unaryAction (2 * ·) ⟨2, 0⟩ ⟨3, 0⟩
  | _ => unaryAction (· + 1) ⟨3, 0⟩ ⟨4, 0⟩

theorem reuseAction_declared {k : Nat} {instruction : LoweredInstruction String}
    (hk : reuseProgram.instructions[k]? = some instruction) :
    (∀ m, ∀ x ∈ (reuseAction k).reads m,
      DeclaredByte reuseProgram instruction ValueAccess.reads x) ∧
    ∀ m, ∀ w ∈ (reuseAction k).emit m,
      DeclaredByte reuseProgram instruction ValueAccess.writes w.1 := by
  have hbyte : ∀ i < 5, ∃ v, reuseProgram.values[i]? = some v ∧ 0 < v.bytes := by
    decide
  have hdeclared : ∀ (source target : ValueByte) (f : Nat → Nat), source.byte = 0 →
      target.byte = 0 → source.value < 5 → target.value < 5 →
      (∃ u ∈ instruction.resourceUses, u.access.reads = true ∧ u.value.index = source.value) →
      (∃ u ∈ instruction.resourceUses, u.access.writes = true ∧ u.value.index = target.value) →
      (∀ m, ∀ x ∈ (unaryAction f source target).reads m,
        DeclaredByte reuseProgram instruction ValueAccess.reads x) ∧
      ∀ m, ∀ w ∈ (unaryAction f source target).emit m,
        DeclaredByte reuseProgram instruction ValueAccess.writes w.1 := by
    rintro ⟨s, _⟩ ⟨t, _⟩ f rfl rfl hs ht ⟨u, hu, hr, hur⟩ ⟨u', hu', hw, huw⟩
    constructor
    · rintro m x rfl
      exact ⟨u, hu, hr, hur, hbyte s hs⟩
    · intro m w hw'
      rw [mem_singleton.mp hw']
      exact ⟨u', hu', hw, huw, hbyte t ht⟩
  match k with
  | 0 =>
    cases hk
    exact hdeclared _ _ _ rfl rfl (by decide) (by decide) (by decide) (by decide)
  | 1 =>
    cases hk
    exact hdeclared _ _ _ rfl rfl (by decide) (by decide) (by decide) (by decide)
  | 2 =>
    cases hk
    exact hdeclared _ _ _ rfl rfl (by decide) (by decide) (by decide) (by decide)

def reuseInterpretation : Interpretation reuseProgram Nat where
  action := reuseAction
  reads_declared _ _ hk := (reuseAction_declared hk).1
  writes_declared _ _ hk := (reuseAction_declared hk).2

/-- The input is bound; every other byte is read right after it is written. -/
theorem reuse_readsWritten : ReadsWritten (privateByte reuseProgram.values) {⟨0, 0⟩} (fun _ => 7)
    reuseInterpretation.actions := by
  intro before a after hl x hx
  have hacts : reuseInterpretation.actions = [reuseAction 0, reuseAction 1, reuseAction 2] := rfl
  rw [hacts] at hl
  match before, hl with
  | [], hl =>
    cases hl
    rw [Set.mem_singleton_iff.mp hx]
    exact .inl rfl
  | [_], hl =>
    cases hl
    rw [Set.mem_singleton_iff.mp hx]
    exact .inr ⟨[], reuseAction 0, [], rfl, _, mem_singleton.mpr rfl, rfl⟩
  | [_, _], hl =>
    cases hl
    rw [Set.mem_singleton_iff.mp hx]
    exact .inr ⟨[reuseAction 0], reuseAction 1, [], rfl, _, mem_singleton.mpr rfl, rfl⟩
  | _ :: _ :: _ :: rest, hl =>
    simp at hl

/-- The planned run of `reuseProgram` computes `2 * (7 + 1) + 1`, although the
output lies over the first value. -/
theorem reuseProgram_refines : ∃ plan, planMemory reuseProgram reuseConfig = .ok plan ∧
    execAll (valueAddress reuseProgram plan) reuseInterpretation.actions (fun _ => 7)
      (valueAddress reuseProgram plan ⟨4, 0⟩) = 17 := by
  obtain ⟨plan, hplan, _⟩ := reuseProgram_plan
  refine ⟨plan, hplan, ?_⟩
  rw [plan_refines_private_storage hplan reuseInterpretation {⟨0, 0⟩} (fun _ => 7)
    (fun _ => 7) ?_ (fun _ _ => rfl) reuse_readsWritten ⟨4⟩
    mem_cons_self _ rfl 0 (by decide) ?_]
  · decide
  · rintro x rfl
    exact ⟨_, _, _, rfl, rfl, by decide⟩
  · exact .inr ⟨[reuseAction 0, reuseAction 1], reuseAction 2, [], rfl, _,
      mem_singleton.mpr rfl, rfl⟩

end EffectTorch
