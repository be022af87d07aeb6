import EffectTorch.Compiler.Plan

/-!
# Intervals are exact

Results:
1. `LastExact`: a recorded last access is an access, or the last instruction for an output.
2. `analyzeLiveness_exact`: the interval of a root is the smallest one that holds its accesses
   and, for an output, the rest of the program; that of a planned value starts at its first
   write.
-/

namespace EffectTorch
open List Option Lib

section Exact

variable {K M : Type}

/-! ## Last accesses -/

/-- The last accesses of the uses `done` are accesses. -/
def LastUsed (aliases : List NormalizedAlias) (done : List (InstructionId × ValueUse))
    (lastAccess : List (Option Nat)) : Prop :=
  ∀ (r : Nat) l, lastAccess[r]? = some (some l) →
    ∃ e ∈ done, rootOf aliases e.2 = some r ∧ e.1.index = l

/-- The last accesses are accesses or, for the roots of the outputs `done`, the last
instruction. -/
def LastExact (schedule : LoweredProgram K M) (aliases : List NormalizedAlias)
    (done : List ValueId) (lastAccess : List (Option Nat)) : Prop :=
  ∀ (r : Nat) l, lastAccess[r]? = some (some l) →
    (∃ e ∈ schedule.uses, rootOf aliases e.2 = some r ∧ e.1.index = l) ∨
      ∃ o ∈ done, ∃ a : NormalizedAlias, aliases[o.index]? = some a ∧ a.root.index = r ∧
        l + 1 = schedule.instructions.length

/-- Raising one last access keeps the others. -/
theorem raiseLast_some {table : List (Option Nat)} {root index r l : Nat}
    (h : (raiseLast table root index)[r]? = some (some l)) :
    (root = r ∧ l = index) ∨ table[r]? = some (some l) := by
  cases hlast : table[r]? with
  | none =>
    rw [raiseLast, List.getElem?_modify, hlast] at h
    cases h
  | some last =>
    rw [raiseLast_getElem? hlast] at h
    have h := some.inj h
    split at h
    · next hroot =>
      obtain ⟨l', hl', _, _, hfrom⟩ := @raised_bounds last index
      rw [hl'] at h
      obtain rfl := some.inj h
      exact hfrom.imp (fun hindex => ⟨hroot, hindex⟩) fun hkept => by rw [hkept]
    · exact .inr (by rw [h])

theorem recordUse_lastUsed {aliases : List NormalizedAlias}
    {done : List (InstructionId × ValueUse)} {e : InstructionId × ValueUse} {t t' : AccessTables}
    (inv : LastUsed aliases done t.lastAccess) (h : recordUse aliases t e = .ok t') :
    LastUsed aliases (done ++ [e]) t'.lastAccess := by
  obtain ⟨instruction, valueUse⟩ := e
  obtain ⟨normalized, ha, h⟩ := bind_ok.mp h
  obtain rfl := Except.ok.inj h
  intro r l hl
  rcases raiseLast_some hl with ⟨rfl, rfl⟩ | hold
  · refine ⟨(instruction, valueUse), mem_append_right _ (mem_singleton_self _), ?_, rfl⟩
    rw [rootOf, okOr_ok.mp ha]
    rfl
  · obtain ⟨e, he, hroot, hindex⟩ := inv r l hold
    exact ⟨e, mem_append_left _ he, hroot, hindex⟩

theorem recordOutput_lastExact {schedule : LoweredProgram K M} {aliases : List NormalizedAlias}
    {done : List ValueId} {o : ValueId} {last last' : List (Option Nat)}
    (inv : LastExact schedule aliases done last)
    (h : recordOutput schedule aliases last o = .ok last') :
    LastExact schedule aliases (done ++ [o]) last' := by
  unfold recordOutput at h
  obtain ⟨_, _, h⟩ := bind_ok.mp h
  obtain ⟨normalized, ha, h⟩ := bind_ok.mp h
  have ha := expect_ok.mp ha
  have hkeep : LastExact schedule aliases (done ++ [o]) last := fun r l hl =>
    (inv r l hl).imp_right fun ⟨o', ho', hrest⟩ => ⟨o', mem_append_left _ ho', hrest⟩
  by_cases hn : 1 ≤ schedule.instructions.length
  · rw [checkedSub_of_le hn] at h
    obtain rfl := Except.ok.inj h
    intro r l hl
    rcases raiseLast_some hl with ⟨hr, rfl⟩ | hold
    · exact .inr ⟨o, mem_append_right _ (mem_singleton_self _), normalized, ha, hr,
        Nat.sub_add_cancel hn⟩
    · exact hkeep r l hold
  · have hnone : checkedSub schedule.instructions.length 1 = none := if_neg hn
    rw [hnone] at h
    obtain rfl := Except.ok.inj h
    exact hkeep

/-! ## Intervals -/

/-- The output is the storage of entry `i`, directly or through views. -/
def OutputOf (values : List (ValueDecl M)) (output : ValueId) (i : Nat) : Prop :=
  ∃ offset, AliasChain values output.index ⟨i⟩ offset

/-- The instructions that access the storage of entry `i` with `p`. -/
def accesses (schedule : LoweredProgram K M) (p : ValueAccess → Bool) (i : Nat) : Set Nat :=
  { k | ∃ e ∈ schedule.uses, e.1.index = k ∧ p e.2.access = true ∧
    UsesRoot schedule.values e.2 i }

/-- What the interval of the root `i` is. -/
structure IntervalExact (schedule : LoweredProgram K M) (i : Nat) (v : ValueDecl M)
    (iv : LiveInterval) : Prop where
  value : iv.value = ⟨i⟩
  /-- Every access of the value and of its views lies in the interval. -/
  covers : ∀ e ∈ schedule.uses, UsesRoot schedule.values e.2 i → iv.contains e.1 = true
  output : ∀ o ∈ schedule.outputs, OutputOf schedule.values o i →
    iv.stop.index = schedule.instructions.length
  /-- The interval of a planned value starts at its first write, and no read comes before. -/
  planned : v.storage.isPlanned = true →
    IsLeast (accesses schedule ValueAccess.writes i) iv.start.index ∧
      ∀ k ∈ accesses schedule ValueAccess.reads i, iv.start.index ≤ k
  /-- That of any value starts at its first access. -/
  first : IsLeast (accesses schedule (fun _ => true) i) iv.start.index
  /-- No smaller interval would do. -/
  smallest : ∀ start stop, (∀ e ∈ schedule.uses, UsesRoot schedule.values e.2 i →
      start ≤ e.1.index ∧ e.1.index < stop) →
    (∀ o ∈ schedule.outputs, OutputOf schedule.values o i →
      schedule.instructions.length ≤ stop) →
    start ≤ iv.start.index ∧ iv.stop.index ≤ stop

/-- What a finished analysis says of every entry of the value table. -/
structure LivenessExact (schedule : LoweredProgram K M) (liveness : Liveness) : Prop where
  length : liveness.intervals.length = schedule.values.length
  view : ∀ (i : Nat) v, schedule.values[i]? = some v → v.storage.isAlias = true →
    liveness.intervals[i]? = some none
  accessed : ∀ (i : Nat) v, schedule.values[i]? = some v → v.storage.isAlias = false →
    ((∃ iv, liveness.intervals[i]? = some (some iv)) ↔
      ∃ e ∈ schedule.uses, UsesRoot schedule.values e.2 i)
  exact : ∀ (i : Nat) v iv, schedule.values[i]? = some v →
    liveness.intervals[i]? = some (some iv) → IntervalExact schedule i v iv

/-- Every interval that the analysis returns is exact. -/
theorem analyzeLiveness_exact {schedule : LoweredProgram K M} {liveness : Liveness}
    (h : analyzeLiveness schedule = .ok liveness) : LivenessExact schedule liveness := by
  have hsound := analyzeLiveness_sound h
  unfold analyzeLiveness at h
  simp only [bind_ok, Except.ok.injEq] at h
  obtain ⟨_, hvalid, aliases, haliases, t, ht, last, hlast, intervals, hiv, rfl⟩ := h
  have hw := hsound.well_formed
  obtain ⟨halen, hchain⟩ := normalizeAliases_chain haliases
  have hroots : ∀ (i : Nat) a, aliases[i]? = some a → a.root.index < schedule.values.length :=
    fun i a ha => (hchain i a ha).root_lt hw.values_dense
  obtain ⟨hrec, -⟩ := tables_tabulated hroots (tables_recorded hw ht) hlast
  have hused : LastUsed aliases schedule.uses t.lastAccess :=
    foldlM_invariant (fun done (t : AccessTables) => LastUsed aliases done t.lastAccess) _
      (fun _ _ _ _ _ _ inv hstep => recordUse_lastUsed inv hstep)
      (fun r l hl => by
        rw [List.getElem?_replicate] at hl
        split at hl <;> cases hl) ht
  have hexact : LastExact schedule aliases schedule.outputs last :=
    foldlM_invariant (fun done last => LastExact schedule aliases done last) _
      (fun _ _ _ _ _ _ inv hstep => recordOutput_lastExact inv hstep)
      (fun r l hl => .inl (hused r l hl)) hlast
  have hroot : ∀ e ∈ schedule.uses, ∀ i, rootOf aliases e.2 = some i ↔
      UsesRoot schedule.values e.2 i :=
    fun e he i => rootOf_iff halen hchain (hw.use_bounds he).2
  have hsorted := hw.uses_sorted
  obtain ⟨hilen, hget⟩ := mapM_ok.mp hiv
  rw [length_zipIdx] at hilen
  have hentry : ∀ (i : Nat) v, schedule.values[i]? = some v → ∃ o, intervals[i]? = some o ∧
      intervalOf { t with lastAccess := last } (v, i) = .ok o :=
    fun i v hv => hget i (v, i) (by rw [List.getElem?_zipIdx, hv]; simp)
  have hexactOf : ∀ (i : Nat) v iv, schedule.values[i]? = some v →
      intervals[i]? = some (some iv) → IntervalExact schedule i v iv := by
    intro i v iv hv hi
    have hlt := (List.getElem?_eq_some_iff.mp hv).1
    obtain ⟨o, ho, hf⟩ := hentry i v hv
    rw [hi] at ho
    obtain rfl := some.inj ho
    obtain ⟨start, l, hfirst, hread, hwrite, hl, rfl, hplanned⟩ := intervalOf_some hf
    obtain ⟨e, he, hk, hre⟩ := hrec.first_mem hsorted hlt hfirst
    have hstart := hrec.first_le hsorted hlt hread hwrite
    have hleast : IsLeast (accesses schedule (fun _ => true) i) start :=
      ⟨⟨e, he, hk, rfl, (hroot e he i).mp hre⟩, fun k ⟨e', he', hk', _, hu⟩ =>
        hk' ▸ hstart e' he' ((hroot e' he' i).mpr hu)⟩
    refine ⟨(hw.values_dense i v hv).1, fun e' he' hu => ?_, fun o ho ⟨offset, hc⟩ => ?_,
      fun hp => ?_, hleast, fun a b hcover hend => ⟨?_, ?_⟩⟩
    · obtain ⟨iv, hiv', hcontains⟩ := hsound.use_covered e' he' i ((hroot e' he' i).mpr hu)
      rw [hi] at hiv'
      obtain rfl := some.inj (some.inj hiv')
      exact hcontains
    · have hoa := List.getElem?_eq_getElem (halen ▸ hw.outputs_known o ho)
      obtain ⟨hri, -⟩ := hc.unique (hchain _ _ hoa)
      refine hsound.output_covered o ho _ _ hoa ?_
      rw [← hri]
      exact hi
    · cases hs : v.storage with
      | fixed c l =>
        rw [hs] at hp
        cases hp
      | aliasOf s o =>
        rw [hs] at hp
        cases hp
      | planned c alignment m o =>
        obtain ⟨-, hfw⟩ := hplanned c alignment m o hs
        rw [hrec.writes i hlt] at hfw
        obtain ⟨⟨ew, hew, hkw, haccw, hrw⟩, hlew⟩ := firstUse_some hsorted hfw
        refine ⟨⟨⟨ew, hew, hkw, haccw, (hroot ew hew i).mp hrw⟩, fun k ⟨e', he', hk', hacc, hu⟩ =>
          hk' ▸ hlew e' he' hacc ((hroot e' he' i).mpr hu)⟩, fun k ⟨e', he', hk', hacc, hu⟩ => ?_⟩
        exact hk' ▸ hstart e' he' ((hroot e' he' i).mpr hu)
    · exact hk ▸ (hcover e he ((hroot e he i).mp hre)).1
    · have hl : last[i]? = some (some l) := join_eq_some_iff.mp hl
      rcases hexact i l hl with ⟨e', he', hre', rfl⟩ | ⟨o, ho, a, ha, rfl, hlen⟩
      · exact (hcover e' he' ((hroot e' he' i).mp hre')).2
      · exact hlen ▸ hend o ho ⟨_, hchain _ a ha⟩
  refine ⟨hilen.symm, fun i v hv halias => ?_, fun i v hv howner => ⟨?_, ?_⟩, hexactOf⟩
  · obtain ⟨o, ho, hf⟩ := hentry i v hv
    cases hs : v.storage with
    | aliasOf s off =>
      have hnone : intervalOf { t with lastAccess := last } (v, i) = .ok none := by
        simp only [intervalOf, hs]
      obtain rfl := Except.ok.inj (hf.symm.trans hnone)
      exact ho
    | fixed c l =>
      rw [hs] at halias
      cases halias
    | planned c alignment m o =>
      rw [hs] at halias
      cases halias
  · rintro ⟨iv, hi⟩
    obtain ⟨e, he, -, -, hu⟩ := (hexactOf i v iv hv hi).first.1
    exact ⟨e, he, hu⟩
  · rintro ⟨e, he, hu⟩
    obtain ⟨iv, hi, -⟩ := hsound.use_covered e he i ((hroot e he i).mpr hu)
    exact ⟨iv, hi⟩

theorem reuseProgram_liveness : ∃ liveness, analyzeLiveness reuseProgram = .ok liveness ∧
    LivenessExact reuseProgram liveness := by
  have hok : (analyzeLiveness reuseProgram).toBool = true := by decide +kernel
  cases hl : analyzeLiveness reuseProgram with
  | error e =>
    rw [hl] at hok
    cases hok
  | ok liveness => exact ⟨liveness, rfl, analyzeLiveness_exact hl⟩

/-- The input of the program is live from its first read, and nothing writes it. -/
theorem reuseProgram_input : ∃ liveness, analyzeLiveness reuseProgram = .ok liveness ∧
    liveness.intervals[0]? = some (some ⟨⟨0⟩, ⟨0⟩, ⟨1⟩⟩) ∧
    ∀ e ∈ reuseProgram.uses, rootOf liveness.aliases e.2 = some 0 → e.2.access.writes = false := by
  have hok : (analyzeLiveness reuseProgram).toOption.any (fun liveness =>
      liveness.intervals[0]? = some (some ⟨⟨0⟩, ⟨0⟩, ⟨1⟩⟩) ∧
        ∀ e ∈ reuseProgram.uses, rootOf liveness.aliases e.2 = some 0 →
          e.2.access.writes = false) = true := by
    decide +kernel
  cases hl : analyzeLiveness reuseProgram with
  | error e =>
    rw [hl] at hok
    cases hok
  | ok liveness =>
    rw [hl] at hok
    exact ⟨liveness, rfl, of_decide_eq_true hok⟩

end Exact

end EffectTorch
