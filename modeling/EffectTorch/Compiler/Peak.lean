import EffectTorch.Compiler.PlanTotal
import Mathlib

/-!
# The peak of the report

Results:
1. `tally_tallied`, `sweep_peak`: a tally and a sweep that return have counted every interval
   once, and the peak is the greatest number of bytes alive at one instruction.
2. `sweep_never_overflows`: both return when all planned bytes together fit.
3. `planMemory_peak`: the peak of a plan is exact and within its segments.
-/

namespace EffectTorch
open List Option Lib

set_option linter.unusedSectionVars false

section Peak

variable {K M : Type} [DecidableEq M]

/-! ## The tally -/

theorem addAt_ok {table table' : List Nat} {index amount n : Nat} {f : Nat → Nat}
    (h : ∀ k, k < n → table[k]? = some (f k)) (hadd : addAt table index amount = .ok table')
    (k : Nat) (hk : k < n) : table'[k]? = some (f k + if index = k then amount else 0) := by
  unfold addAt addBytes at hadd
  simp only [bind_ok, expect_ok, okOr_ok, checkedAdd_some] at hadd
  obtain ⟨current, hcurrent, sum, ⟨_, rfl⟩, hset⟩ := hadd
  obtain rfl := Except.ok.inj hset
  by_cases hindex : index = k
  · subst hindex
    rw [if_pos rfl, getElem?_set_self_some hcurrent]
    rw [h index hk] at hcurrent
    rw [some.inj hcurrent]
  · rw [if_neg hindex, List.getElem?_set_ne hindex, h k hk, Nat.add_zero]

theorem tallyValue_tallied {n : Nat} {done : List (ValueDecl M × Option LiveInterval)}
    {e : ValueDecl M × Option LiveInterval} {tables tables' : List Nat × List Nat}
    (inv : Tallied n done tables) (h : tallyValue tables e = .ok tables') :
    Tallied n (done ++ [e]) tables' := by
  unfold tallyValue at h
  split at h
  · next hp =>
    obtain ⟨interval, hinterval, h⟩ := bind_ok.mp h
    obtain ⟨starts, hstarts, h⟩ := bind_ok.mp h
    obtain ⟨ends, hends, h⟩ := bind_ok.mp h
    obtain rfl := Except.ok.inj h
    have hinterval := expect_ok.mp hinterval
    constructor
    · intro k hk
      rw [weights_snoc, weight_at hp hinterval]
      exact addAt_ok inv.starts hstarts k hk
    · intro k hk
      rw [weights_snoc, weight_at hp hinterval]
      exact addAt_ok inv.ends hends k hk
  · next hp =>
    obtain rfl := Except.ok.inj h
    have hzero : ∀ p, weight p e = 0 := fun p => by rw [weight, if_neg hp]
    constructor
    · intro k hk
      rw [weights_snoc, hzero, Nat.add_zero]
      exact inv.starts k hk
    · intro k hk
      rw [weights_snoc, hzero, Nat.add_zero]
      exact inv.ends k hk

theorem tally_tallied {n : Nat} {entries : List (ValueDecl M × Option LiveInterval)}
    {tables : List Nat × List Nat}
    (h : entries.foldlM tallyValue (List.replicate (n + 1) 0, List.replicate (n + 1) 0) =
      .ok tables) : Tallied n entries tables := by
  refine foldlM_invariant (fun done tables => Tallied n done tables) entries
    (fun _ _ _ _ _ _ inv hstep => tallyValue_tallied inv hstep) ?_ h
  constructor <;> intro k hk <;> simp [hk, weights]

/-! ## The sweep -/

/-- The sweep carries the live bytes from one instruction to the next, and its peak is the
greatest of them. -/
theorem sweep_peak {entries : List (ValueDecl M × Option LiveInterval)} {n : Nat}
    {tables : List Nat × List Nat} {live peak : Nat} (ho : Opened entries)
    (ht : Tallied n entries tables)
    (h : (List.range n).foldlM (sweepInstruction tables.1 tables.2) (0, 0) = .ok (live, peak)) :
    peak = (Finset.range n).sup (liveBytes entries) := by
  have hinv := foldlM_invariant (fun done (counters : Nat × Nat) =>
    counters.1 = carriedBytes entries done.length ∧
      counters.2 = (Finset.range done.length).sup (liveBytes entries)) (List.range n) ?_
    ⟨(carried_zero entries).symm, rfl⟩ h
  · have hpeak : peak = _ := hinv.2
    rw [hpeak, length_range]
  · rintro done k rest ⟨live, peak⟩ ⟨live', peak'⟩ hsplit ⟨hcarried, hpeak⟩ hstep
    dsimp only at hcarried hpeak
    obtain ⟨rfl, hk⟩ := range_eq_length hsplit
    unfold sweepInstruction addBytes at hstep
    simp only [ht.ends done.length (Nat.lt_succ_of_lt hk),
      ht.starts done.length (Nat.lt_succ_of_lt hk), expect_some, ok_bind, bind_ok, okOr_ok,
      checkedAdd_some] at hstep
    obtain ⟨left, hleft, sum, ⟨_, rfl⟩, hstep⟩ := hstep
    obtain ⟨rfl, rfl⟩ := Prod.mk.inj (Except.ok.inj hstep)
    obtain ⟨kept, hbefore, hafter⟩ := carried_split ho done.length
    have hkept : left = kept := by
      rw [hcarried, hbefore, checkedSub_of_le (Nat.le_add_right _ _), Nat.add_sub_cancel_left]
        at hleft
      exact (some.inj hleft).symm
    have hlive : left + weights (fun iv => iv.start.index == done.length) entries =
        liveBytes entries done.length := by rw [hkept, hafter]
    rw [length_append, length_singleton, carried_succ, Finset.range_add_one,
      Finset.sup_insert, hlive, hpeak]
    exact ⟨rfl, Nat.max_comm _ _⟩

/-- Neither the tally nor the sweep overflows when all planned bytes together fit. -/
theorem sweep_never_overflows {schedule : LoweredProgram K M} {liveness : Liveness}
    (h : analyzeLiveness schedule = .ok liveness)
    (hfit : weights (fun _ => true) (schedule.values.zip liveness.intervals) ≤ usizeMax) :
    ∃ tables counters,
      (schedule.values.zip liveness.intervals).foldlM tallyValue
        (List.replicate (schedule.instructions.length + 1) 0,
          List.replicate (schedule.instructions.length + 1) 0) = .ok tables ∧
      (List.range schedule.instructions.length).foldlM
        (sweepInstruction tables.1 tables.2) (0, 0) = .ok counters := by
  have hls := analyzeLiveness_sound h
  obtain ⟨tables, htally, ht⟩ := tally_total (n := schedule.instructions.length)
    (schedule.values.zip liveness.intervals) (hls.entries_planned) hfit
  obtain ⟨counters, hsweep, -⟩ := sweep_total usizeMax hls.entries_opened ht (Nat.le_refl _)
    fun k _ => Nat.le_trans (weights_le _ _) hfit
  exact ⟨tables, counters, htally, hsweep⟩

/-! ## Plans -/

theorem reportValue_peak {report report' : MemoryReport} {value : ValueDecl M}
    (h : reportValue report value = .ok report') :
    report'.peakLiveBytes = report.peakLiveBytes := by
  unfold reportValue at h
  split at h
  · unfold addFixedBytes at h
    split at h <;>
      obtain ⟨_, _, h⟩ := bind_ok.mp h <;> exact Except.ok.inj h ▸ rfl
  · exact Except.ok.inj h ▸ rfl

theorem reportSegment_peak {report report' : MemoryReport} {segment : SegmentDecl M}
    (h : reportSegment report segment = .ok report') :
    report'.peakLiveBytes = report.peakLiveBytes := by
  unfold reportSegment at h
  split at h <;>
    obtain ⟨_, _, h⟩ := bind_ok.mp h <;> exact Except.ok.inj h ▸ rfl

theorem checkedSegmentBytes_some {segments : List (SegmentDecl M)} {total : Nat}
    (h : MemoryPlan.checkedSegmentBytes segments = some total) :
    total = (segments.map SegmentDecl.bytes).sum := by
  suffices H : ∀ (l : List (SegmentDecl M)) (from_ total : Nat),
      l.foldlM (fun total segment => checkedAdd total segment.bytes) from_ = some total →
      total = from_ + (l.map SegmentDecl.bytes).sum by
    rw [H segments 0 total h, Nat.zero_add]
  intro l
  induction l with
  | nil =>
    intro from_ total h
    exact (some.inj h).symm
  | cons segment l ih =>
    intro from_ total h
    rw [foldlM_cons] at h
    obtain ⟨sum, hsum, h⟩ := bind_eq_some_iff.mp h
    obtain ⟨-, rfl⟩ := checkedAdd_some.mp hsum
    rw [ih _ _ h, map_cons, sum_cons, Nat.add_assoc]

theorem buildReport_peak {schedule : LoweredProgram K M} {liveness : Liveness}
    {segments : List (SegmentDecl M)} {largest : Nat} {report : MemoryReport}
    (hls : LivenessSound schedule liveness)
    (h : buildReport schedule liveness segments largest = .ok report) :
    report.peakLiveBytes = (Finset.range schedule.instructions.length).sup
        (liveBytes (schedule.values.zip liveness.intervals)) ∧
      report.peakLiveBytes ≤ (segments.map SegmentDecl.bytes).sum := by
  unfold buildReport at h
  obtain ⟨report₁, hvalues, h⟩ := bind_ok.mp h
  obtain ⟨report₂, hsegments, h⟩ := bind_ok.mp h
  obtain ⟨⟨starts, ends⟩, htally, h⟩ := bind_ok.mp h
  obtain ⟨⟨live, peak⟩, hsweep, h⟩ := bind_ok.mp h
  obtain ⟨total, htotal, h⟩ := bind_ok.mp h
  obtain ⟨overhead, hoverhead, h⟩ := bind_ok.mp h
  obtain rfl := Except.ok.inj h
  have hzero : report₂.peakLiveBytes = 0 := by
    have hfirst := foldlM_invariant (fun _ (report : MemoryReport) => report.peakLiveBytes = 0) _
      (fun _ _ _ _ _ _ inv hstep => (reportValue_peak hstep).trans inv) rfl hvalues
    exact foldlM_invariant (fun _ (report : MemoryReport) => report.peakLiveBytes = 0) _
      (fun _ _ _ _ _ _ inv hstep => (reportSegment_peak hstep).trans inv) hfirst hsegments
  rw [hzero] at hsweep
  refine ⟨sweep_peak hls.entries_opened (tally_tallied htally) hsweep, ?_⟩
  obtain rfl := checkedSegmentBytes_some (okOr_ok.mp htotal)
  have hsub := okOr_ok.mp hoverhead
  unfold checkedSub at hsub
  split at hsub
  · next hle => exact hle
  · cases hsub

end Peak

section Plans

variable {K M : Type} [DecidableEq M]

/-- The peak of a plan is the greatest number of bytes that planned values occupy at one
instruction, and it is within the segments; the sweep that finds it never overflows when the
bytes of all planned values together fit. -/
theorem planMemory_peak {schedule : LoweredProgram K M} {config : MemoryPlannerConfig M} :
    (∀ plan, planMemory schedule config = .ok plan → ∃ liveness,
      analyzeLiveness schedule = .ok liveness ∧
      plan.report.peakLiveBytes = (Finset.range schedule.instructions.length).sup
        (liveBytes (schedule.values.zip liveness.intervals)) ∧
      plan.report.peakLiveBytes ≤ (plan.segments.map SegmentDecl.bytes).sum) ∧
    ∀ liveness, analyzeLiveness schedule = .ok liveness →
      weights (fun _ => true) (schedule.values.zip liveness.intervals) ≤ usizeMax →
      ∃ tables counters,
        (schedule.values.zip liveness.intervals).foldlM tallyValue
          (List.replicate (schedule.instructions.length + 1) 0,
            List.replicate (schedule.instructions.length + 1) 0) = .ok tables ∧
        (List.range schedule.instructions.length).foldlM
          (sweepInstruction tables.1 tables.2) (0, 0) = .ok counters := by
  refine ⟨fun plan h => ?_, fun liveness => sweep_never_overflows⟩
  unfold planMemory planMemoryWithLiveness at h
  simp only [bind_ok] at h
  obtain ⟨liveness, hl, _, _, order, _, packed, _, segments, _, edges, _, locations, _, outputs, _,
    report, hr, h⟩ := h
  obtain ⟨rfl, -⟩ := validated_ok h
  exact ⟨liveness, hl, buildReport_peak (analyzeLiveness_sound hl) hr⟩

end Plans

/-- An input of eight bytes, read to compute a value of one byte. -/
def inputProgram : LoweredProgram String Unit where
  values := [⟨⟨0⟩, "input", 8, .fixed .externalInput (.external 0)⟩,
    .planned ⟨1⟩ "a" 1 1 () .workspace]
  instructions := [{ id := ⟨0⟩, kind := "copy", inputs := [.read ⟨0⟩], outputs := [⟨⟨1⟩⟩] }]
  outputs := [⟨1⟩]

/-- The input is live at the only instruction and does not count. -/
theorem inputProgram_peak : ∃ plan liveness, planMemory inputProgram reuseConfig = .ok plan ∧
    analyzeLiveness inputProgram = .ok liveness ∧ plan.report.peakLiveBytes = 1 ∧
    ((inputProgram.values.zip liveness.intervals).map fun e =>
      if e.2.any (·.contains ⟨0⟩) then e.1.bytes else 0).sum = 9 := by
  have hpeak : (planMemory inputProgram reuseConfig).toOption.any (fun plan =>
      plan.report.peakLiveBytes = 1) = true := by
    decide +kernel
  have hlive : (analyzeLiveness inputProgram).toOption.any (fun liveness =>
      ((inputProgram.values.zip liveness.intervals).map fun e =>
        if e.2.any (·.contains ⟨0⟩) then e.1.bytes else 0).sum = 9) = true := by
    decide +kernel
  cases hp : planMemory inputProgram reuseConfig with
  | error e =>
    rw [hp] at hpeak
    cases hpeak
  | ok plan =>
    cases hl : analyzeLiveness inputProgram with
    | error e =>
      rw [hl] at hlive
      cases hlive
    | ok liveness =>
      rw [hp] at hpeak
      rw [hl] at hlive
      exact ⟨plan, liveness, rfl, rfl, of_decide_eq_true hpeak, of_decide_eq_true hlive⟩

theorem reuseProgram_peak : ∃ plan liveness, planMemory reuseProgram reuseConfig = .ok plan ∧
    analyzeLiveness reuseProgram = .ok liveness ∧
    plan.report.peakLiveBytes = (Finset.range 3).sup
      (liveBytes (reuseProgram.values.zip liveness.intervals)) := by
  obtain ⟨plan, hplan, _⟩ := reuseProgram_plan
  obtain ⟨liveness, hl, hpeak, _⟩ := planMemory_peak.1 plan hplan
  exact ⟨plan, liveness, hplan, hl, hpeak⟩

end EffectTorch
