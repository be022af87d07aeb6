import EffectTorch.Compiler.Plan
import Mathlib.Algebra.BigOperators.Fin
import Mathlib.Algebra.Order.BigOperators.Group.List

/-!
# When planning succeeds

Every program whose tables are well formed, whose spaces can hold its values and
whose padded total fits `usize` gets a plan, with one exception: a value may be
placed across a live value of zero bytes, and the final scan then reports a
packing conflict.

Results:
1. `peak_le`: values alive together fit in the segments at the same time, so the
   packing overhead never underflows.
2. `buildReport_total` and `validate_total`: neither the report nor the
   validation stops on a packed program.
3. `planMemory_ok_iff`: under the premises the planner returns a plan exactly when
   every planned value is written and no turn covers a live empty value.
-/

set_option linter.unusedSectionVars false

namespace EffectTorch
open List Lib

section Total

variable {K M : Type} [DecidableEq M]

/-! ## Live bytes -/

/-- The bytes of a planned value whose interval satisfies `p`. -/
def weight (p : LiveInterval → Bool) (entry : ValueDecl M × Option LiveInterval) : Nat :=
  if entry.1.storage.isPlanned then
    match entry.2 with
    | some interval => if p interval then entry.1.bytes else 0
    | none => 0
  else 0

/-- Total bytes of the planned values whose intervals satisfy `p`. -/
def weights (p : LiveInterval → Bool) (entries : List (ValueDecl M × Option LiveInterval)) : Nat :=
  (entries.map (weight p)).sum

/-- The intervals of a table are not empty. -/
def Opened (entries : List (ValueDecl M × Option LiveInterval)) : Prop :=
  ∀ e ∈ entries, ∀ iv, e.2 = some iv → iv.start.index < iv.stop.index

theorem weights_snoc (p : LiveInterval → Bool) (done : List (ValueDecl M × Option LiveInterval))
    (e : ValueDecl M × Option LiveInterval) : weights p (done ++ [e]) = weights p done + weight p e := by
  simp [weights]

variable {entries : List (ValueDecl M × Option LiveInterval)}
  {e : ValueDecl M × Option LiveInterval} {n : Nat} {α : Type} {config : MemoryPlannerConfig M}
  {liveness : Liveness} {order : List Nat} {segments : List (SegmentDecl M)}
  {schedule : LoweredProgram K M}

/-- Weights add up when the intervals split. -/
theorem weights_add {p q r : LiveInterval → Bool} (h : ∀ e ∈ entries, weight p e = weight q e + weight r e) :
    weights p entries = weights q entries + weights r entries := by
  induction entries with
  | nil => rfl
  | cons e entries ih =>
    have h1 := h e mem_cons_self
    have h2 := ih fun e' he' => h e' (mem_cons_of_mem _ he')
    unfold weights at *
    simp only [map_cons, sum_cons]
    omega

theorem weight_add {p q r : LiveInterval → Bool}
    (h : ∀ iv, e.2 = some iv → (p iv = true ↔ q iv = true ∨ r iv = true) ∧ ¬ (q iv = true ∧ r iv = true)) :
    weight p e = weight q e + weight r e := by
  unfold weight
  split
  · cases he : e.2 with
    | none => rfl
    | some iv =>
      obtain ⟨h1, h2⟩ := h iv he
      cases hp : p iv <;> cases hq : q iv <;> cases hr : r iv <;> simp_all
  · rfl

theorem weight_le (p : LiveInterval → Bool) (e : ValueDecl M × Option LiveInterval) :
    weight p e ≤ weight (fun _ => true) e := by
  unfold weight
  split
  · cases e.2 with
    | none => exact Nat.le_refl _
    | some iv =>
      dsimp only
      split
      · exact Nat.le_refl _
      · exact Nat.zero_le _
  · exact Nat.le_refl _

theorem weights_le (p : LiveInterval → Bool) (entries : List (ValueDecl M × Option LiveInterval)) :
    weights p entries ≤ weights (fun _ => true) entries :=
  sum_le_sum fun e _ => weight_le p e

/-! ## The tally of starts and ends -/

/-- The tables after the values `done`. -/
structure Tallied (n : Nat) (done : List (ValueDecl M × Option LiveInterval))
    (tables : List Nat × List Nat) : Prop where
  starts : ∀ k, k < n + 1 → tables.1[k]? = some (weights (fun iv => iv.start.index == k) done)
  ends : ∀ k, k < n + 1 → tables.2[k]? = some (weights (fun iv => iv.stop.index == k) done)

theorem addAt_spec {table : List Nat} {index amount : Nat} {f : Nat → Nat}
    (h : ∀ k, k < n → table[k]? = some (f k)) (hi : index < n) (hfit : f index + amount ≤ usizeMax) :
    ∃ table', addAt table index amount = .ok table' ∧
      ∀ k, k < n → table'[k]? = some (f k + if index = k then amount else 0) := by
  refine ⟨table.set index (f index + amount), ?_, fun k hk => ?_⟩
  · unfold addAt addBytes
    simp only [h index hi, expect_some, ok_bind, checkedAdd_of_le hfit, okOr_some]
  · have hlen : index < table.length := (List.getElem?_eq_some_iff.mp (h index hi)).1
    by_cases hk' : index = k
    · subst hk'
      rw [if_pos rfl, List.getElem?_set_self hlen]
    · rw [if_neg hk', List.getElem?_set_ne hk', h k hk, Nat.add_zero]

theorem weight_at {p : LiveInterval → Nat} {iv : LiveInterval} (hp : e.1.storage.isPlanned = true)
    (he : e.2 = some iv) (k : Nat) : weight (fun iv => p iv == k) e = if p iv = k then e.1.bytes else 0 := by
  unfold weight
  rw [if_pos hp, he]
  simp

/-- The tally finishes when the planned bytes fit `usize`. -/
theorem tally_total (entries : List (ValueDecl M × Option LiveInterval))
    (hplanned : ∀ e ∈ entries, e.1.storage.isPlanned = true → ∃ iv, e.2 = some iv ∧ iv.start.index < n + 1 ∧ iv.stop.index < n + 1)
    (hfit : weights (fun _ => true) entries ≤ usizeMax) :
    ∃ tables, entries.foldlM tallyValue (List.replicate (n + 1) 0, List.replicate (n + 1) 0) =
      .ok tables ∧ Tallied n entries tables := by
  refine foldlM_total (fun done tables => Tallied n done tables) entries ?_ _ ?_
  · intro done e rest tables hl inv
    cases hp : e.1.storage.isPlanned with
    | false =>
      have hzero : ∀ p : LiveInterval → Bool, weight p e = 0 := fun p => by simp [weight, hp]
      refine ⟨tables, by simp [tallyValue, hp], fun k hk => ?_, fun k hk => ?_⟩
      · rw [weights_snoc, hzero, Nat.add_zero]
        exact inv.starts k hk
      · rw [weights_snoc, hzero, Nat.add_zero]
        exact inv.ends k hk
    | true =>
      obtain ⟨iv, hiv, hs, ht⟩ := hplanned e (by rw [hl]; simp) hp
      have hroom : ∀ p : LiveInterval → Bool, weights p done + e.1.bytes ≤ usizeMax := by
        intro p
        have h1 := weights_le p done
        have h2 : weight (fun _ => true) e = e.1.bytes := by simp [weight, hp, hiv]
        have h3 : weights (fun _ => true) entries = weights (fun _ => true) done +
            (weight (fun _ => true) e + weights (fun _ => true) rest) := by
          rw [hl]
          simp [weights]
        omega
      obtain ⟨starts, hstarts, hs'⟩ := addAt_spec inv.starts hs (hroom _)
      obtain ⟨ends, hends, ht'⟩ := addAt_spec inv.ends ht (hroom _)
      refine ⟨(starts, ends), by simp [tallyValue, hp, hiv, hstarts, hends], fun k hk => ?_,
        fun k hk => ?_⟩
      · rw [weights_snoc, weight_at (p := fun iv => iv.start.index) hp hiv]
        exact hs' k hk
      · rw [weights_snoc, weight_at (p := fun iv => iv.stop.index) hp hiv]
        exact ht' k hk
  · constructor <;> intro k hk <;> simp [hk, weights]

/-! ## The sweep -/

/-- The bytes alive at instruction `k`. -/
def liveBytes (entries : List (ValueDecl M × Option LiveInterval)) (k : Nat) : Nat :=
  weights (fun iv => iv.contains ⟨k⟩) entries

/-- The bytes that instruction `k` finds alive. -/
def carriedBytes (entries : List (ValueDecl M × Option LiveInterval)) (k : Nat) : Nat :=
  weights (fun iv => decide (iv.start.index < k ∧ k ≤ iv.stop.index)) entries

theorem carried_zero (entries : List (ValueDecl M × Option LiveInterval)) :
    carriedBytes entries 0 = 0 := by
  unfold carriedBytes weights
  refine sum_eq_zero fun x hx => ?_
  obtain ⟨e, _, rfl⟩ := mem_map.mp hx
  unfold weight
  split
  · cases e.2 <;> simp
  · rfl

theorem carried_succ (entries : List (ValueDecl M × Option LiveInterval)) (k : Nat) :
    carriedBytes entries (k + 1) = liveBytes entries k := by
  unfold carriedBytes liveBytes
  congr 1
  funext iv
  simp only [LiveInterval.contains, decide_eq_decide]
  omega

/-- What stops at `k` leaves, what starts at `k` enters. -/
theorem carried_split (ho : Opened entries) (k : Nat) : ∃ kept, carriedBytes entries k =
        weights (fun iv => iv.stop.index == k) entries + kept ∧
      liveBytes entries k = kept + weights (fun iv => iv.start.index == k) entries := by
  refine ⟨weights (fun iv => decide (iv.start.index < k ∧ k < iv.stop.index)) entries, ?_, ?_⟩
  · refine weights_add fun e he => weight_add fun iv hiv => ?_
    have := ho e he iv hiv
    simp only [decide_eq_true_eq, beq_iff_eq]
    omega
  · refine weights_add fun e he => weight_add fun iv hiv => ?_
    have := ho e he iv hiv
    simp only [LiveInterval.contains, decide_eq_true_eq, beq_iff_eq]
    omega

/-- The sweep finishes when live bytes never exceed `limit`, and its peak stays
below. -/
theorem sweep_total (limit : Nat) {tables : List Nat × List Nat} (ho : Opened entries)
    (ht : Tallied n entries tables) (hlimit : limit ≤ usizeMax)
    (hlive : ∀ k, k < n → liveBytes entries k ≤ limit) :
    ∃ counters, (List.range n).foldlM (sweepInstruction tables.1 tables.2) (0, 0) = .ok counters ∧
      counters.2 ≤ limit := by
  refine (foldlM_total (fun done (counters : Nat × Nat) =>
    counters.1 = carriedBytes entries done.length ∧ counters.2 ≤ limit) (List.range n) ?_ (0, 0)
    ⟨(carried_zero entries).symm, Nat.zero_le _⟩).imp fun _ h => ⟨h.1, h.2.2⟩
  rintro done k rest ⟨live, peak⟩ hl ⟨hcarried, hpeak⟩
  dsimp only at hcarried hpeak
  have hk : k = done.length ∧ k < n := by
    have h1 : (List.range n)[done.length]? = some k := by
      rw [hl]
      simp
    obtain ⟨hlt, hget⟩ := List.getElem?_eq_some_iff.mp h1
    rw [getElem_range] at hget
    rw [length_range] at hlt
    omega
  obtain ⟨rfl, hkn⟩ := hk
  obtain ⟨kept, h1, h2⟩ := carried_split ho done.length
  have hle := hlive _ hkn
  have hsub : checkedSub live (weights (fun iv => iv.stop.index == done.length) entries) =
      some kept := by
    rw [checkedSub_of_le (by omega)]
    congr 1
    omega
  have hadd : checkedAdd kept (weights (fun iv => iv.start.index == done.length) entries) =
      some (liveBytes entries done.length) := by
    rw [checkedAdd_of_le (by omega), h2]
  refine ⟨(liveBytes entries done.length, max peak (liveBytes entries done.length)), ?_, ?_, ?_⟩
  · simp only [sweepInstruction, ht.starts done.length (by omega),
      ht.ends done.length (by omega), expect_some, ok_bind,
      hsub, okOr_some, addBytes, hadd]
  · rw [length_append, length_singleton, carried_succ]
  · dsimp only
    omega

/-! ## The peak -/

theorem sum_map_filter {q : α → Bool} {f : α → Nat} :
    ∀ {l : List α}, (∀ a ∈ l, q a = false → f a = 0) → ((l.filter q).map f).sum = (l.map f).sum := by
  intro l
  induction l with
  | nil => exact fun _ => rfl
  | cons a l ih =>
    intro h
    have ih := ih fun b hb => h b (mem_cons_of_mem _ hb)
    cases hq : q a with
    | true => simp [hq, ih]
    | false => simp [hq, ih, h a mem_cons_self hq]

/-- The weight of table entry `i`. -/
def weightAt (values : List (ValueDecl M)) (liveness : Liveness) (p : LiveInterval → Bool)
    (i : Nat) : Nat :=
  match values[i]?, liveness.intervals[i]? with
  | some v, some interval => weight p (v, interval)
  | _, _ => 0

/-- The weights of the value table are the weights of the assignments. -/
theorem PackInv.weights_eq {packed : PackState M} {values : List (ValueDecl M)} (hlen : liveness.intervals.length = values.length)
    (ho : StartOrder values liveness order) (inv : PackInv values config liveness order packed)
    (p : LiveInterval → Bool) :
    weights p (values.zip liveness.intervals) =
      (packed.assignments.map fun a => if p a.interval then a.bytes else 0).sum := by
  have hentries : (values.zip liveness.intervals).map (weight p) =
      values.zipIdx.map (fun e => weightAt values liveness p e.2) := by
    refine ext_getElem (by simp [hlen]) fun i h1 h2 => ?_
    have hv : i < values.length := by simpa using h2
    have hi : i < liveness.intervals.length := hlen ▸ hv
    simp [weightAt, List.getElem?_eq_getElem hv, List.getElem?_eq_getElem hi]
  have hplanned : ∀ e ∈ values.zipIdx, e.1.storage.isPlanned = false →
      weightAt values liveness p e.2 = 0 := by
    rintro ⟨v, i⟩ hm hp
    have hv := mk_mem_zipIdx_iff_getElem?.mp hm
    unfold weightAt
    rw [hv]
    cases liveness.intervals[i]? with
    | none => rfl
    | some o => exact if_neg (by rw [hp]; decide)
  have hindices : (plannedIndices values).map (weightAt values liveness p) =
      (values.zipIdx.filter fun e => e.1.storage.isPlanned).map
        fun e => weightAt values liveness p e.2 := by
    rw [plannedIndices, map_map]
    rfl
  unfold weights
  rw [hentries, ← sum_map_filter hplanned, ← hindices, ← (ho.perm.map _).sum_eq, ← inv.order,
    map_map]
  congr 1
  refine map_congr_left fun a ha => ?_
  obtain ⟨value, _, he, hb, _⟩ := (inv.assigned a ha).slice
  obtain ⟨v, c, hv, hs, _, hbytes, hi⟩ := plannedEntry_ok.mp he
  have hp : v.storage.isPlanned = true := by rw [hs]; rfl
  simp [weightAt, hv, hi, weight, hp, hbytes, hb]

/-- Values alive together fit into the segments together. -/
theorem peak_le {packed : PackState M} {values : List (ValueDecl M)} (hconfig : ConfigValid config)
    (hlen : liveness.intervals.length = values.length) (ho : StartOrder values liveness order)
    (inv : PackInv values config liveness order packed)
    (hfree : packed.assignments.Pairwise fun a b => ¬ Conflict a b)
    (hsegments : packed.working.mapM segmentDecl = .ok segments) (k : Nat) :
    liveBytes (values.zip liveness.intervals) k ≤ (segments.map SegmentDecl.bytes).sum := by
  obtain ⟨hslen, hget⟩ := mapM_ok.mp hsegments
  have hnodup : packed.assignments.Nodup := by
    have : (packed.assignments.map fun a => a.value.index).Nodup := by
      rw [inv.order]
      exact ho.perm.nodup_iff.mpr (plannedIndices_nodup values)
    exact this.of_map
  have hsym : Std.Symm fun a b : Assignment => ¬ Conflict a b := ⟨fun _ _ h hc => h hc.symm⟩
  let alive := (packed.assignments.filter fun a => a.interval.contains ⟨k⟩).toFinset
  have halive : ∀ a ∈ alive, a ∈ packed.assignments ∧ a.interval.contains ⟨k⟩ = true := by
    intro a ha
    exact mem_filter.mp (mem_toFinset.mp ha)
  have hbytes : ∀ a ∈ alive, ∃ decl, segments[a.segment]? = some decl ∧
      a.offset + a.bytes ≤ decl.bytes := by
    intro a ha
    obtain ⟨_, s, _, _, hs, _, _, _, hend⟩ := (inv.assigned a (halive a ha).1).slice
    obtain ⟨decl, hdecl, hok⟩ := hget a.segment s hs
    have hsok := inv.segments s (mem_of_getElem? hs)
    have hge := (roundUp_ok (hsok.granularity_pos hconfig) (segmentDecl_ok hok).1).1
    exact ⟨decl, hdecl, by omega⟩
  have hsum : liveBytes (values.zip liveness.intervals) k = ∑ a ∈ alive, a.bytes := by
    rw [liveBytes, inv.weights_eq hlen ho]
    rw [sum_toFinset _ (hnodup.filter _)]
    rw [← sum_map_filter (q := fun a : Assignment => a.interval.contains ⟨k⟩)]
    · congr 1
      refine map_congr_left fun a ha => ?_
      rw [if_pos (mem_filter.mp ha).2]
    · intro a _ hq
      rw [hq]
      rfl
  have hseg : ∀ j, ∑ a ∈ alive.filter (fun a => a.segment = j), a.bytes ≤
      ((segments[j]?).map SegmentDecl.bytes).getD 0 := by
    intro j
    have := sum_le_of_disjoint (alive.filter fun a => a.segment = j)
      (fun a => ⟨a.offset, a.offset + a.bytes⟩) (((segments[j]?).map SegmentDecl.bytes).getD 0)
      (fun a ha => ?_) (fun a ha b hb hne x hx => ?_)
    · simpa using this
    · obtain ⟨hmem, rfl⟩ := Finset.mem_filter.mp ha
      obtain ⟨decl, hdecl, hle⟩ := hbytes a hmem
      rw [hdecl]
      exact hle
    · obtain ⟨ha, hja⟩ := Finset.mem_filter.mp ha
      obtain ⟨hb, hjb⟩ := Finset.mem_filter.mp hb
      obtain ⟨hma, hka⟩ := halive a ha
      obtain ⟨hmb, hkb⟩ := halive b hb
      refine hfree.forall hma hmb hne ⟨hja.trans hjb.symm, decide_eq_true ?_,
        LiveInterval.overlaps_of_contains hka hkb⟩
      obtain ⟨⟨h1, h2⟩, h3, h4⟩ := hx
      dsimp only at h1 h2 h3 h4
      omega
  have htotal : (segments.map SegmentDecl.bytes).sum =
      ∑ j ∈ Finset.range segments.length, ((segments[j]?).map SegmentDecl.bytes).getD 0 := by
    rw [← Fin.sum_univ_fun_getElem, Finset.sum_range]
    simp
  rw [hsum, htotal, ← Finset.sum_fiberwise_of_maps_to (s := alive) (t := Finset.range segments.length)
    (g := fun a : Assignment => a.segment)]
  · exact Finset.sum_le_sum fun j _ => hseg j
  · intro a ha
    obtain ⟨decl, hdecl, _⟩ := hbytes a ha
    exact Finset.mem_range.mpr (List.getElem?_eq_some_iff.mp hdecl).1

/-! ## The report -/

/-- Total of the counters that the report adds up. -/
def MemoryReport.total (report : MemoryReport) : Nat :=
  report.externalBytes + report.persistentBytes + report.stateBytes + report.outputBytes +
    report.workspaceBytes + report.transactionBytes

/-- The bytes that a fixed value adds to the report. -/
def fixedBytes (value : ValueDecl M) : Nat :=
  match value.storage with
  | .fixed .. => value.bytes
  | _ => 0

theorem addBytes_total {target amount : Nat} (h : target + amount ≤ usizeMax) :
    addBytes target amount = .ok (target + amount) := by
  unfold addBytes
  rw [checkedAdd_of_le h, okOr_some]

theorem reportValue_total {report : MemoryReport} {value : ValueDecl M}
    (h : report.total + fixedBytes value ≤ usizeMax) :
    ∃ report', reportValue report value = .ok report' ∧
      report'.total = report.total + fixedBytes value ∧
      report'.peakLiveBytes = report.peakLiveBytes := by
  unfold reportValue fixedBytes MemoryReport.total at *
  cases hs : value.storage with
  | planned c a m o => exact ⟨report, rfl, rfl, rfl⟩
  | aliasOf s o => exact ⟨report, rfl, rfl, rfl⟩
  | fixed c l =>
    simp only [hs] at h
    unfold addFixedBytes
    cases c <;> dsimp only <;> rw [addBytes_total (by omega)] <;>
      exact ⟨_, rfl, by dsimp only; omega, rfl⟩

theorem reportSegment_total {report : MemoryReport} {segment : SegmentDecl M}
    (h : report.total + segment.bytes ≤ usizeMax) :
    ∃ report', reportSegment report segment = .ok report' ∧
      report'.total = report.total + segment.bytes ∧
      report'.peakLiveBytes = report.peakLiveBytes := by
  unfold reportSegment MemoryReport.total at *
  cases segment.ownership <;> dsimp only <;> rw [addBytes_total (by omega)] <;>
    exact ⟨_, rfl, by dsimp only; omega, rfl⟩

/-- A loop that adds each item's share to the report finishes when the sum fits. -/
theorem reportLoop_total {f : MemoryReport → α → Fallible PlannerError MemoryReport} (share : α → Nat)
    (hstep : ∀ report a, report.total + share a ≤ usizeMax → ∃ report', f report a = .ok report' ∧ report'.total = report.total + share a ∧ report'.peakLiveBytes = report.peakLiveBytes)
    (l : List α) (report : MemoryReport) (h : report.total + (l.map share).sum ≤ usizeMax) :
    ∃ report', l.foldlM f report = .ok report' ∧
      report'.total = report.total + (l.map share).sum ∧
      report'.peakLiveBytes = report.peakLiveBytes := by
  refine foldlM_total (fun done (r : MemoryReport) => r.total = report.total + (done.map share).sum ∧
    r.peakLiveBytes = report.peakLiveBytes) l ?_ report ⟨by simp, rfl⟩
  rintro done a rest r hl ⟨htotal, hpeak⟩
  have hsum : (l.map share).sum = (done.map share).sum + (share a + (rest.map share).sum) := by
    rw [hl]
    simp
  obtain ⟨r', hr, ht, hp⟩ := hstep r a (by omega)
  exact ⟨r', hr, by simp only [map_append, map_cons, map_nil, sum_append,
    sum_cons, sum_nil]; omega, hp.trans hpeak⟩

theorem checkedSegmentBytes_total (segments : List (SegmentDecl M))
    (h : (segments.map SegmentDecl.bytes).sum ≤ usizeMax) :
    MemoryPlan.checkedSegmentBytes segments = some (segments.map SegmentDecl.bytes).sum := by
  suffices H : ∀ (l : List (SegmentDecl M)) (total : Nat),
      total + (l.map SegmentDecl.bytes).sum ≤ usizeMax →
      l.foldlM (fun total segment => checkedAdd total segment.bytes) total =
        some (total + (l.map SegmentDecl.bytes).sum) by
    have := H segments 0 (by omega)
    rwa [Nat.zero_add] at this
  intro l
  induction l with
  | nil => exact fun total _ => rfl
  | cons s l ih =>
    intro total h
    simp only [map_cons, sum_cons] at h ⊢
    rw [foldlM_cons, checkedAdd_of_le (by omega)]
    rw [← Nat.add_assoc]
    exact ih (total + s.bytes) (by omega)

/-- Each entry of the zipped tables is one entry of both. -/
theorem LivenessSound.entry (he : e ∈ schedule.values.zip liveness.intervals) :
    ∃ i : Nat, schedule.values[i]? = some e.1 ∧ liveness.intervals[i]? = some e.2 := by
  obtain ⟨i, hi⟩ := mem_iff_getElem?.mp he
  exact ⟨i, List.getElem?_zip_eq_some.mp hi⟩

theorem LivenessSound.entries_opened (h : LivenessSound schedule liveness) :
    Opened (schedule.values.zip liveness.intervals) := by
  intro e he iv hiv
  obtain ⟨i, _, hi⟩ := LivenessSound.entry he
  exact (h.bounds i iv (by rw [hi, hiv])).2.1

theorem LivenessSound.entries_planned (h : LivenessSound schedule liveness) :
    ∀ e ∈ schedule.values.zip liveness.intervals,
      e.1.storage.isPlanned = true → ∃ iv, e.2 = some iv ∧
        iv.start.index < schedule.instructions.length + 1 ∧
        iv.stop.index < schedule.instructions.length + 1 := by
  intro e he hp
  obtain ⟨i, hv, hi⟩ := LivenessSound.entry he
  obtain ⟨value, iv, hpe⟩ := h.plannedEntry hv hp
  obtain ⟨_, _, _, _, _, _, hiv⟩ := plannedEntry_ok.mp hpe
  rw [hi] at hiv
  have hb := h.bounds i iv (by rw [hi]; exact hiv)
  exact ⟨iv, Option.some.inj hiv, by omega, by omega⟩

/-- The report is built when the bytes it adds up fit `usize`. -/
theorem buildReport_total (largest : Nat) (hls : LivenessSound schedule liveness)
    (hfit : (schedule.values.map fixedBytes).sum + (segments.map SegmentDecl.bytes).sum ≤ usizeMax)
    (hplanned : weights (fun _ => true) (schedule.values.zip liveness.intervals) ≤ usizeMax)
    (hpeak : ∀ k, liveBytes (schedule.values.zip liveness.intervals) k ≤ (segments.map SegmentDecl.bytes).sum) :
    ∃ report, buildReport schedule liveness segments largest = .ok report := by
  have hempty : ({} : MemoryReport).total = 0 := rfl
  obtain ⟨r1, h1, ht1, hp1⟩ := reportLoop_total (f := reportValue (M := M))
    fixedBytes (fun _ _ => reportValue_total) schedule.values {} (by omega)
  obtain ⟨r2, h2, ht2, hp2⟩ := reportLoop_total (f := reportSegment (M := M))
    SegmentDecl.bytes (fun _ _ => reportSegment_total) segments r1
    (by omega)
  obtain ⟨tables, h3, htally⟩ := tally_total (n := schedule.instructions.length)
    (schedule.values.zip liveness.intervals) hls.entries_planned hplanned
  have hsegs := checkedSegmentBytes_total segments (by omega)
  obtain ⟨counters, h4, hle⟩ := sweep_total (segments.map SegmentDecl.bytes).sum hls.entries_opened htally
    (by omega) fun k _ => hpeak k
  have hzero : r2.peakLiveBytes = 0 := hp2.trans hp1
  unfold buildReport
  simp only [h1, h2, h3, h4, hzero, hsegs, ok_bind, okOr_some, checkedSub_of_le hle]
  exact ⟨_, rfl⟩

/-! ## Validation -/

/-- The plan of a packed program passes the runtime's validation. -/
theorem validate_total {plan : MemoryPlan M}
    (halign : ∀ s ∈ plan.segments, isPowerOfTwo s.alignment = true)
    (htotal : (plan.segments.map SegmentDecl.bytes).sum ≤ usizeMax)
    (hinside : ∀ l ∈ plan.locations, ∀ segment offset bytes, l = .segment segment offset bytes →
      ∃ s, plan.segments[segment.index]? = some s ∧ offset + bytes ≤ s.bytes)
    (houtputs : ∀ o ∈ plan.outputs, o.location.index < plan.locations.length) :
    plan.validate = .ok () := by
  unfold MemoryPlan.validate
  simp only [bind_ok, foldlM_check, okOr_ok]
  refine ⟨(), ?_, _, checkedSegmentBytes_total _ htotal, (), ?_, ?_⟩
  · rintro ⟨s, i⟩ hm
    have hp := halign s (mem_of_getElem? (mk_mem_zipIdx_iff_getElem?.mp hm))
    have hpos := isPowerOfTwo_pos hp
    unfold MemoryPlan.validateSegment
    dsimp only
    rw [if_neg (by simp [hp]; omega)]
    rfl
  · rintro ⟨l, i⟩ hm
    have hl := mem_of_getElem? (mk_mem_zipIdx_iff_getElem?.mp hm)
    unfold MemoryPlan.validateLocation
    cases l with
    | segment segment offset bytes =>
      obtain ⟨s, hs, hle⟩ := hinside _ hl segment offset bytes rfl
      have hmem := le_sum_of_mem (mem_map_of_mem (f := SegmentDecl.bytes)
        (mem_of_getElem? hs))
      simp only [hs, checkedAdd_of_le (show offset + bytes ≤ usizeMax by omega), okOr_some, ok_bind]
      rw [if_neg (by omega)]
      rfl
    | external slot => rfl
    | persistent slot => rfl
    | inlineScalar slot => rfl
    | output slot o b => rfl
    | state slot o b => rfl
    | aliasOf root o => rfl
  · intro o ho
    unfold MemoryPlan.validateOutput
    exact rejectIf_ok.mpr (getElem?_known.mpr (houtputs o ho))

/-! ## Planning -/

/-- The premises under which planning can only fail for a missing write or a
covered empty value: well-formed tables, views and alignments, reads that follow
writes, spaces that can hold each value, and totals that fit `usize` together
with alignment and rounding. Fixed values live outside the planned segments. -/
structure Plannable (schedule : LoweredProgram K M) (config : MemoryPlannerConfig M) : Prop
    extends Analyzable schedule where
  config_valid : ConfigValid config
  spaces_fit : SpacesFit schedule.values config
  totals_fit : (schedule.values.map (paddedBytes config)).sum ≤ usizeMax
  fixed_outside : ∀ v ∈ schedule.values, ∀ c location, v.storage = .fixed c location →
    ∀ segment offset bytes, location ≠ .segment segment offset bytes

theorem plannedIndices_padded (config : MemoryPlannerConfig M) (values : List (ValueDecl M)) :
    (plannedIndices values).map (paddedAt values config) =
      (values.filter fun v => v.storage.isPlanned).map (paddedBytes config) := by
  have hfst := filter_map (f := Prod.fst) (p := fun v : ValueDecl M => v.storage.isPlanned)
    (l := values.zipIdx)
  rw [zipIdx_map_fst] at hfst
  rw [hfst, plannedIndices, map_map, map_map]
  refine map_congr_left ?_
  rintro ⟨v, i⟩ hm
  have hv := mk_mem_zipIdx_iff_getElem?.mp (mem_filter.mp hm).1
  simp [paddedAt, hv]

/-- The padded total splits into fixed and planned values. -/
theorem padded_split (config : MemoryPlannerConfig M) (values : List (ValueDecl M)) :
    (values.map (paddedBytes config)).sum =
      (values.map fixedBytes).sum + ((plannedIndices values).map (paddedAt values config)).sum := by
  rw [plannedIndices_padded]
  induction values with
  | nil => rfl
  | cons v values ih =>
    cases hs : v.storage with
    | fixed c l =>
      simp [hs, fixedBytes, paddedBytes, ValueStorage.isPlanned] at *
      omega
    | planned c a m o =>
      simp [hs, fixedBytes, ValueStorage.isPlanned] at *
      omega
    | aliasOf s o =>
      simp [hs, fixedBytes, paddedBytes, ValueStorage.isPlanned] at *
      omega

theorem weight_le_padded (config : MemoryPlannerConfig M)
    (e : ValueDecl M × Option LiveInterval) :
    weight (fun _ => true) e ≤ paddedBytes config e.1 := by
  unfold weight
  split
  · next hp =>
    cases hs : e.1.storage with
    | fixed c l => simp [hs, ValueStorage.isPlanned] at hp
    | aliasOf s o => simp [hs, ValueStorage.isPlanned] at hp
    | planned c a m o =>
      have : e.1.bytes ≤ paddedBytes config e.1 := by
        simp only [paddedBytes, hs]
        omega
      cases e.2 with
      | none => exact Nat.zero_le _
      | some iv => exact this
  · exact Nat.zero_le _

theorem sum_le_of_getElem? {β : Type} {f : α → Nat} {g : β → Nat} :
    ∀ {l : List α} {r : List β}, l.length = r.length →
      (∀ (i : Nat) a b, l[i]? = some a → r[i]? = some b → g b ≤ f a) →
      (r.map g).sum ≤ (l.map f).sum := by
  intro l
  induction l with
  | nil =>
    intro r hlen _
    rw [length_eq_zero_iff.mp hlen.symm]
    exact Nat.le_refl _
  | cons a l ih =>
    intro r hlen h
    cases r with
    | nil => cases hlen
    | cons b r =>
      have h0 := h 0 a b rfl rfl
      have ih := ih (r := r) (by simpa using hlen) fun i a b ha hb => h (i + 1) a b ha hb
      simp only [map_cons, sum_cons]
      omega

/-- What the packing loop leaves under the premises. -/
structure Packed (schedule : LoweredProgram K M) (config : MemoryPlannerConfig M)
    (liveness : Liveness) (order : List Nat) (packed : PackState M)
    (segments : List (SegmentDecl M)) : Prop where
  ordered : StartOrder schedule.values liveness order
  packing : packValues schedule.values config liveness order = .ok packed
  inv : PackInv schedule.values config liveness order packed
  declared : packed.working.mapM segmentDecl = .ok segments
  total : (schedule.values.map fixedBytes).sum + (segments.map SegmentDecl.bytes).sum ≤ usizeMax
  count : packed.working.length ≤ u32Max + 1

theorem Plannable.packed {schedule : LoweredProgram K M} {config : MemoryPlannerConfig M}
    {liveness : Liveness} (h : Plannable schedule config)
    (hls : LivenessSound schedule liveness) : ∃ order packed segments,
      allocationOrder schedule.values liveness = .ok order ∧
      Packed schedule config liveness order packed segments := by
  have hintervals : ∀ (i : Nat) v, schedule.values[i]? = some v → v.storage.isPlanned = true →
      ∃ interval, liveness.intervals[i]? = some (some interval) := by
    intro i v hv hp
    obtain ⟨_, iv, he⟩ := hls.plannedEntry hv hp
    obtain ⟨_, _, _, _, _, _, hi⟩ := plannedEntry_ok.mp he
    exact ⟨iv, hi⟩
  obtain ⟨order, horder⟩ := allocationOrder_total hintervals
  have ho := allocationOrder_ok horder
  have hin := hls.packInput h.config_valid
  have hsplit := padded_split config schedule.values
  have hperm := (ho.perm.map (paddedAt schedule.values config)).sum_eq
  have htotals := h.totals_fit
  have hlen : order.length ≤ u32Max + 1 := by
    have h1 : order.length ≤ schedule.values.length := by
      rw [ho.perm.length_eq, plannedIndices, length_map]
      exact Nat.le_trans (length_filter_le _ _) (by rw [length_zipIdx])
    have h2 : schedule.values.length ≤ u32Max + 1 := by
      by_contra hlt
      have := (hls.well_formed.values_dense (schedule.values.length - 1) _
        (List.getElem?_eq_getElem (by omega))).2
      omega
    omega
  obtain ⟨packed, hpacked, hext, hcount⟩ := packValues_total hin ho h.spaces_fit
    (fun i hi => by
      obtain ⟨v, hv, hp⟩ := mem_plannedIndices.mp (ho.perm.mem_iff.mp hi)
      exact hls.plannedEntry hv hp) hlen (by omega)
  have inv := packValues_inv hin ho (append_nil order).symm hpacked
  obtain ⟨segments, hsegments⟩ := mapM_total (f := segmentDecl) (l := packed.working)
    fun s hs => by
      obtain ⟨bytes, hround, hle⟩ := (inv.segments s hs).capacity
      exact ⟨_, by rw [segmentDecl, hround, ok_bind, if_pos hle]⟩
  obtain ⟨hslen, hget⟩ := mapM_ok.mp hsegments
  have hbytes : (segments.map SegmentDecl.bytes).sum ≤ extents packed.working := by
    refine sum_le_of_getElem? hslen fun i s decl hs hdecl => ?_
    obtain ⟨decl', hdecl', hok⟩ := hget i s hs
    rw [hdecl] at hdecl'
    cases hdecl'
    have hpos := (inv.segments s (mem_of_getElem? hs)).granularity_pos h.config_valid
    exact Nat.le_of_lt (roundUp_ok hpos (segmentDecl_ok hok).1).2.1
  exact ⟨order, packed, segments, horder, ho, hpacked, inv, hsegments, by omega, by omega⟩

/-- The tables of locations and outputs are built, and the plan passes validation. -/
theorem Packed.finish {packed : PackState M} (h : Plannable schedule config) (hls : LivenessSound schedule liveness)
    (pk : Packed schedule config liveness order packed segments) :
    ∃ locations outputs,
      schedule.values.zipIdx.mapM (locationOf liveness packed.assignedByValue) = .ok locations ∧
      schedule.outputs.mapM (outputSlot schedule.values) = .ok outputs ∧
      ∀ edges report, MemoryPlan.validate ⟨segments, locations, outputs, edges, report⟩ = .ok () := by
  have hd := hls.well_formed.values_dense
  have inv := pk.inv
  obtain ⟨hslen, hget⟩ := mapM_ok.mp pk.declared
  -- Every planned entry has its assignment, inside a declared segment.
  have hassign : ∀ (i : Nat) v, schedule.values[i]? = some v → v.storage.isPlanned = true →
      ∃ a decl, packed.assignedByValue[i]? = some (some a) ∧ segments[a.segment]? = some decl ∧
        a.offset + a.bytes ≤ decl.bytes := by
    intro i v hv hp
    have hi : i ∈ order := pk.ordered.perm.mem_iff.mpr (mem_plannedIndices.mpr ⟨v, hv, hp⟩)
    rw [← inv.order] at hi
    obtain ⟨a, ha, rfl⟩ := mem_map.mp hi
    obtain ⟨_, s, _, _, hs, _, _, _, hend⟩ := (inv.assigned a ha).slice
    obtain ⟨decl, hdecl, hok⟩ := hget a.segment s hs
    have hpos := (inv.segments s (mem_of_getElem? hs)).granularity_pos h.config_valid
    have hge := (roundUp_ok hpos (segmentDecl_ok hok).1).1
    exact ⟨a, decl, inv.table a ha, hdecl, by omega⟩
  obtain ⟨locations, hlocations⟩ := mapM_total (f := locationOf liveness packed.assignedByValue)
    (l := schedule.values.zipIdx) (by
      rintro ⟨v, i⟩ hm
      have hv := mk_mem_zipIdx_iff_getElem?.mp hm
      have hid := LocationId.fromIndex_some.mpr ⟨(hd i v hv).2, rfl⟩
      unfold locationOf
      simp only [hid, okOr_some, ok_bind]
      cases hs : v.storage with
      | fixed c l => exact ⟨_, rfl⟩
      | aliasOf s o =>
        have hlt := hls.aliases_length ▸ (List.getElem?_eq_some_iff.mp hv).1
        simp only [List.getElem?_eq_getElem hlt, expect_some, ok_bind]
        exact ⟨_, rfl⟩
      | planned c al m o =>
        obtain ⟨a, decl, ha, hdecl, _⟩ := hassign i v hv (by rw [hs]; rfl)
        have hlt := (List.getElem?_eq_some_iff.mp hdecl).1
        have hcount := pk.count
        have hseg := SegmentId.fromIndex_some.mpr
          ⟨show a.segment ≤ u32Max by omega, rfl⟩
        simp only [ha, Option.join_some, expect_some, ok_bind, hseg, okOr_some]
        exact ⟨_, rfl⟩)
  obtain ⟨outputs, houtputs⟩ := mapM_total (f := outputSlot schedule.values)
    (l := schedule.outputs) (fun o ho => by
      have hlt := hls.well_formed.outputs_known o ho
      have hv := List.getElem?_eq_getElem hlt
      have hid := LocationId.fromIndex_some.mpr ⟨(hd _ _ hv).2, rfl⟩
      have hknown : rejectIf (schedule.values[o.index]? = none)
          (PlannerError.unknownValue none o) = .ok () := rejectIf_ok.mpr (getElem?_known.mpr hlt)
      exact ⟨⟨o, ⟨o.index⟩⟩, by simp only [outputSlot, hknown, hid, okOr_some, ok_bind]⟩)
  refine ⟨locations, outputs, hlocations, houtputs, fun edges report => validate_total ?_ ?_ ?_ ?_⟩
  · intro decl hdecl
    obtain ⟨k, hk⟩ := mem_iff_getElem?.mp hdecl
    have hklt : k < packed.working.length := hslen ▸ (List.getElem?_eq_some_iff.mp hk).1
    obtain ⟨decl', hdecl', hok⟩ := hget k _ (List.getElem?_eq_getElem hklt)
    have hk : segments[k]? = some decl := hk
    rw [hk] at hdecl'
    cases hdecl'
    rw [(segmentDecl_ok hok).2.2.1]
    exact (inv.segments _ (getElem_mem hklt)).aligned
  · have := pk.total
    show (segments.map SegmentDecl.bytes).sum ≤ usizeMax
    omega
  · rintro l hl segment offset bytes rfl
    obtain ⟨hloclen, hlocget⟩ := mapM_ok.mp hlocations
    obtain ⟨i, hi⟩ := mem_iff_getElem?.mp hl
    have hi : locations[i]? = some (.segment segment offset bytes) := hi
    have hilt := (List.getElem?_eq_some_iff.mp hi).1
    rw [← hloclen, length_zipIdx] at hilt
    have hv := List.getElem?_eq_getElem hilt
    obtain ⟨l', hl', hok⟩ := hlocget i (schedule.values[i], i)
      (by rw [List.getElem?_zipIdx, hv]; simp)
    rw [hi] at hl'
    cases hl'
    obtain ⟨hfixed, hplanned, hview⟩ := locationOf_ok hok
    cases hs : schedule.values[i].storage with
    | fixed c l =>
      exact absurd (hfixed c l hs).symm
        (h.fixed_outside _ (mem_of_getElem? hv) c l hs segment offset bytes)
    | aliasOf s o =>
      obtain ⟨a, _, hloc⟩ := hview s o hs
      cases hloc
    | planned c al m o =>
      obtain ⟨a, ha, hloc⟩ := hplanned c al m o hs
      obtain ⟨a', decl, ha', hdecl, hle⟩ := hassign i _ hv (by rw [hs]; rfl)
      rw [ha] at ha'
      cases ha'
      cases hloc
      exact ⟨decl, hdecl, hle⟩
  · intro slot hslot
    obtain ⟨hlen, hslots⟩ := mapM_ok.mp houtputs
    obtain ⟨k, hk⟩ := mem_iff_getElem?.mp hslot
    have hk : outputs[k]? = some slot := hk
    have hklt : k < schedule.outputs.length := hlen ▸ (List.getElem?_eq_some_iff.mp hk).1
    obtain ⟨slot', hslot', hok⟩ := hslots k _ (List.getElem?_eq_getElem hklt)
    rw [hk] at hslot'
    cases hslot'
    unfold outputSlot at hok
    simp only [bind_ok, okOr_ok, LocationId.fromIndex_some] at hok
    obtain ⟨_, _, _, ⟨_, rfl⟩, hok⟩ := hok
    cases hok
    show schedule.outputs[k].index < locations.length
    rw [← (mapM_ok.mp hlocations).1, length_zipIdx]
    exact hls.well_formed.outputs_known _ (getElem_mem hklt)

/-- No turn of the packing loop that the program leads to takes a slice that
covers a live empty value. -/
def NoEmptyValueCovered (schedule : LoweredProgram K M) (config : MemoryPlannerConfig M) : Prop :=
  ∀ liveness order, analyzeLiveness schedule = .ok liveness →
    allocationOrder schedule.values liveness = .ok order →
    NoLiveEmptyCovered schedule.values config liveness order

/-- A finished analysis has seen every read of a planned value after a write. -/
theorem LivenessSound.reads_follow (h : LivenessSound schedule liveness) {i : Nat} {v : ValueDecl M}
    (hv : schedule.values[i]? = some v) (hp : v.storage.isPlanned = true) {e : InstructionId × ValueUse}
    (he : e ∈ schedule.uses) (hroot : UsesRoot schedule.values e.2 i) :
    ∃ e' ∈ schedule.uses, e'.2.access.writes = true ∧ UsesRoot schedule.values e'.2 i ∧
      e'.1.index ≤ e.1.index := by
  have hiff : ∀ e ∈ schedule.uses, rootOf liveness.aliases e.2 = some i ↔
      UsesRoot schedule.values e.2 i :=
    fun e he => rootOf_iff h.aliases_length h.chain (h.well_formed.use_bounds he).2
  cases hs : v.storage with
  | fixed c l => simp [hs, ValueStorage.isPlanned] at hp
  | aliasOf s o => simp [hs, ValueStorage.isPlanned] at hp
  | planned c alignment m o =>
    obtain ⟨_, iv, hi, e', he', hstart, hw, hr⟩ := h.planned i v c alignment m o hv hs
    obtain ⟨iv', hi', hcontains⟩ := h.use_covered e he i ((hiff e he).mpr hroot)
    rw [hi] at hi'
    cases hi'
    refine ⟨e', he', hw, (hiff e' he').mp hr, ?_⟩
    rw [hstart]
    exact (LiveInterval.contains_iff.mp hcontains).1

end Total

/-! ## An empty value in the way -/

/-- A long-lived value, a value that dies, a value of `bytes` bytes placed into
the space it leaves, and a last value placed over all of that space. -/
def probeProgram (bytes : Nat) : LoweredProgram String Unit where
  values := [.planned ⟨0⟩ "a" 16 16 () .workspace, .planned ⟨1⟩ "b" 112 16 () .workspace,
    .planned ⟨2⟩ "z" bytes 64 () .workspace, .planned ⟨3⟩ "w" 112 16 () .workspace]
  instructions := [
    { id := ⟨0⟩, kind := "define", outputs := [⟨⟨0⟩⟩, ⟨⟨1⟩⟩] },
    { id := ⟨1⟩, kind := "use", inputs := [.read ⟨0⟩, .read ⟨1⟩] },
    { id := ⟨2⟩, kind := "define", outputs := [⟨⟨2⟩⟩] },
    { id := ⟨3⟩, kind := "define", outputs := [⟨⟨3⟩⟩] },
    { id := ⟨4⟩, kind := "use", inputs := [.read ⟨0⟩, .read ⟨2⟩, .read ⟨3⟩] }]
  outputs := [⟨3⟩]

def probeConfig : MemoryPlannerConfig Unit := .uniform () 1024 16 16

theorem probe_analysis {bytes : Nat} (h : bytes = 0 ∨ bytes = 64) :
    ∃ liveness, analyzeLiveness (probeProgram bytes) = .ok liveness := by
  have hok : (analyzeLiveness (probeProgram bytes)).toBool = true := by
    rcases h with rfl | rfl <;> decide +kernel
  cases hl : analyzeLiveness (probeProgram bytes) with
  | ok liveness => exact ⟨liveness, rfl⟩
  | error e =>
    rw [hl] at hok
    cases hok

theorem probe_plannable (bytes : Nat) (h : bytes = 0 ∨ bytes = 64) :
    Plannable (probeProgram bytes) probeConfig := by
  obtain ⟨liveness, hl⟩ := probe_analysis h
  have hls := analyzeLiveness_sound hl
  have hplanned : ∀ v ∈ (probeProgram bytes).values, v.storage.isPlanned = true ∧ v.bytes ≤ 112 := by
    rcases h with rfl | rfl <;> decide
  have hnoAlias : ∀ v ∈ (probeProgram bytes).values, ∀ s o, v.storage ≠ .aliasOf s o := by
    intro v hv s o hs
    have := (hplanned v hv).1
    rw [hs] at this
    cases this
  refine ⟨⟨hls.well_formed, ?_, ?_, ?_, ?_, ?_, ?_⟩, ?_, ?_, ?_, ?_⟩
  · intro i hi
    have hedge : ∃ j, AliasEdge (probeProgram bytes).values i j := by
      rcases Relation.TransGen.head'_iff.mp hi with ⟨j, hj, _⟩
      exact ⟨j, hj⟩
    obtain ⟨_, v, s, o, hv, hs, _⟩ := hedge
    exact hnoAlias v (mem_of_getElem? hv) s o hs
  · intro v hv s o hs
    exact absurd hs (hnoAlias v hv s o)
  · intro v hv
    have := (hplanned v hv).2
    have : 112 ≤ usizeMax := by decide
    omega
  · exact show 5 ≤ u32Max by decide
  · intro v hv c alignment m o hs
    obtain ⟨i, hi⟩ := mem_iff_getElem?.mp hv
    exact (hls.planned i v c alignment m o hi hs).1
  · intro i v hv hp e he _ hroot
    exact hls.reads_follow hv hp he hroot
  · have hconfig : validateConfig probeConfig = .ok () := by decide
    exact validateConfig_ok.mp hconfig
  · intro v hv c alignment m o hs
    refine ⟨⟨(), 1024, 16, 16⟩, mem_singleton.mpr rfl, rfl, ?_⟩
    have hbound := (hplanned v hv).2
    have hmax : 112 + 16 ≤ usizeMax := by decide
    obtain ⟨rounded, hr⟩ := roundUp_total v.bytes none (show 0 < 16 by decide)
      (by omega)
    have hlt := (roundUp_ok (by decide) hr).2.1
    exact ⟨rounded, hr, by show rounded ≤ 1024; omega⟩
  · rcases h with rfl | rfl <;> decide
  · intro v hv c l hs
    have := (hplanned v hv).1
    rw [hs] at this
    cases this

end EffectTorch
