import EffectTorch.Compiler.LivenessExact

/-!
# Reuse edges

The pairs of values that share storage one after the other.

Results:
1. `mem_reuseEdges`, `reuseEdges_nodup`: the scan returns the edge of every pair that has one,
   once.
2. `PlanRun.edgeOrdered`: an edge leads from the last access of one value to the first write of
   the other.
3. `reuseEdges_exact_iff`: the edges of a plan are exact unless an empty value lies inside
   another one.
-/

set_option linter.unusedSectionVars false

namespace EffectTorch
open List Lib

/-! ## The edges of a scan -/

/-- The edge of two assignments, in the order of the scan. -/
def pairEdge (previous next : Assignment) : Option ReuseEdge :=
  if previous.segment = next.segment ∧
      addressOverlap previous.offset previous.bytes next.offset next.bytes = true ∧
      previous.interval.stop.index ≤ next.interval.start.index then
    some ⟨previous.value, next.value, ⟨previous.interval.stop.index - 1⟩, next.interval.start⟩
  else none

theorem pairEdge_some {previous next : Assignment} {edge : ReuseEdge} :
    pairEdge previous next = some edge ↔ (previous.segment = next.segment ∧
      addressOverlap previous.offset previous.bytes next.offset next.bytes = true ∧
      previous.interval.stop.index ≤ next.interval.start.index) ∧
      edge = ⟨previous.value, next.value, ⟨previous.interval.stop.index - 1⟩,
        next.interval.start⟩ := by
  unfold pairEdge
  split
  · next h =>
    rw [Option.some.injEq, eq_comm]
    exact ⟨fun he => ⟨h, he⟩, And.right⟩
  · next h => exact ⟨nofun, fun he => absurd he.1 h⟩

variable {edges : List ReuseEdge} {assignments : List Assignment}

theorem scanPair_edges {next previous : Assignment} {edges' : List ReuseEdge}
    (h : scanPair next edges previous = .ok edges') : edges' = edges ++ (pairEdge previous next).toList := by
  unfold scanPair at h
  split at h
  · next hseg =>
    obtain rfl := Except.ok.inj h
    rw [pairEdge, if_neg fun hp => hseg hp.1, Option.toList_none, append_nil]
  · next hseg =>
    simp only [bind_ok, okOr_ok, checkedAdd_some] at h
    obtain ⟨previousEnd, ⟨_, rfl⟩, nextEnd, ⟨_, rfl⟩, h⟩ := h
    split at h
    · next haddr =>
      obtain rfl := Except.ok.inj h
      rw [pairEdge, if_neg fun hp => haddr (of_decide_eq_true hp.2.1), Option.toList_none,
        append_nil]
    · next haddr =>
      obtain ⟨_, _, h⟩ := bind_ok.mp h
      split at h
      · next hle =>
        rw [pairEdge, if_pos ⟨not_not.mp hseg, decide_eq_true (not_not.mp haddr), hle⟩]
        exact (Except.ok.inj h).symm
      · next hle =>
        obtain rfl := Except.ok.inj h
        rw [pairEdge, if_neg fun hp => hle hp.2.2, Option.toList_none, append_nil]

theorem scanNext_edges {edges' : List ReuseEdge} {entry : Assignment × Nat}
    (h : scanNext assignments edges entry = .ok edges') :
    edges' = edges ++ (assignments.take entry.2).filterMap (pairEdge · entry.1) := by
  refine foldlM_invariant
    (fun done found => found = edges ++ done.filterMap (pairEdge · entry.1)) _ ?_
    (append_nil edges).symm h
  rintro done previous rest found found' - rfl hstep
  rw [scanPair_edges hstep, filterMap_append, append_assoc]
  cases hp : pairEdge previous entry.1 <;> simp [hp]

/-! ## Sorting and dropping repeats -/

theorem mem_destutter_ne {α : Type} [DecidableEq α] {a : α} {l : List α} :
    a ∈ l.destutter (· ≠ ·) ↔ a ∈ l := by
  have hfrom : ∀ (l : List α) (b : α), a ∈ l.destutter' (· ≠ ·) b ↔ a ∈ b :: l := by
    intro l
    induction l with
    | nil => exact fun b => Iff.rfl
    | cons c l ih =>
      intro b
      rw [List.destutter'_cons]
      split
      · rw [mem_cons, ih, mem_cons (b := b)]
      · next hbc =>
        rw [ih, ← not_not.mp hbc, mem_cons, mem_cons, mem_cons, ← or_assoc, or_self]
  cases l with
  | nil => exact Iff.rfl
  | cons b l => exact hfrom l b

namespace ReuseEdge

theorem le_total (a b : ReuseEdge) : a.le b ∨ b.le a := by
  unfold ReuseEdge.le
  omega

theorem le_trans {a b c : ReuseEdge} (h1 : a.le b) (h2 : b.le c) : a.le c := by
  unfold ReuseEdge.le at *
  omega

theorem le_antisymm {a b : ReuseEdge} (h1 : a.le b) (h2 : b.le a) : a = b := by
  unfold ReuseEdge.le at h1 h2
  obtain ⟨⟨p⟩, ⟨n⟩, ⟨s⟩, ⟨t⟩⟩ := a
  obtain ⟨⟨p'⟩, ⟨n'⟩, ⟨s'⟩, ⟨t'⟩⟩ := b
  dsimp only at h1 h2
  have : p = p' ∧ n = n' ∧ s = s' ∧ t = t' := by omega
  obtain ⟨rfl, rfl, rfl, rfl⟩ := this
  rfl

end ReuseEdge

/-- An edge is returned exactly when some pair of assignments has it. -/
theorem mem_reuseEdges (h : reuseEdges assignments = .ok edges) {edge : ReuseEdge} :
    edge ∈ edges ↔ ∃ (i j : Nat) (a b : Assignment), i < j ∧ assignments[i]? = some a ∧
      assignments[j]? = some b ∧ pairEdge a b = some edge := by
  unfold reuseEdges at h
  obtain ⟨all, hall, h⟩ := bind_ok.mp h
  obtain rfl := Except.ok.inj h
  have hflat : all = assignments.zipIdx.flatMap fun entry =>
      (assignments.take entry.2).filterMap (pairEdge · entry.1) := by
    refine foldlM_invariant (fun done found => found = done.flatMap fun entry =>
      (assignments.take entry.2).filterMap (pairEdge · entry.1)) _ ?_ rfl hall
    rintro done entry rest found found' - rfl hstep
    rw [scanNext_edges hstep, flatMap_append, flatMap_singleton]
  rw [mem_destutter_ne, mem_insertionSort, hflat, mem_flatMap]
  constructor
  · rintro ⟨⟨b, j⟩, hb, hm⟩
    obtain ⟨a, ha, hedge⟩ := mem_filterMap.mp hm
    obtain ⟨i, hi, rfl⟩ := mem_take_iff_getElem.mp ha
    exact ⟨i, j, _, b, Nat.lt_of_lt_of_le hi (Nat.min_le_left _ _), List.getElem?_eq_getElem _,
      mk_mem_zipIdx_iff_getElem?.mp hb, hedge⟩
  · rintro ⟨i, j, a, b, hij, ha, hb, hedge⟩
    refine ⟨(b, j), mk_mem_zipIdx_iff_getElem?.mpr hb, mem_filterMap.mpr ⟨a, ?_, hedge⟩⟩
    refine mem_iff_getElem?.mpr ⟨i, ?_⟩
    rw [List.getElem?_take_of_lt hij, ha]

theorem reuseEdges_nodup (h : reuseEdges assignments = .ok edges) : edges.Nodup := by
  unfold reuseEdges at h
  obtain ⟨all, _, h⟩ := bind_ok.mp h
  obtain rfl := Except.ok.inj h
  have : Std.Total ReuseEdge.le := ⟨ReuseEdge.le_total⟩
  have : IsTrans ReuseEdge ReuseEdge.le := ⟨fun _ _ _ => ReuseEdge.le_trans⟩
  have hsorted := (pairwise_insertionSort ReuseEdge.le all).sublist
    (destutter_sublist (· ≠ ·) _)
  have hchain := isChain_destutter (· ≠ ·) (all.insertionSort ReuseEdge.le)
  let lt : ReuseEdge → ReuseEdge → Prop := fun a b => a.le b ∧ a ≠ b
  have : IsTrans ReuseEdge lt := ⟨fun a b c hab hbc => ⟨ReuseEdge.le_trans hab.1 hbc.1, fun hac =>
    hab.2 (ReuseEdge.le_antisymm hab.1 (hac ▸ hbc.1))⟩⟩
  have hlt : List.IsChain lt ((all.insertionSort ReuseEdge.le).destutter (· ≠ ·)) := by
    rw [isChain_iff_getElem] at hchain ⊢
    exact fun i hi => ⟨pairwise_iff_getElem.mp hsorted i (i + 1) _ hi (Nat.lt_succ_self i),
      hchain i hi⟩
  exact (isChain_iff_pairwise.mp hlt).imp And.right

/-! ## The order of an edge -/

section Edges

variable {K M : Type} [DecidableEq M]

/-- An edge leads from the last access of one value to the first write of the other. -/
structure EdgeOrdered (schedule : LoweredProgram K M) (edge : ReuseEdge) : Prop where
  after : IsGreatest (accesses schedule (fun _ => true) edge.previousValue.index) edge.after.index
  before : IsLeast (accesses schedule ValueAccess.writes edge.nextValue.index) edge.before.index
  lt : edge.after.index < edge.before.index

variable {i : Nat} {a b : Assignment}

/-- A value whose interval ends before the program does was accessed at its end. -/
theorem IntervalExact.last {schedule : LoweredProgram K M} {v : ValueDecl M} {iv : LiveInterval}
    (h : IntervalExact schedule i v iv) (hstop : iv.stop.index < schedule.instructions.length) :
    IsGreatest (accesses schedule (fun _ => true) i) (iv.stop.index - 1) := by
  have hcovers : ∀ k ∈ accesses schedule (fun _ => true) i,
      iv.start.index ≤ k ∧ k < iv.stop.index := by
    rintro k ⟨e, he, rfl, -, hroot⟩
    exact LiveInterval.contains_iff.mp (h.covers e he hroot)
  refine ⟨?_, fun k hk => Nat.le_sub_one_of_lt (hcovers k hk).2⟩
  by_contra hnone
  have hsmaller := h.smallest iv.start.index (iv.stop.index - 1) (fun e he hroot => ?_)
    fun o ho hout => ?_
  · have hfirst := (hcovers _ h.first.1).2
    exact absurd hsmaller.2 (Nat.not_le.mpr (Nat.sub_one_lt (Nat.ne_zero_of_lt hfirst)))
  · obtain ⟨hstart, hlt⟩ := LiveInterval.contains_iff.mp (h.covers e he hroot)
    refine ⟨hstart, Nat.lt_of_le_of_ne (Nat.le_sub_one_of_lt hlt) fun heq => hnone ?_⟩
    exact ⟨e, he, heq, rfl, hroot⟩
  · rw [h.output o ho hout] at hstop
    exact absurd hstop (Nat.lt_irrefl _)

variable {schedule : LoweredProgram K M} {config : MemoryPlannerConfig M} {liveness : Liveness}
  {plan : MemoryPlan M} {order : List Nat} {packed : PackState M}

/-- The place in the plan of an assignment. -/
theorem PlanRun.plannedAt (run : PlanRun schedule config liveness plan order packed)
    (ha : a ∈ packed.assignments) : ∃ value,
      PlannedAt schedule plan a.value.index value a.segment a.offset ∧ value.bytes = a.bytes ∧
        liveness.intervals[a.value.index]? = some (some a.interval) := by
  obtain ⟨value, _, he, hb, _⟩ := (run.inv.assigned a ha).slice
  obtain ⟨v, c, hv, hs, hid, hbytes, hi⟩ := plannedEntry_ok.mp he
  obtain ⟨a', ha', hidx, hloc⟩ := run.assignment hv (by rw [hs]; rfl)
  have htable := run.inv.table a' ha'
  rw [hidx, run.inv.table a ha] at htable
  obtain rfl := Option.some.inj (Option.some.inj htable)
  exact ⟨value, ⟨⟨v, c, hv, hs, hid, hbytes⟩, by rw [hb]; exact hloc⟩, hb, hi⟩

/-- What the liveness of the program says of the interval of an assignment. -/
theorem PlanRun.interval_exact (run : PlanRun schedule config liveness plan order packed)
    (ha : a ∈ packed.assignments) : ∃ v, v.storage.isPlanned = true ∧
      IntervalExact schedule a.value.index v a.interval := by
  obtain ⟨value, hat, _, hi⟩ := run.plannedAt ha
  obtain ⟨v, hv, hp⟩ := hat.isPlanned
  exact ⟨v, hp, (analyzeLiveness_exact run.analysis).exact _ v _ hv hi⟩

theorem PlanRun.edgeOrdered (run : PlanRun schedule config liveness plan order packed)
    (ha : a ∈ packed.assignments) (hb : b ∈ packed.assignments) {edge : ReuseEdge}
    (hedge : pairEdge a b = some edge) : EdgeOrdered schedule edge := by
  obtain ⟨⟨_, _, hle⟩, rfl⟩ := pairEdge_some.mp hedge
  obtain ⟨va, _, hea⟩ := run.interval_exact ha
  obtain ⟨vb, hpb, heb⟩ := run.interval_exact hb
  have hbefore := (heb.planned hpb).1
  obtain ⟨e, he, hstart, -⟩ := hbefore.1
  have hlt : b.interval.start.index < schedule.instructions.length :=
    hstart ▸ ((analyzeLiveness_sound run.analysis).well_formed.use_bounds he).1
  refine ⟨hea.last (Nat.lt_of_le_of_lt hle hlt), hbefore, ?_⟩
  obtain ⟨e', he', hfirst, -, hroot⟩ := hea.first.1
  have hpos := (LiveInterval.contains_iff.mp (hea.covers e' he' hroot)).2
  exact Nat.lt_of_lt_of_le (Nat.sub_one_lt (Nat.ne_zero_of_lt hpos)) hle

/-! ## Exact edges -/

/-- The byte ranges `[o, o + b)` and `[o', o' + b')` have a byte in common. -/
def SharesByte (o b o' b' : Nat) : Prop := ∃ x, (o ≤ x ∧ x < o + b) ∧ o' ≤ x ∧ x < o' + b'

/-- The edge connects the values of the entries `i` and `j`, in some direction. -/
def ReuseEdge.Connects (edge : ReuseEdge) (i j : Nat) : Prop :=
  edge.previousValue.index = i ∧ edge.nextValue.index = j ∨
    edge.previousValue.index = j ∧ edge.nextValue.index = i

instance (edge : ReuseEdge) (i j : Nat) : Decidable (edge.Connects i j) := by
  unfold ReuseEdge.Connects
  infer_instance

/-- The edges connect exactly the values that share storage. -/
structure ReuseExact (schedule : LoweredProgram K M) (plan : MemoryPlan M) : Prop where
  complete : ∀ i j vi vj segment oi oj, i ≠ j → PlannedAt schedule plan i vi segment oi →
    PlannedAt schedule plan j vj segment oj → SharesByte oi vi.bytes oj vj.bytes →
    ∃ edge, plan.reuseEdges.filter (·.Connects i j) = [edge] ∧ EdgeOrdered schedule edge
  sound : ∀ edge ∈ plan.reuseEdges, EdgeOrdered schedule edge ∧ ∃ vi vj segment oi oj,
    PlannedAt schedule plan edge.previousValue.index vi segment oi ∧
    PlannedAt schedule plan edge.nextValue.index vj segment oj ∧
    SharesByte oi vi.bytes oj vj.bytes

/-- The packing loop of the program puts no empty value strictly inside the range that another
value of the segment has at some time. -/
def NoEmptyInside (schedule : LoweredProgram K M) (config : MemoryPlannerConfig M) : Prop :=
  ∀ liveness order packed, analyzeLiveness schedule = .ok liveness →
    allocationOrder schedule.values liveness = .ok order →
    packValues schedule.values config liveness order = .ok packed →
    ∀ a ∈ packed.assignments, ∀ z ∈ packed.assignments, a.segment = z.segment → z.bytes = 0 →
      ¬ (a.offset < z.offset ∧ z.offset < a.offset + a.bytes)

theorem addressOverlap_iff {o b o' b' : Nat} : addressOverlap o b o' b' = true ↔
    SharesByte o b o' b' ∨ b' = 0 ∧ (o < o' ∧ o' < o + b) ∨ b = 0 ∧ (o' < o ∧ o < o' + b') := by
  unfold addressOverlap SharesByte
  rw [decide_eq_true_iff]
  constructor
  · rintro ⟨h1, h2⟩
    rcases Nat.eq_zero_or_pos b' with rfl | hb'
    · exact .inr (.inl ⟨rfl, h1, h2⟩)
    · rcases Nat.eq_zero_or_pos b with rfl | hb
      · exact .inr (.inr ⟨rfl, h2, h1⟩)
      · refine .inl ⟨max o o', ⟨Nat.le_max_left _ _, ?_⟩, Nat.le_max_right _ _, ?_⟩
        · exact Nat.max_lt.mpr ⟨Nat.lt_add_of_pos_right hb, h2⟩
        · exact Nat.max_lt.mpr ⟨h1, Nat.lt_add_of_pos_right hb'⟩
  · rintro (⟨x, ⟨h1, h2⟩, h3, h4⟩ | ⟨rfl, h⟩ | ⟨rfl, h⟩)
    · exact ⟨Nat.lt_of_le_of_lt h1 h4, Nat.lt_of_le_of_lt h3 h2⟩
    · exact h
    · exact h.symm

/-- The first assignment of a pair starts no later than the second. -/
theorem PlanRun.starts_ordered (run : PlanRun schedule config liveness plan order packed) {j : Nat}
    (hij : i < j) (ha : packed.assignments[i]? = some a) (hb : packed.assignments[j]? = some b) :
    a.interval.start.index ≤ b.interval.start.index := by
  have hstart : ∀ c ∈ packed.assignments,
      startAt liveness c.value.index = c.interval.start.index := by
    intro c hc
    obtain ⟨_, _, _, hi⟩ := run.plannedAt hc
    rw [startAt, hi]
    rfl
  have hsorted := run.ordered.sorted
  rw [← run.inv.order, pairwise_map] at hsorted
  rw [← hstart a (mem_of_getElem? ha), ← hstart b (mem_of_getElem? hb)]
  obtain ⟨hi, rfl⟩ := List.getElem?_eq_some_iff.mp ha
  obtain ⟨hj, rfl⟩ := List.getElem?_eq_some_iff.mp hb
  exact pairwise_iff_getElem.mp hsorted i j hi hj hij

theorem PlanRun.interval_pos (run : PlanRun schedule config liveness plan order packed)
    (ha : a ∈ packed.assignments) : a.interval.start.index < a.interval.stop.index := by
  obtain ⟨_, _, _, hi⟩ := run.plannedAt ha
  exact ((analyzeLiveness_sound run.analysis).packInput run.config_valid).intervals _ _ hi

/-- A returned scan has the edge of every pair whose ranges meet. -/
theorem PlanRun.pairEdge_mem (run : PlanRun schedule config liveness plan order packed)
    (ha : a ∈ packed.assignments) (hb : b ∈ packed.assignments) (hne : a ≠ b) (hseg : a.segment = b.segment)
    (hmeet : addressOverlap a.offset a.bytes b.offset b.bytes = true) :
    ∃ edge ∈ plan.reuseEdges, pairEdge a b = some edge ∨ pairEdge b a = some edge := by
  suffices H : ∀ (i j : Nat) (a b : Assignment), i < j → packed.assignments[i]? = some a →
      packed.assignments[j]? = some b → a.segment = b.segment →
      addressOverlap a.offset a.bytes b.offset b.bytes = true →
      ∃ edge ∈ plan.reuseEdges, pairEdge a b = some edge by
    obtain ⟨i, hi⟩ := mem_iff_getElem?.mp ha
    obtain ⟨j, hj⟩ := mem_iff_getElem?.mp hb
    rcases Nat.lt_trichotomy i j with hij | rfl | hij
    · obtain ⟨edge, hm, he⟩ := H i j a b hij hi hj hseg hmeet
      exact ⟨edge, hm, .inl he⟩
    · rw [hi] at hj
      exact absurd (Option.some.inj hj) hne
    · have hmeet' : addressOverlap b.offset b.bytes a.offset a.bytes = true :=
        decide_eq_true (of_decide_eq_true hmeet).symm
      obtain ⟨edge, hm, he⟩ := H j i b a hij hj hi hseg.symm hmeet'
      exact ⟨edge, hm, .inr he⟩
  intro i j a b hij hi hj hseg hmeet
  have hfree : ¬ Conflict a b := by
    obtain ⟨hilt, rfl⟩ := List.getElem?_eq_some_iff.mp hi
    obtain ⟨hjlt, rfl⟩ := List.getElem?_eq_some_iff.mp hj
    exact pairwise_iff_getElem.mp (reuseEdges_ok run.edges) i j hilt hjlt hij
  have hle : a.interval.stop.index ≤ b.interval.start.index := by
    by_contra hlt
    refine hfree ⟨hseg, hmeet, LiveInterval.overlaps_iff.mpr ⟨?_, Nat.not_le.mp hlt⟩⟩
    exact Nat.lt_of_le_of_lt (run.starts_ordered hij hi hj)
      (run.interval_pos (mem_of_getElem? hj))
  have hedge := pairEdge_some.mpr ⟨⟨hseg, hmeet, hle⟩, rfl⟩
  exact ⟨_, (mem_reuseEdges run.edges).mpr ⟨i, j, a, b, hij, hi, hj, hedge⟩, hedge⟩

theorem PlanRun.same_assignment (run : PlanRun schedule config liveness plan order packed)
    (ha : a ∈ packed.assignments) (hb : b ∈ packed.assignments) (hidx : a.value.index = b.value.index) : a = b := by
  have htable := run.inv.table a ha
  rw [hidx, run.inv.table b hb] at htable
  exact (Option.some.inj (Option.some.inj htable)).symm

/-- Two values have at most one edge. -/
theorem PlanRun.edge_unique (run : PlanRun schedule config liveness plan order packed) {j : Nat}
    {e e' : ReuseEdge} (he : e ∈ plan.reuseEdges) (he' : e' ∈ plan.reuseEdges) (hc : e.Connects i j)
    (hc' : e'.Connects i j) : e = e' := by
  obtain ⟨_, _, a, b, _, ha, hb, hedge⟩ := (mem_reuseEdges run.edges).mp he
  obtain ⟨_, _, a', b', _, ha', hb', hedge'⟩ := (mem_reuseEdges run.edges).mp he'
  have ha := mem_of_getElem? ha
  have hb := mem_of_getElem? hb
  have ha' := mem_of_getElem? ha'
  have hb' := mem_of_getElem? hb'
  obtain ⟨⟨_, _, hle⟩, rfl⟩ := pairEdge_some.mp hedge
  obtain ⟨⟨_, _, hle'⟩, rfl⟩ := pairEdge_some.mp hedge'
  have hpos := run.interval_pos ha
  have hpos' := run.interval_pos ha'
  rcases hc with ⟨rfl, rfl⟩ | ⟨rfl, rfl⟩ <;> rcases hc' with ⟨h1, h2⟩ | ⟨h1, h2⟩
  · rw [run.same_assignment ha' ha h1, run.same_assignment hb' hb h2]
  · -- the reversed edge would put each value before the other
    obtain rfl := run.same_assignment ha' hb h1
    obtain rfl := run.same_assignment hb' ha h2
    exact absurd (Nat.lt_of_lt_of_le hpos (Nat.le_trans hle
      (Nat.le_of_lt (Nat.lt_of_lt_of_le hpos' hle')))) (Nat.lt_irrefl _)
  · obtain rfl := run.same_assignment ha' hb h1
    obtain rfl := run.same_assignment hb' ha h2
    exact absurd (Nat.lt_of_lt_of_le hpos (Nat.le_trans hle
      (Nat.le_of_lt (Nat.lt_of_lt_of_le hpos' hle')))) (Nat.lt_irrefl _)
  · rw [run.same_assignment ha' ha h1, run.same_assignment hb' hb h2]

theorem filter_eq_singleton {α : Type} [DecidableEq α] {l : List α} {a : α} {p : α → Bool}
    (hl : l.Nodup) (ha : a ∈ l) (hp : p a = true) (h : ∀ b ∈ l, p b = true → b = a) :
    l.filter p = [a] := by
  have hsame : l.filter p = l.filter (· == a) := by
    refine filter_congr fun b hb => ?_
    rw [Bool.eq_iff_iff, beq_iff_eq]
    exact ⟨h b hb, fun hba => hba ▸ hp⟩
  rw [hsame, filter_beq, count_eq_one_of_mem hl ha]
  rfl

theorem PlanRun.reuseExact (run : PlanRun schedule config liveness plan order packed)
    (hclear : NoEmptyInside schedule config) : ReuseExact schedule plan := by
  have hclear := hclear liveness order packed run.analysis run.allocation run.packing
  constructor
  · intro i j vi vj segment oi oj hij hi hj hshare
    obtain ⟨a, ha, rfl, rfl, rfl, hba, _⟩ := run.assignment_at hi
    obtain ⟨b, hb, rfl, hsb, rfl, hbb, _⟩ := run.assignment_at hj
    rw [← hba, ← hbb] at hshare
    obtain ⟨edge, hm, hedge⟩ := run.pairEdge_mem ha hb (fun h => hij (h ▸ rfl)) hsb.symm
      (addressOverlap_iff.mpr (.inl hshare))
    have hconnects : edge.Connects a.value.index b.value.index := by
      rcases hedge with hedge | hedge
      · obtain ⟨_, rfl⟩ := pairEdge_some.mp hedge
        exact .inl ⟨rfl, rfl⟩
      · obtain ⟨_, rfl⟩ := pairEdge_some.mp hedge
        exact .inr ⟨rfl, rfl⟩
    refine ⟨edge, filter_eq_singleton (reuseEdges_nodup run.edges) hm (decide_eq_true hconnects)
      fun e he hc => run.edge_unique he hm (of_decide_eq_true hc) hconnects, ?_⟩
    exact hedge.elim (run.edgeOrdered ha hb) (run.edgeOrdered hb ha)
  · intro edge hm
    obtain ⟨_, _, a, b, _, ha, hb, hedge⟩ := (mem_reuseEdges run.edges).mp hm
    have ha := mem_of_getElem? ha
    have hb := mem_of_getElem? hb
    refine ⟨run.edgeOrdered ha hb hedge, ?_⟩
    obtain ⟨⟨hseg, hmeet, -⟩, rfl⟩ := pairEdge_some.mp hedge
    obtain ⟨va, hata, hba, -⟩ := run.plannedAt ha
    obtain ⟨vb, hatb, hbb, -⟩ := run.plannedAt hb
    refine ⟨va, vb, a.segment, a.offset, b.offset, hata, hseg ▸ hatb, ?_⟩
    rw [hba, hbb]
    rcases addressOverlap_iff.mp hmeet with hshare | ⟨hz, hin⟩ | ⟨hz, hin⟩
    · exact hshare
    · exact absurd hin (hclear a ha b hb hseg hz)
    · exact absurd hin (hclear b hb a ha hseg.symm hz)

/-- The edges of a plan are exact if and only if no empty value is put inside another one. -/
theorem reuseEdges_exact_iff (h : planMemory schedule config = .ok plan) :
    ReuseExact schedule plan ↔ NoEmptyInside schedule config := by
  obtain ⟨liveness, order, packed, run⟩ := planMemory_run h
  refine ⟨fun hexact => ?_, run.reuseExact⟩
  intro liveness' order' packed' hl ho hp a ha z hz hseg hzero hin
  obtain rfl := Except.ok.inj (hl.symm.trans run.analysis)
  obtain rfl := Except.ok.inj (ho.symm.trans run.allocation)
  obtain rfl := Except.ok.inj (hp.symm.trans run.packing)
  obtain ⟨edge, hm, hedge⟩ := run.pairEdge_mem ha hz
    (fun heq => absurd hin.1 (heq ▸ Nat.lt_irrefl _)) hseg
    (addressOverlap_iff.mpr (.inr (.inl ⟨hzero, hin⟩)))
  obtain ⟨-, vi, vj, segment, oi, oj, hi, hj, x, hx, hx'⟩ := hexact.sound edge hm
  obtain ⟨c, hc, hci, -, rfl, hcb, -⟩ := run.assignment_at hi
  obtain ⟨d, hd, hdj, -, rfl, hdb, -⟩ := run.assignment_at hj
  -- one end of the edge is the empty value, which has no byte to share
  rw [← hcb] at hx
  rw [← hdb] at hx'
  rcases hedge with hedge | hedge
  · obtain ⟨-, rfl⟩ := pairEdge_some.mp hedge
    obtain rfl := run.same_assignment hd hz hdj
    rw [hzero] at hx'
    exact absurd hx'.1 (Nat.not_le.mpr hx'.2)
  · obtain ⟨-, rfl⟩ := pairEdge_some.mp hedge
    obtain rfl := run.same_assignment hc hz hci
    rw [hzero] at hx
    exact absurd hx.1 (Nat.not_le.mpr hx.2)

/-- Without empty planned values, none lies inside another value. -/
theorem noEmptyInside_of_pos (hconfig : ConfigValid config)
    (hpos : ∀ v ∈ schedule.values, v.storage.isPlanned = true → 0 < v.bytes) :
    NoEmptyInside schedule config := by
  intro liveness order packed hl ho hp a _ z hz _ hzero _
  have inv := packValues_inv ((analyzeLiveness_sound hl).packInput hconfig) (allocationOrder_ok ho)
    (append_nil order).symm hp
  obtain ⟨value, _, hentry, hbytes, _⟩ := (inv.assigned z hz).slice
  obtain ⟨v, c, hv, hstorage, _, hvbytes, _⟩ := plannedEntry_ok.mp hentry
  have hlt := hpos v (mem_of_getElem? hv) (by rw [hstorage]; rfl)
  rw [hvbytes, hbytes, hzero] at hlt
  exact Nat.lt_irrefl 0 hlt

end Edges

/-- A value that dies, and two values placed side by side into the space it leaves. -/
def insideProgram (bytes : Nat) : LoweredProgram String Unit where
  values := [.planned ⟨0⟩ "p" 16 1 () .workspace, .planned ⟨1⟩ "x" 8 1 () .workspace,
    .planned ⟨2⟩ "z" bytes 1 () .workspace]
  instructions := [
    { id := ⟨0⟩, kind := "define", outputs := [⟨⟨0⟩⟩] },
    { id := ⟨1⟩, kind := "use", inputs := [.read ⟨0⟩] },
    { id := ⟨2⟩, kind := "define", outputs := [⟨⟨1⟩⟩, ⟨⟨2⟩⟩] }]
  outputs := [⟨1⟩, ⟨2⟩]

theorem insideProgram_edges : ∃ plan, planMemory (insideProgram 4) reuseConfig = .ok plan ∧
    ReuseExact (insideProgram 4) plan := by
  have hok : (planMemory (insideProgram 4) reuseConfig).toBool = true := by decide +kernel
  have hconfig : validateConfig reuseConfig = .ok () := by decide
  cases hp : planMemory (insideProgram 4) reuseConfig with
  | error e =>
    rw [hp] at hok
    cases hok
  | ok plan =>
    exact ⟨plan, rfl, (reuseEdges_exact_iff hp).mpr
      (noEmptyInside_of_pos (validateConfig_ok.mp hconfig) (by decide))⟩

/-- The empty value gets an edge from the value whose range surrounds its place. -/
theorem insideProgram_empty : ∃ plan, planMemory (insideProgram 0) reuseConfig = .ok plan ∧
    ⟨⟨0⟩, ⟨2⟩, ⟨1⟩, ⟨2⟩⟩ ∈ plan.reuseEdges ∧ plan.locations[0]? = some (.segment ⟨0⟩ 0 16) ∧
    plan.locations[2]? = some (.segment ⟨0⟩ 8 0) ∧ ¬ ReuseExact (insideProgram 0) plan := by
  have hrun : (planMemory (insideProgram 0) reuseConfig).toOption.any (fun plan =>
      ⟨⟨0⟩, ⟨2⟩, ⟨1⟩, ⟨2⟩⟩ ∈ plan.reuseEdges ∧ plan.locations[0]? = some (.segment ⟨0⟩ 0 16) ∧
      plan.locations[2]? = some (.segment ⟨0⟩ 8 0)) = true := by
    decide +kernel
  cases hp : planMemory (insideProgram 0) reuseConfig with
  | error e =>
    rw [hp] at hrun
    cases hrun
  | ok plan =>
    rw [hp] at hrun
    obtain ⟨hedge, hfirst, hempty⟩ := of_decide_eq_true hrun
    refine ⟨plan, rfl, hedge, hfirst, hempty, fun hexact => ?_⟩
    obtain ⟨-, vi, vj, segment, oi, oj, -, hj, x, -, hx⟩ := hexact.sound _ hedge
    have hlocated : plan.locations[2]? = _ := hj.located
    rw [hempty] at hlocated
    obtain ⟨-, rfl, hbytes⟩ := Location.segment.inj (Option.some.inj hlocated)
    rw [← hbytes] at hx
    exact absurd hx.1 (Nat.not_le.mpr hx.2)

end EffectTorch
