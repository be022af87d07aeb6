import EffectTorch.Cuda.Overlap

/-!
# What overlap planning accepts

Results:
1. `plannedBranches_windows`: the accepted branches pass the hazard checks, and
   their windows are apart.
2. `Windows.marked_branch` and `marked_cases`: the marks on the commands are those
   of the branches.
-/

namespace EffectTorch
open List Lib

/-! ## Ordered keys -/

variable {keys : List Nat} {p : Nat}

@[simp] theorem mem_insertKey {key k : Nat} : k ∈ insertKey key keys ↔ k = key ∨ k ∈ keys := by
  induction keys with
  | nil => simp [insertKey]
  | cons a keys ih =>
    unfold insertKey
    split
    · exact mem_cons
    · split
      · next h => simp [h]
      · rw [mem_cons, ih, mem_cons]
        exact or_left_comm

theorem insertKey_sorted {key : Nat} (h : keys.Pairwise (· < ·)) : (insertKey key keys).Pairwise (· < ·) := by
  induction keys with
  | nil => exact pairwise_singleton _ _
  | cons a keys ih =>
    have hrest := pairwise_cons.mp h
    unfold insertKey
    split
    · next hlt =>
      refine pairwise_cons.mpr ⟨fun b hb => ?_, h⟩
      rcases mem_cons.mp hb with rfl | hb
      · exact hlt
      · exact Nat.lt_trans hlt (hrest.1 b hb)
    · split
      · exact h
      · next hge hne =>
        refine pairwise_cons.mpr ⟨fun b hb => ?_, ih hrest.2⟩
        rcases mem_insertKey.mp hb with rfl | hb
        · omega
        · exact hrest.1 b hb

theorem mem_foldr_insertKey {k : Nat} : k ∈ keys.foldr insertKey [] ↔ k ∈ keys := by
  induction keys with
  | nil => exact Iff.rfl
  | cons a keys ih => rw [foldr_cons, mem_insertKey, ih, mem_cons]

section Traversal

variable {aliases : List NormalizedAlias} {size : Nat} {steps : List Step} {value join : Nat} {boundary : List Nat}
  {branch : OverlapBranch}

/-! ## Accepted branches -/

/-- A step that the second stream may run. -/
def RunsOnWorker (steps : List Step) (position : Nat) : Prop :=
  ∃ step, steps[position]? = some step ∧ workerCommand step.command = true

/-- What the traversal selects runs on the second stream before the join. -/
structure Selected (steps : List Step) (join : Nat) (selected : List Nat) : Prop where
  sorted : selected.Pairwise (· < ·)
  before : ∀ p ∈ selected, p < join
  worker : ∀ p ∈ selected, RunsOnWorker steps p

theorem Selected.insert {p : Nat} {selected : List Nat} (h : Selected steps join selected) (hp : p < join)
    (hw : RunsOnWorker steps p) :
    Selected steps join (insertKey p selected) where
  sorted := insertKey_sorted h.sorted
  before q hq := by
    rcases mem_insertKey.mp hq with rfl | hq
    · exact hp
    · exact h.before q hq
  worker q hq := by
    rcases mem_insertKey.mp hq with rfl | hq
    · exact hw
    · exact h.worker q hq

theorem visitProducer_selected {state state' : List Nat × List Nat} {pushed : List Nat}
    (hs : Selected steps join state.1)
    (h : visitProducer aliases size steps join boundary state value = some (state', pushed)) :
    Selected steps join state'.1 := by
  unfold visitProducer at h
  dsimp only at h
  split at h
  · cases h
    exact hs
  · split at h
    · cases h
      exact hs
    · split at h
      · cases h
      · next position _ hbefore =>
        split at h
        · cases h
        · next step hstep =>
          split at h
          · cases h
            exact hs
          · split at h
            · cases h
            · next hworker =>
              split at h
              · cases h
                exact hs
              · cases h
                refine hs.insert (Nat.lt_of_not_le hbefore) ⟨step, hstep, ?_⟩
                simp only [Bool.or_eq_true, Bool.not_eq_true', not_or, Bool.not_eq_false] at hworker
                exact hworker.1

theorem collectBranch_selected {selected : List Nat}
    (h : collectBranch aliases size steps join boundary value = some selected) :
    Selected steps join selected := by
  obtain ⟨state, hstate, rfl⟩ := Option.map_eq_some_iff.mp h
  exact worklist_invariant (I := fun state => Selected steps join state.1)
    (fun _ _ _ _ hs hv => visitProducer_selected hs hv)
    ⟨List.Pairwise.nil, by simp, by simp⟩ hstate

/-- The first step of a branch. -/
def OverlapBranch.first (branch : OverlapBranch) : Nat := branch.selected.headD 0

/-- A branch that passed every check. -/
structure BranchSafe (aliases : List NormalizedAlias) (steps : List Step) (branch : OverlapBranch) :
    Prop where
  selected : Selected steps branch.join branch.selected
  nonempty : branch.selected ≠ []
  touched : ∀ value, value ∈ branch.touched ↔
    value ∈ rootsOf aliases steps (fun _ => true) branch.selected
  unwritten : outsideUse aliases steps ValueAccess.writes branch.selected branch.first branch.join
    branch.touched = false
  unread : outsideUse aliases steps ValueAccess.reads branch.selected branch.first branch.join
    (rootsOf aliases steps ValueAccess.writes branch.selected) = false

theorem BranchSafe.first_mem (h : BranchSafe aliases steps branch) : branch.first ∈ branch.selected := by
  unfold OverlapBranch.first
  cases hs : branch.selected with
  | nil => exact absurd hs h.nonempty
  | cons p rest => exact mem_cons_self

theorem BranchSafe.first_le (h : BranchSafe aliases steps branch) {p : Nat} (hp : p ∈ branch.selected) :
    branch.first ≤ p := by
  have hsorted := h.selected.sorted
  unfold OverlapBranch.first
  cases hs : branch.selected with
  | nil => exact absurd hs h.nonempty
  | cons q rest =>
    rw [hs] at hsorted hp
    rcases mem_cons.mp hp with rfl | hp
    · exact Nat.le_refl _
    · exact Nat.le_of_lt (rel_of_pairwise_cons hsorted hp)

theorem tryBranch_safe {group occupiedUntil : Nat} {dependent : List Nat} {input : ValueUse}
    (h : tryBranch aliases size steps group join occupiedUntil boundary dependent input = some branch) :
    BranchSafe aliases steps branch ∧ branch.join = join ∧ occupiedUntil ≤ branch.first := by
  unfold tryBranch at h
  dsimp only at h
  split at h
  · cases h
  split at h
  · cases h
  next selected hselected =>
  split at h
  · cases h
  split at h
  · cases h
  next first hfirst =>
  split at h
  · cases h
  split at h
  · cases h
  next hoccupied =>
  split at h
  · cases h
  split at h
  · cases h
  next hwrites =>
  split at h
  · cases h
  next hreads =>
  cases h
  have hf : ∀ touched, OverlapBranch.first ⟨selected, join, touched⟩ = first := by
    intro touched
    unfold OverlapBranch.first
    rw [headD_eq_head?_getD, hfirst]
    rfl
  refine ⟨⟨collectBranch_selected hselected, ?_, fun _ => mem_foldr_insertKey, ?_, ?_⟩, rfl, ?_⟩
  · intro hnil
    rw [show selected = [] from hnil] at hfirst
    cases hfirst
  · rw [hf]
    exact Bool.eq_false_iff.mpr hwrites
  · rw [hf]
    exact Bool.eq_false_iff.mpr hreads
  · rw [hf]
    exact Nat.le_of_not_lt hoccupied

theorem searchJoins_safe {group occupiedUntil : Nat} :
    ∀ {joins : List (Step × Nat)} {dependent : List Nat},
      searchJoins aliases size steps group occupiedUntil boundary joins dependent = some branch →
      BranchSafe aliases steps branch ∧ occupiedUntil ≤ branch.first ∧
        ∃ entry ∈ joins, branch.join = entry.2 := by
  intro joins
  induction joins with
  | nil => exact nofun
  | cons entry joins ih =>
    intro dependent h
    rw [searchJoins] at h
    rcases Option.or_eq_some_iff.mp h with h | ⟨_, h⟩
    · split at h
      · obtain ⟨input, _, htry⟩ := exists_of_findSome?_eq_some h
        obtain ⟨hsafe, hjoin, hocc⟩ := tryBranch_safe htry
        exact ⟨hsafe, hocc, entry, mem_cons_self, hjoin⟩
      · cases h
    · obtain ⟨hsafe, hocc, e, he, hjoin⟩ := ih h
      exact ⟨hsafe, hocc, e, mem_cons_of_mem _ he, hjoin⟩

/-- The accepted branches so far, whose windows end before `occupied_until`. -/
structure Windows (aliases : List NormalizedAlias) (steps : List Step)
    (state : List OverlapBranch × Nat) : Prop where
  safe : ∀ branch ∈ state.1, BranchSafe aliases steps branch
  join_lt : ∀ branch ∈ state.1, branch.join < steps.length
  closed : ∀ branch ∈ state.1, branch.join < state.2
  apart : state.1.Pairwise fun a b => a.join < b.first

theorem searchGroup_windows {state : List OverlapBranch × Nat} {entry : Step × Nat}
    (h : Windows aliases steps state) :
    Windows aliases steps (searchGroup aliases size steps state entry) := by
  unfold searchGroup
  split
  · dsimp only
    split
    · next branch hbranch =>
      obtain ⟨hsafe, hocc, e, he, hjoin⟩ := searchJoins_safe hbranch
      have hlt : branch.join < steps.length := by
        rw [hjoin]
        exact (List.getElem?_eq_some_iff.mp
          (mk_mem_zipIdx_iff_getElem?.mp (mem_of_mem_drop he))).1
      have hwindow := hsafe.selected.before _ hsafe.first_mem
      refine ⟨?_, ?_, ?_, ?_⟩
      · exact forall_mem_append.mpr ⟨h.safe, forall_mem_singleton.mpr hsafe⟩
      · exact forall_mem_append.mpr ⟨h.join_lt, forall_mem_singleton.mpr hlt⟩
      · refine forall_mem_append.mpr ⟨fun b hb => ?_, forall_mem_singleton.mpr ?_⟩
        · have := h.closed b hb
          show b.join < branch.join + 1
          omega
        · exact Nat.lt_succ_self _
      · refine pairwise_append.mpr ⟨h.apart, pairwise_singleton _ _, fun a ha b hb => ?_⟩
        rw [mem_singleton.mp hb]
        exact Nat.lt_of_lt_of_le (h.closed a ha) hocc
    · exact h
  · exact h

/-- The accepted branches pass the hazard checks, and their windows are apart. -/
theorem plannedBranches_windows :
    ∃ occupiedUntil, Windows aliases steps (plannedBranches aliases size steps, occupiedUntil) := by
  have hfold : ∀ (entries : List (Step × Nat)) (state : List OverlapBranch × Nat),
      Windows aliases steps state →
      Windows aliases steps (entries.foldl (searchGroup aliases size steps) state) := by
    intro entries
    induction entries with
    | nil => exact fun _ h => h
    | cons entry entries ih => exact fun state h => ih _ (searchGroup_windows h)
  exact ⟨_, hfold steps.zipIdx ([], 0) ⟨by simp, by simp, by simp, List.Pairwise.nil⟩⟩

end Traversal

/-! ## Marks -/

/-- The marks of one branch, by position. -/
def branchMarks (entry : OverlapBranch × Nat) : List (Nat × CommandOverlap) :=
  (entry.1.selected.zipIdx.map fun (position, i) => (position,
    .worker entry.2 (decide (i = 0)) (decide (i + 1 = entry.1.selected.length)))) ++
    [(entry.1.join, .join entry.2)]

/-- The marks of all branches. -/
def allMarks (planned : List OverlapBranch) : List (Nat × CommandOverlap) :=
  planned.zipIdx.flatMap branchMarks

def applyMarks (commands : List Command) (marks : List (Nat × CommandOverlap)) : List Command :=
  marks.foldl (fun commands mark => setOverlap commands mark.1 mark.2) commands

theorem foldl_markBranch (planned : List OverlapBranch) (commands : List Command) :
    planned.zipIdx.foldl markBranch commands = applyMarks commands (allMarks planned) := by
  have hone : ∀ (commands : List Command) (entry : OverlapBranch × Nat),
      markBranch commands entry = applyMarks commands (branchMarks entry) := by
    rintro commands ⟨branch, index⟩
    unfold markBranch applyMarks branchMarks
    rw [foldl_append, foldl_map]
    rfl
  unfold allMarks applyMarks
  rw [foldl_flatMap]
  exact foldl_ext _ _ commands fun commands entry _ => hone commands entry

theorem setOverlap_getElem? {commands : List Command} {q : Nat} {overlap : CommandOverlap} :
    (setOverlap commands p overlap)[q]? =
      if p = q then commands[q]?.map fun c => { c with overlap } else commands[q]? := by
  rw [setOverlap, List.getElem?_modify]
  split
  · rfl
  · cases commands[q]? with
    | none => rfl
    | some c => rfl

/-- Commands without a mark stay as they are. -/
theorem applyMarks_else : ∀ {marks : List (Nat × CommandOverlap)} {commands : List Command},
    (∀ mark ∈ marks, mark.1 ≠ p) → (applyMarks commands marks)[p]? = commands[p]? := by
  intro marks
  induction marks with
  | nil => exact fun _ => rfl
  | cons mark marks ih =>
    intro commands h
    show (applyMarks (setOverlap commands mark.1 mark.2) marks)[p]? = _
    rw [ih fun m hm => h m (mem_cons_of_mem _ hm), setOverlap_getElem?,
      if_neg (h mark mem_cons_self)]

theorem applyMarks_mem {overlap : CommandOverlap} :
    ∀ {marks : List (Nat × CommandOverlap)} {commands : List Command} {c : Command},
      marks.Pairwise (fun a b => a.1 < b.1) → (p, overlap) ∈ marks → commands[p]? = some c →
      (applyMarks commands marks)[p]? = some { c with overlap } := by
  intro marks
  induction marks with
  | nil => exact fun _ h => nomatch h
  | cons mark marks ih =>
    intro commands c hsorted hmem hc
    have hlt : ∀ m ∈ marks, mark.1 < m.1 := fun m hm => rel_of_pairwise_cons hsorted hm
    show (applyMarks (setOverlap commands mark.1 mark.2) marks)[p]? = _
    rcases mem_cons.mp hmem with rfl | hmem
    · rw [applyMarks_else fun m hm => Nat.ne_of_gt (hlt m hm), setOverlap_getElem?, if_pos rfl, hc]
      rfl
    · refine ih hsorted.of_cons hmem ?_
      rw [setOverlap_getElem?, if_neg (Nat.ne_of_lt (hlt _ hmem)), hc]

section Marks

variable {aliases : List NormalizedAlias} {steps : List Step} {planned : List OverlapBranch}
  {occupiedUntil : Nat}

variable {branch : OverlapBranch} {index : Nat}

theorem mem_branchMarks {p : Nat} {overlap : CommandOverlap} :
    (p, overlap) ∈ branchMarks (branch, index) ↔
      (∃ i, branch.selected[i]? = some p ∧
        overlap = .worker index (decide (i = 0)) (decide (i + 1 = branch.selected.length))) ∨
      (p = branch.join ∧ overlap = .join index) := by
  unfold branchMarks
  rw [mem_append, mem_map, mem_singleton, Prod.mk.injEq]
  refine or_congr_left ?_
  constructor
  · rintro ⟨⟨q, i⟩, hm, h⟩
    obtain ⟨rfl, rfl⟩ := Prod.mk.injEq .. ▸ h
    exact ⟨i, mk_mem_zipIdx_iff_getElem?.mp hm, rfl⟩
  · rintro ⟨i, hi, rfl⟩
    exact ⟨(p, i), mk_mem_zipIdx_iff_getElem?.mpr hi, rfl⟩

/-- The positions of a branch's marks lie between its first step and its join. -/
theorem BranchSafe.mark_window (h : BranchSafe aliases steps branch) {mark : Nat × CommandOverlap}
    (hm : mark ∈ branchMarks (branch, index)) : branch.first ≤ mark.1 ∧ mark.1 ≤ branch.join := by
  obtain ⟨p, overlap⟩ := mark
  rcases mem_branchMarks.mp hm with ⟨i, hi, _⟩ | ⟨rfl, _⟩
  · have hp := mem_of_getElem? hi
    exact ⟨h.first_le hp, Nat.le_of_lt (h.selected.before p hp)⟩
  · exact ⟨Nat.le_of_lt (h.selected.before _ h.first_mem), Nat.le_refl _⟩

theorem BranchSafe.marks_sorted (h : BranchSafe aliases steps branch) (index : Nat) :
    (branchMarks (branch, index)).Pairwise fun a b => a.1 < b.1 := by
  unfold branchMarks
  refine pairwise_append.mpr ⟨?_, pairwise_singleton _ _, ?_⟩
  · refine pairwise_map.mpr ?_
    have hfst : (branch.selected.zipIdx.map (·.1)).Pairwise (· < ·) := by
      rw [zipIdx_map_fst]
      exact h.selected.sorted
    exact pairwise_map.mp hfst
  · intro a ha b hb
    obtain ⟨⟨p, i⟩, hp, rfl⟩ := mem_map.mp ha
    rw [mem_singleton.mp hb]
    exact h.selected.before p (mem_of_getElem? (mk_mem_zipIdx_iff_getElem?.mp hp))

/-- No position has two marks. -/
theorem Windows.marks_sorted (h : Windows aliases steps (planned, occupiedUntil)) :
    (allMarks planned).Pairwise fun a b => a.1 < b.1 := by
  unfold allMarks
  have hsafe : ∀ {entry : OverlapBranch × Nat}, entry ∈ planned.zipIdx →
      BranchSafe aliases steps entry.1 := fun {entry} he =>
    h.safe _ (mem_of_getElem? (mk_mem_zipIdx_iff_getElem?.mp he))
  refine pairwise_flatMap.mpr ⟨fun entry he => (hsafe he).marks_sorted entry.2, ?_⟩
  have hapart : (planned.zipIdx.map (·.1)).Pairwise fun a b => a.join < b.first := by
    rw [zipIdx_map_fst]
    exact h.apart
  refine List.Pairwise.imp_of_mem (fun {a b} ha hb hlt => ?_) (pairwise_map.mp hapart)
  intro x hx y hy
  have h1 : x.1 ≤ a.1.join := ((hsafe ha).mark_window hx).2
  have h2 : b.1.first ≤ y.1 := ((hsafe hb).mark_window hy).1
  exact Nat.lt_of_le_of_lt h1 (Nat.lt_of_lt_of_le hlt h2)

/-- The marks of a branch end up on the commands. -/
theorem Windows.marked_branch (h : Windows aliases steps (planned, occupiedUntil)) {p : Nat}
    (hb : planned[index]? = some branch) {overlap : CommandOverlap}
    (hm : (p, overlap) ∈ branchMarks (branch, index)) {commands : List Command} {c : Command}
    (hc : commands[p]? = some c) :
    (planned.zipIdx.foldl markBranch commands)[p]? = some { c with overlap } := by
  rw [foldl_markBranch]
  refine applyMarks_mem h.marks_sorted ?_ hc
  exact mem_flatMap.mpr ⟨(branch, index), mk_mem_zipIdx_iff_getElem?.mpr hb, hm⟩

/-- A command is either marked by a branch or as it was. -/
theorem marked_cases (planned : List OverlapBranch) (commands : List Command) (p : Nat) :
    (∃ index branch overlap, planned[index]? = some branch ∧
      (p, overlap) ∈ branchMarks (branch, index)) ∨
    (planned.zipIdx.foldl markBranch commands)[p]? = commands[p]? := by
  by_cases h : ∃ mark ∈ allMarks planned, mark.1 = p
  · obtain ⟨⟨q, overlap⟩, hm, rfl⟩ := h
    obtain ⟨⟨branch, index⟩, he, hm⟩ := mem_flatMap.mp hm
    exact .inl ⟨index, branch, overlap, mk_mem_zipIdx_iff_getElem?.mp he, hm⟩
  · refine .inr ?_
    rw [foldl_markBranch]
    exact applyMarks_else fun mark hm hp => h ⟨mark, hm, hp⟩

theorem applyMarks_length (commands : List Command) (marks : List (Nat × CommandOverlap)) :
    (applyMarks commands marks).length = commands.length := by
  induction marks generalizing commands with
  | nil => rfl
  | cons mark marks ih =>
    show (applyMarks (setOverlap commands mark.1 mark.2) marks).length = _
    rw [ih, setOverlap, length_modify]

end Marks

end EffectTorch
