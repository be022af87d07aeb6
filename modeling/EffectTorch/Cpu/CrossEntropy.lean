import EffectTorch.Cpu.ConvState
import EffectTorch.Graph.Node
import EffectTorch.Lib.LogSumExp
import EffectTorch.Lib.Pointwise
import Mathlib

/-!
# Cross-entropy

`cross_entropy_forward_into` and `cross_entropy_backward_into` of `runtime-cpu/src/composed.rs`, with
the summary of the targets that they share with the chunked kernels. Arithmetic is exact and the
elements of the logits have one type. What a kernel that fails leaves in its destinations is not kept.

Results:
1. `summary_eq`: the targets that count, and those out of range.
2. `rowNll_ok`, `rowGradient_writes`: the loss of a row, and its gradient.
3. `crossEntropyForwardInto_mean`, `crossEntropyBackwardInto_mean`: what the kernels return, and the
   targets that they accept.
-/

namespace EffectTorch
open List Lib

/-! ## Destinations -/

section Destinations

variable {K : Type}

/-- `write`: the elements of a destination of the given shape. -/
def Dense.writable (d : Dense K) (operation : String) (shape : List Nat) : Fallible String (Slice K d.shape.prod) := do
  rejectIf (d.shape ≠ shape) (operation ++ " destination shape mismatch: expected " ++ toString shape ++ ", got " ++
    toString d.shape)
  .ok d.elements

/-- A scalar is written. -/
def Dense.writeScalar (d : Dense K) (operation : String) (value : K) : Fallible String (Dense K) := do
  let _ ← d.writable operation []
  .ok ⟨[], [value], rfl⟩

/-- The three values of a status are written. -/
def Dense.writeStatus (d : Dense K) (operation : String) (result active invalid : K) : Fallible String (Dense K) := do
  let _ ← d.writable operation [3]
  .ok ⟨[3], [result, active, invalid], rfl⟩

/-- `fill`. -/
def zeros [Zero K] {n : Nat} : Slice K n := ⟨List.replicate n 0, length_replicate⟩

variable {d : Dense K} {shape : List Nat}

theorem Dense.writable_ok (operation : String) (h : d.shape = shape) : d.writable operation shape = .ok d.elements := by
  exact bind_ok.mpr ⟨(), rejectIf_ok.mpr (not_not_intro h), rfl⟩

theorem Dense.writeScalar_ok (operation : String) (h : d.shape = []) (value : K) :
    d.writeScalar operation value = .ok ⟨[], [value], rfl⟩ := by
  rw [writeScalar, writable_ok operation h, ok_bind]

theorem Dense.writeStatus_ok (operation : String) (h : d.shape = [3]) (result active invalid : K) :
    d.writeStatus operation result active invalid = .ok ⟨[3], [result, active, invalid], rfl⟩ := by
  rw [writeStatus, writable_ok operation h, ok_bind]

end Destinations

/-! ## Targets -/

/-- `TargetValues`, with their tensor. -/
inductive Target where
  | i64 (t : Dense Int64)
  | u32 (t : Dense UInt32)

namespace Target

def shape : Target → List Nat
  | .i64 t => t.shape
  | .u32 t => t.shape

def numel (target : Target) : Nat := target.shape.prod

def get (target : Target) (index : Nat) : Fallible String Int :=
  match target with
  | .i64 t => do
    let value ← t.element index
    .ok value.toInt
  | .u32 t => do
    let value ← t.element index
    .ok value.toNat

/-- `target_is_ignored`. -/
def isIgnored (target : Target) (value ignoreIndex : Int) : Bool :=
  match target with
  | .i64 _ => value == ignoreIndex
  | .u32 _ => decide (0 ≤ ignoreIndex ∧ ignoreIndex ≤ 2 ^ 32 - 1) && value == ignoreIndex

/-- `value < 0 || value as usize >= classes`. -/
def outside (value : Int) (classes : Nat) : Bool := decide (value < 0 ∨ classes ≤ value.toNat)

/-- One turn of the loop over the targets. -/
def summaryTurn (target : Target) (ignoreIndex : Int) (classes : Nat) (counts : Nat × Nat) (index : Nat) :
    Fallible String (Nat × Nat) := do
  let value ← target.get index
  if target.isIgnored value ignoreIndex then .ok counts
  else .ok (counts.1 + 1, counts.2 + (outside value classes).toNat)

/-- `target_summary`: the active targets, and those of them that are out of range. -/
def summary (target : Target) (ignoreIndex : Int) (classes : Nat) : Fallible String (Nat × Nat) :=
  (List.range target.numel).foldlM (target.summaryTurn ignoreIndex classes) (0, 0)

/-- The target of a row; zero outside. -/
def value (target : Target) (row : Nat) : Int :=
  match target with
  | .i64 t => (t.at row).toInt
  | .u32 t => (t.at row).toNat

def Ignored (target : Target) (ignoreIndex : Int) (row : Nat) : Prop :=
  target.isIgnored (target.value row) ignoreIndex = true

instance (target : Target) (ignoreIndex : Int) : DecidablePred (target.Ignored ignoreIndex) := fun _ =>
  inferInstanceAs (Decidable (_ = true))

def Outside (target : Target) (classes row : Nat) : Prop := outside (target.value row) classes = true

instance (target : Target) (classes : Nat) : DecidablePred (target.Outside classes) := fun _ =>
  inferInstanceAs (Decidable (_ = true))

/-- The rows that count. -/
def active (target : Target) (ignoreIndex : Int) (rows : Nat) : Finset Nat :=
  {row ∈ Finset.range rows | ¬ target.Ignored ignoreIndex row}

/-- The rows that count, but have no class. -/
def invalid (target : Target) (ignoreIndex : Int) (classes rows : Nat) : Finset Nat :=
  {row ∈ target.active ignoreIndex rows | target.Outside classes row}

variable {target : Target}

theorem get_ok {row : Nat} (h : row < target.numel) : target.get row = .ok (target.value row) := by
  cases target with
  | i64 t => exact bind_ok.mpr ⟨_, Dense.element_ok h, rfl⟩
  | u32 t => exact bind_ok.mpr ⟨_, Dense.element_ok h, rfl⟩

theorem active_succ (ignoreIndex : Int) (row : Nat) : (target.active ignoreIndex (row + 1)).card =
    (target.active ignoreIndex row).card + if target.Ignored ignoreIndex row then 0 else 1 := by
  have hnew : row ∉ target.active ignoreIndex row := fun h => Finset.notMem_range_self (Finset.mem_filter.mp h).1
  by_cases h : target.Ignored ignoreIndex row
  · rw [if_pos h, active, Finset.range_add_one, Finset.filter_insert, if_neg (not_not_intro h)]
    rfl
  · rw [if_neg h, active, Finset.range_add_one, Finset.filter_insert, if_pos h]
    exact Finset.card_insert_of_notMem hnew

theorem invalid_succ (ignoreIndex : Int) (classes row : Nat) : (target.invalid ignoreIndex classes (row + 1)).card =
    (target.invalid ignoreIndex classes row).card +
      if ¬ target.Ignored ignoreIndex row ∧ target.Outside classes row then 1 else 0 := by
  have hnew : row ∉ target.invalid ignoreIndex classes row := fun h =>
    Finset.notMem_range_self (Finset.mem_filter.mp (Finset.mem_filter.mp h).1).1
  simp only [invalid, active, Finset.filter_filter] at hnew ⊢
  by_cases h : ¬ target.Ignored ignoreIndex row ∧ target.Outside classes row
  · rw [if_pos h, Finset.range_add_one, Finset.filter_insert, if_pos h]
    exact Finset.card_insert_of_notMem hnew
  · rw [if_neg h, Finset.range_add_one, Finset.filter_insert, if_neg h]
    rfl

theorem toNat_active (ignoreIndex : Int) (row : Nat) : (!target.isIgnored (target.value row) ignoreIndex).toNat =
    if target.Ignored ignoreIndex row then 0 else 1 := by
  by_cases h : target.Ignored ignoreIndex row
  · rw [if_pos h, show target.isIgnored (target.value row) ignoreIndex = true from h]
    rfl
  · rw [if_neg h, Bool.eq_false_of_not_eq_true h]
    rfl

theorem toNat_invalid (ignoreIndex : Int) (classes row : Nat) :
    (!target.isIgnored (target.value row) ignoreIndex && outside (target.value row) classes).toNat =
      if ¬ target.Ignored ignoreIndex row ∧ target.Outside classes row then 1 else 0 := by
  by_cases h : target.Ignored ignoreIndex row
  · rw [if_neg fun hboth => hboth.1 h, show target.isIgnored (target.value row) ignoreIndex = true from h]
    rfl
  · rw [Bool.eq_false_of_not_eq_true h]
    by_cases houtside : target.Outside classes row
    · rw [if_pos ⟨h, houtside⟩, show outside (target.value row) classes = true from houtside]
      rfl
    · rw [if_neg fun hboth => houtside hboth.2, Bool.eq_false_of_not_eq_true houtside]
      rfl

theorem summaryTurn_ok {row : Nat} (h : row < target.numel) (ignoreIndex : Int) (classes : Nat) (counts : Nat × Nat) :
    target.summaryTurn ignoreIndex classes counts row = .ok (counts.1 + (if target.Ignored ignoreIndex row then 0 else 1),
      counts.2 + if ¬ target.Ignored ignoreIndex row ∧ target.Outside classes row then 1 else 0) := by
  rw [summaryTurn, get_ok h, ok_bind, ← toNat_active, ← toNat_invalid]
  cases target.isIgnored (target.value row) ignoreIndex <;> rfl

/-- The targets that count, and those of them that are out of range. -/
theorem summary_eq (target : Target) (ignoreIndex : Int) (classes : Nat) : target.summary ignoreIndex classes =
    .ok ((target.active ignoreIndex target.numel).card, (target.invalid ignoreIndex classes target.numel).card) := by
  suffices h : ∀ n ≤ target.numel, (List.range n).foldlM (target.summaryTurn ignoreIndex classes) (0, 0) =
      .ok ((target.active ignoreIndex n).card, (target.invalid ignoreIndex classes n).card) from h _ (Nat.le_refl _)
  intro n
  induction n with
  | zero => exact fun _ => rfl
  | succ n ih =>
    intro hn
    rw [range_succ, foldlM_append, ih (Nat.le_of_succ_le hn), ok_bind, foldlM_cons, summaryTurn_ok hn,
      active_succ, invalid_succ]
    rfl

end Target

/-! ## Rows -/

section Rows

variable {R : Type} [Field R] [LinearOrder R] (exp ln : R → R)

/-- The loop over `maximum`; none is negative infinity. -/
def rowMaximum (logit : Nat → Fallible String R) (classes : Nat) : Fallible String (Option R) :=
  (List.range classes).foldlM (fun maximum c => do
    let value ← logit c
    .ok (some (maximum.elim value (max · value)))) none

/-- The loop over `sum`. -/
def rowSum (logit : Nat → Fallible String R) (classes : Nat) (maximum : R) : Fallible String R :=
  (List.range classes).foldlM (fun sum c => do
    let value ← logit c
    .ok (sum + exp (value - maximum))) 0

/-- The loss of a row. There is a class, so that the maximum is a number. -/
def rowNll (logit : Nat → Fallible String R) (classes label : Nat) : Fallible String R := do
  let maximum := (← rowMaximum logit classes).getD 0
  let sum ← rowSum exp logit classes maximum
  let picked ← logit label
  .ok (maximum + ln sum - picked)

/-- The gradient of a row, from `base` on. -/
def rowGradient {n : Nat} (logit : Nat → Fallible String R) (classes label : Nat) (scale : R) (base : Nat) (output : Slice R n) :
    Fallible String (Slice R n) := do
  let maximum := (← rowMaximum logit classes).getD 0
  let sum ← rowSum exp logit classes maximum
  (List.range classes).foldlM (fun output c =>
    (do
      let probability := exp ((← logit c) - maximum) / sum
      .ok ((probability - if c = label then 1 else 0) * scale)) >>= fun value => output.write (base + c) value) output

/-- A row is filled with zeros. -/
def rowZeros {n : Nat} (classes base : Nat) (output : Slice R n) : Fallible String (Slice R n) :=
  (List.range classes).foldlM (fun output c => .ok 0 >>= fun value => output.write (base + c) value) output

variable {exp ln} {logit : Nat → Fallible String R} {z : Nat → R} {classes : Nat}

/-- The cross-entropy of a row. -/
def rowLoss (exp ln : R → R) (z : Nat → R) (classes label : Nat) : R :=
  ln (∑ c ∈ Finset.range classes, exp (z c)) - z label

/-- The softmax of a row, less its label. -/
def rowDelta (exp : R → R) (z : Nat → R) (classes label c : Nat) : R :=
  exp (z c) / (∑ c ∈ Finset.range classes, exp (z c)) - if c = label then 1 else 0

omit [Field R] in
theorem rowMaximum_ok (h : ∀ c < classes, logit c = .ok (z c)) : ∃ maximum, rowMaximum logit classes = .ok maximum :=
  foldlM_returns (fun maximum c hc => ⟨_, by rw [h c (mem_range.mp hc), ok_bind]⟩) none

omit [LinearOrder R] in
theorem rowSum_ok (h : ∀ c < classes, logit c = .ok (z c)) (maximum : R) :
    rowSum exp logit classes maximum = .ok (∑ c ∈ Finset.range classes, exp (z c - maximum)) := by
  have hturn : ∀ c ∈ List.range classes, ∀ sum, (do
      let value ← logit c
      .ok (sum + exp (value - maximum)) : Fallible String R) = .ok (sum + exp (z c - maximum)) := by
    intro c hc sum
    rw [h c (mem_range.mp hc), ok_bind]
  exact (sum_loop hturn 0).trans (congrArg Except.ok (zero_add _))

variable [IsStrictOrderedRing R]

theorem rowNll_ok (hexp : LogLaws exp ln) (h : ∀ c < classes, logit c = .ok (z c)) {label : Nat} (hlabel : label < classes) :
    rowNll exp ln logit classes label = .ok (rowLoss exp ln z classes label) := by
  obtain ⟨maximum, hmaximum⟩ := rowMaximum_ok h
  have hne : (Finset.range classes).Nonempty := ⟨label, Finset.mem_range.mpr hlabel⟩
  unfold rowNll
  simp only [hmaximum, ok_bind, rowSum_ok h, h label hlabel]
  rw [logSumExp_shift hexp hne, rowLoss]

omit [IsStrictOrderedRing R] in
theorem rowGradient_writes (hexp : ExpLaws exp) (h : ∀ c < classes, logit c = .ok (z c)) (label : Nat) (scale : R)
    {n base : Nat} (hbase : base + classes ≤ n) :
    Slice.WritesRow (n := n) base classes (fun c => rowDelta exp z classes label c * scale)
      (rowGradient exp logit classes label scale base) := by
  obtain ⟨maximum, hmaximum⟩ := rowMaximum_ok h
  unfold rowGradient
  simp only [hmaximum, ok_bind, rowSum_ok h]
  refine Slice.writesRow hbase fun c hc => ?_
  rw [h c hc, ok_bind, hexp.softmax_shift, rowDelta]

omit [LinearOrder R] [IsStrictOrderedRing R] in
theorem rowZeros_writes {n base : Nat} (hbase : base + classes ≤ n) :
    Slice.WritesRow (n := n) base classes (fun _ => (0 : R)) (rowZeros classes base) :=
  Slice.writesRow hbase fun _ _ => rfl

end Rows

/-! ## The kernels -/

/-- What the kernels make of the counts. -/
def checkTargets (reduction : CrossEntropyReduction) (active invalid classes : Nat) : Fallible String Unit := do
  rejectIf (active = 0 ∧ reduction = .mean) "cross_entropy: no active targets (all positions are ignored)"
  rejectIf (invalid ≠ 0) ("cross_entropy: target out of range [0, " ++ toString classes ++ ") at an active position")

/-- `cross_entropy_geometry`: the rows and the classes. -/
def crossEntropyGeometry {R : Type} (logits : Dense R) (target : Target) : Fallible String (Nat × Nat) := do
  let classes ← okOr logits.shape.getLast? "cross_entropy: logits must have rank >= 1"
  rejectIf (classes = 0) "cross_entropy: zero classes are unsupported"
  let elements ← okOr (logits.shape.foldlM checkedMul 1) "cross_entropy logits: element count overflow"
  let rows := elements / classes
  rejectIf (rows = 0) "cross_entropy: target shape does not match logits rows"
  let targets ← okOr (target.shape.foldlM checkedMul 1) "cross_entropy target: element count overflow"
  rejectIf (targets ≠ rows) "cross_entropy: target shape does not match logits rows"
  .ok (rows, classes)

section Kernels

variable {R : Type} [Field R] [LinearOrder R] (exp ln : R → R)

/-- The flags of a row: whether it is ignored, and whether it has no class. -/
def rowFlags (ignored invalid : Bool) : Nat := ignored.toNat ||| (invalid.toNat <<< 1)

/-- The loss of a row that is neither ignored nor without a class, and zero otherwise. -/
def maskedNll (logit : Nat → Fallible String R) (classes : Nat) (masked : Bool) (label : Nat) : Fallible String R :=
  if masked then .ok 0 else rowNll exp ln logit classes label

/-- The turn of a row: its loss and its flags. -/
def lossTurn {n m : Nat} (logit : Nat → Fallible String R) (target : Target) (ignoreIndex : Int) (classes row : Nat)
    (s : Slice R n × Slice Nat m) : Fallible String (Slice R n × Slice Nat m) := do
  let value ← target.get row
  let ignored := target.isIgnored value ignoreIndex
  let invalid := !ignored && Target.outside value classes
  let flags ← s.2.write row (rowFlags ignored invalid)
  let loss ← maskedNll exp ln logit classes (ignored || invalid) value.toNat
  let nll ← s.1.write row loss
  .ok (nll, flags)

/-- The turn of the loop that adds up the losses and counts the rows. -/
def countTurn {n m : Nat} (nll : Slice R n) (flags : Slice Nat m) (counts : R × Nat × Nat) (row : Nat) :
    Fallible String (R × Nat × Nat) := do
  let loss ← nll.read row
  let flag ← flags.read row
  .ok (counts.1 + loss, counts.2.1 + (decide (flag &&& 1 = 0)).toNat, counts.2.2 + (decide (flag &&& 2 ≠ 0)).toNat)

/-- The result of the forward pass. -/
def reduced (reduction : CrossEntropyReduction) (total : R) (active : Nat) : R :=
  if reduction = .mean ∧ active ≠ 0 then total / active else total

/-- `cross_entropy_forward_into`: the loss and the status. -/
def crossEntropyForwardInto (logits : Dense R) (target : Target) (ignoreIndex : Int) (reduction : CrossEntropyReduction)
    (loss status nllScratch : Dense R) (flagsScratch : Dense Nat) : Fallible String (Dense R × Dense R) := do
  let (rows, classes) ← crossEntropyGeometry logits target
  let nll ← nllScratch.writable "cross_entropy nll scratch" [rows]
  let flags ← flagsScratch.writable "cross_entropy flags scratch" [rows]
  let (nll, flags) ← (List.range rows).foldlM (fun s row =>
    lossTurn exp ln (fun c => logits.element (row * classes + c)) target ignoreIndex classes row s) (nll, flags)
  let (total, active, invalid) ← (List.range rows).foldlM (countTurn nll flags) (0, 0, 0)
  let result := reduced reduction total active
  let status ← status.writeStatus "cross_entropy status" result active invalid
  let loss ← loss.writeScalar "cross_entropy loss" result
  checkTargets reduction active invalid classes
  .ok (loss, status)

/-- The turn of a row of the gradient. -/
def gradientTurn {n : Nat} (logit : Nat → Fallible String R) (target : Target) (ignoreIndex : Int) (classes : Nat) (scale : R)
    (row base : Nat) (output : Slice R n) : Fallible String (Slice R n) := do
  let value ← target.get row
  if target.isIgnored value ignoreIndex then rowZeros classes base output
  else rowGradient exp logit classes value.toNat scale base output

/-- `cross_entropy_backward_into`: the gradient and, for the mean, the count. -/
def crossEntropyBackwardInto (logits : Dense R) (target : Target) (ignoreIndex : Int) (reduction : CrossEntropyReduction)
    (grad : Dense R) (countStatus : Option (Dense R)) : Fallible String (Dense R × Option (Dense R)) := do
  let (rows, classes) ← crossEntropyGeometry logits target
  let (active, invalid) ← target.summary ignoreIndex classes
  checkTargets reduction active invalid classes
  let count ← match reduction, countStatus with
    | .mean, some status => do
      let _ ← status.writable "cross_entropy count status" [1]
      .ok (some (⟨[1], [(active : R)], rfl⟩ : Dense R))
    | .mean, none => .error (.error "cross_entropy: mean backward requires count status")
    | .sum, some _ => .error (.error "cross_entropy: sum backward has no count status")
    | .sum, none => .ok none
  let scale : R := if reduction = .mean then 1 / (active : R) else 1
  let output ← grad.writable "cross_entropy gradient" logits.shape
  let output ← (List.range rows).foldlM (fun output row =>
    gradientTurn exp (fun c => logits.element (row * classes + c)) target ignoreIndex classes scale row (row * classes) output)
    output
  .ok (⟨grad.shape, output⟩, count)

variable {exp ln} {target : Target} {ignoreIndex : Int} {classes n m : Nat}

/-- The loss of a row: zero when it does not count or has no class. -/
def lossAt (exp ln : R → R) (target : Target) (ignoreIndex : Int) (classes : Nat) (z : Nat → Nat → R) (row : Nat) : R :=
  if target.Ignored ignoreIndex row ∨ target.Outside classes row then 0
  else rowLoss exp ln (z row) classes (target.value row).toNat

/-- The flags of a row. -/
def flagsAt (target : Target) (ignoreIndex : Int) (classes row : Nat) : Nat :=
  rowFlags (target.isIgnored (target.value row) ignoreIndex)
    (!target.isIgnored (target.value row) ignoreIndex && Target.outside (target.value row) classes)

variable {z : Nat → Nat → R} {row rows : Nat}

theorem Target.label_lt (h : ¬ target.Outside classes row) : (target.value row).toNat < classes := by
  have hinside : ¬ (target.value row < 0 ∨ classes ≤ (target.value row).toNat) := fun hout =>
    h (decide_eq_true hout)
  exact Nat.not_le.mp fun hle => hinside (.inr hle)

variable [IsStrictOrderedRing R]

theorem maskedNll_ok {logit : Nat → Fallible String R} (hexp : LogLaws exp ln) (hlogit : ∀ c < classes, logit c = .ok (z row c)) :
    maskedNll exp ln logit classes (target.isIgnored (target.value row) ignoreIndex ||
      (!target.isIgnored (target.value row) ignoreIndex && Target.outside (target.value row) classes))
        (target.value row).toNat = .ok (lossAt exp ln target ignoreIndex classes z row) := by
  unfold lossAt
  by_cases hignored : target.Ignored ignoreIndex row
  · have hskip : target.Ignored ignoreIndex row ∨ target.Outside classes row := .inl hignored
    rw [if_pos hskip, show target.isIgnored (target.value row) ignoreIndex = true from hignored]
    rfl
  · rw [Bool.eq_false_of_not_eq_true hignored]
    by_cases houtside : target.Outside classes row
    · have hskip : target.Ignored ignoreIndex row ∨ target.Outside classes row := .inr houtside
      rw [if_pos hskip, show Target.outside (target.value row) classes = true from houtside]
      rfl
    · rw [if_neg (not_or_intro hignored houtside), Bool.eq_false_of_not_eq_true houtside]
      exact rowNll_ok hexp hlogit (Target.label_lt houtside)

/-- The turn of a row leaves its loss and its flags in the slots. -/
theorem lossTurn_ok {logit : Nat → Fallible String R} (hexp : LogLaws exp ln) (ignoreIndex : Int) (hrow : row < target.numel)
    (hlogit : ∀ c < classes, logit c = .ok (z row c)) (hn : row < n) (hm : row < m)
    (s : Slice R n × Slice Nat m) :
    ∃ s', lossTurn exp ln logit target ignoreIndex classes row s = .ok s' ∧
      (s'.1.get? row = some (lossAt exp ln target ignoreIndex classes z row) ∧
        s'.2.get? row = some (flagsAt target ignoreIndex classes row)) ∧
      ∀ i ≠ row, s'.1.get? i = s.1.get? i ∧ s'.2.get? i = s.2.get? i := by
  obtain ⟨flags, hflags, hflag, hkept⟩ := s.2.exists_write (ε := String) hm (flagsAt target ignoreIndex classes row)
  obtain ⟨nll, hnll, hloss, hkept'⟩ :=
    s.1.exists_write (ε := String) hn (lossAt exp ln target ignoreIndex classes z row)
  refine ⟨(nll, flags), ?_, ⟨hloss, hflag⟩, fun i hi => ⟨hkept' i hi, hkept i hi⟩⟩
  unfold lossTurn
  simp only [Target.get_ok hrow, ok_bind]
  show (s.2.write row (flagsAt target ignoreIndex classes row) >>= _) = _
  rw [hflags, ok_bind, maskedNll_ok hexp hlogit, ok_bind, hnll, ok_bind]

omit [LinearOrder R] [IsStrictOrderedRing R] in
/-- The turn that adds up a row counts it once. -/
theorem countTurn_ok {nll : Slice R n} {flags : Slice Nat m} {loss : R} (hloss : nll.get? row = some loss)
    (hflags : flags.get? row = some (flagsAt target ignoreIndex classes row)) (counts : R × Nat × Nat) :
    countTurn nll flags counts row = .ok (counts.1 + loss,
      counts.2.1 + (if target.Ignored ignoreIndex row then 0 else 1),
      counts.2.2 + if ¬ target.Ignored ignoreIndex row ∧ target.Outside classes row then 1 else 0) := by
  rw [countTurn, Slice.read_ok.mpr hloss, ok_bind, Slice.read_ok.mpr hflags, ok_bind, flagsAt, ← Target.toNat_active,
    ← Target.toNat_invalid]
  cases target.isIgnored (target.value row) ignoreIndex <;> cases Target.outside (target.value row) classes <;> rfl

/-- The losses of the rows, added up and divided by the number of rows that count. -/
def meanLoss (exp ln : R → R) (target : Target) (ignoreIndex : Int) (classes rows : Nat) (z : Nat → Nat → R) : R :=
  (∑ row ∈ target.active ignoreIndex rows, rowLoss exp ln (z row) classes (target.value row).toNat) /
    (target.active ignoreIndex rows).card

omit [LinearOrder R] [IsStrictOrderedRing R] in
/-- Where every row that counts has a class, the losses of the others are zero. -/
theorem sum_lossAt (hvalid : (target.invalid ignoreIndex classes rows).card = 0) (z : Nat → Nat → R) :
    ∑ row ∈ Finset.range rows, lossAt exp ln target ignoreIndex classes z row =
      ∑ row ∈ target.active ignoreIndex rows, rowLoss exp ln (z row) classes (target.value row).toNat := by
  rw [Target.active, Finset.sum_filter]
  refine Finset.sum_congr rfl fun row hrow => ?_
  unfold lossAt
  by_cases hignored : target.Ignored ignoreIndex row
  · rw [if_pos (.inl hignored), if_neg (not_not_intro hignored)]
  · have hinside : ¬ target.Outside classes row := fun houtside =>
      Finset.notMem_empty row (Finset.card_eq_zero.mp hvalid ▸
        Finset.mem_filter.mpr ⟨Finset.mem_filter.mpr ⟨hrow, hignored⟩, houtside⟩)
    rw [if_neg (not_or_intro hignored hinside), if_pos hignored]

theorem checkTargets_iff {active invalid : Nat} :
    checkTargets .mean active invalid classes = .ok () ↔ active ≠ 0 ∧ invalid = 0 := by
  rw [checkTargets, bind_ok]
  constructor
  · rintro ⟨_, hactive, hinvalid⟩
    exact ⟨fun h => rejectIf_ok.mp hactive ⟨h, rfl⟩, not_not.mp (rejectIf_ok.mp hinvalid)⟩
  · rintro ⟨hactive, hinvalid⟩
    exact ⟨(), rejectIf_ok.mpr fun h => hactive h.1, rejectIf_ok.mpr (not_not_intro hinvalid)⟩

/-- Some row counts, and every row that counts has a class. -/
def Target.Accepted (target : Target) (ignoreIndex : Int) (classes rows : Nat) : Prop :=
  (∃ row < rows, ¬ target.Ignored ignoreIndex row) ∧
    ∀ row < rows, ¬ target.Ignored ignoreIndex row → ¬ target.Outside classes row

theorem Target.accepted_iff : target.Accepted ignoreIndex classes rows ↔
    (target.active ignoreIndex rows).card ≠ 0 ∧ (target.invalid ignoreIndex classes rows).card = 0 := by
  refine and_congr ?_ ?_
  · rw [Finset.card_ne_zero]
    exact ⟨fun ⟨row, hrow, h⟩ => ⟨row, Finset.mem_filter.mpr ⟨Finset.mem_range.mpr hrow, h⟩⟩,
      fun ⟨row, h⟩ => ⟨row, Finset.mem_range.mp (Finset.mem_filter.mp h).1, (Finset.mem_filter.mp h).2⟩⟩
  · rw [Finset.card_eq_zero, Target.invalid, Finset.filter_eq_empty_iff]
    exact ⟨fun h row hrow => h row (Finset.mem_range.mp (Finset.mem_filter.mp hrow).1) (Finset.mem_filter.mp hrow).2,
      fun h row hrow hcounts => h (Finset.mem_filter.mpr ⟨Finset.mem_range.mpr hrow, hcounts⟩)⟩

/-- A kernel that checks its targets and then returns, returns exactly for the targets that are accepted. -/
theorem checkTargets_returns {α : Type} {run : Fallible String α} {a : α}
    (hrun : run = (checkTargets .mean (target.active ignoreIndex rows).card (target.invalid ignoreIndex classes rows).card classes >>= fun _ => .ok a)) :
    (target.Accepted ignoreIndex classes rows → run = .ok a) ∧
      ((∃ a, run = .ok a) ↔ target.Accepted ignoreIndex classes rows) := by
  have haccepted : target.Accepted ignoreIndex classes rows → run = .ok a := fun h => by
    rw [hrun, checkTargets_iff.mpr (Target.accepted_iff.mp h), ok_bind]
  refine ⟨haccepted, fun ⟨b, hb⟩ => ?_, fun h => ⟨a, haccepted h⟩⟩
  obtain ⟨_, hcheck, _⟩ := bind_ok.mp (hrun.symm.trans hb)
  exact Target.accepted_iff.mpr (checkTargets_iff.mp hcheck)

/-- What the forward pass writes. -/
structure LossBuffers (R : Type) (slots : Nat) where
  loss : Dense R
  status : Dense R
  nll : Dense R
  flags : Dense Nat
  loss_shape : loss.shape = []
  status_shape : status.shape = [3]
  nll_shape : nll.shape = [slots]
  flags_shape : flags.shape = [slots]

/-- The tensors of a cross-entropy: logits over the classes, and a target for each row. -/
structure LogitsFit (logits : Dense R) (target : Target) (lead : List Nat) (classes : Nat) : Prop where
  shape : logits.shape = lead ++ [classes]
  targets : target.numel = lead.prod
  positive : 0 ∉ logits.shape
  fits : logits.shape.prod ≤ usizeMax

variable {logits : Dense R} {lead : List Nat}

omit [Field R] [LinearOrder R] [IsStrictOrderedRing R] in
theorem LogitsFit.geometry (h : LogitsFit logits target lead classes) :
    crossEntropyGeometry logits target = .ok (lead.prod, classes) := by
  have hpositive := h.positive
  rw [h.shape, mem_append, not_or, mem_singleton] at hpositive
  have hclasses : classes ≠ 0 := Ne.symm hpositive.2
  have hlead : lead.prod ≠ 0 := prod_ne_zero hpositive.1
  have htargets : 0 ∉ target.shape := fun hzero => hlead (h.targets.symm.trans (prod_eq_zero hzero))
  have hle : lead.prod ≤ usizeMax := by
    refine Nat.le_trans ?_ h.fits
    rw [h.shape, prod_append, prod_singleton]
    exact Nat.le_mul_of_pos_right _ (Nat.pos_of_ne_zero hclasses)
  have hnumel : target.shape.foldlM checkedMul 1 = some lead.prod := by
    rw [lead_ok htargets (h.targets.trans_le hle)]
    exact congrArg some h.targets
  have helements : logits.shape.prod / classes = lead.prod := by
    rw [h.shape, prod_append, prod_singleton, Nat.mul_div_cancel _ (Nat.pos_of_ne_zero hclasses)]
  have hlast : logits.shape.getLast? = some classes := by
    rw [h.shape, List.getLast?_append]
    rfl
  rw [crossEntropyGeometry, hlast, okOr_some, ok_bind]
  refine bind_ok.mpr ⟨(), rejectIf_ok.mpr hclasses, ?_⟩
  rw [lead_ok h.positive h.fits, okOr_some, ok_bind, helements]
  refine bind_ok.mpr ⟨(), rejectIf_ok.mpr hlead, ?_⟩
  rw [hnumel, okOr_some, ok_bind]
  exact bind_ok.mpr ⟨(), rejectIf_ok.mpr (not_not_intro rfl), rfl⟩

omit [LinearOrder R] [IsStrictOrderedRing R] in
theorem LogitsFit.logit (h : LogitsFit logits target lead classes) {c : Nat} (hrow : row < lead.prod)
    (hc : c < classes) : logits.element (row * classes + c) = .ok (logits.at (row * classes + c)) := by
  refine Dense.element_ok ?_
  rw [h.shape, prod_append, prod_singleton]
  exact row_lt hrow hc

/-- The loop over the rows leaves their losses and their flags. -/
theorem lossRows_ok (hexp : LogLaws exp ln) {logit : Nat → Nat → Fallible String R}
    (hlogit : ∀ row < rows, ∀ c < classes, logit row c = .ok (z row c)) (htargets : rows ≤ target.numel)
    (hn : rows ≤ n) (hm : rows ≤ m) (ignoreIndex : Int) (s : Slice R n × Slice Nat m) :
    ∃ s', (List.range rows).foldlM (fun s row => lossTurn exp ln (logit row) target ignoreIndex classes row s) s = .ok s' ∧
      ∀ row < rows, s'.1.get? row = some (lossAt exp ln target ignoreIndex classes z row) ∧
        s'.2.get? row = some (flagsAt target ignoreIndex classes row) := by
  refine rangeLoop_total (fun n' (s : Slice R n × Slice Nat m) => ∀ row < n',
    s.1.get? row = some (lossAt exp ln target ignoreIndex classes z row) ∧
      s.2.get? row = some (flagsAt target ignoreIndex classes row)) ?_ fun row hrow => absurd hrow (Nat.not_lt_zero row)
  intro row hrow s hs
  obtain ⟨s', hturn, hslot, hkept⟩ := lossTurn_ok hexp ignoreIndex (Nat.lt_of_lt_of_le hrow htargets)
    (hlogit row hrow) (Nat.lt_of_lt_of_le hrow hn) (Nat.lt_of_lt_of_le hrow hm) s
  refine ⟨s', hturn, fun i hi => ?_⟩
  rcases Nat.lt_succ_iff_lt_or_eq.mp hi with hlt | rfl
  · obtain ⟨hnll, hflags⟩ := hkept i (Nat.ne_of_lt hlt)
    exact ⟨hnll.trans (hs i hlt).1, hflags.trans (hs i hlt).2⟩
  · exact hslot

omit [LinearOrder R] [IsStrictOrderedRing R] in
/-- The loop that adds up the losses counts the rows. -/
theorem countRows_ok {nll : Slice R n} {flags : Slice Nat m} {loss : Nat → R}
    (hslots : ∀ row < rows, nll.get? row = some (loss row) ∧ flags.get? row = some (flagsAt target ignoreIndex classes row)) :
    (List.range rows).foldlM (countTurn nll flags) (0, 0, 0) = .ok (∑ row ∈ Finset.range rows, loss row,
      (target.active ignoreIndex rows).card, (target.invalid ignoreIndex classes rows).card) := by
  induction rows with
  | zero => rfl
  | succ rows ih =>
    obtain ⟨hloss, hflags⟩ := hslots rows (Nat.lt_succ_self rows)
    rw [range_succ, foldlM_append, ih fun row hrow => hslots row (Nat.lt_succ_of_lt hrow), ok_bind,
      foldlM_cons, countTurn_ok hloss hflags, Finset.sum_range_succ, Target.active_succ, Target.invalid_succ]
    rfl

/-- The mean cross-entropy, for targets that are accepted. -/
theorem crossEntropyForwardInto_mean (hexp : LogLaws exp ln) (h : LogitsFit logits target lead classes)
    (ignoreIndex : Int) (b : LossBuffers R lead.prod) :
    ∃ loss' status', ((target.active ignoreIndex lead.prod).card ≠ 0 ∧
        (target.invalid ignoreIndex classes lead.prod).card = 0 → loss'.at 0 =
          meanLoss exp ln target ignoreIndex classes lead.prod fun row c => logits.at (row * classes + c)) ∧
      crossEntropyForwardInto exp ln logits target ignoreIndex .mean b.loss b.status b.nll b.flags =
        (checkTargets .mean (target.active ignoreIndex lead.prod).card (target.invalid ignoreIndex classes lead.prod).card
          classes >>= fun _ => .ok (loss', status')) := by
  have hn : lead.prod ≤ b.nll.shape.prod := by rw [b.nll_shape, prod_singleton]
  have hm : lead.prod ≤ b.flags.shape.prod := by rw [b.flags_shape, prod_singleton]
  obtain ⟨⟨nll, flags⟩, hrows, hslots⟩ := lossRows_ok hexp (fun row hrow c hc => h.logit hrow hc) (Nat.le_of_eq h.targets.symm)
    hn hm ignoreIndex (b.nll.elements, b.flags.elements)
  obtain ⟨total, htotal⟩ : ∃ total, total = ∑ row ∈ Finset.range lead.prod,
      lossAt exp ln target ignoreIndex classes (fun row c => logits.at (row * classes + c)) row := ⟨_, rfl⟩
  have hcounts := countRows_ok hslots
  rw [← htotal] at hcounts
  refine ⟨⟨[], [reduced .mean total (target.active ignoreIndex lead.prod).card], rfl⟩,
    ⟨[3], [reduced .mean total (target.active ignoreIndex lead.prod).card, (target.active ignoreIndex lead.prod).card,
      (target.invalid ignoreIndex classes lead.prod).card], rfl⟩, fun ⟨hactive, hinvalid⟩ => ?_, ?_⟩
  · show reduced .mean total _ = _
    rw [reduced, if_pos ⟨rfl, hactive⟩, htotal, sum_lossAt hinvalid, meanLoss]
  · unfold crossEntropyForwardInto
    simp only [h.geometry, ok_bind, Dense.writable_ok _ b.nll_shape, Dense.writable_ok _ b.flags_shape, hrows, hcounts,
      Dense.writeStatus_ok _ b.status_shape, Dense.writeScalar_ok _ b.loss_shape]

/-- The gradient of a row, up to the scale: zero when the row does not count. -/
def gradientAt (exp : R → R) (target : Target) (ignoreIndex : Int) (classes : Nat) (z : Nat → Nat → R) (row c : Nat) : R :=
  if target.Ignored ignoreIndex row then 0 else rowDelta exp (z row) classes (target.value row).toNat c

omit [IsStrictOrderedRing R] in
/-- The turn of a row leaves its gradient from `base` on. -/
theorem gradientTurn_writes {logit : Nat → Fallible String R} (hexp : ExpLaws exp) {base : Nat} (hrow : row < target.numel)
    (hlogit : ∀ c < classes, logit c = .ok (z row c)) (ignoreIndex : Int) (scale : R)
    (hbase : base + classes ≤ n) :
    Slice.WritesRow (n := n) base classes (fun c => gradientAt exp target ignoreIndex classes z row c * scale)
      (gradientTurn exp logit target ignoreIndex classes scale row base) := by
  unfold gradientTurn gradientAt
  simp only [Target.get_ok hrow, ok_bind]
  by_cases hignored : target.Ignored ignoreIndex row
  · have hmasked : target.isIgnored (target.value row) ignoreIndex = true := hignored
    simp only [if_pos hignored, if_pos hmasked, zero_mul]
    exact rowZeros_writes hbase
  · have hcounts : ¬ target.isIgnored (target.value row) ignoreIndex = true := hignored
    simp only [if_neg hignored, if_neg hcounts]
    exact rowGradient_writes hexp hlogit _ scale hbase

omit [IsStrictOrderedRing R] in
/-- The loop over the rows leaves their gradients. -/
theorem gradientRows_ok (hexp : ExpLaws exp) {logit : Nat → Nat → Fallible String R}
    (hlogit : ∀ row < rows, ∀ c < classes, logit row c = .ok (z row c)) (htargets : rows ≤ target.numel)
    (hn : rows * classes ≤ n) (ignoreIndex : Int) (scale : R) (out : Slice R n) :
    ∃ out', (List.range rows).foldlM (fun output row =>
        gradientTurn exp (logit row) target ignoreIndex classes scale row (row * classes) output) out = .ok out' ∧
      ∀ row < rows, ∀ c < classes, out'.get? (row * classes + c) =
        some (gradientAt exp target ignoreIndex classes z row c * scale) := by
  refine rangeLoop_total (fun n' (out : Slice R n) => ∀ row < n', ∀ c < classes, out.get? (row * classes + c) =
    some (gradientAt exp target ignoreIndex classes z row c * scale)) ?_ fun row hrow => absurd hrow (Nat.not_lt_zero row)
  intro row hrow out hout
  have hbase : row * classes + classes ≤ n := by
    rw [← Nat.succ_mul]
    exact Nat.le_trans (Nat.mul_le_mul_right classes hrow) hn
  obtain ⟨out', hturn, hin, hkept⟩ := gradientTurn_writes hexp (Nat.lt_of_lt_of_le hrow htargets) (hlogit row hrow)
    ignoreIndex scale hbase out
  refine ⟨out', hturn, fun i hi c hc => ?_⟩
  rcases Nat.lt_succ_iff_lt_or_eq.mp hi with hlt | rfl
  · have hbefore : i * classes + c < row * classes := by
      refine Nat.lt_of_lt_of_le (Nat.add_lt_add_left hc _) ?_
      rw [← Nat.succ_mul]
      exact Nat.mul_le_mul_right classes hlt
    rw [hkept _ (.inl hbefore), hout i hlt c hc]
  · exact hin c hc

omit [IsStrictOrderedRing R] in
/-- The gradient of the mean cross-entropy, for targets that are accepted. -/
theorem crossEntropyBackwardInto_mean (hexp : ExpLaws exp) (h : LogitsFit logits target lead classes) (ignoreIndex : Int)
    {grad status : Dense R} (hgrad : grad.shape = logits.shape) (hstatus : status.shape = [1]) :
    ∃ grad' status', (∀ row < lead.prod, ∀ c < classes, grad'.at (row * classes + c) =
        gradientAt exp target ignoreIndex classes (fun row c => logits.at (row * classes + c)) row c *
          (1 / (target.active ignoreIndex lead.prod).card)) ∧
      crossEntropyBackwardInto exp logits target ignoreIndex .mean grad (some status) =
        (checkTargets .mean (target.active ignoreIndex lead.prod).card (target.invalid ignoreIndex classes lead.prod).card
          classes >>= fun _ => .ok (grad', some status')) := by
  have hsize : lead.prod * classes ≤ grad.shape.prod := by
    rw [hgrad, h.shape, prod_append, prod_singleton]
  obtain ⟨out, hrows, hcells⟩ := gradientRows_ok hexp (fun row hrow c hc => h.logit hrow hc) (Nat.le_of_eq h.targets.symm)
    hsize ignoreIndex (1 / (target.active ignoreIndex lead.prod).card) grad.elements
  refine ⟨⟨grad.shape, out⟩, ⟨[1], [((target.active ignoreIndex lead.prod).card : R)], rfl⟩,
    fun row hrow c hc => Dense.at_eq (hcells row hrow c hc), ?_⟩
  unfold crossEntropyBackwardInto
  simp only [h.geometry, ok_bind, Target.summary_eq, h.targets, Dense.writable_ok _ hstatus, Dense.writable_ok _ hgrad,
    if_true, hrows]

end Kernels

end EffectTorch
