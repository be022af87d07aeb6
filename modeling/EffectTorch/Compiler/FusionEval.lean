import EffectTorch.Compiler.Fusion

/-!
# Fused plans compute their expressions

Results:
1. `Scratch.run_ok`: a plan whose depths fit runs, at the depths that preparation counted.
2. `Scratch.run_postorder`: the postorder of an expression leaves its value on the stack.
3. `evaluate_value`: a program evaluates each of its expressions, and its scratch length is
   the largest depth reached.
-/

namespace EffectTorch
open List Option Lib

variable {T : Type}

/-! ## Operands -/

namespace Flat

/-- How many values an operation takes off the stack. -/
def arity : Flat → Nat
  | input _ | scalar _ | const _ => 0
  | cast _ | roundTo _ | neg | sqrt | exp | sin | cos | tanh | abs | log | floor | ceil | round
  | powf _ | erf | gelu | geluTanh | semantic _ _ => 1
  | add | sub | mul | div | min | max | lt | le | gt | ge | eq | ne => 2
  | select => 3

def IsMarker (op : Flat) : Prop :=
  ∃ node dtype, op = semantic node dtype

end Flat

theorem KernelExpr.arity_op (e : KernelExpr) : e.op.arity = e.children.length := by
  cases e <;> rfl

/-! ## Depths -/

namespace Measure

variable {m m' : Measure} {op : Flat}

theorem pop_ok {operands : Nat} :
    m.pop operands = .ok m' ↔
      operands ≤ m.depth ∧ m' = { m with depth := m.depth - (operands - 1) } := by
  unfold pop
  rw [bind_ok]
  constructor
  · rintro ⟨_, hle, hm⟩
    exact ⟨assert_ok.mp hle, (Except.ok.inj hm).symm⟩
  · rintro ⟨hle, rfl⟩
    exact ⟨(), assert_ok.mpr hle, rfl⟩

/-- Counting an operation, by its operands. -/
theorem count_eq (m : Measure) (hop : ¬ op.IsMarker) :
    ∃ inputs scalars, m.count op =
      if op.arity = 0 then .ok ⟨inputs, scalars, m.valueScratchLen, m.depth + 1⟩
      else m.pop op.arity := by
  cases op with
  | semantic node dtype => exact absurd ⟨node, dtype, rfl⟩ hop
  | input k => exact ⟨max m.inputCount (k + 1), m.scalarCount, rfl⟩
  | scalar k => exact ⟨m.inputCount, max m.scalarCount (k + 1), rfl⟩
  | const _ => exact ⟨m.inputCount, m.scalarCount, rfl⟩
  | select => exact ⟨0, 0, rfl⟩
  | add | sub | mul | div | min | max | lt | le | gt | ge | eq | ne => exact ⟨0, 0, rfl⟩
  | cast _ | roundTo _ | neg | sqrt | exp | sin | cos | tanh | abs | log | floor | ceil | round
  | powf _ | erf | gelu | geluTanh => exact ⟨0, 0, rfl⟩

/-- A turn puts one value in the place of the operands. -/
theorem step_ok (h : m.step op = .ok m') :
    ¬ op.IsMarker ∧ op.arity ≤ m.depth ∧ m'.depth = m.depth - op.arity + 1 ∧
      m'.valueScratchLen = max m.valueScratchLen m'.depth := by
  obtain ⟨m₁, hcount, hm⟩ := bind_ok.mp h
  cases hm
  have hop : ¬ op.IsMarker := by
    rintro ⟨node, dtype, rfl⟩
    cases hcount
  obtain ⟨inputs, scalars, heq⟩ := m.count_eq hop
  rw [hcount] at heq
  split at heq
  · next hzero =>
    cases heq
    refine ⟨hop, ?_, ?_, rfl⟩
    · rw [hzero]
      exact Nat.zero_le _
    · rw [hzero]
      rfl
  · next hpos =>
    obtain ⟨hle, rfl⟩ := pop_ok.mp heq.symm
    refine ⟨hop, hle, ?_, rfl⟩
    dsimp only
    omega

/-- The scratch length is the largest depth on the way, or the one it started with. -/
theorem run_scratch {ops : List Flat} (h : ops.foldlM step m = .ok m') :
    (∀ before after, ops = before ++ after → ∃ mid, before.foldlM step m = .ok mid ∧
      (before = [] ∨ mid.depth ≤ m'.valueScratchLen) ∧ mid.valueScratchLen ≤ m'.valueScratchLen) ∧
      m.valueScratchLen ≤ m'.valueScratchLen ∧
      (m'.valueScratchLen = m.valueScratchLen ∨ ∃ before after mid, ops = before ++ after ∧
        before.foldlM step m = .ok mid ∧ mid.depth = m'.valueScratchLen) := by
  induction ops generalizing m with
  | nil =>
    cases h
    refine ⟨fun before after heq => ?_, Nat.le_refl _, .inl rfl⟩
    obtain ⟨rfl, -⟩ := append_eq_nil_iff.mp heq.symm
    exact ⟨_, rfl, .inl rfl, Nat.le_refl _⟩
  | cons op ops ih =>
    rw [foldlM_cons] at h
    obtain ⟨m₁, hstep, hrest⟩ := bind_ok.mp h
    obtain ⟨hbefore, hle, hreached⟩ := ih hrest
    obtain ⟨-, -, -, hmax⟩ := step_ok hstep
    have hfirst : ∀ before, (op :: before).foldlM step m = before.foldlM step m₁ := fun before => by
      rw [foldlM_cons, hstep, ok_bind]
    refine ⟨?_, by omega, ?_⟩
    · rintro (_ | ⟨first, before⟩) after heq
      · exact ⟨m, rfl, .inl rfl, by omega⟩
      · obtain ⟨rfl, hops⟩ := List.cons.inj heq
        obtain ⟨mid, hmid, hdepth, hscratch⟩ := hbefore before after hops
        refine ⟨mid, (hfirst before).trans hmid, .inr ?_, hscratch⟩
        rcases hdepth with rfl | hdepth
        · cases hmid
          omega
        · exact hdepth
    · rcases hreached with heq | ⟨before, after, mid, heq, hmid, hdepth⟩
      · -- nothing behind the first operation goes deeper: it is the old length or the new depth
        by_cases hdeep : m.valueScratchLen ≤ m₁.depth
        · exact .inr ⟨[op], ops, m₁, rfl, hfirst [], by omega⟩
        · exact .inl (by omega)
      · exact .inr ⟨op :: before, after, mid, by rw [heq]; rfl, (hfirst before).trans hmid, hdepth⟩

end Measure

/-! ## Running a plan -/

section Running

variable [Scalar T] {n : Nat} {lane scalar : Nat → T}

/-- A turn of the evaluation, by its operands. -/
theorem Flat.step_view (n : Nat) (lane scalar : Nat → T) {op : Flat} (hop : ¬ op.IsMarker) :
    (op.arity = 0 ∧ ∃ value, ∀ s : Scratch T n, s.step lane scalar op = s.push value) ∨
      (op.arity = 1 ∧ ∃ f, ∀ s : Scratch T n, s.step lane scalar op = s.unary f) ∨
      (op.arity = 2 ∧ ∃ f, ∀ s : Scratch T n, s.step lane scalar op = s.binary f) ∨
      (op.arity = 3 ∧ ∀ s : Scratch T n, s.step lane scalar op = s.select) := by
  cases op with
  | semantic node dtype => exact absurd ⟨node, dtype, rfl⟩ hop
  | input _ | scalar _ | const _ => exact .inl ⟨rfl, _, fun _ => rfl⟩
  | select => exact .inr (.inr (.inr ⟨rfl, fun _ => rfl⟩))
  | add | sub | mul | div | min | max | lt | le | gt | ge | eq | ne =>
    exact .inr (.inr (.inl ⟨rfl, _, fun _ => rfl⟩))
  | cast _ | roundTo _ | neg | sqrt | exp | sin | cos | tanh | abs | log | floor | ceil | round
  | powf _ | erf | gelu | geluTanh =>
    exact .inr (.inl ⟨rfl, _, fun _ => rfl⟩)

namespace Scratch

variable {s s' : Scratch T n}

/-- A turn whose operands are there and whose depths fit does not stop. -/
theorem step_ok {m m' : Measure} {op : Flat} (h : m.step op = .ok m') (hdepth : s.2 = m.depth)
    (hfits : m.depth ≤ n) (hfits' : m'.depth ≤ n) :
    ∃ s', s.step lane scalar op = .ok s' ∧ s'.2 = m'.depth := by
  obtain ⟨hop, harity, hdepth', -⟩ := Measure.step_ok h
  rcases op.step_view n lane scalar hop with ⟨hzero, value, heq⟩ | ⟨hone, f, heq⟩ | ⟨htwo, f, heq⟩ |
    ⟨hthree, heq⟩
  · obtain ⟨values, hwrite⟩ : ∃ values, s.1.write s.2 value = .ok values :=
      Slice.write_total (by omega)
    refine ⟨(values, s.2 + 1), ?_, by dsimp only; omega⟩
    rw [heq, push, hwrite, ok_bind]
  · obtain ⟨a, ha⟩ : ∃ a, s.1.read (s.2 - 1) = .ok a := Slice.read_total (by omega)
    obtain ⟨values, hwrite⟩ : ∃ values, s.1.write (s.2 - 1) (f a) = .ok values :=
      Slice.write_total (by omega)
    refine ⟨(values, s.2), ?_, by dsimp only; omega⟩
    rw [heq, unary, (assert_ok (u := ())).mpr (by omega), ok_bind, ha, ok_bind, hwrite, ok_bind]
  · obtain ⟨a, ha⟩ : ∃ a, s.1.read (s.2 - 2) = .ok a := Slice.read_total (by omega)
    obtain ⟨b, hb⟩ : ∃ b, s.1.read (s.2 - 1) = .ok b := Slice.read_total (by omega)
    obtain ⟨values, hwrite⟩ : ∃ values, s.1.write (s.2 - 2) (f a b) = .ok values :=
      Slice.write_total (by omega)
    refine ⟨(values, s.2 - 1), ?_, by dsimp only; omega⟩
    rw [heq, binary, (assert_ok (u := ())).mpr (by omega), ok_bind, ha, ok_bind, hb, ok_bind, hwrite, ok_bind]
  · obtain ⟨cond, hcond⟩ : ∃ cond, s.1.read (s.2 - 3) = .ok cond := Slice.read_total (by omega)
    obtain ⟨a, ha⟩ : ∃ a, s.1.read (s.2 - 2) = .ok a := Slice.read_total (by omega)
    obtain ⟨b, hb⟩ : ∃ b, s.1.read (s.2 - 1) = .ok b := Slice.read_total (by omega)
    obtain ⟨values, hwrite⟩ : ∃ values, s.1.write (s.2 - 3) (Scalar.pick cond a b) = .ok values :=
      Slice.write_total (by omega)
    refine ⟨(values, s.2 - 2), ?_, by dsimp only; omega⟩
    rw [heq, select, (assert_ok (u := ())).mpr (by omega), ok_bind, hcond, ok_bind, ha, ok_bind, hb, ok_bind,
      hwrite, ok_bind]

/-- A plan whose depths fit runs, at the depths that preparation counted. -/
theorem run_ok {m m' : Measure} {ops : List Flat} (h : ops.foldlM Measure.step m = .ok m')
    (hdepth : s.2 = m.depth) (hfits : m.depth ≤ n) (hfits' : m'.valueScratchLen ≤ n) :
    ∃ s', s.run lane scalar ops = .ok s' ∧ s'.2 = m'.depth := by
  induction ops generalizing m s with
  | nil =>
    cases h
    exact ⟨s, rfl, hdepth⟩
  | cons op ops ih =>
    rw [foldlM_cons] at h
    obtain ⟨m₁, hstep, hrest⟩ := bind_ok.mp h
    have hmax := (Measure.step_ok hstep).2.2.2
    have hle := (Measure.run_scratch hrest).2.1
    obtain ⟨s₁, hs₁, hdepth₁⟩ : ∃ s₁, s.step lane scalar op = .ok s₁ ∧ s₁.2 = m₁.depth :=
      step_ok hstep hdepth hfits (by omega)
    obtain ⟨s₂, hs₂, hdepth₂⟩ := ih hrest hdepth₁ (by omega)
    refine ⟨s₂, ?_, hdepth₂⟩
    rw [run, foldlM_cons, hs₁, ok_bind]
    exact hs₂

/-! ### Values -/

/-- The values on the stack, the newest last. -/
def Holds (s : Scratch T n) (stack : List T) : Prop :=
  stack <+: s.1.data ∧ s.2 = stack.length

variable {stack : List T} {a b : T}

omit [Scalar T] in
theorem Holds.get (stack more : List T) (h : s.Holds (stack ++ a :: more)) :
    s.1.get? stack.length = some a := by
  obtain ⟨⟨rest, hdata⟩, -⟩ := h
  rw [Slice.get?, ← hdata, append_assoc, List.getElem?_append_right (Nat.le_refl _),
    Nat.sub_self]
  rfl

omit [Scalar T] in
/-- Writing over the operands keeps what is below them. -/
theorem Holds.write {more : List T} {values : Slice T n} (h : s.Holds (stack ++ a :: more))
    (hw : s.1.write stack.length b = (.ok values : Fallible Empty _)) :
    Holds (values, stack.length + 1) (stack ++ [b]) := by
  obtain ⟨⟨rest, hdata⟩, -⟩ := h
  refine ⟨⟨more ++ rest, ?_⟩, by simp⟩
  rw [(Slice.write_ok.mp hw).2, ← hdata, append_assoc, append_assoc,
    set_append_right _ _ (Nat.le_refl _), Nat.sub_self]
  rfl

omit [Scalar T] in
theorem push_holds {value : T} (h : s.Holds stack) (hs : s.push value = .ok s') :
    s'.Holds (stack ++ [value]) := by
  obtain ⟨values, hwrite, hs'⟩ := bind_ok.mp hs
  cases hs'
  obtain ⟨⟨rest, hdata⟩, hdepth⟩ := h
  obtain ⟨hlt, hset⟩ := Slice.write_ok.mp hwrite
  refine ⟨⟨rest.tail, ?_⟩, by simp [hdepth]⟩
  cases rest with
  | nil =>
    -- a full slice has no room for a value
    have hlength := s.1.length_eq
    rw [← hdata, append_nil] at hlength
    omega
  | cons a rest =>
    rw [hset, ← hdata, hdepth, set_append_right _ _ (Nat.le_refl _), Nat.sub_self]
    simp

omit [Scalar T] in
theorem unary_holds {f : T → T} (h : s.Holds (stack ++ [a])) (hs : s.unary f = .ok s') :
    s'.Holds (stack ++ [f a]) := by
  have hdepth : s.2 = stack.length + 1 := by simpa using h.2
  obtain ⟨_, -, hs⟩ := bind_ok.mp hs
  obtain ⟨a', ha, hs⟩ := bind_ok.mp hs
  obtain ⟨values, hwrite, hs⟩ := bind_ok.mp hs
  cases hs
  rw [hdepth, Nat.add_sub_cancel] at ha hwrite
  rw [hdepth]
  obtain rfl := some.inj ((h.get stack []).symm.trans (Slice.read_ok.mp ha))
  exact h.write hwrite

omit [Scalar T] in
theorem binary_holds {f : T → T → T} (h : s.Holds (stack ++ [a, b])) (hs : s.binary f = .ok s') :
    s'.Holds (stack ++ [f a b]) := by
  have hdepth : s.2 = stack.length + 2 := by simpa using h.2
  obtain ⟨_, -, hs⟩ := bind_ok.mp hs
  obtain ⟨a', ha, hs⟩ := bind_ok.mp hs
  obtain ⟨b', hb, hs⟩ := bind_ok.mp hs
  obtain ⟨values, hwrite, hs⟩ := bind_ok.mp hs
  cases hs
  have htop : s.2 - 1 = (stack ++ [a]).length := by simp [hdepth]
  have hbelow : s.2 - 2 = stack.length := by omega
  rw [hbelow] at ha hwrite
  rw [htop] at hb
  obtain rfl := some.inj ((h.get stack [b]).symm.trans (Slice.read_ok.mp ha))
  have h' : s.Holds ((stack ++ [a]) ++ b :: []) := by simpa using h
  obtain rfl := some.inj ((h'.get (stack ++ [a]) []).symm.trans (Slice.read_ok.mp hb))
  have hheld := h.write hwrite
  rwa [show stack.length + 1 = s.2 - 1 by omega] at hheld

theorem select_holds {cond : T} (h : s.Holds (stack ++ [cond, a, b])) (hs : s.select = .ok s') :
    s'.Holds (stack ++ [Scalar.pick cond a b]) := by
  have hdepth : s.2 = stack.length + 3 := by simpa using h.2
  obtain ⟨_, -, hs⟩ := bind_ok.mp hs
  obtain ⟨cond', hcond, hs⟩ := bind_ok.mp hs
  obtain ⟨a', ha, hs⟩ := bind_ok.mp hs
  obtain ⟨b', hb, hs⟩ := bind_ok.mp hs
  obtain ⟨values, hwrite, hs⟩ := bind_ok.mp hs
  cases hs
  have htop : s.2 - 1 = (stack ++ [cond, a]).length := by simp [hdepth]
  have hmiddle : s.2 - 2 = (stack ++ [cond]).length := by simp [hdepth]
  have hbelow : s.2 - 3 = stack.length := by omega
  rw [hbelow] at hcond hwrite
  rw [hmiddle] at ha
  rw [htop] at hb
  obtain rfl := some.inj ((h.get stack [a, b]).symm.trans (Slice.read_ok.mp hcond))
  have h₁ : s.Holds ((stack ++ [cond]) ++ a :: [b]) := by simpa using h
  obtain rfl := some.inj ((h₁.get (stack ++ [cond]) [b]).symm.trans (Slice.read_ok.mp ha))
  have h₂ : s.Holds ((stack ++ [cond, a]) ++ b :: []) := by simpa using h
  obtain rfl := some.inj ((h₂.get (stack ++ [cond, a]) []).symm.trans (Slice.read_ok.mp hb))
  have hheld := h.write hwrite
  rwa [show stack.length + 1 = s.2 - 2 by omega] at hheld

/-- An operation puts the value of its expression in the place of the values of the operands. -/
theorem step_value (e : KernelExpr) (h : s.Holds (stack ++ e.children.map (·.value lane scalar)))
    (hs : s.step lane scalar e.op = .ok s') : s'.Holds (stack ++ [e.value lane scalar]) := by
  cases e with
  | input _ | scalar _ | const _ =>
    rw [KernelExpr.children, map_nil, append_nil] at h
    exact push_holds h hs
  | semantic _ _ _ => cases hs
  | select _ _ _ => exact select_holds h hs
  | add _ _ | sub _ _ | mul _ _ | div _ _ | min _ _ | max _ _ | lt _ _ | le _ _ | gt _ _
  | ge _ _ | eq _ _ | ne _ _ => exact binary_holds h hs
  | cast _ _ | roundTo _ _ | neg _ | sqrt _ | exp _ | sin _ | cos _ | tanh _ | abs _ | log _
  | floor _ | ceil _ | round _ | powf _ _ | erf _ | gelu _ | geluTanh _ => exact unary_holds h hs

/-- The postorder of an expression leaves its value on the stack. -/
theorem run_postorder (e : KernelExpr) {s s' : Scratch T n} {stack : List T} (h : s.Holds stack)
    (hs : s.run lane scalar e.postorder = .ok s') : s'.Holds (stack ++ [e.value lane scalar]) := by
  -- the operands are smaller, and leave their values from left to right
  have hchildren : ∀ (children : List KernelExpr), (∀ child ∈ children, child ∈ e.children) →
      ∀ {s s' : Scratch T n} {stack : List T}, s.Holds stack →
        s.run lane scalar (children.flatMap KernelExpr.postorder) = .ok s' →
        s'.Holds (stack ++ children.map (·.value lane scalar)) := by
    intro children hsub
    induction children with
    | nil =>
      intro s s' stack h hs
      cases hs
      rwa [map_nil, append_nil]
    | cons child children ih =>
      intro s s' stack h hs
      rw [flatMap_cons, run, foldlM_append] at hs
      obtain ⟨s₁, hs₁, hrest⟩ := bind_ok.mp hs
      have hchild := run_postorder child h hs₁
      have hheld := ih (fun c hc => hsub c (mem_cons_of_mem child hc)) hchild hrest
      rwa [append_assoc] at hheld
  rw [e.postorder_eq, run, foldlM_append] at hs
  obtain ⟨s₁, hs₁, hlast⟩ := bind_ok.mp hs
  obtain ⟨s₂, hs₂, hs'⟩ := bind_ok.mp hlast
  cases hs'
  exact step_value e (hchildren e.children (fun _ h => h) h hs₁) hs₂
termination_by sizeOf e
decreasing_by exact KernelExpr.sizeOf_child (hsub child mem_cons_self)

end Scratch

end Running

/-! ## Programs -/

namespace CpuFusionProgram

/-- What preparation has made of some expressions. -/
structure Prepared (exprs : List KernelExpr) (program : CpuFusionProgram) : Prop where
  ops : program.ops = exprs.flatMap (·.postorder)
  ends_length : program.planEnds.length = exprs.length
  ends : ∀ i < exprs.length,
    program.planEnds[i]? = some ((exprs.take (i + 1)).flatMap (·.postorder)).length
  counted : ∀ e ∈ exprs, ∃ m m', m.depth = 0 ∧ e.postorder.foldlM Measure.step m = .ok m' ∧
    m'.depth = 1 ∧ m'.valueScratchLen ≤ program.valueScratchLen
  reached : program.valueScratchLen = 0 ∨ ∃ e ∈ exprs, ∃ m before after mid, m.depth = 0 ∧
    e.postorder = before ++ after ∧ before.foldlM Measure.step m = .ok mid ∧
    mid.depth = program.valueScratchLen ∧ mid.valueScratchLen ≤ program.valueScratchLen

variable {exprs : List KernelExpr} {program : CpuFusionProgram}

theorem Prepared.add {program' : CpuFusionProgram} {e : KernelExpr} (h : Prepared exprs program)
    (hadd : program.addPlan e = .ok program') : Prepared (exprs ++ [e]) program' := by
  obtain ⟨m', hm, hadd⟩ := bind_ok.mp hadd
  obtain ⟨_, hdepth, hadd⟩ := bind_ok.mp hadd
  cases hadd
  rw [flattenInto_eq, drop_left] at hm
  obtain ⟨hbefore, hle, hreached⟩ := Measure.run_scratch hm
  dsimp only at hle hreached
  have hops : flattenInto e program.ops = (exprs ++ [e]).flatMap (·.postorder) := by
    rw [flattenInto_eq, h.ops, flatMap_append, flatMap_singleton]
  refine ⟨hops, ?_, fun i hi => ?_, fun e' he' => ?_, ?_⟩
  · rw [length_append, length_append, h.ends_length]
    rfl
  · rw [length_append, length_singleton] at hi
    rcases Nat.lt_succ_iff_lt_or_eq.mp hi with hi | rfl
    · rw [List.getElem?_append_left (by rw [h.ends_length]; exact hi), h.ends i hi,
        take_append_of_le_length hi]
    · rw [List.getElem?_append_right (Nat.le_of_eq h.ends_length), h.ends_length, Nat.sub_self,
        take_of_length_le (by simp), ← hops]
      rfl
  · rcases mem_append.mp he' with he' | he'
    · obtain ⟨m, m₁, hzero, hrun, hone, hscratch⟩ := h.counted e' he'
      exact ⟨m, m₁, hzero, hrun, hone, Nat.le_trans hscratch hle⟩
    · rw [mem_singleton.mp he']
      exact ⟨_, m', rfl, hm, assert_ok.mp hdepth, Nat.le_refl _⟩
  · rcases hreached with heq | ⟨before, after, mid, heq, hmid, hmax⟩
    · dsimp only
      rw [heq]
      refine h.reached.imp_right fun ⟨e', he', hrest⟩ => ⟨e', mem_append_left _ he', hrest⟩
    · obtain ⟨mid', hmid', -, hscratch⟩ := hbefore before after heq
      obtain rfl := Except.ok.inj (hmid.symm.trans hmid')
      exact .inr ⟨e, mem_append_right _ (mem_singleton_self e), _, before, after, mid, rfl,
        heq, hmid, hmax, hscratch⟩

theorem new_prepared (h : new exprs = .ok program) : Prepared exprs program := by
  refine foldlM_invariant (fun done program => Prepared done program) exprs
    (fun done e _ program program' _ hprepared hadd => hprepared.add hadd) ?_ h
  exact ⟨rfl, rfl, nofun, nofun, .inl rfl⟩

/-- A plan is the postorder of its expression. -/
theorem Prepared.plan (h : Prepared exprs program) {output : Nat} {e : KernelExpr}
    (he : exprs[output]? = some e) : program.plan output = .ok e.postorder := by
  obtain ⟨hlt, rfl⟩ := List.getElem?_eq_some_iff.mp he
  have hsplit : exprs = exprs.take output ++ exprs[output] :: exprs.drop (output + 1) := by
    rw [cons_getElem_drop_succ, take_append_drop]
  have hops : program.ops = (exprs.take output).flatMap (·.postorder) ++
      (exprs[output].postorder ++ (exprs.drop (output + 1)).flatMap (·.postorder)) := by
    rw [h.ops]
    conv_lhs => rw [hsplit, flatMap_append, flatMap_cons]
  have hstart : (checkedSub output 1).elim (.ok 0) program.planEnd =
      .ok ((exprs.take output).flatMap (·.postorder)).length := by
    cases output with
    | zero => rfl
    | succ previous => exact expect_ok.mpr (h.ends previous (Nat.lt_of_succ_lt hlt))
  have hstop : program.planEnd output =
      .ok (((exprs.take output).flatMap (·.postorder)).length + exprs[output].postorder.length) := by
    have hend := h.ends output hlt
    rw [take_succ_eq_append_getElem hlt, flatMap_append, flatMap_singleton,
      length_append] at hend
    exact expect_ok.mpr hend
  have hbounds : (assert (((exprs.take output).flatMap (·.postorder)).length ≤
      ((exprs.take output).flatMap (·.postorder)).length + exprs[output].postorder.length ∧
      ((exprs.take output).flatMap (·.postorder)).length + exprs[output].postorder.length ≤
        program.ops.length) "range out of bounds") = .ok () := by
    refine assert_ok.mpr ⟨Nat.le_add_right _ _, ?_⟩
    rw [hops, length_append, length_append]
    omega
  unfold CpuFusionProgram.plan
  rw [hstop, ok_bind, hstart, ok_bind, hbounds, ok_bind, hops, take_length_add_append,
    drop_left, take_left]

end CpuFusionProgram

/-- The plans of a program run within its scratch length and evaluate its expressions, and
some plan goes as deep as the scratch length. -/
theorem evaluate_value {exprs : List KernelExpr} {program : CpuFusionProgram}
    (h : CpuFusionProgram.new exprs = .ok program) :
    (∀ output e, exprs[output]? = some e → ∀ (T : Type) [Scalar T] (lane scalar : Nat → T) (n : Nat)
      (values : Slice T n), program.valueScratchLen ≤ n →
        program.evaluate output lane scalar values = .ok (e.value lane scalar) ∧
        ∃ plan, program.plan output = .ok plan ∧ ∀ before after, plan = before ++ after →
          ∃ s, Scratch.run lane scalar (values, 0) before = .ok s ∧ s.2 ≤ program.valueScratchLen) ∧
      (exprs = [] → program.valueScratchLen = 0) ∧
      (exprs ≠ [] → ∃ output plan before after, program.plan output = .ok plan ∧
        plan = before ++ after ∧ ∀ (T : Type) [Scalar T] (lane scalar : Nat → T) (n : Nat)
          (values : Slice T n), program.valueScratchLen ≤ n →
            ∃ s, Scratch.run lane scalar (values, 0) before = .ok s ∧
              s.2 = program.valueScratchLen) := by
  have hprepared := CpuFusionProgram.new_prepared h
  refine ⟨fun output e he T _ lane scalar n values hn => ?_, ?_, fun hne => ?_⟩
  · obtain ⟨m, m', hzero, hrun, hone, hscratch⟩ :=
      hprepared.counted e (mem_of_getElem? he)
    have hplan := hprepared.plan he
    refine ⟨?_, e.postorder, hplan, fun before after heq => ?_⟩
    · obtain ⟨s, hs, hdepth⟩ : ∃ s, Scratch.run lane scalar (values, 0) e.postorder = .ok s ∧
          s.2 = m'.depth :=
        Scratch.run_ok hrun hzero.symm (by omega) (by omega)
      have hheld : Scratch.Holds s ([] ++ [e.value lane scalar]) :=
        Scratch.run_postorder e ⟨List.nil_prefix, rfl⟩ hs
      have hvalue : s.1.read 0 = (.ok (e.value lane scalar) : Fallible Empty T) :=
        Slice.read_ok.mpr (hheld.get [] [])
      rw [CpuFusionProgram.evaluate, (assert_ok (u := ())).mpr hn, ok_bind, hplan, ok_bind, evalPlan,
        hs, ok_bind, (assert_ok (u := ())).mpr (hdepth.trans hone), ok_bind, hvalue]
    · obtain ⟨mid, hmid, hle, hmax⟩ := (Measure.run_scratch hrun).1 before after heq
      obtain ⟨s, hs, hdepth⟩ : ∃ s, Scratch.run lane scalar (values, 0) before = .ok s ∧
          s.2 = mid.depth :=
        Scratch.run_ok hmid hzero.symm (by omega) (by omega)
      refine ⟨s, hs, ?_⟩
      rcases hle with rfl | hle
      · cases hmid
        omega
      · omega
  · rintro rfl
    cases h
    rfl
  · rcases hprepared.reached with hzero | ⟨e, he, m, before, after, mid, hm, heq, hmid, hmax, hscratch⟩
    · obtain ⟨e, he⟩ : ∃ e, exprs[0]? = some e :=
        ⟨_, List.getElem?_eq_getElem (length_pos_of_ne_nil hne)⟩
      exact ⟨0, e.postorder, [], e.postorder, hprepared.plan he, rfl,
        fun T _ lane scalar n values _ => ⟨(values, 0), rfl, hzero.symm⟩⟩
    · obtain ⟨output, hget⟩ := mem_iff_getElem?.mp he
      refine ⟨output, e.postorder, before, after, hprepared.plan hget, heq,
        fun T _ lane scalar n values hn => ?_⟩
      obtain ⟨s, hs, hdepth⟩ : ∃ s, Scratch.run lane scalar (values, 0) before = .ok s ∧
          s.2 = mid.depth :=
        Scratch.run_ok hmid hm.symm (by omega) (by omega)
      exact ⟨s, hs, hdepth.trans hmax⟩

/-! ### A product and a sum -/

def sumOfProduct : KernelExpr := .add (.input 0) (.mul (.input 1) (.scalar 0))

def sumOfProductProgram : CpuFusionProgram where
  ops := [.input 0, .input 1, .scalar 0, .mul, .add]
  planEnds := [5]
  inputCount := 2
  scalarCount := 1
  valueScratchLen := 3

/-- Sums and products of natural numbers. -/
instance natScalar : Scalar Nat where
  fromF64 x := x.bits.toNat
  cast a _ := a
  add a b := a + b
  sub a b := a - b
  mul a b := a * b
  div a b := a / b
  min a b := Min.min a b
  max a b := Max.max a b
  lt a b := if a < b then 1 else 0
  le a b := if a ≤ b then 1 else 0
  gt a b := if b < a then 1 else 0
  ge a b := if b ≤ a then 1 else 0
  eq a b := if a = b then 1 else 0
  ne a b := if a = b then 0 else 1
  neg a := a
  sqrt a := a
  exp a := a
  sin a := a
  cos a := a
  tanh a := a
  abs a := a
  log a := a
  floor a := a
  ceil a := a
  round a := a
  powf a _ := a
  erf a := a
  pick cond a b := if cond = 0 then b else a

theorem sumOfProduct_new : CpuFusionProgram.new [sumOfProduct] = .ok sumOfProductProgram := by
  have hflat : flattenInto sumOfProduct [] = [.input 0, .input 1, .scalar 0, .mul, .add] := by
    simp [flattenInto_eq, sumOfProduct, KernelExpr.postorder_eq, KernelExpr.children, KernelExpr.op]
  rw [CpuFusionProgram.new, foldlM_cons, CpuFusionProgram.addPlan, hflat]
  rfl

theorem evaluate_value_sumOfProduct :
    sumOfProductProgram.evaluate 0 (fun k => k + 1) (fun _ => 3) (⟨[0, 0, 0], rfl⟩ : Slice Nat 3) =
      .ok 7 :=
  ((evaluate_value sumOfProduct_new).1 0 sumOfProduct rfl Nat (fun k => k + 1) (fun _ => 3) 3
    ⟨[0, 0, 0], rfl⟩ (Nat.le_refl 3)).1

/-! ## What preparation accepts -/

end EffectTorch
