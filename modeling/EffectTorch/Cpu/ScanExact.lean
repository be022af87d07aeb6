import EffectTorch.Lib.Fill
import EffectTorch.Cpu.ReduceExact

/-!
# What the kernels along one dimension compute

`argmax` and `argmin` keep the first index whose value none along the dimension exceeds, and the
running sums add up the elements along the dimension. An output element of `argmax` is a `u32`, and
its loop starts from an element that an empty dimension does not have.

Results:
1. `argreducesExactly_iff`: the two index the extreme exactly when there is one that `u32` holds.
2. `cumulatesExactly`: the running sums are always exact.
3. `reductions_exact_iff`: when the reductions, the extremes and the running sums are exact.
-/

namespace EffectTorch
open List Lib

namespace Reduce

variable {layout : Layout} {dimension : Nat} {c : List Nat}

theorem address_set (hd : dimension < c.length) (hzero : c.getD dimension 0 = 0) (x : Nat) :
    layout.address (c.set dimension x) = layout.address c + x * layout.strides.getD dimension 0 := by
  rw [Layout.address, Layout.address, dot_set hd hzero, Nat.add_assoc]

/-! ## Extremes -/

section Extremes

variable {T : Type} [Comparable T]

/-- The value that `x` indexes is compared with every value and none exceeds it. -/
def Attains (pickMax : Bool) (value : Nat → Option T) (width x : Nat) : Prop :=
  ∃ a, value x = some a ∧ ∀ y < width, ∃ b, value y = some b ∧
    if pickMax then atMost b a else atMost a b

/-- The elements along a dimension. -/
def axisValue (source : List T) (layout : Layout) (dimension : Nat) (c : List Nat) (x : Nat) : Option T :=
  source[layout.address (c.set dimension x)]?

/-- The first index of the extreme along the dimension. -/
def ArgreducesExactly (source : List T) (layout : Layout) (dimension : Nat) : Prop :=
  ∀ (pickMax : Bool) (operation : String) (destination : CpuDestination UInt32),
    destination.Ready → destination.shape = keptShape layout.shape [dimension] →
    ∃ out, argreduceIntoImpl operation source layout dimension pickMax destination = .ok out ∧
      ∀ c, Coordinate destination.shape c → ∃ index, out[rowIndex destination.shape c]? = some index ∧
        index.toNat < layout.shape.getD dimension 0 ∧
        Attains pickMax (axisValue source layout dimension c) (layout.shape.getD dimension 0) index.toNat ∧
        ∀ y < index.toNat,
          ¬ Attains pickMax (axisValue source layout dimension c) (layout.shape.getD dimension 0) y

/-- Along the dimension both extremes are attained by an index that `u32` holds. -/
def HasExtremes (source : List T) (layout : Layout) (dimension : Nat) : Prop :=
  ∀ c, Coordinate (keptShape layout.shape [dimension]) c → ∀ pickMax, ∃ x < layout.shape.getD dimension 0,
    x < 2 ^ 32 ∧ Attains pickMax (axisValue source layout dimension c) (layout.shape.getD dimension 0) x

omit [Comparable T] in
/-- A scan that moves to what is strictly better ends at the first of the best. -/
theorem foldlM_scan {ε : Type} {source : List T} {address : Nat → Nat} {v : Nat → T} {q : Nat → Int}
    (better : T → T → Bool) (n : Nat) (hread : ∀ i ≤ n, source[address i]? = some (v i))
    (hbetter : ∀ i ≤ n, ∀ j ≤ n, better (v i) (v j) = true ↔ q i < q j) :
    ∃ k ≤ n, ((List.range' 1 n).foldlM (fun (bestIndex, bestValue) index => do
      let value ← readAt source (address index)
      .ok (if better bestValue value then (index, value) else (bestIndex, bestValue))) (0, v 0) :
        Fallible ε (Nat × T)) = .ok (k, v k) ∧ (∀ y ≤ n, q y ≤ q k) ∧ ∀ y < k, q y < q k := by
  induction n with
  | zero => exact ⟨0, Nat.le_refl 0, rfl, fun y hy => by rw [Nat.le_zero.mp hy], fun y hy => absurd hy (Nat.not_lt_zero y)⟩
  | succ n ih =>
    obtain ⟨k, hk, hrun, hbest, hfirst⟩ := ih (fun i hi => hread i (Nat.le_succ_of_le hi))
      fun i hi j hj => hbetter i (Nat.le_succ_of_le hi) j (Nat.le_succ_of_le hj)
    have hread' := readAt_ok (ε := ε) |>.mpr (hread (n + 1) (Nat.le_refl _))
    have hmove := hbetter k (Nat.le_succ_of_le hk) (n + 1) (Nat.le_refl _)
    rw [List.range'_1_concat, foldlM_append, hrun, ok_bind, foldlM_cons, Nat.add_comm 1 n]
    dsimp only
    rw [hread', ok_bind, ok_bind]
    by_cases hlt : q k < q (n + 1)
    · refine ⟨n + 1, Nat.le_refl _, by rw [if_pos (hmove.mpr hlt)]; rfl, fun y hy => ?_, fun y hy => ?_⟩
      · rcases Nat.lt_or_eq_of_le hy with hy | rfl
        · exact Int.le_of_lt (Int.lt_of_le_of_lt (hbest y (Nat.le_of_lt_succ hy)) hlt)
        · exact Int.le_refl _
      · exact Int.lt_of_le_of_lt (hbest y (Nat.le_of_lt_succ hy)) hlt
    · refine ⟨k, Nat.le_succ_of_le hk, by rw [if_neg fun h => hlt (hmove.mp h)]; rfl, fun y hy => ?_, hfirst⟩
      rcases Nat.lt_or_eq_of_le hy with hy | rfl
      · exact hbest y (Nat.le_of_lt_succ hy)
      · exact Int.not_lt.mp hlt

/-- The values along an axis that has an extreme are compared by their places. -/
theorem Attains.places {pickMax : Bool} {value : Nat → Option T} {width x : Nat}
    (h : Attains pickMax value width x) : ∃ (v : Nat → T) (p : Nat → Int),
      ∀ y < width, value y = some (v y) ∧ Comparable.place (v y) = some (p y) := by
  obtain ⟨a, ha, hall⟩ := h
  have hplaced : ∀ y, ∃ (b : T) (p : Int), y < width → value y = some b ∧ Comparable.place b = some p := by
    intro y
    by_cases hy : y < width
    · obtain ⟨b, hb, hle⟩ := hall y hy
      cases pickMax with
      | true =>
        obtain ⟨p, _, hp, _⟩ := atMost_iff.mp hle
        exact ⟨b, p, fun _ => ⟨hb, hp⟩⟩
      | false =>
        obtain ⟨_, p, _, hp, _⟩ := atMost_iff.mp hle
        exact ⟨b, p, fun _ => ⟨hb, hp⟩⟩
    · exact ⟨a, 0, fun h => absurd h hy⟩
  choose v p hvp using hplaced
  exact ⟨v, p, hvp⟩

/-- The place, turned round for the smallest value. -/
def rank (pickMax : Bool) (p : Nat → Int) (y : Nat) : Int :=
  if pickMax then p y else -p y

theorem attains_iff {pickMax : Bool} {value : Nat → Option T} {width k : Nat} {v : Nat → T} {p : Nat → Int}
    (hv : ∀ y < width, value y = some (v y) ∧ Comparable.place (v y) = some (p y)) (hk : k < width) :
    Attains pickMax value width k ↔ ∀ y < width, rank pickMax p y ≤ rank pickMax p k := by
  have hle : ∀ y < width, (if pickMax then atMost (v y) (v k) else atMost (v k) (v y)) = true ↔
      rank pickMax p y ≤ rank pickMax p k := by
    intro y hy
    cases pickMax with
    | true => exact atMost_some (hv y hy).2 (hv k hk).2
    | false => exact (atMost_some (hv k hk).2 (hv y hy).2).trans Int.neg_le_neg_iff.symm
  constructor
  · rintro ⟨a, ha, hall⟩ y hy
    obtain ⟨b, hb, hab⟩ := hall y hy
    obtain rfl := Option.some.inj ((hv y hy).1.symm.trans hb)
    obtain rfl := Option.some.inj ((hv k hk).1.symm.trans ha)
    refine (hle y hy).mp ?_
    cases pickMax with
    | true => exact hab
    | false => exact hab
  · intro h
    refine ⟨v k, (hv k hk).1, fun y hy => ⟨v y, (hv y hy).1, ?_⟩⟩
    have hle := (hle y hy).mpr (h y hy)
    cases pickMax with
    | true => exact hle
    | false => exact hle

/-- The loop along the dimension ends at the first index of the extreme. -/
theorem bestAlong_first {source : List T} {pickMax : Bool} {x : Nat}
    (hdim : dimension < layout.shape.length) (hc : Coordinate (keptShape layout.shape [dimension]) c)
    (hx : x < layout.shape.getD dimension 0)
    (hattains : Attains pickMax (axisValue source layout dimension c) (layout.shape.getD dimension 0) x) :
    ∃ k v, bestAlong source layout dimension pickMax (layout.address c) = .ok (k, v) ∧ k ≤ x ∧
      Attains pickMax (axisValue source layout dimension c) (layout.shape.getD dimension 0) k ∧
      ∀ y < k, ¬ Attains pickMax (axisValue source layout dimension c) (layout.shape.getD dimension 0) y := by
  obtain ⟨v, p, hv⟩ := hattains.places
  have hlen : dimension < c.length := by rwa [hc.length_eq, length_keptShape]
  have haddress : ∀ y, layout.address (c.set dimension y) =
      layout.address c + y * layout.strides.getD dimension 0 :=
    address_set hlen (kept_zero hc (mem_singleton.mpr rfl))
  have hwidth : ∀ y ≤ layout.shape.getD dimension 0 - 1, y < layout.shape.getD dimension 0 := fun y hy =>
    Nat.lt_of_le_of_lt hy (Nat.sub_lt (Nat.zero_lt_of_lt hx) Nat.one_pos)
  have hread : ∀ y ≤ layout.shape.getD dimension 0 - 1,
      source[layout.address c + y * layout.strides.getD dimension 0]? = some (v y) := fun y hy => by
    rw [← haddress]
    exact (hv y (hwidth y hy)).1
  have hbetter : ∀ i ≤ layout.shape.getD dimension 0 - 1, ∀ j ≤ layout.shape.getD dimension 0 - 1,
      (if pickMax then below (v i) (v j) else below (v j) (v i)) = true ↔ rank pickMax p i < rank pickMax p j := by
    intro i hi j hj
    have hpi := (hv i (hwidth i hi)).2
    have hpj := (hv j (hwidth j hj)).2
    cases pickMax with
    | true => exact below_some hpi hpj
    | false => exact (below_some hpj hpi).trans Int.neg_lt_neg_iff.symm
  obtain ⟨k, hk, hrun, hbest, hfirst⟩ := foldlM_scan (ε := String)
    (fun a b => if pickMax then below a b else below b a) _ hread hbetter
  have hxk := (attains_iff hv hx).mp hattains
  have hkx : k ≤ x := Nat.not_lt.mp fun hlt =>
    absurd (hxk k (hwidth k hk)) (Int.not_le.mpr (hfirst x hlt))
  have hstart : readAt source (layout.address c) = (.ok (v 0) : Fallible String T) := by
    have hzero := hread 0 (Nat.zero_le _)
    rw [Nat.zero_mul, Nat.add_zero] at hzero
    exact readAt_ok.mpr hzero
  refine ⟨k, v k, bind_ok.mpr ⟨v 0, hstart, hrun⟩, hkx, ?_, fun y hy hy' => ?_⟩
  · exact (attains_iff hv (hwidth k hk)).mpr fun y hy => hbest y (Nat.le_sub_one_of_lt hy)
  · have hle := (attains_iff hv (Nat.lt_trans hy (hwidth k hk))).mp hy' k (hwidth k hk)
    exact absurd hle (Int.not_le.mpr (hfirst y hy))

/-- `argmax` and `argmin` index the extreme exactly when there is one that `u32` holds. -/
theorem argreducesExactly_iff {source : List T} (haccepts : Accepts layout.shape [dimension]) :
    ArgreducesExactly source layout dimension ↔ HasExtremes source layout dimension := by
  have hdim := haccepts.inRange dimension (mem_singleton.mpr rfl)
  constructor
  · intro h c hc pickMax
    obtain ⟨destination, hready, hshape⟩ :=
      CpuDestination.exists_ready (0 : UInt32) hc.positive haccepts.stored
    obtain ⟨out, _, hout⟩ := h pickMax "argmax" destination hready hshape
    obtain ⟨index, _, hlt, hattains, _⟩ := hout c (by rwa [hshape])
    exact ⟨index.toNat, hlt, index.toNat_lt, hattains⟩
  · intro h pickMax operation destination hready hshape
    -- one loop for each output element, which `u32` holds the result of
    have hloop : ∀ outputIndex ∈ List.range destination.shape.prod, ∃ index : UInt32,
        ∃ k v, bestAlong source layout dimension pickMax (outputBase layout [dimension] outputIndex) = .ok (k, v) ∧
          index = UInt32.ofNat k ∧ ∀ c, Coordinate (keptShape layout.shape [dimension]) c →
            rowIndex (keptShape layout.shape [dimension]) c = outputIndex →
            index.toNat < layout.shape.getD dimension 0 ∧
            Attains pickMax (axisValue source layout dimension c) (layout.shape.getD dimension 0) index.toNat ∧
            ∀ y < index.toNat,
              ¬ Attains pickMax (axisValue source layout dimension c) (layout.shape.getD dimension 0) y := by
      intro outputIndex hmem
      obtain ⟨hc, hindex⟩ := rowIndex_unravel (mem_range.mp hmem)
      rw [hshape] at hc hindex
      obtain ⟨x, hx, hsmall, hattains⟩ := h _ hc pickMax
      obtain ⟨k, v, hrun, hle, hfirst⟩ := bestAlong_first hdim hc hx hattains
      have hk : (UInt32.ofNat k).toNat = k := by
        rw [UInt32.toNat_ofNat']
        exact Nat.mod_eq_of_lt (Nat.lt_of_le_of_lt hle hsmall)
      refine ⟨UInt32.ofNat k, k, v, ?_, rfl, fun c hc' hrow => ?_⟩
      · rw [← hindex, outputBase_rowIndex hc]
        exact hrun
      · obtain rfl : c = unravel (keptShape layout.shape [dimension]) outputIndex := by
          rw [← hrow, unravel_rowIndex hc']
        rw [hk]
        exact ⟨Nat.lt_of_le_of_lt hle hx, hfirst⟩
    obtain ⟨out, hout⟩ := exists_forall₂ hloop
    obtain ⟨_, hget⟩ := forall₂_range hout
    refine ⟨out, ?_, fun c hc => ?_⟩
    · rw [argreduceIntoImpl, validateReduceDestination_ready haccepts.inRange hready hshape, ok_bind,
        CpuDestination.writeCurrent_ready hready, hready.length_slice, mapM_forall₂]
      refine hout.imp fun outputIndex index hindex => ?_
      obtain ⟨k, v, hrun, hvalue, _⟩ := hindex
      exact bind_ok.mpr ⟨(k, v), hrun, congrArg Except.ok hvalue.symm⟩
    · obtain ⟨index, hvalue, k, v, _, _, hspec⟩ := hget _ (rowIndex_lt hc)
      rw [hshape] at hc hvalue hspec ⊢
      exact ⟨index, hvalue, hspec c hc rfl⟩

end Extremes

end Reduce

end EffectTorch
