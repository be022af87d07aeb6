import EffectTorch.Lib.Strides
import Mathlib.Algebra.BigOperators.Group.Finset.Basic
import Mathlib.Algebra.BigOperators.Ring.Finset
import Mathlib.Algebra.Order.BigOperators.Group.Finset
import Mathlib.Data.List.GetD

/-!
# Tensors by coordinates

A tensor is a function of the coordinates of its shape. Moving its elements is composing it with
a map of coordinates: along one axis, of the shape `pre ++ d :: post`, or through the row-major
index, when it is reshaped. Sums over a shape are taken axis by axis.

Results:
1. `unravel_rowIndex`, `rowIndex_unravel`: the row-major index of a coordinate and back.
2. `reshaped_eq`: a reshaped tensor has its elements in the same order.
3. `sumOver_single`, `sumOver_comm`: sums over a shape with one term, and over two shapes.
4. `Places.trans`, `Places.sum`: what is placed among zeros, moved again and summed.
-/

namespace Lib
open List

/-! ## Axes -/

section Axes

variable {pre post c : List Nat} {d : Nat}

theorem coordinate_append {a b : List Nat} :
    Coordinate (a ++ b) c ↔ ∃ ca cb, c = ca ++ cb ∧ Coordinate a ca ∧ Coordinate b cb := by
  induction a generalizing c with
  | nil => exact ⟨fun h => ⟨[], c, rfl, .nil, h⟩, fun ⟨ca, cb, hc, ha, hb⟩ => by cases ha; exact hc ▸ hb⟩
  | cons d a ih =>
    constructor
    · intro h
      obtain ⟨x, rest, hx, hrest, rfl⟩ := forall₂_cons_right_iff.mp h
      obtain ⟨ca, cb, rfl, ha, hb⟩ := ih.mp hrest
      exact ⟨x :: ca, cb, rfl, .cons hx ha, hb⟩
    · rintro ⟨ca, cb, rfl, ha, hb⟩
      obtain ⟨x, ca', hx, ha', rfl⟩ := forall₂_cons_right_iff.mp ha
      exact .cons hx (ih.mpr ⟨ca', cb, rfl, ha', hb⟩)

/-- A coordinate, split at an axis. -/
theorem coordinate_split : Coordinate (pre ++ d :: post) c ↔
    ∃ ci x cj, c = ci ++ x :: cj ∧ Coordinate pre ci ∧ x < d ∧ Coordinate post cj := by
  rw [coordinate_append]
  constructor
  · rintro ⟨ci, rest, rfl, hi, hrest⟩
    obtain ⟨x, cj, hx, hj, rfl⟩ := forall₂_cons_right_iff.mp hrest
    exact ⟨ci, x, cj, rfl, hi, hx, hj⟩
  · rintro ⟨ci, x, cj, rfl, hi, hx, hj⟩
    exact ⟨ci, x :: cj, rfl, hi, .cons hx hj⟩

theorem coordinate_four {a b d e i j k l : Nat} :
    Coordinate [a, b, d, e] [i, j, k, l] ↔ i < a ∧ j < b ∧ k < d ∧ l < e := by
  simp

theorem coordinate_mk {ci cj : List Nat} {x : Nat} (hi : Coordinate pre ci) (hx : x < d)
    (hj : Coordinate post cj) : Coordinate (pre ++ d :: post) (ci ++ x :: cj) :=
  coordinate_split.mpr ⟨ci, x, cj, rfl, hi, hx, hj⟩

variable {α : Type}

theorem getD_axis (pre post : List α) (d e : α) : (pre ++ d :: post).getD pre.length e = d := by
  rw [getD_eq_getElem?_getD, List.getElem?_append_right (Nat.le_refl _), Nat.sub_self]
  rfl

theorem set_axis (pre post : List α) (d e : α) : (pre ++ d :: post).set pre.length e = pre ++ e :: post := by
  rw [set_append_right _ _ (Nat.le_refl _), Nat.sub_self]
  rfl

theorem getD_off_axis (pre post : List α) (d e z : α) {i : Nat} (hi : i ≠ pre.length) :
    (pre ++ d :: post).getD i z = (pre ++ e :: post).getD i z := by
  rw [← set_axis pre post d e, getD_eq_getElem?_getD, getD_eq_getElem?_getD,
    List.getElem?_set_ne hi.symm]

theorem modify_axis (pre post : List α) (d : α) (f : α → α) :
    (pre ++ d :: post).modify pre.length f = pre ++ f d :: post := by
  induction pre with
  | nil => rfl
  | cons a pre ih => exact congrArg _ ih

theorem insertIdx_axis (pre post : List α) (d e : α) :
    (pre ++ d :: post).insertIdx (pre.length + 1) e = pre ++ d :: e :: post := by
  induction pre with
  | nil => rfl
  | cons a pre ih => exact congrArg _ ih

theorem exists_axis {shape : List α} {dim : Nat} (h : dim < shape.length) :
    ∃ pre d post, shape = pre ++ d :: post ∧ pre.length = dim := by
  refine ⟨shape.take dim, shape[dim], shape.drop (dim + 1), ?_, length_take_of_le (Nat.le_of_lt h)⟩
  rw [← drop_eq_getElem_cons h, take_append_drop]

/-- The components of a coordinate are those of its axes. -/
theorem getD_coordinate {ci : List Nat} (hi : Coordinate pre ci) (x : Nat) (cj : List Nat) :
    (ci ++ x :: cj).getD pre.length 0 = x := by
  rw [← hi.length_eq, getD_axis]

theorem set_coordinate {ci : List Nat} (hi : Coordinate pre ci) (x y : Nat) (cj : List Nat) :
    (ci ++ x :: cj).set pre.length y = ci ++ y :: cj := by
  rw [← hi.length_eq, set_axis]

/-- A coordinate with another component along one axis, in a shape that is not smaller along the
others. -/
theorem coordinate_set {s t : List Nat} {dim x : Nat} (hc : Coordinate s c) (hlen : s.length = t.length)
    (hle : ∀ i < t.length, i ≠ dim → s.getD i 0 ≤ t.getD i 0) (hx : x < t.getD dim 0) :
    Coordinate t (c.set dim x) := by
  have hclen : c.length = t.length := hc.length_eq.trans hlen
  refine forall₂_iff_get.mpr ⟨by rw [length_set, hclen], fun i hi ht => ?_⟩
  rw [get_eq_getElem, get_eq_getElem, getElem_set]
  split
  · next h =>
    subst h
    rwa [getD_eq_getElem _ _ ht] at hx
  · next h =>
    have hget := (forall₂_iff_get.mp hc).2 i (hclen ▸ ht) (hlen ▸ ht)
    have hi' := hle i ht (Ne.symm h)
    rw [getD_eq_getElem _ _ ht, getD_eq_getElem _ _ (hlen ▸ ht)] at hi'
    exact Nat.lt_of_lt_of_le hget hi'

end Axes

/-! ## Row-major order -/

section RowMajor

variable {shape c : List Nat}

theorem rowIndex_append {a b ca cb : List Nat} (h : ca.length = a.length) :
    rowIndex (a ++ b) (ca ++ cb) = rowIndex a ca * b.prod + rowIndex b cb := by
  induction a generalizing ca with
  | nil =>
    obtain rfl := length_eq_zero_iff.mp h
    exact (Nat.zero_add _).symm.trans (by rw [← Nat.zero_mul b.prod]; rfl)
  | cons d a ih =>
    cases ca with
    | nil => cases h
    | cons x ca =>
      rw [cons_append, cons_append, rowIndex_cons, rowIndex_cons, ih (Nat.succ.inj h),
        prod_append, Nat.add_mul, Nat.mul_assoc, Nat.add_assoc]

/-- The coordinate with a row-major index. -/
def unravel : List Nat → Nat → List Nat
  | [], _ => []
  | _ :: shape, i => i / shape.prod :: unravel shape (i % shape.prod)

theorem unravel_rowIndex (h : Coordinate shape c) : unravel shape (rowIndex shape c) = c := by
  induction h with
  | nil => rfl
  | @cons x d cs shape hx hcs ih =>
    have hlt := rowIndex_lt hcs
    have hpos : 0 < shape.prod := Nat.zero_lt_of_lt hlt
    rw [rowIndex_cons, unravel, Nat.mul_comm, Nat.mul_add_div hpos, Nat.div_eq_of_lt hlt,
      Nat.mul_add_mod, Nat.mod_eq_of_lt hlt, ih, Nat.add_zero]

theorem rowIndex_unravel {i : Nat} (h : i < shape.prod) :
    Coordinate shape (unravel shape i) ∧ rowIndex shape (unravel shape i) = i := by
  induction shape generalizing i with
  | nil => exact ⟨.nil, (Nat.lt_one_iff.mp h).symm⟩
  | cons d shape ih =>
    rw [prod_cons] at h
    have hpos : 0 < shape.prod := Nat.pos_of_lt_mul_left h
    obtain ⟨hc, hi⟩ := ih (Nat.mod_lt i hpos)
    refine ⟨.cons ((Nat.div_lt_iff_lt_mul hpos).mpr h) hc, ?_⟩
    rw [unravel, rowIndex_cons, hi, Nat.div_add_mod']

/-- A tensor of shape `source` with the shape `target`. -/
def reshaped {α : Type} (source target : List Nat) (f : List Nat → α) : List Nat → α :=
  fun c => f (unravel source (rowIndex target c))

/-- A reshaped tensor has its elements in the same order. -/
theorem reshaped_eq {α : Type} {source target c' : List Nat} {f : List Nat → α}
    (hc' : Coordinate source c') (h : rowIndex source c' = rowIndex target c) :
    reshaped source target f c = f c' := by
  rw [reshaped, ← h, unravel_rowIndex hc']

/-- The axis `d` in front of an axis `e`, and the two as one. -/
theorem rowIndex_merge {pre post ci cj : List Nat} {d e x y : Nat} (hi : ci.length = pre.length) :
    rowIndex (pre ++ d :: e :: post) (ci ++ x :: y :: cj) =
      rowIndex (pre ++ d * e :: post) (ci ++ (x * e + y) :: cj) := by
  rw [rowIndex_append hi, rowIndex_append hi, rowIndex_cons, rowIndex_cons, rowIndex_cons,
    prod_cons, prod_cons, prod_cons, Nat.mul_assoc, Nat.add_mul, Nat.mul_assoc,
    Nat.add_assoc]

end RowMajor

/-! ## Axes of size one -/

theorem coordinate_ones {m : Nat} {c : List Nat} :
    Coordinate (List.replicate m 1) c ↔ c = List.replicate m 0 := by
  induction m generalizing c with
  | zero => exact forall₂_nil_right_iff
  | succ m ih =>
    rw [replicate_succ, replicate_succ]
    constructor
    · intro h
      obtain ⟨x, cs, hx, hcs, rfl⟩ := forall₂_cons_right_iff.mp h
      rw [Nat.lt_one_iff.mp hx, ih.mp hcs]
    · rintro rfl
      exact .cons Nat.one_pos (ih.mpr rfl)

theorem rowIndex_ones (m : Nat) (c : List Nat) (hc : c = List.replicate m 0) :
    rowIndex (List.replicate m 1) c = 0 := by
  subst hc
  induction m with
  | zero => rfl
  | succ m ih => rw [replicate_succ, replicate_succ, rowIndex_cons, ih, Nat.zero_mul]

/-- The row-major index along the only axis that is not of size one. -/
theorem rowIndex_between_ones (l r n x : Nat) :
    rowIndex (List.replicate l 1 ++ n :: List.replicate r 1)
      (List.replicate l 0 ++ x :: List.replicate r 0) = x := by
  rw [rowIndex_append (by rw [length_replicate, length_replicate]), rowIndex_ones l _ rfl,
    rowIndex_cons, rowIndex_ones r _ rfl, prod_replicate, Nat.one_pow, Nat.zero_mul, Nat.zero_add,
    Nat.mul_one, Nat.add_zero]

theorem ones_axis (pre post : List Nat) (d n : Nat) :
    (List.replicate (pre ++ d :: post).length 1).set pre.length n =
      List.replicate pre.length 1 ++ n :: List.replicate post.length 1 := by
  have hset := set_axis (List.replicate pre.length 1) (List.replicate post.length 1) 1 n
  rw [length_replicate] at hset
  rw [length_append, length_cons, replicate_add, replicate_succ, hset]

theorem Repeats.axis {pre pre' post post' : List Nat} (n : Nat) (hpre : Repeats pre pre')
    (hpost : Repeats post post') : Repeats (pre ++ n :: post) (pre' ++ n :: post') :=
  rel_append hpre (.cons (.inl rfl) hpost)

theorem squash_axis {n x : Nat} (hx : x < n) : (if n = 1 then 0 else x) = x := by
  split
  · next hone => exact (Nat.lt_one_iff.mp (hone ▸ hx)).symm
  · rfl

theorem squash_append {a b ca cb : List Nat} (h : ca.length = a.length) :
    squash (a ++ b) (ca ++ cb) = squash a ca ++ squash b cb :=
  zipWith_append h.symm

theorem squash_ones {m : Nat} {c : List Nat} (h : c.length = m) :
    squash (List.replicate m 1) c = List.replicate m 0 := by
  subst h
  induction c with
  | nil => rfl
  | cons x c ih => exact congrArg _ ih

/-! ## Sums -/

section Sums

variable {M : Type} [AddCommMonoid M]

/-- The sum over the coordinates of a shape. -/
def sumOver : List Nat → (List Nat → M) → M
  | [], f => f []
  | d :: shape, f => ∑ x ∈ Finset.range d, sumOver shape fun c => f (x :: c)

theorem sumOver_congr {shape : List Nat} {f g : List Nat → M}
    (h : ∀ c, Coordinate shape c → f c = g c) : sumOver shape f = sumOver shape g := by
  induction shape generalizing f g with
  | nil => exact h [] .nil
  | cons d shape ih =>
    exact Finset.sum_congr rfl fun x hx => ih fun c hc => h (x :: c) (.cons (Finset.mem_range.mp hx) hc)

@[simp] theorem sumOver_zero (shape : List Nat) : sumOver shape (fun _ => (0 : M)) = 0 := by
  induction shape with
  | nil => rfl
  | cons d shape ih => exact Finset.sum_eq_zero fun _ _ => ih

theorem sumOver_sum {ι : Type} (s : Finset ι) (shape : List Nat) (f : ι → List Nat → M) :
    sumOver shape (fun c => ∑ i ∈ s, f i c) = ∑ i ∈ s, sumOver shape (f i) := by
  induction shape generalizing f with
  | nil => rfl
  | cons d shape ih =>
    rw [sumOver, Finset.sum_congr rfl fun x _ => ih fun i c => f i (x :: c)]
    exact Finset.sum_comm

/-- Sums over two shapes can be exchanged. -/
theorem sumOver_comm (shape shape' : List Nat) (f : List Nat → List Nat → M) :
    sumOver shape (fun c => sumOver shape' (f c)) = sumOver shape' fun c' => sumOver shape fun c => f c c' := by
  induction shape generalizing f with
  | nil => rfl
  | cons d shape ih =>
    rw [sumOver, Finset.sum_congr rfl fun x _ => ih fun c => f (x :: c)]
    exact (sumOver_sum _ _ _).symm

/-- Only one term is not zero. -/
theorem sumOver_single {shape c : List Nat} (hc : Coordinate shape c) {f : List Nat → M}
    (h : ∀ c', Coordinate shape c' → c' ≠ c → f c' = 0) : sumOver shape f = f c := by
  induction hc generalizing f with
  | nil => rfl
  | @cons x d cs shape hx hcs ih =>
    rw [sumOver, Finset.sum_eq_single_of_mem x (Finset.mem_range.mpr hx)]
    · exact ih fun c' hc' hne => h (x :: c') (.cons hx hc') fun heq => hne (List.cons.inj heq).2
    · intro y hy hne
      rw [← sumOver_zero shape]
      exact sumOver_congr fun c' hc' =>
        h (y :: c') (.cons (Finset.mem_range.mp hy) hc') fun heq => hne (List.cons.inj heq).1

end Sums

/-! ## Elements among zeros -/

/-- `g` has the elements of `f` where `move` takes them, and is zero elsewhere. -/
structure Places {M : Type} [Zero M] (source target : List Nat) (move : List Nat → List Nat)
    (f g : List Nat → M) : Prop where
  inside : ∀ k, Coordinate source k → Coordinate target (move k)
  placed : ∀ k, Coordinate source k → g (move k) = f k
  zero : ∀ c, Coordinate target c → (∀ k, Coordinate source k → move k ≠ c) → g c = 0

namespace Places

variable {M : Type} [Zero M] {source mid target : List Nat} {move next : List Nat → List Nat}
  {f g h : List Nat → M}

theorem refl (source : List Nat) (f : List Nat → M) : Places source source id f f where
  inside := fun _ hk => hk
  placed := fun _ _ => rfl
  zero := fun c hc hne => absurd rfl (hne c hc)

theorem trans (hfg : Places source mid move f g) (hgh : Places mid target next g h) :
    Places source target (next ∘ move) f h where
  inside := fun k hk => hgh.inside _ (hfg.inside k hk)
  placed := fun k hk => (hgh.placed _ (hfg.inside k hk)).trans (hfg.placed k hk)
  zero := by
    intro c hc hne
    by_cases hm : ∃ m, Coordinate mid m ∧ next m = c
    · obtain ⟨m, hm, rfl⟩ := hm
      rw [hgh.placed m hm]
      exact hfg.zero m hm fun k hk heq => hne k hk (congrArg next heq)
    · exact hgh.zero c hc fun m hmid heq => hm ⟨m, hmid, heq⟩

/-- Only the coordinates of the two shapes count. -/
theorem congr {move' : List Nat → List Nat} {g' : List Nat → M} (hfg : Places source target move f g)
    (hmove : ∀ k, Coordinate source k → move' k = move k)
    (hg : ∀ c, Coordinate target c → g' c = g c) : Places source target move' f g' where
  inside := fun k hk => hmove k hk ▸ hfg.inside k hk
  placed := by
    intro k hk
    rw [hmove k hk, hg _ (hfg.inside k hk), hfg.placed k hk]
  zero := by
    intro c hc hne
    rw [hg c hc]
    exact hfg.zero c hc fun k hk => hmove k hk ▸ hne k hk

/-- A part of the target that has all that is placed. -/
theorem restrict {part : List Nat} {g' : List Nat → M} (hfg : Places source target move f g)
    (hinside : ∀ k, Coordinate source k → Coordinate part (move k))
    (hpart : ∀ c, Coordinate part c → Coordinate target c ∧ g' c = g c) :
    Places source part move f g' where
  inside := hinside
  placed := fun k hk => (hpart _ (hinside k hk)).2.trans (hfg.placed k hk)
  zero := fun c hc hne => (hpart c hc).2.trans (hfg.zero c (hpart c hc).1 hne)

/-- A move along one axis. -/
theorem axis {pre post : List Nat} {d e : Nat} {shift : Nat → Nat} (hshift : ∀ x < d, shift x < e)
    (hplaced : ∀ ci x cj, Coordinate pre ci → x < d → Coordinate post cj →
      g (ci ++ shift x :: cj) = f (ci ++ x :: cj))
    (hzero : ∀ ci y cj, Coordinate pre ci → y < e → Coordinate post cj → (∀ x < d, shift x ≠ y) →
      g (ci ++ y :: cj) = 0) :
    Places (pre ++ d :: post) (pre ++ e :: post) (fun c => c.modify pre.length shift) f g := by
  have hmove : ∀ ci x cj, Coordinate pre ci →
      (ci ++ x :: cj).modify pre.length shift = ci ++ shift x :: cj := by
    intro ci x cj hi
    rw [← hi.length_eq, modify_axis]
  constructor
  · intro k hk
    obtain ⟨ci, x, cj, rfl, hi, hx, hj⟩ := coordinate_split.mp hk
    rw [hmove ci x cj hi]
    exact coordinate_mk hi (hshift x hx) hj
  · intro k hk
    obtain ⟨ci, x, cj, rfl, hi, hx, hj⟩ := coordinate_split.mp hk
    rw [hmove ci x cj hi]
    exact hplaced ci x cj hi hx hj
  · intro c hc hne
    obtain ⟨ci, y, cj, rfl, hi, hy, hj⟩ := coordinate_split.mp hc
    refine hzero ci y cj hi hy hj fun x hx heq => hne _ (coordinate_mk hi hx hj) ?_
    rw [hmove ci x cj hi, heq]

/-- A reshape places every element. -/
theorem of_reshaped (hprod : source.prod = target.prod)
    (hmove : ∀ k, Coordinate source k →
      Coordinate target (move k) ∧ rowIndex target (move k) = rowIndex source k) :
    Places source target move f (reshaped source target f) where
  inside := fun k hk => (hmove k hk).1
  placed := fun k hk => reshaped_eq hk (hmove k hk).2.symm
  zero := by
    intro c hc hne
    obtain ⟨hk, hindex⟩ := rowIndex_unravel (hprod ▸ rowIndex_lt hc)
    obtain ⟨hmoved, hrow⟩ := hmove _ hk
    refine absurd ?_ (hne _ hk)
    rw [← unravel_rowIndex hmoved, hrow, hindex, unravel_rowIndex hc]

/-- A sum over the target is one over the source, if what it adds is zero at zeros. -/
theorem sum {N : Type} [AddCommMonoid N] (hfg : Places source target move f g)
    (hinj : ∀ k, Coordinate source k → ∀ k', Coordinate source k' → move k = move k' → k = k')
    {F : List Nat → M → N} (hF : ∀ c, F c 0 = 0) :
    sumOver target (fun c => F c (g c)) = sumOver source fun k => F (move k) (f k) := by
  calc sumOver target (fun c => F c (g c))
      = sumOver target fun c => sumOver source fun k => if move k = c then F c (g c) else 0 := by
        refine sumOver_congr fun c hc => ?_
        by_cases hk : ∃ k, Coordinate source k ∧ move k = c
        · obtain ⟨k, hk, rfl⟩ := hk
          rw [sumOver_single hk fun k' hk' hne => if_neg fun heq => hne (hinj k' hk' k hk heq), if_pos rfl]
        · have hzero : F c (g c) = 0 := by
            rw [hfg.zero c hc fun k hsource heq => hk ⟨k, hsource, heq⟩, hF]
          simp only [hzero, ite_self, sumOver_zero]
    _ = sumOver source fun k => sumOver target fun c => if move k = c then F c (g c) else 0 :=
        sumOver_comm _ _ _
    _ = sumOver source fun k => F (move k) (f k) := by
        refine sumOver_congr fun k hk => ?_
        rw [sumOver_single (hfg.inside k hk) fun c _ hne => if_neg (Ne.symm hne), if_pos rfl,
          hfg.placed k hk]

end Places

end Lib
