import EffectTorch.Runtime.WorkspaceInvariant
import EffectTorch.Lib.Lockstep
import Mathlib.Data.List.Nodup

/-!
# Ages in the workspace pool

The pool's clock is a `u64`; before it would wrap, the idle segments are renumbered. Ages decide
which segment is evicted and nothing else.

Results:
1. `nextLruTick_ticking`: a tick keeps the order of the idle segments, renumbered or not, and is
   later than all of them.
2. `bestFit_congr`, `lru_congr`: choices depend on the order of the ages only.
3. `acquire_lockstep`: pools that differ in ages serve the same segments or fail in the same way.
-/

namespace EffectTorch
open List Lib WorkspacePoolInner

section Clock

variable {K T E A : Type}

/-! ## Ages -/

/-- A segment without its age. -/
def IdleEntry.body (e : IdleEntry K T) : Nat × K × Nat × T :=
  (e.id, e.key, e.capacity, e.workspace)

/-- Segments of the same id have the same order of ages in both lists, and no two ages of one
list are equal. -/
structure SameAges (l l' : List (IdleEntry K T)) : Prop where
  older : ∀ e ∈ l, ∀ f ∈ l, ∀ e' ∈ l', ∀ f' ∈ l', e'.id = e.id → f'.id = f.id →
    (e.lastUsed < f.lastUsed ↔ e'.lastUsed < f'.lastUsed)
  distinct : ∀ e ∈ l, ∀ f ∈ l, e.lastUsed = f.lastUsed → e.id = f.id
  distinct' : ∀ e ∈ l', ∀ f ∈ l', e.lastUsed = f.lastUsed → e.id = f.id

variable {e e' : IdleEntry K T} {l l' idle : List (IdleEntry K T)} {i : Nat} {α : Type}
  {p q : WorkspacePoolInner K T A} {pending pending' : List (PendingEntry K T)}

theorem SameAges.subset {m m' : List (IdleEntry K T)} (h : SameAges l l') (hm : m ⊆ l) (hm' : m' ⊆ l') :
    SameAges m m' where
  older e he f hf e' he' f' hf' := h.older e (hm he) f (hm hf) e' (hm' he') f' (hm' hf')
  distinct e he f hf := h.distinct e (hm he) f (hm hf)
  distinct' e he f hf := h.distinct' e (hm' he) f (hm' hf)

theorem SameAges.symm (h : SameAges l l') : SameAges l' l where
  older e he f hf e' he' f' hf' hid hid' :=
    (h.older e' he' f' hf' e he f hf hid.symm hid'.symm).symm
  distinct := h.distinct'
  distinct' := h.distinct

theorem exists_same_id (hid : l.map (·.id) = l'.map (·.id)) (he : e ∈ l) : ∃ e' ∈ l', e'.id = e.id := by
  have hmem : e.id ∈ l'.map (·.id) := hid ▸ mem_map_of_mem he
  exact mem_map.mp hmem

theorem SameAges.trans {l'' : List (IdleEntry K T)} (h : SameAges l l') (h' : SameAges l' l'')
    (hid : l.map (·.id) = l'.map (·.id)) : SameAges l l'' where
  older e he f hf e'' he'' f'' hf'' hee hff := by
    obtain ⟨e', he', hee'⟩ := exists_same_id hid he
    obtain ⟨f', hf', hff'⟩ := exists_same_id hid hf
    exact (h.older e he f hf e' he' f' hf' hee' hff').trans
      (h'.older e' he' f' hf' e'' he'' f'' hf'' (hee.trans hee'.symm) (hff.trans hff'.symm))
  distinct := h.distinct
  distinct' := h'.distinct'

/-- A segment that is younger than all others may join. -/
theorem SameAges.join (h : SameAges l l') (hid : e'.id = e.id) (hfresh : ∀ f ∈ l, f.id ≠ e.id)
    (hfresh' : ∀ f ∈ l', f.id ≠ e.id) (hnew : ∀ f ∈ l, f.lastUsed < e.lastUsed)
    (hnew' : ∀ f ∈ l', f.lastUsed < e'.lastUsed) : SameAges (l ++ [e]) (l' ++ [e']) := by
  have hdistinct : ∀ {m : List (IdleEntry K T)} {d : IdleEntry K T},
      (∀ e ∈ m, ∀ f ∈ m, e.lastUsed = f.lastUsed → e.id = f.id) →
      (∀ f ∈ m, f.lastUsed < d.lastUsed) →
      ∀ x ∈ m ++ [d], ∀ y ∈ m ++ [d], x.lastUsed = y.lastUsed → x.id = y.id := by
    intro m d hm hd x hx y hy hxy
    rcases mem_append.mp hx with hx | hx <;> rcases mem_append.mp hy with hy | hy
    · exact hm x hx y hy hxy
    · rw [mem_singleton.mp hy] at hxy
      exact absurd hxy (Nat.ne_of_lt (hd x hx))
    · rw [mem_singleton.mp hx] at hxy
      exact absurd hxy.symm (Nat.ne_of_lt (hd y hy))
    · rw [mem_singleton.mp hx, mem_singleton.mp hy]
  refine ⟨?_, hdistinct h.distinct hnew, hdistinct h.distinct' hnew'⟩
  intro x hx y hy x' hx' y' hy' hxx hyy
  -- the id tells which of the two a segment is
  have hold : ∀ {z z'}, z ∈ l → z' ∈ l' ++ [e'] → z'.id = z.id → z' ∈ l' := by
    intro z z' hz hz' hzz
    rcases mem_append.mp hz' with hz' | hz'
    · exact hz'
    · rw [mem_singleton.mp hz', hid] at hzz
      exact absurd hzz.symm (hfresh z hz)
  have hlast : ∀ {z'}, z' ∈ l' ++ [e'] → z'.id = e.id → z' = e' := by
    intro z' hz' hzz
    rcases mem_append.mp hz' with hz' | hz'
    · exact absurd hzz (hfresh' z' hz')
    · exact mem_singleton.mp hz'
  rcases mem_append.mp hx with hxl | hxe <;> rcases mem_append.mp hy with hyl | hye
  · exact h.older x hxl y hyl x' (hold hxl hx' hxx) y' (hold hyl hy' hyy) hxx hyy
  · obtain rfl := mem_singleton.mp hye
    obtain rfl := hlast hy' hyy
    exact iff_of_true (hnew x hxl) (hnew' x' (hold hxl hx' hxx))
  · obtain rfl := mem_singleton.mp hxe
    obtain rfl := hlast hx' hxx
    exact iff_of_false (Nat.lt_asymm (hnew y hyl)) (Nat.lt_asymm (hnew' y' (hold hyl hy' hyy)))
  · obtain rfl := mem_singleton.mp hxe
    obtain rfl := mem_singleton.mp hye
    obtain rfl := hlast hx' hxx
    obtain rfl := hlast hy' hyy
    exact iff_of_false (Nat.lt_irrefl _) (Nat.lt_irrefl _)

/-! ## Ticks -/

/-- Ages that the pool's clock has given. -/
structure Aged (pool : WorkspacePoolInner K T A) : Prop where
  clock : ∀ e ∈ pool.idle, e.lastUsed ≤ pool.clock
  ids : (pool.idle.map (·.id)).Nodup
  count : pool.idle.length ≤ u64Max

/-- What a tick does to the pool: it may renumber the idle segments in their order, and it comes
after all of them. -/
structure Ticked (pool pool' : WorkspacePoolInner K T A) (tick : Nat) : Prop where
  same : pool' = { pool with idle := pool'.idle, clock := tick }
  body : pool'.idle.map IdleEntry.body = pool.idle.map IdleEntry.body
  ages : SameAges pool.idle pool'.idle
  newest : ∀ e ∈ pool'.idle, e.lastUsed < tick

/-- A clock for the pool. -/
abbrev LruClock (K T E A : Type) :=
  WorkspacePoolInner K T A → PoolResult K T E A (WorkspacePoolInner K T A × Nat)

/-- The clock always has a next tick. -/
def Ticking (clock : LruClock K T E A) : Prop :=
  ∀ pool, Aged pool → SameAges pool.idle pool.idle →
    ∃ pool' tick, clock pool = .ok (pool', tick) ∧ Ticked pool pool' tick

/-- A clock that never ends. -/
def unboundedTick : LruClock K T E A := fun pool =>
  .ok ({ pool with clock := pool.clock + 1 }, pool.clock + 1)

theorem unboundedTick_ticking : Ticking (unboundedTick : LruClock K T E A) :=
  fun _ haged hsame => ⟨_, _, rfl, rfl, rfl, hsame,
    fun e he => Nat.lt_succ_of_le (haged.clock e he)⟩

/-- The indices in the order of the ages. -/
theorem order_sorted (idle : List (IdleEntry K T)) :
    ((List.range idle.length).mergeSort (tickLe idle)).Pairwise fun i j => ∀ e f,
      idle[i]? = some e → idle[j]? = some f → e.lastUsed ≤ f.lastUsed := by
  let key : Nat → Nat × Nat := fun i => (idle[i]?.map fun e => (e.lastUsed, e.id)).getD (0, 0)
  let le : Nat × Nat → Nat × Nat → Bool := fun a b =>
    decide (a.1 < b.1) || (decide (a.1 = b.1) && decide (a.2 ≤ b.2))
  have hkey : ∀ i ∈ List.range idle.length, ∀ j ∈ List.range idle.length,
      tickLe idle i j = le (key i) (key j) := by
    intro i hi j hj
    simp only [tickLe, le, key, List.getElem?_eq_getElem (mem_range.mp hi),
      List.getElem?_eq_getElem (mem_range.mp hj), Option.map_some, Option.getD_some]
  have hsorted : (((List.range idle.length).map key).mergeSort le).Pairwise
      fun a b => le a b = true :=
    pairwise_mergeSort (by simp only [le, Bool.or_eq_true, Bool.and_eq_true, decide_eq_true_iff]; omega)
      (by simp only [le, Bool.or_eq_true, Bool.and_eq_true, decide_eq_true_iff]; omega) _
  rw [← map_mergeSort hkey, pairwise_map] at hsorted
  refine hsorted.imp fun hle e f he hf => ?_
  simp only [le, key, he, hf, Option.map_some, Option.getD_some, Bool.or_eq_true,
    Bool.and_eq_true, decide_eq_true_iff] at hle
  omega

theorem order_mem : i ∈ (List.range idle.length).mergeSort (tickLe idle) ↔ i < idle.length := by
  rw [mem_mergeSort, mem_range]

theorem order_nodup (idle : List (IdleEntry K T)) :
    ((List.range idle.length).mergeSort (tickLe idle)).Nodup :=
  (mergeSort_perm _ _).nodup_iff.mpr nodup_range

/-- The entries get their ranks. -/
theorem setRanks_ok {pool : WorkspacePoolInner K T A} {order : List Nat} (hnodup : order.Nodup)
    (hcount : order.length ≤ u64Max) :
    ∃ pool', (order.zipIdx.foldlM setRank pool : PoolResult K T E A _) = .ok pool' ∧
      pool' = { pool with idle := pool'.idle } ∧
      pool'.idle.map IdleEntry.body = pool.idle.map IdleEntry.body ∧
      ∀ (k i : Nat) (e : IdleEntry K T), order[k]? = some i → pool'.idle[i]? = some e →
        e.lastUsed = k := by
  obtain ⟨pool', hloop, hsame, hbody, hrank⟩ := foldlM_total
    (φ := WorkspacePoolInner K T A × PoolFailure E) (f := setRank)
    (fun done (p : WorkspacePoolInner K T A) => p = { pool with idle := p.idle } ∧
      p.idle.map IdleEntry.body = pool.idle.map IdleEntry.body ∧
      ∀ entry ∈ done, ∀ e, p.idle[entry.1]? = some e → e.lastUsed = entry.2)
    order.zipIdx (by
      rintro done ⟨index, rank⟩ rest p hsplit ⟨hsame, hbody, hrank⟩
      have hmem : (index, rank) ∈ order.zipIdx := by rw [hsplit]; simp
      have hlt := (List.getElem?_eq_some_iff.mp (mk_mem_zipIdx_iff_getElem?.mp hmem)).1
      refine ⟨{ p with idle := p.idle.modify index fun e => { e with lastUsed := rank } }, ?_,
        ?_, ?_, ?_⟩
      · rw [setRank, u64TryFrom_some.mpr ⟨Nat.le_trans (Nat.le_of_lt hlt) hcount, rfl⟩]
        rfl
      · rw [hsame]
      · rw [← hbody]
        refine ext_getElem? fun i => ?_
        rw [List.getElem?_map, List.getElem?_modify, List.getElem?_map]
        cases p.idle[i]? with
        | none => rfl
        | some e =>
          simp only [Option.map_eq_map, Option.map_some]
          split <;> rfl
      · rintro ⟨i, k⟩ hdone e he
        dsimp only at he ⊢
        rcases mem_append.mp hdone with hold | hnew
        · -- an index occurs once in the order
          have hne : index ≠ i := by
            rintro rfl
            have hfst : (order.zipIdx.map Prod.fst).Nodup := by rwa [zipIdx_map_fst]
            rw [hsplit, map_append, map_cons] at hfst
            exact (nodup_append.mp hfst).2.2 _ (mem_map_of_mem hold) _
              mem_cons_self rfl
          rw [List.getElem?_modify_ne _ _ hne] at he
          exact hrank (i, k) hold e he
        · obtain ⟨rfl, rfl⟩ := Prod.mk.inj (mem_singleton.mp hnew)
          rw [List.getElem?_modify_eq] at he
          obtain ⟨_, _, rfl⟩ := Option.map_eq_some_iff.mp he
          rfl) pool ⟨rfl, rfl, nofun⟩
  refine ⟨pool', hloop, hsame, hbody, fun k i e hk he => ?_⟩
  exact hrank (i, k) (mk_mem_zipIdx_iff_getElem?.mpr hk) e he

theorem id_of_body (h : l.map IdleEntry.body = l'.map IdleEntry.body) : l.map (·.id) = l'.map (·.id) := by
  have hfst := congrArg (List.map Prod.fst) h
  rwa [map_map, map_map] at hfst

/-- Segments of one id stand at one place. -/
theorem index_of_id (hid : l.map (·.id) = l'.map (·.id)) (hnodup : (l.map (·.id)).Nodup) {j : Nat}
    (he : l[i]? = some e) (he' : l'[j]? = some e') (hee : e'.id = e.id) : i = j := by
  have hi : (l.map (·.id))[i]? = some e.id := by rw [List.getElem?_map, he]; rfl
  have hj : (l.map (·.id))[j]? = some e.id := by rw [hid, List.getElem?_map, he', ← hee]; rfl
  obtain ⟨hlt, _⟩ := List.getElem?_eq_some_iff.mp hi
  exact (List.getElem?_inj hlt hnodup).mp (hi.trans hj.symm)

/-- The pool's clock always has a next tick, also when it would wrap. -/
theorem nextLruTick_ticking : Ticking (nextLruTick : LruClock K T E A) := by
  intro pool haged hsame
  unfold nextLruTick
  split
  · next next hnext =>
    obtain ⟨_, rfl⟩ := checkedAdd64_some.mp hnext
    exact ⟨_, _, rfl, rfl, rfl, hsame, fun e he => Nat.lt_succ_of_le (haged.clock e he)⟩
  · have hnodup := order_nodup pool.idle
    have hsorted := order_sorted pool.idle
    have hmem : ∀ i, i ∈ (List.range pool.idle.length).mergeSort (tickLe pool.idle) ↔
        i < pool.idle.length := fun i => order_mem
    have hlength : ((List.range pool.idle.length).mergeSort (tickLe pool.idle)).length =
        pool.idle.length := by
      rw [length_mergeSort, length_range]
    generalize (List.range pool.idle.length).mergeSort (tickLe pool.idle) = order at *
    obtain ⟨pool', hloop, hrest, hbody, hrank⟩ :=
      @setRanks_ok K T E A pool _ hnodup (hlength.trans_le haged.count)
    have hid := id_of_body hbody
    have hcount : pool'.idle.length = pool.idle.length := by
      have := congrArg List.length hbody
      rwa [length_map, length_map] at this
    have hone : 1 ≤ u64Max := by decide
    have hlast : pool.idle.length - 1 + 1 ≤ u64Max := by
      have := haged.count
      omega
    have hplace : ∀ e' ∈ pool'.idle, ∀ e ∈ pool.idle, e'.id = e.id → ∃ k i : Nat,
        order[k]? = some i ∧ pool.idle[i]? = some e ∧ pool'.idle[i]? = some e' ∧
          e'.lastUsed = k := by
      intro e' he' e he hee
      obtain ⟨i, hi⟩ := mem_iff_getElem?.mp he
      obtain ⟨j, hj⟩ := mem_iff_getElem?.mp he'
      obtain rfl := index_of_id hid.symm haged.ids hi hj hee
      obtain ⟨k, hk⟩ := mem_iff_getElem?.mp
        ((hmem i).mpr (List.getElem?_eq_some_iff.mp hi).1)
      exact ⟨k, i, hk, hi, hj, hrank k i e' hk hj⟩
    have hbefore : ∀ {a b i j : Nat} {e f : IdleEntry K T}, order[a]? = some i →
        order[b]? = some j → pool.idle[i]? = some e → pool.idle[j]? = some f → a < b →
        e.lastUsed < f.lastUsed := by
      intro a b i j e f ha hb he hf hab
      obtain ⟨halt, rfl⟩ := List.getElem?_eq_some_iff.mp ha
      obtain ⟨hblt, rfl⟩ := List.getElem?_eq_some_iff.mp hb
      have hle := pairwise_iff_getElem.mp hsorted a b halt hblt hab e f he hf
      refine Nat.lt_of_le_of_ne hle fun heq => ?_
      have hidx := index_of_id rfl haged.ids he hf (hsame.distinct _ (mem_of_getElem? he) _
        (mem_of_getElem? hf) heq).symm
      exact absurd ((hnodup.getElem_inj_iff).mp hidx) (Nat.ne_of_lt hab)
    refine ⟨{ pool' with clock := pool.idle.length - 1 + 1 }, pool.idle.length - 1 + 1, ?_,
      ?_, hbody, ⟨?_, hsame.distinct, ?_⟩, ?_⟩
    · show (order.zipIdx.foldlM setRank pool >>= _) = _
      rw [hloop, ok_bind, hcount, u64TryFrom_some.mpr ⟨Nat.le_of_succ_le hlast, rfl⟩,
        expectPool_some, ok_bind]
      dsimp only
      rw [checkedAdd64_of_le hlast]
      rfl
    · rw [hrest]
    · intro e he f hf e' he' f' hf' hee hff
      obtain ⟨a, i, ha, hi, _, hea⟩ := hplace e' he' e he hee
      obtain ⟨b, j, hb, hj, _, hfb⟩ := hplace f' hf' f hf hff
      rw [hea, hfb]
      refine ⟨fun hlt => ?_, hbefore ha hb hi hj⟩
      rcases Nat.lt_trichotomy a b with hab | rfl | hab
      · exact hab
      · obtain rfl := Option.some.inj (ha.symm.trans hb)
        obtain rfl := Option.some.inj (hi.symm.trans hj)
        exact absurd hlt (Nat.lt_irrefl _)
      · exact absurd hlt (Nat.lt_asymm (hbefore hb ha hj hi hab))
    · intro e' he' f' hf' heq
      obtain ⟨e, he, hee⟩ := exists_same_id hid he'
      obtain ⟨f, hf, hff⟩ := exists_same_id hid hf'
      obtain ⟨a, i, ha, _, hi, hea⟩ := hplace e' he' e he hee.symm
      obtain ⟨b, j, hb, _, hj, hfb⟩ := hplace f' hf' f hf hff.symm
      obtain rfl : a = b := by rw [← hea, ← hfb, heq]
      obtain rfl := Option.some.inj (ha.symm.trans hb)
      obtain rfl := Option.some.inj (hi.symm.trans hj)
      rfl
    · intro e' he'
      obtain ⟨e, he, hee⟩ := exists_same_id hid he'
      obtain ⟨a, i, ha, _, _, hea⟩ := hplace e' he' e he hee.symm
      have hlt := (List.getElem?_eq_some_iff.mp ha).1
      rw [hea]
      omega

/-! ## Choices -/

theorem minByKey_map {β : Type} (g : α → β) (key : β → Nat × Nat) (l : List α) :
    minByKey key (l.map g) = (minByKey (fun a => key (g a)) l).map g := by
  induction l with
  | nil => rfl
  | cons a l ih =>
    rw [map_cons, minByKey, ih, minByKey]
    cases minByKey (fun a => key (g a)) l with
    | none => rfl
    | some b =>
      dsimp only [Option.map_some]
      split <;> rfl

/-- The first entry of the least key has the least key. -/
theorem minByKey_le {key : α → Nat × Nat} {l : List α} {a : α} (h : minByKey key l = some a) {b : α}
    (hb : b ∈ l) : (key a).1 < (key b).1 ∨ (key a).1 = (key b).1 ∧ (key a).2 ≤ (key b).2 := by
  induction l generalizing a with
  | nil => cases hb
  | cons c l ih =>
    rw [minByKey] at h
    cases hc : minByKey key l with
    | none =>
      rw [hc] at h
      obtain rfl := Option.some.inj h
      obtain rfl := minByKey_none hc
      obtain rfl := mem_singleton.mp hb
      exact .inr ⟨rfl, Nat.le_refl _⟩
    | some d =>
      rw [hc] at h
      dsimp only at h
      split at h
      · next hle =>
        obtain rfl := Option.some.inj h
        rcases mem_cons.mp hb with rfl | hb
        · exact .inr ⟨rfl, Nat.le_refl _⟩
        · have := ih hc hb
          omega
      · next hgt =>
        obtain rfl := Option.some.inj h
        rcases mem_cons.mp hb with rfl | hb
        · omega
        · exact ih hc hb

/-- The best fit does not depend on ages. -/
theorem bestFit_congr [DecidableEq K] {pool pool' : WorkspacePoolInner K T A}
    (h : pool.idle.map IdleEntry.body = pool'.idle.map IdleEntry.body) (key : K) (bytes : Nat) :
    bestFit pool key bytes = bestFit pool' key bytes := by
  have hbody : ∀ pool : WorkspacePoolInner K T A, bestFit pool key bytes =
      (minByKey (fun e => (e.1.2.2.1, e.1.1)) ((pool.idle.map IdleEntry.body).zipIdx.filter
        fun e => decide (e.1.2.1 = key) && decide (bytes ≤ e.1.2.2.1))).map Prod.snd := by
    intro pool
    rw [zipIdx_map, filter_map, minByKey_map, Option.map_map]
    rfl
  rw [hbody, hbody, h]

/-- The segment that was not used for the longest time, with its place. -/
def lru (idle : List (IdleEntry K T)) : Option (IdleEntry K T × Nat) :=
  minByKey (fun e => (e.1.lastUsed, e.1.id)) idle.zipIdx

theorem lru_none (h : lru idle = none) : idle = [] :=
  zipIdx_eq_nil_iff.mp (minByKey_none h)

theorem lru_some (h : lru idle = some (e, i)) : idle[i]? = some e ∧ ∀ f ∈ idle, e.lastUsed ≤ f.lastUsed := by
  refine ⟨mk_mem_zipIdx_iff_getElem?.mp (minByKey_mem h), fun f hf => ?_⟩
  obtain ⟨j, hj⟩ := mem_iff_getElem?.mp hf
  rcases minByKey_le h (mk_mem_zipIdx_iff_getElem?.mpr hj) with hlt | ⟨heq, _⟩
  · exact Nat.le_of_lt hlt
  · exact Nat.le_of_eq heq

/-- Only the order of the ages matters for the least recently used segment. -/
theorem lru_congr (hbody : l.map IdleEntry.body = l'.map IdleEntry.body) (hages : SameAges l l')
    (hnodup : (l.map (·.id)).Nodup) (h : lru l = some (e, i)) :
    ∃ e', lru l' = some (e', i) ∧ e'.body = e.body := by
  have hid := id_of_body hbody
  obtain ⟨he, hle⟩ := lru_some h
  have hat : ∀ (k : Nat) f, l[k]? = some f → ∃ f', l'[k]? = some f' ∧ f'.body = f.body := by
    intro k f hf
    have hk : (l'.map IdleEntry.body)[k]? = some f.body := by
      rw [← hbody, List.getElem?_map, hf]
      rfl
    rw [List.getElem?_map] at hk
    obtain ⟨f', hf', hff⟩ := Option.map_eq_some_iff.mp hk
    exact ⟨f', hf', hff⟩
  cases hl' : lru l' with
  | none =>
    obtain ⟨e', he', _⟩ := hat i e he
    rw [lru_none hl'] at he'
    cases he'
  | some found =>
    obtain ⟨e', j⟩ := found
    obtain ⟨he', hle'⟩ := lru_some hl'
    obtain ⟨f', hf', hff⟩ := hat i e he
    have hmem' := mem_of_getElem? he'
    obtain ⟨f, hf, hfid⟩ := exists_same_id hid.symm hmem'
    have hfid' : f'.id = e.id := congrArg Prod.fst hff
    -- neither can be older than the other
    have hnot : ¬ e'.lastUsed < f'.lastUsed := fun hlt =>
      absurd ((hages.older f hf e (mem_of_getElem? he) e' hmem' f' (mem_of_getElem? hf')
        hfid.symm hfid').mpr hlt) (Nat.not_lt.mpr (hle f hf))
    have hage := Nat.le_antisymm (hle' f' (mem_of_getElem? hf')) (Nat.not_lt.mp hnot)
    have hsame := hages.distinct' e' hmem' f' (mem_of_getElem? hf') hage
    obtain rfl := index_of_id rfl (hid ▸ hnodup) hf' he' hsame
    obtain rfl := Option.some.inj (he'.symm.trans hf')
    exact ⟨_, rfl, hff⟩

/-! ## Acquisition in lockstep -/

/-- A pending entry without its age. -/
def PendingEntry.view (p : PendingEntry K T) : (Nat × K × Nat × T) × Nat × Bool :=
  (p.entry.body, p.requestedBytes, p.reused)

/-- Two pools that differ in ages only, with what an acquisition has taken out of them. -/
structure Twin (p q : WorkspacePoolInner K T A) (pending pending' : List (PendingEntry K T)) :
    Prop where
  same : q = { p with idle := q.idle, clock := q.clock }
  body : p.idle.map IdleEntry.body = q.idle.map IdleEntry.body
  view : pending.map PendingEntry.view = pending'.map PendingEntry.view
  ages : SameAges (p.idle ++ reusedOf pending) (q.idle ++ reusedOf pending')
  clock : ∀ e ∈ p.idle ++ reusedOf pending, e.lastUsed ≤ p.clock
  clock' : ∀ e ∈ q.idle ++ reusedOf pending', e.lastUsed ≤ q.clock

/-- Two pools that differ in ages only. -/
abbrev PoolTwin (p q : WorkspacePoolInner K T A) : Prop := Twin p q [] []

/-- Two operations that stop short in the same way. -/
def FailedTwin (r r' : WorkspacePoolInner K T A × PoolFailure E) : Prop :=
  r.2 = r'.2 ∧ PoolTwin r.1 r'.1

theorem Twin.forget (h : Twin p q pending pending') : PoolTwin p q where
  same := h.same
  body := h.body
  view := rfl
  ages := h.ages.subset (by simp [reusedOf]) (by simp [reusedOf])
  clock e he := h.clock e (mem_append_left _ (by simpa [reusedOf] using he))
  clock' e he := h.clock' e (mem_append_left _ (by simpa [reusedOf] using he))

theorem Twin.setAllocator (h : Twin p q pending pending') (allocator : A) :
    Twin { p with allocator } { q with allocator } pending pending' :=
  ⟨by rw [h.same], h.body, h.view, h.ages, h.clock, h.clock'⟩

theorem Twin.evictAllIdle (h : Twin p q pending pending') :
    Twin p.evictAllIdle q.evictAllIdle pending pending' where
  same := by rw [h.same]; rfl
  body := rfl
  view := h.view
  ages := h.ages.subset (subset_append_right _ _) (subset_append_right _ _)
  clock e he := h.clock e (mem_append_right _ he)
  clock' e he := h.clock' e (mem_append_right _ he)

theorem expectPool_lockstep (h : PoolTwin p q) (x : Option α) (message : String) :
    Lockstep (FailedTwin (E := E)) Eq (expectPool p x message) (expectPool q x message) := by
  cases x with
  | some a => exact .ok rfl
  | none => exact .error ⟨rfl, h⟩

theorem rollback_lockstep : ∀ {pending pending' : List (PendingEntry K T)}
    {p q : WorkspacePoolInner K T A}, Twin p q pending pending' →
    Lockstep (FailedTwin (E := E)) PoolTwin (rollback p pending) (rollback q pending') := by
  intro pending
  induction pending with
  | nil =>
    intro pending' p q h
    obtain rfl := map_eq_nil_iff.mp h.view.symm
    exact .ok h
  | cons x rest ih =>
    intro pending' p q h
    obtain ⟨y, rest', rfl, hxy, hrest⟩ := map_eq_cons_iff.mp h.view.symm
    obtain ⟨hbody, -, hreused⟩ : y.entry.body = x.entry.body ∧ _ ∧ y.reused = x.reused := by
      simpa only [PendingEntry.view, Prod.mk.injEq] using hxy
    have hages := h.ages
    have hclock := h.clock
    have hclock' := h.clock'
    rw [reusedOf_cons] at hages hclock
    rw [reusedOf_cons, hreused] at hages hclock'
    unfold rollback
    rw [foldlM_cons, foldlM_cons, restore, restore, hreused]
    cases hx : x.reused with
    | false =>
      rw [hx] at hages hclock hclock'
      exact ih ⟨h.same, h.body, hrest.symm, hages, hclock, hclock'⟩
    | true =>
      rw [hx, if_pos rfl, if_pos rfl, append_cons p.idle, append_cons q.idle]
        at hages
      rw [if_pos hx, append_cons] at hclock
      rw [if_pos hx, append_cons] at hclock'
      rw [if_pos rfl, if_pos rfl]
      have hbytes : q.idleBytes = p.idleBytes := congrArg (·.idleBytes) h.same
      have hcapacity : y.entry.capacity = x.entry.capacity := congrArg (·.2.2.1) hbody
      rw [hbytes, hcapacity]
      refine Lockstep.bind ((expectPool_lockstep h.forget _ _).bind fun a b hab => .ok ?_)
        fun p q h => ih h
      obtain rfl : a = b := hab
      refine ⟨by rw [h.same], ?_, hrest.symm, hages, hclock, hclock'⟩
      rw [map_append, map_append, h.body, map_singleton, map_singleton, hbody]

theorem abandon_lockstep {β : Type} {R : α → β → Prop} (h : Twin p q pending pending')
    (e : WorkspacePoolError E) : Lockstep FailedTwin R (abandon p pending e) (abandon q pending' e) :=
  (rollback_lockstep h).bind fun _ _ h => .error ⟨rfl, h⟩

theorem orAbandon_lockstep (h : Twin p q pending pending') (x : Option α) (e : WorkspacePoolError E) :
    Lockstep FailedTwin Eq (orAbandon p pending x e) (orAbandon q pending' x e) := by
  cases x with
  | some a => exact .ok rfl
  | none => exact abandon_lockstep h e

theorem allocateOrEvict_lockstep (allocate : WorkspaceAllocator K T E A) (h : Twin p q pending pending')
    (request : WorkspaceRequest K) :
    Lockstep FailedTwin (fun a b => a.2 = b.2 ∧ Twin a.1 b.1 pending pending')
      (allocateOrEvict allocate p pending request) (allocateOrEvict allocate q pending' request) := by
  have hallocator : q.allocator = p.allocator := congrArg (·.allocator) h.same
  have hempty : q.idle.isEmpty = p.idle.isEmpty := by
    rw [← isEmpty_map (f := IdleEntry.body), ← h.body, isEmpty_map]
  unfold allocateOrEvict
  rw [hallocator]
  rcases allocate p.allocator request.key request.bytes with ⟨_ | _ | _, allocator⟩
  · exact .ok ⟨rfl, h.setAllocator _⟩
  · dsimp only
    rw [hempty]
    split
    · exact abandon_lockstep (h.setAllocator _) _
    · have hevicted := (h.setAllocator allocator).evictAllIdle
      dsimp only [WorkspacePoolInner.evictAllIdle]
      rcases allocate allocator request.key request.bytes with ⟨_ | _ | _, allocator'⟩
      · exact .ok ⟨rfl, hevicted.setAllocator _⟩
      · exact abandon_lockstep (hevicted.setAllocator _) _
      · exact .error ⟨rfl, (hevicted.setAllocator _).forget⟩
  · exact .error ⟨rfl, (h.setAllocator _).forget⟩

/-- Taking the same segment out of both pools. -/
theorem Twin.take (h : Twin p q pending pending') {index bytes requested : Nat}
    (he : p.idle[index]? = some e) (he' : q.idle[index]? = some e') (hbody : e'.body = e.body) :
    Twin { p with idle := p.idle.eraseIdx index, idleBytes := bytes }
      { q with idle := q.idle.eraseIdx index, idleBytes := bytes }
      (pending ++ [⟨e, requested, true⟩]) (pending' ++ [⟨e', requested, true⟩]) := by
  have hsubset : ∀ {l : List (IdleEntry K T)} {d : IdleEntry K T} {r : List (PendingEntry K T)},
      l[index]? = some d → l.eraseIdx index ++ reusedOf (r ++ [⟨d, requested, true⟩]) ⊆
        l ++ reusedOf r := by
    intro l d r hd f hf
    rw [reusedOf_append] at hf
    rcases mem_append.mp hf with hf | hf
    · exact mem_append_left _ ((eraseIdx_sublist _ _).subset hf)
    · rcases mem_append.mp hf with hf | hf
      · exact mem_append_right _ hf
      · rw [mem_singleton.mp hf]
        exact mem_append_left _ (mem_of_getElem? hd)
  refine ⟨by rw [h.same], ?_, ?_, h.ages.subset (hsubset he) (hsubset he'),
    fun f hf => h.clock f (hsubset he hf), fun f hf => h.clock' f (hsubset he' hf)⟩
  · show (p.idle.eraseIdx index).map _ = (q.idle.eraseIdx index).map _
    rw [← eraseIdx_map, ← eraseIdx_map, h.body]
  · rw [map_append, map_append, h.view, map_singleton, map_singleton,
      PendingEntry.view, PendingEntry.view, hbody]

theorem Twin.get (h : Twin p q pending pending') {index : Nat} (he : p.idle[index]? = some e) :
    ∃ e', q.idle[index]? = some e' ∧ e'.body = e.body := by
  have hbody : (q.idle.map IdleEntry.body)[index]? = some e.body := by
    rw [← h.body, List.getElem?_map, he]
    rfl
  rw [List.getElem?_map] at hbody
  exact Option.map_eq_some_iff.mp hbody

theorem acquireOne_lockstep [DecidableEq K] (allocate : WorkspaceAllocator K T E A)
    {s t : WorkspacePoolInner K T A × List (PendingEntry K T)} (h : Twin s.1 t.1 s.2 t.2)
    (request : WorkspaceRequest K) :
    Lockstep FailedTwin (fun s t => Twin s.1 t.1 s.2 t.2) (acquireOne allocate s request)
      (acquireOne allocate t request) := by
  obtain ⟨p, pending⟩ := s
  obtain ⟨q, pending'⟩ := t
  dsimp only at h
  unfold acquireOne
  dsimp only
  rw [← bestFit_congr h.body]
  cases hfit : bestFit p request.key request.bytes with
  | some index =>
    obtain ⟨e, he, _⟩ := bestFit_some hfit
    obtain ⟨e', he', hbody⟩ := h.get he
    have hbytes : q.idleBytes = p.idleBytes := congrArg (·.idleBytes) h.same
    have hcapacity : e'.capacity = e.capacity := congrArg (·.2.2.1) hbody
    dsimp only
    rw [he, he', expectPool_some, expectPool_some, ok_bind, ok_bind, hbytes, hcapacity]
    have htaken : ∀ bytes, Twin { p with idle := p.idle.eraseIdx index, idleBytes := bytes }
        { q with idle := q.idle.eraseIdx index, idleBytes := bytes }
        (pending ++ [⟨e, request.bytes, true⟩]) (pending' ++ [⟨e', request.bytes, true⟩]) :=
      fun bytes => h.take he he' hbody
    have hforget := (htaken p.idleBytes).forget
    rw [← hbytes] at hforget
    refine (expectPool_lockstep (E := E) ?_ _ _).bind fun a b hab => .ok ?_
    · rw [← hbytes]
      exact hforget
    · obtain rfl : a = b := hab
      exact htaken a
  | none =>
    refine (allocateOrEvict_lockstep allocate h request).bind fun a b hab => ?_
    obtain ⟨p', allocation⟩ := a
    obtain ⟨q', allocation'⟩ := b
    obtain ⟨rfl, h'⟩ := hab
    dsimp only at h' ⊢
    split
    · exact abandon_lockstep h' _
    · refine .ok ⟨h'.same, h'.body, ?_, ?_, ?_, ?_⟩
      · rw [map_append, map_append, h'.view]
      · simpa [reusedOf_append, reusedOf] using h'.ages
      · simpa [reusedOf_append, reusedOf] using h'.clock
      · simpa [reusedOf_append, reusedOf] using h'.clock'

/-- A lease without the ages of its segments. -/
def WorkspaceLease.view (lease : WorkspaceLease K T) :
    List ((Nat × K × Nat × T) × Nat) × Nat × Nat :=
  (lease.segments.map fun s => (s.entry.body, s.requestedBytes), lease.requestedBytes,
    lease.actualBytes)

theorem assignIds_view : ∀ {pending pending' : List (PendingEntry K T)} {id : Nat},
    pending.map PendingEntry.view = pending'.map PendingEntry.view →
    (assignIds id pending).map (·.map PendingEntry.view) =
      (assignIds id pending').map (·.map PendingEntry.view) := by
  intro pending
  induction pending with
  | nil =>
    intro pending' id h
    rw [map_eq_nil_iff.mp h.symm]
  | cons x rest ih =>
    intro pending' id h
    obtain ⟨y, rest', rfl, hxy, hrest⟩ := map_eq_cons_iff.mp h.symm
    obtain ⟨⟨i, k, c, w, age⟩, b, r⟩ := x
    obtain ⟨⟨i', k', c', w', age'⟩, b', r'⟩ := y
    simp only [PendingEntry.view, IdleEntry.body, Prod.mk.injEq] at hxy
    obtain ⟨⟨rfl, rfl, rfl, rfl⟩, rfl, rfl⟩ := hxy
    have hmap : ∀ (next : Nat) (x y : PendingEntry K T), x.view = y.view →
        ((assignIds next rest).map (x :: ·)).map (·.map PendingEntry.view) =
          ((assignIds next rest').map (y :: ·)).map (·.map PendingEntry.view) := by
      intro next x y hxy
      have hnext := congrArg (Option.map (x.view :: ·)) (@ih _ next hrest.symm)
      rw [Option.map_map, Option.map_map] at hnext ⊢
      conv_rhs at hnext => rw [hxy]
      exact hnext
    unfold assignIds
    split
    · exact hmap id _ _ rfl
    · cases checkedAdd64 id 1 with
      | none => rfl
      | some next => exact hmap next _ _ rfl

theorem length_of_view (h : pending.map PendingEntry.view = pending'.map PendingEntry.view) :
    pending'.length = pending.length := by
  have := congrArg List.length h
  rw [length_map, length_map] at this
  exact this.symm

/-- Pools that differ in ages only serve the same requests with the same segments, or fail in the
same way. -/
theorem acquire_lockstep [DecidableEq K] (allocate : WorkspaceAllocator K T E A) (h : PoolTwin p q)
    (requests : List (WorkspaceRequest K)) :
    Lockstep FailedTwin (fun a b => PoolTwin a.1 b.1 ∧ a.2.view = b.2.view)
      (acquire allocate p requests) (acquire allocate q requests) := by
  unfold acquire
  refine (orAbandon_lockstep h _ _).bind fun requestedBytes _ hrequested => ?_
  obtain rfl := hrequested
  refine (Lockstep.foldlM (R := fun s t => Twin s.1 t.1 s.2 t.2) (Q := Eq) (forall₂_refl _)
    (fun s t a b hst hab => hab ▸ acquireOne_lockstep allocate hst a) h).bind fun s t hst => ?_
  obtain ⟨p', pending⟩ := s
  obtain ⟨q', pending'⟩ := t
  dsimp only at hst ⊢
  have hcapacity : pending'.map (·.entry.capacity) = pending.map (·.entry.capacity) := by
    have := congrArg (List.map (·.1.2.2.1)) hst.view
    rw [map_map, map_map] at this
    exact this.symm
  have hnew : (pending'.filter (!·.reused)).length = (pending.filter (!·.reused)).length := by
    have hcount : ∀ l : List (PendingEntry K T), (l.filter (!·.reused)).length =
        ((l.map PendingEntry.view).filter (!·.2.2)).length := by
      intro l
      rw [filter_map, length_map]
      rfl
    rw [hcount, hcount, hst.view]
  have hbytes : q'.leasedBytes = p'.leasedBytes := congrArg (·.leasedBytes) hst.same
  have hsegments : q'.leasedSegments = p'.leasedSegments :=
    congrArg (·.leasedSegments) hst.same
  have hnext : q'.nextId = p'.nextId := congrArg (·.nextId) hst.same
  rw [hcapacity, hnew, hbytes, hsegments, hnext, length_of_view hst.view]
  refine (orAbandon_lockstep hst _ _).bind fun actualBytes _ hactual => ?_
  obtain rfl := hactual
  refine (orAbandon_lockstep hst _ _).bind fun leasedBytes _ hleased => ?_
  obtain rfl := hleased
  refine (orAbandon_lockstep hst _ _).bind fun leasedSegments _ hcount => ?_
  obtain rfl := hcount
  refine (orAbandon_lockstep hst _ _).bind fun newCount _ hnewCount => ?_
  obtain rfl := hnewCount
  refine (orAbandon_lockstep hst _ _).bind fun nextId _ hnextId => ?_
  obtain rfl := hnextId
  have hids : (assignIds p'.nextId pending).map (·.map PendingEntry.view) =
      (assignIds p'.nextId pending').map (·.map PendingEntry.view) := assignIds_view hst.view
  have htwin := hst.forget
  cases hl : assignIds p'.nextId pending with
  | none =>
    cases hl' : assignIds p'.nextId pending' with
    | none => exact .error ⟨rfl, htwin⟩
    | some r =>
      rw [hl, hl'] at hids
      cases hids
  | some assigned =>
    cases hl' : assignIds p'.nextId pending' with
    | none =>
      rw [hl, hl'] at hids
      cases hids
    | some assigned' =>
      rw [hl, hl', Option.map_some, Option.map_some, Option.some.injEq] at hids
      refine .ok ⟨⟨by rw [htwin.same], htwin.body, rfl, htwin.ages, htwin.clock, htwin.clock'⟩, ?_⟩
      have := congrArg (List.map fun v => (v.1, v.2.1)) hids
      rw [map_map, map_map] at this
      unfold WorkspaceLease.view
      rw [map_map, map_map]
      exact congrArg (·, requestedBytes, actualBytes) this

end Clock

end EffectTorch
