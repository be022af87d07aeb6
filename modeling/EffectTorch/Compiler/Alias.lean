import EffectTorch.Compiler.Lowered
import EffectTorch.Lib.Handles
import Mathlib.Data.List.Nodup
import Mathlib.Logic.Relation

/-!
# Alias normalization

`normalize_aliases` of `compiler/src/planner.rs`: every value is followed along
its alias hops to the value that owns the storage, and the hop offsets are
added up. The walk marks the values of the current path, so that a hop back
into the path is reported as a cycle.

Results:
1. `normalizeAliases_chain`: what it returns for a value is the end of the
   value's alias chain and the sum of its offsets.
2. `AliasChain.bounds`: a view stays inside its root.
3. `normalizeAliases_total`: it returns for every dense table whose alias graph
   is acyclic and in bounds.
-/

namespace EffectTorch
open List Lib

/-! ## The walk -/

/-- A normalized alias chain: the value that owns the storage, and the sum of
all hop offsets. -/
structure NormalizedAlias where
  root : ValueId
  byteOffset : Nat
deriving DecidableEq, Repr

/-- The `state` table of the walk: `0`, `1` and `2` in the source. -/
inductive VisitState where
  | unvisited
  | onPath
  | done
deriving DecidableEq, Repr

structure AliasTables where
  state : List VisitState
  normalized : List (Option NormalizedAlias)

section Walk

variable {M : Type} (values : List (ValueDecl M))

/-- The inner loop: follows alias hops from `cursor` until a value that is
already done or owns its storage. `path` holds the visited aliases, the last
one first. `fuel` bounds the number of hops. -/
def followAliases : Nat → AliasTables → List Nat → Nat →
    Fallible PlannerError (AliasTables × List Nat)
  | 0, _, _, _ => .error (.panic "the alias walk outlived the value table")
  | fuel + 1, tables, path, cursor =>
    match tables.state[cursor]?, values[cursor]? with
    | some .done, _ => .ok (tables, path)
    | some .onPath, some value => fail (.aliasCycle value.id)
    | some .unvisited, some value =>
      match value.storage with
      | .aliasOf source byteOffset => do
        let sourceDecl ← okOr values[source.index]? (.unknownValue none source)
        let stop ← okOr (checkedAdd byteOffset value.bytes) (.byteSizeOverflow (some value.id))
        rejectIf (sourceDecl.bytes < stop)
          (.aliasOutOfBounds value.id source stop sourceDecl.bytes)
        followAliases fuel { tables with state := tables.state.set cursor .onPath }
          (cursor :: path) source.index
      | _ => .ok (⟨tables.state.set cursor .done,
          tables.normalized.set cursor (some ⟨value.id, 0⟩)⟩, path)
    | _, _ => .error (.panic "index out of bounds")

/-- One turn of the loop that pops the path: the parent is normalized already. -/
def unwindAlias (tables : AliasTables) (index : Nat) : Fallible PlannerError AliasTables := do
  let value ← expect values[index]? "index out of bounds"
  match value.storage with
  | .aliasOf source byteOffset =>
    let parent ← expect tables.normalized[source.index]?.join "alias parent must be normalized"
    let byteOffset ← okOr (checkedAdd parent.byteOffset byteOffset)
      (.byteSizeOverflow (some value.id))
    .ok ⟨tables.state.set index .done,
      tables.normalized.set index (some ⟨parent.root, byteOffset⟩)⟩
  | _ => .error (.panic "non-alias terminal was removed from the alias path")

/-- One turn of the outer loop. -/
def normalizeFrom (tables : AliasTables) (start : Nat) : Fallible PlannerError AliasTables :=
  if tables.state[start]? = some .done then .ok tables
  else do
    let (tables, path) ← followAliases values (values.length + 1) tables [] start
    path.foldlM (unwindAlias values) tables

/-- `normalize_aliases`. -/
def normalizeAliases : Fallible PlannerError (List NormalizedAlias) := do
  validateDenseValues values
  let tables ← (List.range values.length).foldlM (normalizeFrom values)
    ⟨List.replicate values.length .unvisited, List.replicate values.length none⟩
  tables.normalized.mapM fun alias? => expect alias? "every value must be normalized"

/-! ## Alias chains -/

/-- One alias hop from entry `i` to entry `j` that stays inside its source. -/
def AliasHop (i j : Nat) : Prop :=
  ∃ v source offset s, values[i]? = some v ∧ v.storage = .aliasOf source offset ∧
    source.index = j ∧ values[j]? = some s ∧ offset + v.bytes ≤ s.bytes

/-- `AliasChain values i root offset`: the alias hops from entry `i` end at
`root`, which owns its storage, and their offsets add up to `offset`. -/
inductive AliasChain : Nat → ValueId → Nat → Prop
  | root {i : Nat} {v : ValueDecl M} :
      values[i]? = some v → v.storage.isAlias = false → AliasChain i v.id 0
  | hop {i : Nat} {v s : ValueDecl M} {source : ValueId} {offset : Nat} {r : ValueId} {o : Nat} :
      values[i]? = some v → v.storage = .aliasOf source offset →
      values[source.index]? = some s → offset + v.bytes ≤ s.bytes →
      AliasChain source.index r o → AliasChain i r (o + offset)

variable {values}

variable {α : Type} {l : List α} {a b : α} {t : AliasTables} {i j cursor start : Nat}

/-- The root of a chain owns its storage, and the view lies inside it. -/
theorem AliasChain.bounds (hd : DenseValues values) {r : ValueId} {o : Nat} (h : AliasChain values i r o) :
    ∃ v rv, values[i]? = some v ∧ values[r.index]? = some rv ∧
      rv.storage.isAlias = false ∧ o + v.bytes ≤ rv.bytes := by
  induction h with
  | @root i v hv ha =>
    have hid := (hd i v hv).1
    exact ⟨v, v, hv, by rw [hid]; exact hv, ha, by omega⟩
  | @hop i v s source offset r o hv _ hs hle _ ih =>
    obtain ⟨s', rv, hs', hr, ha, hb⟩ := ih
    rw [hs] at hs'
    cases hs'
    exact ⟨v, rv, hv, hr, ha, by omega⟩

/-- A value that owns its storage is its own root. -/
theorem AliasChain.of_owner (hd : DenseValues values) {v : ValueDecl M} {r : ValueId} {o : Nat}
    (hv : values[i]? = some v) (ha : v.storage.isAlias = false) (h : AliasChain values i r o) : r = ⟨i⟩ ∧ o = 0 := by
  cases h with
  | root hw _ =>
    rw [hv] at hw
    cases hw
    exact ⟨(hd i v hv).1, rfl⟩
  | hop hw hs _ _ _ =>
    rw [hv] at hw
    cases hw
    rw [hs] at ha
    cases ha

/-! ## What the walk keeps -/

/-- The walk's tables: both are index-parallel to the values, and a finished
entry holds the end of its chain. -/
structure AliasTables.Sound (values : List (ValueDecl M)) (t : AliasTables) : Prop where
  state_length : t.state.length = values.length
  normalized_length : t.normalized.length = values.length
  done_chain : ∀ i : Nat, t.state[i]? = some .done →
    ∃ a, t.normalized[i]? = some (some a) ∧ AliasChain values i a.root a.byteOffset

/-- The path is a chain of hops that ends at `cursor`. -/
def HopPath (values : List (ValueDecl M)) : List Nat → Nat → Prop
  | [], _ => True
  | p :: rest, cursor => AliasHop values p cursor ∧ HopPath values rest p

theorem getElem?_set_self_some (h : l[i]? = some b) : (l.set i a)[i]? = some a := by
  obtain ⟨hlt, _⟩ := List.getElem?_eq_some_iff.mp h
  rw [List.getElem?_set_self hlt]

theorem getElem?_set_ne_some (hij : i ≠ j) (h : l[j]? = some b) : (l.set i a)[j]? = some b := by
  rw [List.getElem?_set_ne hij]
  exact h

theorem AliasTables.Sound.mark_onPath (hs : t.Sound values) (i : Nat) :
    ({ t with state := t.state.set i .onPath } : AliasTables).Sound values where
  state_length := by simpa using hs.state_length
  normalized_length := hs.normalized_length
  done_chain := by
    intro j hj
    rcases getElem?_set_cases hj with ⟨_, _, h⟩ | ⟨_, h⟩
    · cases h
    · exact hs.done_chain j h

theorem AliasTables.Sound.mark_done (hs : t.Sound values) {a : NormalizedAlias} (hi : i < values.length)
    (ha : AliasChain values i a.root a.byteOffset) :
    (⟨t.state.set i .done, t.normalized.set i (some a)⟩ : AliasTables).Sound values where
  state_length := by simpa using hs.state_length
  normalized_length := by simpa using hs.normalized_length
  done_chain := by
    intro j hj
    rcases getElem?_set_cases hj with ⟨_, hij, _⟩ | ⟨hij, h⟩
    · subst hij
      refine ⟨a, ?_, ha⟩
      rw [List.getElem?_set_self (by rw [hs.normalized_length]; exact hi)]
    · obtain ⟨b, hb, hc⟩ := hs.done_chain j h
      exact ⟨b, getElem?_set_ne_some hij.symm hb, hc⟩

/-- The state of the inner loop between two hops: `start` is on the path or
under the cursor, the path ends at the cursor, and exactly the path is marked. -/
structure WalkInv (values : List (ValueDecl M)) (start : Nat) (t : AliasTables)
    (path : List Nat) (cursor : Nat) : Prop where
  sound : t.Sound values
  path_hops : HopPath values path cursor
  marked : ∀ i : Nat, t.state[i]? = some .onPath ↔ i ∈ path
  covers : start ∈ path ∨ cursor = start

theorem state_ne_of_marked {path : List Nat} (hm : ∀ i, t.state[i]? = some .onPath ↔ i ∈ path)
    (hc : t.state[cursor]? = some .unvisited) : cursor ∉ path := by
  intro h
  rw [(hm cursor).mpr h] at hc
  cases hc

/-- One hop keeps the state of the walk. -/
theorem WalkInv.hop {start : Nat} {t : AliasTables} {path : List Nat} {cursor : Nat}
    (h : WalkInv values start t path cursor) (hc : t.state[cursor]? = some .unvisited)
    {next : Nat} (hop : AliasHop values cursor next) :
    WalkInv values start { t with state := t.state.set cursor .onPath } (cursor :: path) next where
  sound := h.sound.mark_onPath cursor
  path_hops := ⟨hop, h.path_hops⟩
  marked := by
    intro i
    rw [mem_cons]
    constructor
    · intro hi
      rcases getElem?_set_cases hi with ⟨_, hij, _⟩ | ⟨_, hi⟩
      · exact .inl hij
      · exact .inr ((h.marked i).mp hi)
    · intro hi
      by_cases hij : cursor = i
      · subst hij
        exact getElem?_set_self_some hc
      · refine getElem?_set_ne_some hij ((h.marked i).mpr ?_)
        rcases hi with rfl | hi
        · exact absurd rfl hij
        · exact hi
  covers := by
    rcases h.covers with hp | rfl
    · exact .inl (mem_cons_of_mem _ hp)
    · exact .inl mem_cons_self

/-- What the inner loop hands to the unwinding: a marked path that ends at a
finished entry. -/
structure WalkDone (values : List (ValueDecl M)) (start : Nat) (before t : AliasTables)
    (path : List Nat) : Prop where
  sound : t.Sound values
  path_hops : ∃ cursor, HopPath values path cursor ∧ t.state[cursor]? = some .done
  marked : ∀ i : Nat, t.state[i]? = some .onPath ↔ i ∈ path
  covers : start ∈ path ∨ t.state[start]? = some .done
  keeps : ∀ i : Nat, before.state[i]? = some .done → t.state[i]? = some .done

theorem followAliases_spec :
    ∀ (fuel : Nat) (t : AliasTables) (path : List Nat) (cursor : Nat) (t' : AliasTables)
      (path' : List Nat), WalkInv values start t path cursor →
      followAliases values fuel t path cursor = .ok (t', path') →
      WalkDone values start t t' path' := by
  intro fuel
  induction fuel with
  | zero =>
    intro t path cursor t' path' _ h
    cases h
  | succ fuel ih =>
    intro t path cursor t' path' inv h
    unfold followAliases at h
    split at h
    · next hdone =>
      cases h
      refine ⟨inv.sound, ⟨cursor, inv.path_hops, hdone⟩, inv.marked, ?_, fun _ h => h⟩
      exact Or.imp_right (fun hc : cursor = start => hc ▸ hdone) inv.covers
    · exact absurd h (fail_ne_ok _ _)
    · next value hfresh hvalue =>
      split at h
      · next source byteOffset hstorage =>
        simp only [bind_ok, okOr_ok, rejectIf_ok, checkedAdd_some] at h
        obtain ⟨sourceDecl, hsource, stop, ⟨_, rfl⟩, _, hbound, h⟩ := h
        have hop : AliasHop values cursor source.index :=
          ⟨value, source, byteOffset, sourceDecl, hvalue, hstorage, rfl, hsource, by omega⟩
        have d := ih _ _ _ _ _ (inv.hop hfresh hop) h
        refine ⟨d.sound, d.path_hops, d.marked, d.covers, fun i hi => d.keeps i ?_⟩
        refine getElem?_set_ne_some ?_ hi
        rintro rfl
        rw [hfresh] at hi
        cases hi
      · next hstorage =>
        cases h
        obtain ⟨hlt, _⟩ := List.getElem?_eq_some_iff.mp hvalue
        have howner : value.storage.isAlias = false := by
          cases hv : value.storage with
          | aliasOf s o => exact absurd hv (hstorage s o)
          | fixed c l => rfl
          | planned c a m o => rfl
        have hself := getElem?_set_self_some (a := VisitState.done) hfresh
        have hnot := state_ne_of_marked inv.marked hfresh
        refine ⟨inv.sound.mark_done hlt (.root hvalue howner), ⟨cursor, inv.path_hops, hself⟩,
          fun i => ?_, Or.imp_right (fun hc : cursor = start => hc ▸ hself) inv.covers,
          fun i hi => ?_⟩
        · constructor
          · intro hi
            rcases getElem?_set_cases hi with ⟨_, _, hi⟩ | ⟨_, hi⟩
            · cases hi
            · exact (inv.marked i).mp hi
          · intro hi
            refine getElem?_set_ne_some ?_ ((inv.marked i).mpr hi)
            rintro rfl
            exact hnot hi
        · by_cases hij : cursor = i
          · subst hij
            exact hself
          · exact getElem?_set_ne_some hij hi
    · cases h

/-! ## Unwinding the path -/

/-- Unwinding one alias finishes it and leaves the rest of the tables. -/
structure Unwound (values : List (ValueDecl M)) (p : Nat) (before t : AliasTables) : Prop where
  sound : t.Sound values
  finished : t.state[p]? = some .done
  keeps : ∀ i : Nat, before.state[i]? = some .done → t.state[i]? = some .done
  unmarks : ∀ i : Nat, t.state[i]? = some .onPath → before.state[i]? = some .onPath ∧ i ≠ p

theorem unwindAlias_spec {t' : AliasTables} {p : Nat} (hs : t.Sound values) (hop : AliasHop values p cursor)
    (hc : t.state[cursor]? = some .done) (h : unwindAlias values t p = .ok t') : Unwound values p t t' := by
  obtain ⟨v, source, offset, s, hv, hstorage, rfl, hsv, hle⟩ := hop
  obtain ⟨a, ha, hchain⟩ := hs.done_chain _ hc
  unfold unwindAlias at h
  rw [hv, expect_some] at h
  simp only [bind, Except.bind, hstorage, ha, Option.join_some, expect_some] at h
  cases hadd : checkedAdd a.byteOffset offset with
  | none =>
    rw [hadd] at h
    cases h
  | some sum =>
    rw [hadd] at h
    cases h
    obtain ⟨_, rfl⟩ := checkedAdd_some.mp hadd
    obtain ⟨hlt, _⟩ := List.getElem?_eq_some_iff.mp hv
    have hp : p < t.state.length := by rw [hs.state_length]; exact hlt
    have hself : (t.state.set p VisitState.done)[p]? = some .done := List.getElem?_set_self hp
    refine ⟨hs.mark_done hlt (.hop hv hstorage hsv hle hchain), hself, fun i hi => ?_,
      fun i hi => ?_⟩
    · by_cases hip : p = i
      · subst hip
        exact hself
      · exact getElem?_set_ne_some hip hi
    · rcases getElem?_set_cases hi with ⟨_, _, hi⟩ | ⟨hip, hi⟩
      · cases hi
      · exact ⟨hi, hip⟩

/-- Unwinding a path that ends at a finished entry finishes the whole path. -/
theorem unwindPath_spec : ∀ (path : List Nat) (cursor : Nat) (t t' : AliasTables),
    t.Sound values → HopPath values path cursor → t.state[cursor]? = some .done →
    path.foldlM (unwindAlias values) t = .ok t' →
    t'.Sound values ∧ (∀ i ∈ path, t'.state[i]? = some .done) ∧
      (∀ i : Nat, t.state[i]? = some .done → t'.state[i]? = some .done) ∧
      (∀ i : Nat, t'.state[i]? = some .onPath → t.state[i]? = some .onPath ∧ i ∉ path) := by
  intro path
  induction path with
  | nil =>
    intro cursor t t' hs _ _ h
    cases h
    exact ⟨hs, by simp, fun _ h => h, fun i h => ⟨h, not_mem_nil⟩⟩
  | cons p path ih =>
    intro cursor t t' hs hp hc h
    rw [foldlM_cons] at h
    obtain ⟨t1, h1, h2⟩ := bind_ok.mp h
    have u := unwindAlias_spec hs hp.1 hc h1
    obtain ⟨hs', hdone, hkeep, hmark⟩ := ih p t1 t' u.sound hp.2 u.finished h2
    refine ⟨hs', ?_, fun i hi => hkeep i (u.keeps i hi), fun i hi => ?_⟩
    · intro i hi
      rcases mem_cons.mp hi with rfl | hi
      · exact hkeep i u.finished
      · exact hdone i hi
    · obtain ⟨h3, h4⟩ := hmark i hi
      obtain ⟨h5, h6⟩ := u.unmarks i h3
      exact ⟨h5, by simp [h4, h6]⟩

/-- The tables between two turns of the outer loop. -/
structure AliasTables.Settled (values : List (ValueDecl M)) (visited : List Nat)
    (t : AliasTables) : Prop where
  sound : t.Sound values
  unmarked : ∀ i : Nat, t.state[i]? ≠ some .onPath
  finished : ∀ i ∈ visited, t.state[i]? = some .done

theorem WalkInv.init {visited : List Nat} (h : t.Settled values visited) (start : Nat) :
    WalkInv values start t [] start where
  sound := h.sound
  path_hops := trivial
  marked := fun i => by simp [h.unmarked i]
  covers := .inr rfl

theorem normalizeFrom_spec {t' : AliasTables} {visited : List Nat} (hs : t.Settled values visited)
    (h : normalizeFrom values t start = .ok t') : t'.Settled values (visited ++ [start]) := by
  unfold normalizeFrom at h
  split at h
  · next hdone =>
    cases h
    refine ⟨hs.sound, hs.unmarked, fun i hi => ?_⟩
    rcases mem_append.mp hi with hi | hi
    · exact hs.finished i hi
    · rw [mem_singleton.mp hi]
      exact hdone
  · obtain ⟨⟨t1, path⟩, h1, h2⟩ := bind_ok.mp h
    have d := followAliases_spec _ _ _ _ _ _ (WalkInv.init hs start) h1
    obtain ⟨cursor, hpath, hc⟩ := d.path_hops
    obtain ⟨hs', hdone, hkeep, hmark⟩ := unwindPath_spec path cursor t1 t' d.sound hpath hc h2
    refine ⟨hs', fun i hi => ?_, fun i hi => ?_⟩
    · obtain ⟨h3, h4⟩ := hmark i hi
      exact h4 ((d.marked i).mp h3)
    · rcases mem_append.mp hi with hi | hi
      · exact hkeep i (d.keeps i (hs.finished i hi))
      · rw [mem_singleton.mp hi]
        exact d.covers.elim (hdone start) (hkeep start)

theorem initialTables_settled (values : List (ValueDecl M)) :
    (⟨List.replicate values.length .unvisited, List.replicate values.length none⟩ :
      AliasTables).Settled values [] where
  sound := by
    refine ⟨by simp, by simp, fun i hi => ?_⟩
    rw [List.getElem?_replicate] at hi
    split at hi <;> cases hi
  unmarked := by
    intro i hi
    rw [List.getElem?_replicate] at hi
    split at hi <;> cases hi
  finished := by simp

/-- The length and the entries of a list that `mapM expect` unwraps. -/
theorem mapM_expect_ok {ε : Type} {message : String} :
    ∀ {l : List (Option α)} {r : List α},
      l.mapM (fun x => (expect x message : Fallible ε α)) = .ok r ↔ l = r.map some := by
  intro l
  induction l with
  | nil =>
    intro r
    cases r <;> simp [pure, Except.pure]
  | cons x l ih =>
    intro r
    simp only [mapM_cons, bind_ok, expect_ok, pure, Except.pure, Except.ok.injEq]
    constructor
    · rintro ⟨a, rfl, r', hr, rfl⟩
      rw [ih.mp hr]
      rfl
    · intro h
      cases r with
      | nil => cases h
      | cons a r =>
        cases h
        exact ⟨a, rfl, r, ih.mpr rfl, rfl⟩

/-- `normalize_aliases` returns the end of every value's alias chain. -/
theorem normalizeAliases_chain {aliases : List NormalizedAlias}
    (h : normalizeAliases values = .ok aliases) :
    aliases.length = values.length ∧
      ∀ i a, aliases[i]? = some a → AliasChain values i a.root a.byteOffset := by
  unfold normalizeAliases at h
  obtain ⟨_, _, h⟩ := bind_ok.mp h
  obtain ⟨t, ht, h⟩ := bind_ok.mp h
  have hs := foldlM_invariant (fun visited (t : AliasTables) => t.Settled values visited) _
    (fun _ _ _ _ _ _ => normalizeFrom_spec) (initialTables_settled values) ht
  have hmap := mapM_expect_ok.mp h
  have hlen : aliases.length = values.length := by
    rw [← hs.sound.normalized_length, hmap, length_map]
  refine ⟨hlen, fun i a ha => ?_⟩
  obtain ⟨hlt, _⟩ := List.getElem?_eq_some_iff.mp ha
  obtain ⟨b, hb, hchain⟩ :=
    hs.sound.done_chain i (hs.finished i (mem_range.mpr (hlen ▸ hlt)))
  rw [hmap, List.getElem?_map, ha] at hb
  cases hb
  exact hchain

/-! ## Totality -/

/-- Entry `i` is declared as a view into entry `j`. -/
def AliasEdge (values : List (ValueDecl M)) (i j : Nat) : Prop :=
  ∃ v source offset, values[i]? = some v ∧ v.storage = .aliasOf source offset ∧ source.index = j

/-- No value is a view into itself, directly or through other views. -/
def AliasAcyclic (values : List (ValueDecl M)) : Prop :=
  ∀ i, ¬ Relation.TransGen (AliasEdge values) i i

/-- Every view names a value of the table and ends inside it. -/
def AliasInBounds (values : List (ValueDecl M)) : Prop :=
  ∀ v ∈ values, ∀ source offset, v.storage = .aliasOf source offset →
    ∃ s, values[source.index]? = some s ∧ offset + v.bytes ≤ s.bytes

theorem AliasHop.edge (h : AliasHop values i j) : AliasEdge values i j := by
  obtain ⟨v, source, offset, _, hv, hs, hj, _⟩ := h
  exact ⟨v, source, offset, hv, hs, hj⟩

theorem HopPath.reaches : ∀ {path : List Nat} {cursor p : Nat}, HopPath values path cursor →
    p ∈ path → Relation.TransGen (AliasEdge values) p cursor := by
  intro path
  induction path with
  | nil => intro cursor p _ hp; cases hp
  | cons q path ih =>
    intro cursor p h hp
    rcases mem_cons.mp hp with rfl | hp
    · exact .single h.1.edge
    · exact (ih h.2 hp).tail h.1.edge

theorem followAliases_total (hacyc : AliasAcyclic values) (hin : AliasInBounds values)
    (hbytes : ∀ v ∈ values, v.bytes ≤ usizeMax) :
    ∀ (fuel : Nat) (t : AliasTables) (path : List Nat) (cursor : Nat),
      WalkInv values start t path cursor → path.Nodup → (∀ p ∈ path, p < values.length) →
      cursor < values.length → fuel + path.length = values.length + 1 →
      ∃ r, followAliases values fuel t path cursor = .ok r := by
  intro fuel
  induction fuel with
  | zero =>
    intro t path cursor _ hn hb _ hfuel
    have := nodup_length_le hn hb
    omega
  | succ fuel ih =>
    intro t path cursor inv hn hb hcur hfuel
    have hvalue := List.getElem?_eq_getElem hcur
    have hlt : cursor < t.state.length := inv.sound.state_length ▸ hcur
    have hstate : t.state[cursor]? = some t.state[cursor] := List.getElem?_eq_getElem hlt
    unfold followAliases
    cases hst : t.state[cursor] with
    | done =>
      rw [hstate, hst]
      exact ⟨_, rfl⟩
    | onPath =>
      rw [hst] at hstate
      exact absurd (inv.path_hops.reaches ((inv.marked cursor).mp hstate)) (hacyc cursor)
    | unvisited =>
      rw [hst] at hstate
      rw [hstate, hvalue]
      dsimp only
      cases hstorage : values[cursor].storage with
      | fixed c l => exact ⟨_, rfl⟩
      | planned c a m o => exact ⟨_, rfl⟩
      | aliasOf source offset =>
        obtain ⟨s, hs, hle⟩ := hin _ (getElem_mem hcur) source offset hstorage
        obtain ⟨hslt, hsget⟩ := List.getElem?_eq_some_iff.mp hs
        have hsmax : s.bytes ≤ usizeMax := hbytes s (hsget ▸ getElem_mem hslt)
        have hop : AliasHop values cursor source.index :=
          ⟨_, source, offset, s, hvalue, hstorage, rfl, hs, hle⟩
        have hfresh := state_ne_of_marked inv.marked hstate
        obtain ⟨r, hr⟩ := ih _ (cursor :: path) source.index (inv.hop hstate hop)
          (nodup_cons.mpr ⟨hfresh, hn⟩) (forall_mem_cons.mpr ⟨hcur, hb⟩) hslt
          (by rw [length_cons]; omega)
        refine ⟨r, ?_⟩
        simp only [bind_ok, okOr_ok, rejectIf_ok, checkedAdd_some]
        exact ⟨s, hs, _, ⟨by omega, rfl⟩, (), by omega, hr⟩

theorem unwindAlias_total (hd : DenseValues values) (hbytes : ∀ v ∈ values, v.bytes ≤ usizeMax) {p : Nat}
    (hs : t.Sound values) (hop : AliasHop values p cursor) (hc : t.state[cursor]? = some .done) :
    ∃ t', unwindAlias values t p = .ok t' := by
  obtain ⟨v, source, offset, s, hv, hstorage, rfl, hsv, hle⟩ := hop
  obtain ⟨a, ha, hchain⟩ := hs.done_chain _ hc
  obtain ⟨w, rv, hw, hrv, _, hbound⟩ := (AliasChain.hop hv hstorage hsv hle hchain).bounds hd
  have hmax := hbytes rv (mem_of_getElem? hrv)
  unfold unwindAlias
  rw [hv, expect_some]
  simp only [bind, Except.bind, hstorage, ha, Option.join_some, expect_some,
    checkedAdd_of_le (show a.byteOffset + offset ≤ usizeMax by omega), okOr_some]
  exact ⟨_, rfl⟩

theorem unwindPath_total (hd : DenseValues values) (hbytes : ∀ v ∈ values, v.bytes ≤ usizeMax) :
    ∀ (path : List Nat) (cursor : Nat) (t : AliasTables), t.Sound values →
      HopPath values path cursor → t.state[cursor]? = some .done →
      ∃ t', path.foldlM (unwindAlias values) t = .ok t' := by
  intro path
  induction path with
  | nil => exact fun _ t _ _ _ => ⟨t, rfl⟩
  | cons p path ih =>
    intro cursor t hs hp hc
    obtain ⟨t1, h1⟩ := unwindAlias_total hd hbytes hs hp.1 hc
    have u := unwindAlias_spec hs hp.1 hc h1
    obtain ⟨t', h'⟩ := ih p t1 u.sound hp.2 u.finished
    exact ⟨t', by rw [foldlM_cons, h1]; exact h'⟩

theorem exists_map_some : ∀ {l : List (Option α)}, (∀ x ∈ l, ∃ a, x = some a) →
    ∃ r : List α, l = r.map some := by
  intro l
  induction l with
  | nil => exact fun _ => ⟨[], rfl⟩
  | cons x l ih =>
    intro h
    obtain ⟨a, rfl⟩ := h x mem_cons_self
    obtain ⟨r, rfl⟩ := ih fun y hy => h y (mem_cons_of_mem _ hy)
    exact ⟨a :: r, rfl⟩

/-- `normalize_aliases` returns for every dense table whose views form an acyclic
graph and stay in bounds. -/
theorem normalizeAliases_total (hd : DenseValues values) (hacyc : AliasAcyclic values)
    (hin : AliasInBounds values) (hbytes : ∀ v ∈ values, v.bytes ≤ usizeMax) :
    ∃ aliases, normalizeAliases values = .ok aliases := by
  have hstep : ∀ (visited : List Nat) (start : Nat) (rest : List Nat) (t : AliasTables),
      List.range values.length = visited ++ start :: rest → t.Settled values visited →
      ∃ t', normalizeFrom values t start = .ok t' ∧ t'.Settled values (visited ++ [start]) := by
    intro visited start rest t hr hs
    have hlt : start < values.length := by
      rw [← mem_range, hr]
      simp
    suffices H : ∃ t', normalizeFrom values t start = .ok t' by
      obtain ⟨t', ht⟩ := H
      exact ⟨t', ht, normalizeFrom_spec hs ht⟩
    unfold normalizeFrom
    split
    · exact ⟨t, rfl⟩
    · obtain ⟨⟨t1, path⟩, h1⟩ := followAliases_total hacyc hin hbytes _ t [] start
        (WalkInv.init hs start) nodup_nil (by simp) hlt rfl
      have d := followAliases_spec _ _ _ _ _ _ (WalkInv.init hs start) h1
      obtain ⟨cursor, hpath, hc⟩ := d.path_hops
      obtain ⟨t2, h2⟩ := unwindPath_total hd hbytes path cursor t1 d.sound hpath hc
      exact ⟨t2, by rw [h1]; exact h2⟩
  obtain ⟨t, ht, hs⟩ := foldlM_total
    (fun visited (t : AliasTables) => t.Settled values visited) _ hstep _
    (initialTables_settled values)
  have hall : ∀ x ∈ t.normalized, ∃ a, x = some a := by
    intro x hx
    obtain ⟨i, hlt, rfl⟩ := mem_iff_getElem.mp hx
    obtain ⟨a, ha, _⟩ := hs.sound.done_chain i
      (hs.finished i (mem_range.mpr (hs.sound.normalized_length ▸ hlt)))
    rw [List.getElem?_eq_getElem hlt] at ha
    exact ⟨a, Option.some.inj ha⟩
  obtain ⟨aliases, ha⟩ := exists_map_some hall
  refine ⟨aliases, ?_⟩
  unfold normalizeAliases
  simp only [bind_ok, validateDenseValues_ok]
  exact ⟨(), hd, t, ht, mapM_expect_ok.mpr ha⟩

end Walk

end EffectTorch
