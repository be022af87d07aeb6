import EffectTorch.Compiler.Liveness

/-!
# Which alias tables normalize

Results:
1. `normalizeAliases_no_panic`: the walk ends for every table, with tables or with an error.
2. `normalizeAliases_ok_iff`: it returns tables exactly for the dense tables whose views name
   their sources, stay inside them and form no cycle.
3. `normalizeAliases_exact`: what it returns for a value is the one owner at the end of the
   value's chain.
-/

namespace EffectTorch
open List Option Lib

section Exact

variable {M : Type} {values : List (ValueDecl M)}

/-! ## The walk ends -/

/-- The hops of one walk visit different entries, so the fuel lasts. -/
theorem followAliases_no_panic {start : Nat} {message : String} :
    ∀ (fuel : Nat) (t : AliasTables) (path : List Nat) (cursor : Nat),
      WalkInv values start t path cursor → path.Nodup → (∀ p ∈ path, p < values.length) →
      cursor < values.length → fuel + path.length = values.length + 1 →
      followAliases values fuel t path cursor ≠ .error (.panic message) := by
  intro fuel
  induction fuel with
  | zero =>
    intro t path cursor _ hn hb _ hfuel
    have := nodup_length_le hn hb
    omega
  | succ fuel ih =>
    intro t path cursor inv hn hb hcur hfuel
    have hvalue := List.getElem?_eq_getElem hcur
    have hlt : cursor < t.state.length := inv.sound.state_length ▸ hcur
    have hstate : t.state[cursor]? = some t.state[cursor] := List.getElem?_eq_getElem hlt
    unfold followAliases
    cases hst : t.state[cursor] with
    | done =>
      rw [hstate, hst]
      rintro ⟨⟩
    | onPath =>
      rw [hstate, hst, hvalue]
      rintro ⟨⟩
    | unvisited =>
      rw [hst] at hstate
      rw [hstate, hvalue]
      dsimp only
      cases hstorage : values[cursor].storage with
      | fixed c l => rintro ⟨⟩
      | planned c a m o => rintro ⟨⟩
      | aliasOf source offset =>
        dsimp only
        cases hsource : values[source.index]? with
        | none => rintro ⟨⟩
        | some s =>
          rw [okOr_some, ok_bind]
          cases hstop : checkedAdd offset values[cursor].bytes with
          | none => rintro ⟨⟩
          | some stop =>
            rw [okOr_some, ok_bind]
            by_cases hout : s.bytes < stop
            · rw [rejectIf, if_pos hout]
              rintro ⟨⟩
            · rw [rejectIf, if_neg hout, ok_bind]
              obtain ⟨-, rfl⟩ := checkedAdd_some.mp hstop
              have hop : AliasHop values cursor source.index :=
                ⟨_, source, offset, s, hvalue, hstorage, rfl, hsource, Nat.le_of_not_lt hout⟩
              exact ih _ (cursor :: path) source.index (inv.hop hstate hop)
                (nodup_cons.mpr ⟨state_ne_of_marked inv.marked hstate, hn⟩)
                (forall_mem_cons.mpr ⟨hcur, hb⟩) (List.getElem?_eq_some_iff.mp hsource).1
                (by rw [length_cons]; omega)

theorem unwindAlias_no_panic {t : AliasTables} {p cursor : Nat} {message : String}
    (hs : t.Sound values) (hop : AliasHop values p cursor) (hc : t.state[cursor]? = some .done) :
    unwindAlias values t p ≠ .error (.panic message) := by
  obtain ⟨v, source, offset, s, hv, hstorage, rfl, hsv, hle⟩ := hop
  obtain ⟨a, ha, -⟩ := hs.done_chain _ hc
  unfold unwindAlias
  rw [hv, expect_some, ok_bind, hstorage]
  dsimp only
  rw [ha, join_some, expect_some, ok_bind]
  cases checkedAdd a.byteOffset offset with
  | none => exact nofun
  | some sum => exact nofun

theorem unwindPath_no_panic {message : String} : ∀ (path : List Nat) (cursor : Nat)
    (t : AliasTables), t.Sound values → HopPath values path cursor →
      t.state[cursor]? = some .done →
      path.foldlM (unwindAlias values) t ≠ .error (.panic message) := by
  intro path
  induction path with
  | nil => exact fun _ _ _ _ _ => nofun
  | cons p path ih =>
    intro cursor t hs hp hc h
    rw [foldlM_cons] at h
    rcases bind_error.mp h with h1 | ⟨t1, h1, h2⟩
    · exact unwindAlias_no_panic hs hp.1 hc h1
    · have u := unwindAlias_spec hs hp.1 hc h1
      exact ih p t1 u.sound hp.2 u.finished h2

theorem normalizeFrom_no_panic {t : AliasTables} {visited : List Nat} {start : Nat}
    {message : String} (hs : t.Settled values visited) (hstart : start < values.length) :
    normalizeFrom values t start ≠ .error (.panic message) := by
  unfold normalizeFrom
  split
  · exact nofun
  · intro h
    rcases bind_error.mp h with h1 | ⟨⟨t1, path⟩, h1, h2⟩
    · exact followAliases_no_panic _ t [] start (WalkInv.init hs start) nodup_nil
        (fun _ hmem => absurd hmem not_mem_nil) hstart rfl h1
    · have d := followAliases_spec _ _ _ _ _ _ (WalkInv.init hs start) h1
      obtain ⟨cursor, hpath, hc⟩ := d.path_hops
      exact unwindPath_no_panic path cursor t1 d.sound hpath hc h2

theorem validateDenseValues_no_panic {message : String} :
    validateDenseValues values ≠ .error (.panic message) := by
  intro h
  obtain ⟨_, ⟨v, i⟩, _, _, _, _, hfault⟩ :=
    foldlM_fault (fun _ _ => True) _ (fun _ _ _ _ _ _ _ _ => trivial) trivial h
  unfold validateDenseValue at hfault
  rcases bind_error.mp hfault with h1 | ⟨_, _, h2⟩
  · cases hid : ValueId.fromIndex i with
    | none =>
      rw [hid] at h1
      cases h1
    | some id =>
      rw [hid] at h1
      cases h1
  · cases rejectIf_error h2

/-- The walk ends for every table: no walk outlives its fuel and no `expect` fails. -/
theorem normalizeAliases_no_panic (message : String) :
    normalizeAliases values ≠ .error (.panic message) := by
  intro h
  unfold normalizeAliases at h
  rcases bind_error.mp h with h1 | ⟨_, _, h⟩
  · exact validateDenseValues_no_panic h1
  rcases bind_error.mp h with h1 | ⟨t, ht, h2⟩
  · obtain ⟨visited, start, rest, t, hsplit, hs, hfault⟩ := foldlM_fault
      (fun visited (t : AliasTables) => t.Settled values visited) _
      (fun _ _ _ _ _ _ => normalizeFrom_spec) (initialTables_settled values) h1
    have hmem : start ∈ List.range values.length := by
      rw [hsplit]
      exact mem_append_right _ mem_cons_self
    exact normalizeFrom_no_panic hs (mem_range.mp hmem) hfault
  · have hs := foldlM_invariant (fun visited (t : AliasTables) => t.Settled values visited) _
      (fun _ _ _ _ _ _ => normalizeFrom_spec) (initialTables_settled values) ht
    obtain ⟨aliases, haliases⟩ := mapM_total (l := t.normalized)
      (f := fun alias? => (expect alias? "every value must be normalized" :
        Fallible PlannerError NormalizedAlias)) (by
      intro x hx
      obtain ⟨i, hlt, rfl⟩ := mem_iff_getElem.mp hx
      obtain ⟨a, ha, _⟩ := hs.sound.done_chain i
        (hs.finished i (mem_range.mpr (hs.sound.normalized_length ▸ hlt)))
      rw [List.getElem?_eq_getElem hlt] at ha
      exact ⟨a, by rw [some.inj ha, expect_some]⟩)
    rw [haliases] at h2
    cases h2

/-! ## Which tables normalize -/

/-- An entry with a chain is on no cycle and leads to none. -/
theorem AliasChain.acc {i : Nat} {r : ValueId} {o : Nat} (h : AliasChain values i r o) :
    Acc (fun j i => AliasEdge values i j) i := by
  induction h with
  | @root i v hv howner =>
    refine ⟨_, fun j hedge => ?_⟩
    obtain ⟨v', source, offset, hv', hstorage, -⟩ := hedge
    obtain rfl := some.inj (hv.symm.trans hv')
    rw [hstorage] at howner
    cases howner
  | @hop i v s source offset r o hv hstorage _ _ _ ih =>
    refine ⟨_, fun j hedge => ?_⟩
    obtain ⟨v', source', offset', hv', hstorage', rfl⟩ := hedge
    obtain rfl := some.inj (hv.symm.trans hv')
    rw [hstorage] at hstorage'
    obtain ⟨rfl, -⟩ := ValueStorage.aliasOf.inj hstorage'
    exact ih

theorem AliasChain.no_cycle {i : Nat} {r : ValueId} {o : Nat} (h : AliasChain values i r o) :
    ¬ Relation.TransGen (AliasEdge values) i i := by
  have hacc := h.acc.transGen
  intro hcycle
  have hback : Relation.TransGen (fun j i => AliasEdge values i j) i i :=
    Relation.transGen_swap.mpr hcycle
  clear h hcycle
  induction hacc with
  | intro i _ ih => exact ih i hback hback

/-- `normalize_aliases` returns tables exactly for the dense tables whose views name their
sources, stay inside them and form no cycle. -/
theorem normalizeAliases_ok_iff (hbytes : ∀ v ∈ values, v.bytes ≤ usizeMax) :
    (∃ aliases, normalizeAliases values = .ok aliases) ↔
      DenseValues values ∧ AliasInBounds values ∧ AliasAcyclic values := by
  constructor
  · rintro ⟨aliases, h⟩
    have hdense : DenseValues values := by
      unfold normalizeAliases at h
      obtain ⟨_, hvalid, -⟩ := bind_ok.mp h
      exact validateDenseValues_ok.mp hvalid
    obtain ⟨hlen, hchain⟩ := normalizeAliases_chain h
    have hentry : ∀ i, i < values.length → ∃ r o, AliasChain values i r o := fun i hi =>
      ⟨_, _, hchain i _ (List.getElem?_eq_getElem (hlen ▸ hi))⟩
    refine ⟨hdense, fun v hv source offset hstorage => ?_, fun i hcycle => ?_⟩
    · obtain ⟨i, hi, rfl⟩ := mem_iff_getElem.mp hv
      obtain ⟨r, o, hc⟩ := hentry i hi
      cases hc with
      | root hv' howner =>
        obtain rfl := some.inj ((List.getElem?_eq_getElem hi).symm.trans hv')
        rw [hstorage] at howner
        cases howner
      | hop hv' hstorage' hs hle _ =>
        obtain rfl := some.inj ((List.getElem?_eq_getElem hi).symm.trans hv')
        obtain ⟨rfl, rfl⟩ := ValueStorage.aliasOf.inj (hstorage.symm.trans hstorage')
        exact ⟨_, hs, hle⟩
    · have hi : i < values.length := by
        obtain ⟨j, ⟨v, source, offset, hv, -⟩, -⟩ := Relation.TransGen.head'_iff.mp hcycle
        exact (List.getElem?_eq_some_iff.mp hv).1
      obtain ⟨r, o, hc⟩ := hentry i hi
      exact hc.no_cycle hcycle
  · rintro ⟨hdense, hin, hacyc⟩
    exact normalizeAliases_total hdense hacyc hin hbytes

/-- The walk ends for every table; it returns tables exactly when the aliases fit; and the
entry of a value is the one owner at the end of its chain, with the sum of the offsets. -/
theorem normalizeAliases_exact (hbytes : ∀ v ∈ values, v.bytes ≤ usizeMax) :
    (∀ message, normalizeAliases values ≠ .error (.panic message)) ∧
    ((∃ aliases, normalizeAliases values = .ok aliases) ↔
      DenseValues values ∧ AliasInBounds values ∧ AliasAcyclic values) ∧
    ∀ aliases, normalizeAliases values = .ok aliases → aliases.length = values.length ∧
      ∀ (i : Nat) (a : NormalizedAlias), aliases[i]? = some a →
        AliasChain values i a.root a.byteOffset ∧
        (∀ r o, AliasChain values i r o → r = a.root ∧ o = a.byteOffset) ∧
        ∃ v root, values[i]? = some v ∧ values[a.root.index]? = some root ∧
          root.storage.isAlias = false ∧ a.byteOffset + v.bytes ≤ root.bytes := by
  refine ⟨normalizeAliases_no_panic, normalizeAliases_ok_iff hbytes, fun aliases h => ?_⟩
  obtain ⟨hlen, hchain⟩ := normalizeAliases_chain h
  refine ⟨hlen, fun i a ha => ⟨hchain i a ha, fun r o hc => hc.unique (hchain i a ha), ?_⟩⟩
  exact (hchain i a ha).bounds ((normalizeAliases_ok_iff hbytes).mp ⟨aliases, h⟩).1

/-- A view of a view. -/
def viewOfView : List (ValueDecl Unit) :=
  [⟨⟨0⟩, "buffer", 16, .fixed .externalInput (.external 0)⟩, .aliasOf ⟨1⟩ "tail" ⟨2⟩ 2 4,
    .aliasOf ⟨2⟩ "view" ⟨0⟩ 8 8]

theorem normalizeAliases_exact_view :
    normalizeAliases viewOfView = .ok [⟨⟨0⟩, 0⟩, ⟨⟨0⟩, 10⟩, ⟨⟨0⟩, 8⟩] ∧
      AliasChain viewOfView 1 ⟨0⟩ 10 := by
  have hrun : normalizeAliases viewOfView = .ok [⟨⟨0⟩, 0⟩, ⟨⟨0⟩, 10⟩, ⟨⟨0⟩, 8⟩] := by decide +kernel
  have hbytes : ∀ v ∈ viewOfView, v.bytes ≤ usizeMax := by decide +kernel
  exact ⟨hrun, (((normalizeAliases_exact hbytes).2.2 _ hrun).2 1 ⟨⟨0⟩, 10⟩ rfl).1⟩

/-- A table without a view is rejected for the id of its entry. -/
theorem normalizeAliases_misnumbered :
    let values : List (ValueDecl Unit) := [⟨⟨1⟩, "buffer", 16, .fixed .externalInput (.external 0)⟩]
    normalizeAliases values = fail (.valueIdMismatch 0 ⟨1⟩) ∧ AliasInBounds values ∧
      AliasAcyclic values := by
  refine ⟨by decide +kernel, fun v hv source offset hstorage => ?_, fun i hcycle => ?_⟩
  · obtain rfl := mem_singleton.mp hv
    cases hstorage
  · obtain ⟨j, ⟨v, source, offset, hv, hstorage, -⟩, -⟩ := Relation.TransGen.head'_iff.mp hcycle
    obtain rfl := mem_singleton.mp (mem_of_getElem? hv)
    cases hstorage

end Exact

end EffectTorch
