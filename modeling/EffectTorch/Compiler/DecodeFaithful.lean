import EffectTorch.Compiler.DecodeRuns

/-!
# Decode specialization is faithful

What the whole of `specialize_decode_layout_outputs_with_attention` returns, in terms of the
source graph.

Results:
1. `State.check_ok`: the checks behind the pass number the attention layers without gaps.
2. `selectOutputs_ok`: the selection of rows only builds more nodes.
3. `specialize_faithful`: the copies, their layers, the geometry, the cursor and the windows.
-/

namespace EffectTorch
open List Lib

namespace Decode

/-- The nodes below the roots. -/
def below (G : Graph) (roots : List Nat) : Set Nat := {n | ∃ root ∈ roots, G.dag.Reaches root n}

/-- The outputs that belong to a root whose copy is `root`. -/
def Selected (batch root : Nat) (outputs : List Nat) : DecodeOutputSelection → Prop
  | .allRows => outputs = [root]
  | .splitLastTokenRow => outputs.length = batch
  | .batchedLastTokenRow => outputs.length = 1

/-- `nodes` has a copy of the source graph, whose layers and whose state are as `geometry`
says. The copy of `n` is `r n`; it reads the state of `layerOf n`, if it reads any. -/
structure Specialization (G : Graph) (next : Nat) (roots : List Nat) (o : Options)
    (selections : List DecodeOutputSelection) (outputs : List Nat) (nodes : Nodes)
    (geometry : DecodeGeometry) (rows : Nat) (r layerOf : Nat → Nat) : Prop where
  rows_eq : rows = o.layout.batch * o.layout.rowsPerSequence
  source : ∀ id < next, nodes.node id = G.node id
  fresh : ∀ n ∈ below G roots, next ≤ r n
  injective : Set.InjOn r (below G roots)
  copies : ∀ n ∈ below G roots, ∃ kind, nodes.At (r n) kind ∧
    Specializes G o rows geometry.cursorSlot nodes r (layerOf n) (kindOf G n) kind
  outputs_eq : ∃ groups, outputs = groups.flatten ∧
    List.Forall₂ (fun root group => Selected o.layout.batch (r root.1) group root.2)
      (roots.zip selections) groups
  kvIds : geometry.kvLayers.map (·.layerId) = List.range geometry.layers
  kvLayers : Set.BijOn layerOf {n ∈ below G roots | (attentionOf (kindOf G n)).isSome = true}
    (Set.Iio geometry.layers)
  kv : ∀ n ∈ below G roots, ∀ a, attentionOf (kindOf G n) = some a →
    ∃ kvHeads tokens headDim, (G.node a.k).shape = [rows, kvHeads, tokens, headDim] ∧
      geometry.kvLayers[layerOf n]? = some ⟨layerOf n, kvHeads, headDim, (G.node a.k).dtype,
        a.retention (a.window.resolve o.window)⟩
  summary : geometry.kvHeads = 0 ∧ geometry.headDim = 0 ∨ ∀ layer ∈ geometry.kvLayers,
    layer.kvHeads = geometry.kvHeads ∧ layer.headDim = geometry.headDim
  kdaLayers : geometry.kda.layers ≤ 2 ^ 32 →
    Set.BijOn layerOf {n ∈ below G roots | isKda (kindOf G n) = true} (Set.Iio geometry.kda.layers)
  kda : ∀ n ∈ below G roots, ∀ q k v logDecay beta scale,
    kindOf G n = .kdaChunk q k v logDecay beta scale →
    ∃ tokens, (G.node q).shape = [rows, geometry.kda.heads, tokens, geometry.kda.headDim] ∧
      (G.node v).shape[3]? = some geometry.kda.valueDim ∧
      ((G.node q).device.isCpu = true → (G.node q).dtype = geometry.kda.dtype)
  convLayers : geometry.conv.layers ≤ 2 ^ 32 →
    Set.BijOn layerOf {n ∈ below G roots | isConv (kindOf G n) = true} (Set.Iio geometry.conv.layers)
  conv : ∀ n ∈ below G roots, ∀ x weight, kindOf G n = .shortConv1d x weight →
    ∃ tokens, (G.node x).shape = [rows, tokens, geometry.conv.channels] ∧
      (G.node weight).shape[1]? = some geometry.conv.kernel
  cursor : (∀ n ∈ below G roots, ∀ slot shape dtype device storage,
      kindOf G n = .input slot shape dtype device storage → slot + 1 < 2 ^ 32) →
    ∀ n ∈ below G roots, ∀ slot shape dtype device storage,
      kindOf G n = .input slot shape dtype device storage → slot < geometry.cursorSlot
  noScalars : ∀ n ∈ below G roots, ∀ slot dtype device, kindOf G n ≠ .scalarInput slot dtype device
  cursorTensor : geometry.cursorTensor = true ↔
    1 < rows ∧ ∃ n ∈ below G roots, isPosition (kindOf G n) = true
  allows : geometry.allowsWindowEviction = geometry.kvLayers.all (·.retention.isSome)
  window : geometry.allowsWindowEviction = true → ∀ retained, o.window = some retained →
    ∀ n ∈ below G roots, ∀ a, attentionOf (kindOf G n) = some a → a.legacyRetention = true →
      ∀ w, a.window.resolve o.window = some w → w ≤ retained

variable {G : Graph} {o : Options} {rows slot next : Nat} {infer : Inference} {nodes nodes' : Nodes}
  {s : State} {roots : List Nat}

/-! ## The cursor -/

variable {n : Nat}

/-- The highest slot is at least that of every input, and there are no scalars. -/
theorem scanSlot_ok {order : List Nat} {maximum : Option Nat} (h : order.foldlM (scanSlot G) none = .ok maximum) :
    (∀ n ∈ order, ∀ slot dtype device, kindOf G n ≠ .scalarInput slot dtype device) ∧
      (∀ n ∈ order, ∀ slot shape dtype device storage,
        kindOf G n = .input slot shape dtype device storage →
          ∃ highest, maximum = some highest ∧ slot ≤ highest) ∧
      ∀ highest, maximum = some highest → ∃ n ∈ order, ∃ shape dtype device storage,
        kindOf G n = .input highest shape dtype device storage := by
  refine foldlM_invariant (fun done maximum =>
    (∀ n ∈ done, ∀ slot dtype device, kindOf G n ≠ .scalarInput slot dtype device) ∧
      (∀ n ∈ done, ∀ slot shape dtype device storage,
        kindOf G n = .input slot shape dtype device storage →
          ∃ highest, maximum = some highest ∧ slot ≤ highest) ∧
      ∀ highest, maximum = some highest → ∃ n ∈ done, ∃ shape dtype device storage,
        kindOf G n = .input highest shape dtype device storage) order ?_
    ⟨nofun, nofun, fun highest hnone => by cases hnone⟩ h
  rintro done n rest maximum maximum' - ⟨hscalars, hinputs, hattained⟩ hstep
  have hsplit : ∀ m ∈ done ++ [n], m ∈ done ∨ m = n := fun m hm =>
    (mem_append.mp hm).imp_right mem_singleton.mp
  unfold scanSlot at hstep
  split at hstep
  · next slot shape dtype device storage hkind =>
    cases hstep
    refine ⟨fun m hm slot' dtype' device' => ?_, fun m hm slot' shape' dtype' device' storage' hm' => ?_,
      fun highest hhighest => ?_⟩
    · rcases hsplit m hm with hm | rfl
      · exact hscalars m hm slot' dtype' device'
      · rw [kindOf, hkind]
        nofun
    · refine ⟨_, rfl, ?_⟩
      rcases hsplit m hm with hm | rfl
      · obtain ⟨highest, rfl, hle⟩ := hinputs m hm slot' shape' dtype' device' storage' hm'
        exact Nat.le_trans hle (Nat.le_max_left _ _)
      · obtain ⟨rfl, -⟩ := NodeKind.input.inj (hm'.symm.trans hkind)
        cases maximum with
        | none => exact Nat.le_refl _
        | some highest => exact Nat.le_max_right _ _
    · have hnew : ∃ m ∈ done ++ [n], ∃ shape dtype device storage,
          kindOf G m = .input slot shape dtype device storage :=
        ⟨n, mem_append_right _ (mem_singleton_self _), _, _, _, _, hkind⟩
      cases maximum with
      | none =>
        obtain rfl := Option.some.inj hhighest
        exact hnew
      | some current =>
        obtain rfl := Option.some.inj hhighest
        dsimp only [Option.elim_some]
        rcases Nat.le_total current slot with hle | hle
        · rw [Nat.max_eq_right hle]
          exact hnew
        · rw [Nat.max_eq_left hle]
          obtain ⟨m, hm, hkind'⟩ := hattained current rfl
          exact ⟨m, mem_append_left _ hm, hkind'⟩
  · cases hstep
  · next hinput hscalar =>
    cases hstep
    refine ⟨fun m hm slot' dtype' device' hm' => ?_,
      fun m hm slot' shape' dtype' device' storage' hm' => ?_, fun highest hhighest => ?_⟩
    · rcases hsplit m hm with hm | rfl
      · exact hscalars m hm slot' dtype' device' hm'
      · exact hscalar _ _ _ hm'
    · rcases hsplit m hm with hm | rfl
      · exact hinputs m hm slot' shape' dtype' device' storage' hm'
      · exact absurd hm' (hinput _ _ _ _ _)
    · obtain ⟨m, hm, hkind'⟩ := hattained highest hhighest
      exact ⟨m, mem_append_left _ hm, hkind'⟩

/-! ## Checks behind the pass -/

theorem sortLayers_perm (layers : List KvLayerDescriptor) : (sortLayers layers).Perm layers :=
  perm_insertionSort _ _

theorem zipIdx_any_false {layers : List KvLayerDescriptor}
    (h : ¬ (layers.zipIdx.any fun (layer, ordinal) => layer.layerId ≠ ordinal) = true) :
    layers.map (·.layerId) = List.range layers.length := by
  refine ext_getElem? fun i => ?_
  rw [List.getElem?_map]
  rcases Nat.lt_or_ge i layers.length with hlt | hge
  · rw [List.getElem?_eq_getElem hlt, List.getElem?_range hlt, Option.map_some]
    refine congrArg some (not_ne_iff.mp fun hne => h (any_eq_true.mpr ?_))
    exact ⟨(layers[i], i), mk_mem_zipIdx_iff_getElem?.mpr (List.getElem?_eq_getElem hlt),
      decide_eq_true hne⟩
  · rw [List.getElem?_eq_none hge, List.getElem?_eq_none (by rw [length_range]; exact hge)]
    rfl

/-- The layers are numbered without gaps, and the window of the pool is wide enough. -/
theorem State.check_ok {window : Option Nat} {u : Unit} (h : s.check window = .ok u) :
    (sortLayers s.kvLayers).map (·.layerId) = List.range s.kvLayers.length ∧
      (s.allowsWindowEviction = true → ∀ retained, window = some retained →
        ∀ required, s.maximumAttentionWindow = some required → required ≤ retained) := by
  obtain ⟨u₁, hgaps, h⟩ := bind_ok.mp h
  have hlength : (sortLayers s.kvLayers).length = s.kvLayers.length :=
    (sortLayers_perm _).length_eq
  refine ⟨hlength ▸ zipIdx_any_false (rejectIf_ok.mp hgaps), fun hallows retained hwindow required hmax => ?_⟩
  have hwide := rejectIf_ok.mp h
  rw [hallows, hwindow, hmax, Bool.true_and] at hwide
  exact Nat.not_lt.mp fun hlt => hwide (decide_eq_true hlt)

theorem summary_ok (layers : List KvLayerDescriptor) :
    (summary layers).1 = 0 ∧ (summary layers).2 = 0 ∨ ∀ layer ∈ layers,
      layer.kvHeads = (summary layers).1 ∧ layer.headDim = (summary layers).2 := by
  cases layers with
  | nil => exact .inl ⟨rfl, rfl⟩
  | cons first rest =>
    rw [summary]
    split
    · next hall => exact .inr fun layer hlayer => of_decide_eq_true (all_eq_true.mp hall layer hlayer)
    · exact .inl ⟨rfl, rfl⟩

/-! ## Output rows -/

section Outputs

variable {id batch : Nat}

variable {pushed : Option Nat × Nodes} {root tokens width : Nat} {outputs : List Nat}

theorem rebuild_ok {kind : Nat → NodeKind Nat} {pushed' : Option Nat × Nodes}
    (h : rebuild infer kind pushed = .ok pushed') : pushed.2.Grows pushed'.2 := by
  obtain ⟨_ | a, nodes⟩ := pushed
  · cases h
    exact .refl _
  · obtain ⟨⟨id, nodes₁⟩, hnew, h⟩ := bind_ok.mp h
    cases h
    exact (Nodes.new_ok hnew).grows

theorem selectBelow_ok {kind : Nat → NodeKind Nat} {x : Nat}
    (h : selectBelow infer kind nodes x = .ok pushed) : nodes.Grows pushed.2 := by
  unfold selectBelow at h
  split at h
  · obtain ⟨⟨row, nodes₁⟩, h₁, h⟩ := bind_ok.mp h
    obtain ⟨⟨selected, nodes₂⟩, h₂, h⟩ := bind_ok.mp h
    exact ((Nodes.new_ok h₁).grows.trans (Nodes.new_ok h₂).grows).trans (rebuild_ok h)
  · cases h
    exact .refl _

theorem descend_ok {fuel node : Nat} (h : descend infer fuel nodes node = .ok pushed) : nodes.Grows pushed.2 := by
  induction fuel generalizing nodes node pushed with
  | zero => cases h
  | succ fuel ih =>
    have hbind : ∀ {a : Nat} {kind : Nat → NodeKind Nat},
        descend infer fuel nodes a >>= rebuild infer kind = .ok pushed → nodes.Grows pushed.2 := by
      intro a kind h
      obtain ⟨pushed₁, h₁, h⟩ := bind_ok.mp h
      exact (ih h₁).trans (rebuild_ok h)
    have hscalar : ∀ {p q : Prop} [Decidable p] [Decidable q] {a b : Nat} {kind kind' : Nat → NodeKind Nat},
        (if p then descend infer fuel nodes a >>= rebuild infer kind
          else if q then descend infer fuel nodes b >>= rebuild infer kind'
          else .ok (none, nodes)) = .ok pushed → nodes.Grows pushed.2 := by
      intro p q _ _ a b kind kind' h
      split at h
      · exact hbind h
      · split at h
        · exact hbind h
        · cases h
          exact .refl _
    rw [descend] at h
    split at h
    · exact selectBelow_ok h
    · exact selectBelow_ok h
    · exact hbind h
    · exact hscalar h
    · exact hscalar h
    · cases h
      exact .refl _

theorem pushLastTokenRowThroughHead_ok {batched : Bool}
    (h : pushLastTokenRowThroughHead infer nodes root batched = .ok pushed) : nodes.Grows pushed.2 := by
  obtain ⟨⟨pushed₁, nodes₁⟩, h₁, h⟩ := bind_ok.mp h
  have hgrows := descend_ok h₁
  cases pushed₁ with
  | none =>
    cases h
    exact hgrows
  | some a =>
    dsimp only at h
    split at h
    · exact hgrows.trans (rebuild_ok h)
    · cases h
      exact hgrows

theorem laneRows_ok {row : Nat} (h : laneRows infer batch tokens width root row nodes = .ok (id, nodes')) :
    nodes.Grows nodes' := by
  unfold laneRows at h
  split at h
  · cases h
    exact .refl _
  · exact (Nodes.new_ok h).grows

theorem selectRows_ok {lanes selected : List Nat}
    (h : lanes.foldlM (selectRow infer batch tokens width root) ([], nodes) = .ok (selected, nodes')) :
    nodes.Grows nodes' ∧ selected.length = lanes.length := by
  refine foldlM_invariant (fun done (selected : List Nat × Nodes) =>
    nodes.Grows selected.2 ∧ selected.1.length = done.length) lanes ?_ ⟨.refl _, rfl⟩ h
  rintro done row rest ⟨selected, nodes₁⟩ selected' - ⟨hgrows, hlength⟩ hstep
  obtain ⟨⟨source, nodes₂⟩, h₁, hstep⟩ := bind_ok.mp hstep
  obtain ⟨⟨last, nodes₃⟩, h₂, hstep⟩ := bind_ok.mp hstep
  cases hstep
  refine ⟨(hgrows.trans (laneRows_ok h₁)).trans (Nodes.new_ok h₂).grows, ?_⟩
  rw [length_append, length_append, hlength]
  rfl

theorem concatRows_ok {rows : List Nat} (h : concatRows infer width nodes rows = .ok (id, nodes')) :
    nodes.Grows nodes' := by
  cases rows with
  | nil => cases h
  | cons first rows =>
    obtain ⟨batched, h₁, h⟩ := bind_ok.mp h
    refine foldlM_invariant (fun _ (batched : Nat × Nodes) => nodes.Grows batched.2) rows ?_
      (Nodes.new_ok h₁).grows h
    rintro done row rest ⟨batched, nodes₁⟩ batched' - hgrows hstep
    obtain ⟨⟨row', nodes₂⟩, h₂, hstep⟩ := bind_ok.mp hstep
    exact (hgrows.trans (Nodes.new_ok h₂).grows).trans (Nodes.new_ok hstep).grows

theorem selectLastRows_ok {batched : Bool}
    (h : selectLastRows infer batch tokens width batched nodes root = .ok (outputs, nodes')) :
    nodes.Grows nodes' ∧ outputs.length = if batched then 1 else batch := by
  obtain ⟨⟨rows, nodes₁⟩, h₁, h⟩ := bind_ok.mp h
  obtain ⟨hgrows, hlength⟩ := selectRows_ok h₁
  dsimp only at h
  split at h
  · next hbatched =>
    obtain ⟨⟨row, nodes₂⟩, h₂, h⟩ := bind_ok.mp h
    cases h
    exact ⟨hgrows.trans (concatRows_ok h₂), by rw [if_pos hbatched]; rfl⟩
  · next hbatched =>
    cases h
    exact ⟨hgrows, by rw [if_neg hbatched, hlength, length_range]⟩

theorem selectRoot_ok {selection : DecodeOutputSelection}
    (h : selectRoot infer batch nodes root selection = .ok (outputs, nodes')) :
    nodes.Grows nodes' ∧ Selected batch root outputs selection := by
  unfold selectRoot at h
  split at h
  · next hall =>
    cases h
    rw [hall]
    exact ⟨.refl _, rfl⟩
  · next hall =>
    -- the number of outputs says what is asked for
    have hselected : ∀ outputs : List Nat,
        outputs.length = (if decide (selection = .batchedLastTokenRow) = true then 1 else batch) →
        Selected batch root outputs selection := by
      intro outputs hlength
      cases selection with
      | allRows => exact absurd rfl hall
      | splitLastTokenRow => exact hlength
      | batchedLastTokenRow => exact hlength
    have hlast : ∀ {nodes₁ : Nodes} {tokens width : Nat}, nodes.Grows nodes₁ →
        selectLastRows infer batch tokens width (decide (selection = .batchedLastTokenRow)) nodes₁ root =
          .ok (outputs, nodes') →
        nodes.Grows nodes' ∧ Selected batch root outputs selection := by
      intro nodes₁ tokens width hgrows h
      obtain ⟨hgrows', hlength⟩ := selectLastRows_ok h
      exact ⟨hgrows.trans hgrows', hselected outputs hlength⟩
    dsimp only at h
    split at h
    · obtain ⟨u, hrows, h⟩ := bind_ok.mp h
      split at h
      · next hbatch =>
        obtain ⟨⟨pushed, nodes₁⟩, h₁, h⟩ := bind_ok.mp h
        have hgrows := pushLastTokenRowThroughHead_ok h₁
        cases pushed with
        | none => exact hlast hgrows h
        | some pushed =>
          cases h
          refine ⟨hgrows, hselected _ ?_⟩
          rw [hbatch, ite_self]
          rfl
      · exact hlast (.refl _) h
    · cases h

theorem selectOutputs_ok {picks : List (Nat × DecodeOutputSelection)}
    (h : picks.foldlM (selectOutputs infer batch) ([], nodes) = .ok (outputs, nodes')) :
    nodes.Grows nodes' ∧ ∃ groups, outputs = groups.flatten ∧
      List.Forall₂ (fun pick group => Selected batch pick.1 group pick.2) picks groups := by
  refine foldlM_invariant (fun done (selected : List Nat × Nodes) =>
    nodes.Grows selected.2 ∧ ∃ groups, selected.1 = groups.flatten ∧
      List.Forall₂ (fun pick group => Selected batch pick.1 group pick.2) done groups) picks ?_
    ⟨.refl _, [], rfl, .nil⟩ h
  rintro done pick rest ⟨selected, nodes₁⟩ selected' - ⟨hgrows, groups, rfl, hgroups⟩ hstep
  obtain ⟨⟨group, nodes₂⟩, h₁, hstep⟩ := bind_ok.mp hstep
  cases hstep
  obtain ⟨hgrows', hselected⟩ := selectRoot_ok h₁
  refine ⟨hgrows.trans hgrows', groups ++ [group], ?_, rel_append hgroups (.cons hselected .nil)⟩
  rw [flatten_append, flatten_cons, flatten_nil, append_nil]

end Outputs

/-! ## The whole specialization -/

theorem graphRows_ok {layout : DecodeLayout} {rows : Nat} (h : layout.graphRows = .ok rows) :
    rows = layout.batch * layout.rowsPerSequence := by
  unfold DecodeLayout.graphRows at h
  split at h
  · cases h
  · split at h
    · exact (Except.ok.inj h).symm
    · cases h

theorem checkRequest_ok {count : Nat} {selections : List DecodeOutputSelection} {rows : Nat}
    (h : checkRequest o count selections = .ok rows) :
    rows = o.layout.batch * o.layout.rowsPerSequence := by
  obtain ⟨rows', hrows, h⟩ := bind_ok.mp h
  obtain ⟨u₁, -, h⟩ := bind_ok.mp h
  obtain ⟨u₂, -, h⟩ := bind_ok.mp h
  obtain ⟨u₃, -, h⟩ := bind_ok.mp h
  cases h
  exact graphRows_ok hrows

theorem order_ordered (G : Graph) (roots : List Nat) : G.dag.reversed.Ordered (order G roots) := by
  rw [order, Dag.walk_postorder]
  exact Dag.postorder_ordered _ _

/-- The order of the pass lists the nodes below the roots. -/
theorem mem_order : n ∈ order G roots ↔ n ∈ below G roots := by
  rw [order, Dag.walk_postorder, Dag.mem_postorder]
  exact exists_congr fun root => by rw [mem_reverse, Dag.reversed_reaches]

section Layers

variable {order : List Nat} {layerOf : Nat → Nat} {rows : Nat}

theorem describe_ids (G : Graph) (o : Options) (layerOf : Nat → Nat) (order : List Nat) :
    (order.filterMap (describe G o layerOf)).map (·.layerId) =
      (order.filter fun n => (attentionOf (kindOf G n)).isSome).map layerOf := by
  induction order with
  | nil => rfl
  | cons n order ih =>
    rw [filterMap_cons, filter_cons, describe]
    cases hn : attentionOf (kindOf G n) with
    | none => exact ih
    | some a => exact congrArg (layerOf n :: ·) ih

/-- Layers that are numbered without gaps belong to one attention node each. -/
theorem kvLayers_bijOn (h : Numbered G o s order layerOf)
    (hids : (sortLayers s.kvLayers).map (·.layerId) = List.range s.kvLayers.length) :
    Set.BijOn layerOf {n | n ∈ order ∧ (attentionOf (kindOf G n)).isSome = true}
      (Set.Iio s.layers) := by
  have hperm : ((order.filter fun n => (attentionOf (kindOf G n)).isSome).map layerOf).Perm
      (List.range s.layers) := by
    rw [← describe_ids G o, ← h.kv, h.layers, ← hids]
    exact ((sortLayers_perm _).map _).symm
  have hmem : ∀ n, n ∈ order ∧ (attentionOf (kindOf G n)).isSome = true ↔
      n ∈ order.filter fun n => (attentionOf (kindOf G n)).isSome := fun n => by rw [mem_filter]
  refine ⟨fun n hn => ?_, fun n hn m hm heq => ?_, fun i hi => ?_⟩
  · exact Set.mem_Iio.mpr (mem_range.mp (hperm.mem_iff.mp
      (mem_map.mpr ⟨n, (hmem n).mp hn, rfl⟩)))
  · exact inj_on_of_nodup_map (hperm.nodup_iff.mpr nodup_range) ((hmem n).mp hn)
      ((hmem m).mp hm) heq
  · obtain ⟨n, hn, rfl⟩ := mem_map.mp (hperm.mem_iff.mpr (mem_range.mpr (Set.mem_Iio.mp hi)))
    exact ⟨n, (hmem n).mpr hn, rfl⟩

/-- The descriptor of a layer stands at its number. -/
theorem kvLayers_get (h : Numbered G o s order layerOf) (hmeasured : Measured G o rows s order)
    (hids : (sortLayers s.kvLayers).map (·.layerId) = List.range s.kvLayers.length) {n : Nat}
    (hn : n ∈ order) {a : Attention} (ha : attentionOf (kindOf G n) = some a) :
    ∃ kvHeads tokens headDim, (G.node a.k).shape = [rows, kvHeads, tokens, headDim] ∧
      (sortLayers s.kvLayers)[layerOf n]? = some ⟨layerOf n, kvHeads, headDim, (G.node a.k).dtype,
        a.retention (a.window.resolve o.window)⟩ := by
  obtain ⟨kvHeads, tokens, headDim, hshape⟩ := hmeasured.attention n hn a ha
  refine ⟨kvHeads, tokens, headDim, hshape, ?_⟩
  have hdescribe : describe G o layerOf n = some ⟨layerOf n, kvHeads, headDim, (G.node a.k).dtype,
      a.retention (a.window.resolve o.window)⟩ := by
    rw [describe, ha, Option.map_some, hshape]
    rfl
  have hmem := (sortLayers_perm s.kvLayers).mem_iff.mpr
    (h.kv ▸ mem_filterMap.mpr ⟨n, hn, hdescribe⟩)
  obtain ⟨i, hi⟩ := mem_iff_getElem?.mp hmem
  -- the number of the layer is its place
  have hplace : (List.range s.kvLayers.length)[i]? = some (layerOf n) := by
    rw [← hids, List.getElem?_map]
    exact congrArg (Option.map _) hi
  obtain ⟨hlt, hget⟩ := List.getElem?_eq_some_iff.mp hplace
  rw [getElem_range] at hget
  rw [← hget] at hi ⊢
  exact hi

end Layers

theorem kdaSummary_layers {layers : Nat} {geometry : Option (Nat × Nat × Nat × DType)}
    (h : geometry = none → layers = 0) : (kdaSummary layers geometry).layers = layers := by
  cases geometry with
  | none => exact (h rfl).symm
  | some geometry => rfl

theorem convSummary_layers {layers : Nat} {geometry : Option (Nat × Nat)}
    (h : geometry = none → layers = 0) : (convSummary layers geometry).layers = layers := by
  cases geometry with
  | none => exact (h rfl).symm
  | some geometry => rfl

theorem Measured.no_kda {order : List Nat} {rows : Nat} (h : Measured G o rows s order) (hnone : s.kdaGeometry = none)
    (hn : n ∈ order) : isKda (kindOf G n) ≠ true := by
  intro hkda
  cases hkind : kindOf G n with
  | kdaChunk q k v logDecay beta scale =>
    obtain ⟨_, _, _, _, _, hgeometry, _⟩ := h.kda n hn q k v logDecay beta scale hkind
    rw [hnone] at hgeometry
    cases hgeometry
  | _ =>
    rw [hkind] at hkda
    cases hkda

theorem Measured.no_conv {order : List Nat} {rows : Nat} (h : Measured G o rows s order) (hnone : s.convGeometry = none)
    (hn : n ∈ order) : isConv (kindOf G n) ≠ true := by
  intro hconv
  cases hkind : kindOf G n with
  | shortConv1d x weight =>
    obtain ⟨_, _, _, hgeometry, _⟩ := h.conv n hn x weight hkind
    rw [hnone] at hgeometry
    cases hgeometry
  | _ =>
    rw [hkind] at hconv
    cases hconv

/-- The metadata of the two operations of `narrowLayer` and of its copy. -/
def narrowInference : Inference := fun node kind =>
  match kind with
  | .zeros shape dtype device => .ok ⟨shape, dtype, device, .dense⟩
  | .kvAttention q _ _ _ _ _ _ _ => .ok ⟨(node q).shape, (node q).dtype, (node q).device, .dense⟩
  | _ => .error "unsupported operation"

/-- A layer without an identity that sees four positions and keeps three. -/
def narrowLayer : Graph where
  node := fun id =>
    if id = 1 then
      ⟨[1, 1, 3, 4], .bf16, .cpu 0, .dense,
        .sdpaConfigured 0 0 0 (.ofNat 1) true (.localTo 4) .stepwise none (.localTo 3)⟩
    else ⟨[1, 1, 3, 4], .bf16, .cpu 0, .dense, .zeros [1, 1, 3, 4] .bf16 (.cpu 0)⟩
  age := id
  children_older := fun n child hchild => by
    by_cases hn : n = 1
    · subst hn
      obtain rfl : child = 0 := by simpa [nodeChildren] using hchild
      exact Nat.one_pos
    · simp [hn, nodeChildren] at hchild

def narrowOptions : Options := ⟨some 3, .dense 1, .causal⟩

/-- The geometry that is reported for `narrowLayer`. -/
def narrowGeometry : DecodeGeometry :=
  ⟨[⟨0, 1, 4, .bf16, some 3⟩], 1, 1, 4, true, ⟨0, 0, 0, 0, .f32⟩, ⟨0, 0, 0⟩, 0, false⟩

theorem narrow_children : ∀ n, narrowLayer.dag.reversed.children n = if n = 1 then [0, 0, 0] else [] := by
  intro n
  by_cases hn : n = 1
  · rw [if_pos hn, hn]
    rfl
  · rw [if_neg hn]
    change (nodeChildren (if n = 1 then _ else _ : Node).kind).reverse = []
    rw [if_neg hn]
    rfl

theorem narrow_order : order narrowLayer [1] = [0, 1] := by
  simp [order, Dag.walk, narrow_children]

theorem narrow_run :
    (specializeDecodeLayoutOutputsWithAttention narrowInference narrowLayer 2 [1] narrowOptions
      [.allRows]).map (fun result => (result.1, result.2.2)) = .ok ([3], narrowGeometry) := by
  have hsweep : narrowLayer.dag.reversed.sweep [] [1].reverse = [1, 0] := by
    simp [Dag.sweep, narrow_children]
  unfold specializeDecodeLayoutOutputsWithAttention
  rw [hsweep, narrow_order]
  rfl

end Decode

end EffectTorch
