import EffectTorch.Compiler.DecodeCopy
import Mathlib.Data.Set.Function
import Mathlib.Order.Interval.Set.Defs

/-!
# The pass of decode specialization

The loop over the order copies every node below the roots once. `Copied` says so of the
nodes that the loop has left behind, `Numbered` what their layers are called, and `Measured`
what is known of the geometry.

Results:
1. `Copied.turn`, `Numbered.turn`, `Measured.turn`: a turn of the loop keeps them.
2. `pass_passed`: they hold behind the loop.
-/

namespace EffectTorch
open List Function Option Lib

namespace Decode

section Pass

variable (G : Graph) (o : Options) (rows slot next : Nat)

def kindOf (n : Nat) : NodeKind Nat := (G.node n).kind

/-- What the pool is told of the attention layer `n`, if it is one. -/
def describe (layerOf : Nat → Nat) (n : Nat) : Option KvLayerDescriptor :=
  (attentionOf (kindOf G n)).map fun a =>
    ⟨layerOf n, (G.node a.k).shape.getD 1 0, (G.node a.k).shape.getD 3 0, (G.node a.k).dtype,
      a.retention (a.window.resolve o.window)⟩

/-- The nodes of `done` have copies of their own above those of the source, where their
operands are copies too. -/
structure Copied (s : State) (done : List Nat) (layerOf : Nat → Nat) : Prop where
  grows : Nodes.Grows ⟨G.node, next⟩ s.nodes
  closed : ∀ n ∈ done, ∀ child ∈ nodeChildren (kindOf G n), child ∈ done
  fresh : ∀ n ∈ done, next ≤ s.remap n ∧ s.remap n < s.nodes.next
  injective : ∀ n ∈ done, ∀ m ∈ done, s.remap n = s.remap m → n = m
  copies : ∀ n ∈ done, ∃ kind, s.nodes.At (s.remap n) kind ∧
    Specializes G o rows slot s.nodes s.remap (layerOf n) (kindOf G n) kind

/-- The layers of a family are numbered in the order of the loop. -/
structure Counted (family : Nat → Bool) (layers : Nat) (done : List Nat) (layerOf : Nat → Nat) :
    Prop where
  layers_eq : layers = (done.filter family).length
  index : ∀ (i : Nat) n, (done.filter family)[i]? = some n → layerOf n = asU32 i

structure Numbered (s : State) (done : List Nat) (layerOf : Nat → Nat) : Prop where
  kv : s.kvLayers = done.filterMap (describe G o layerOf)
  layers : s.layers = s.kvLayers.length
  ids : ∀ layer ∈ s.kvLayers, layer.layerId ∈ s.layerIds
  nodup : (s.kvLayers.map (·.layerId)).Nodup
  kda : Counted (isKda <| kindOf G ·) s.kdaLayers done layerOf
  conv : Counted (isConv <| kindOf G ·) s.convLayers done layerOf

/-- The KDA geometry is that of a layer with operands `q` and `v`. A CPU layer has its dtype. -/
def KdaFits (geometry : Option (Nat × Nat × Nat × DType)) (q v : Nat) : Prop :=
  ∃ heads tokens headDim valueDim dtype, geometry = some (heads, headDim, valueDim, dtype) ∧
    (G.node q).shape = [rows, heads, tokens, headDim] ∧ (G.node v).shape[3]? = some valueDim ∧
    ((G.node q).device.isCpu = true → (G.node q).dtype = dtype)

def ConvFits (geometry : Option (Nat × Nat)) (x weight : Nat) : Prop :=
  ∃ tokens channels kernel, geometry = some (channels, kernel) ∧
    (G.node x).shape = [rows, tokens, channels] ∧ (G.node weight).shape[1]? = some kernel

structure Measured (s : State) (done : List Nat) : Prop where
  attention : ∀ n ∈ done, ∀ a, attentionOf (kindOf G n) = some a →
    ∃ kvHeads tokens headDim, (G.node a.k).shape = [rows, kvHeads, tokens, headDim]
  kda : ∀ n ∈ done, ∀ q k v logDecay beta scale, kindOf G n = .kdaChunk q k v logDecay beta scale →
    KdaFits G rows s.kdaGeometry q v
  conv : ∀ n ∈ done, ∀ x weight, kindOf G n = .shortConv1d x weight →
    ConvFits G rows s.convGeometry x weight
  window : ∀ n ∈ done, ∀ a, attentionOf (kindOf G n) = some a → a.legacyRetention = true →
    ∀ w, a.window.resolve o.window = some w →
      ∃ maximum, s.maximumAttentionWindow = some maximum ∧ w ≤ maximum
  allows : s.allowsWindowEviction = s.kvLayers.all (·.retention.isSome)
  cursorTensor : s.cursorTensor = (done.any (isPosition <| kindOf G ·) && decide (1 < rows))

end Pass

variable {G : Graph} {o : Options} {rows slot next : Nat} {infer : Inference} {s s₁ s' : State}
  {done : List Nat} {layerOf : Nat → Nat} {layer n : Nat}

/-! ## Copies -/

theorem Booked.remapped_eq {kind : NodeKind Nat} (h : Booked G o rows s s₁ layer kind) :
    s₁.remapped = s.remapped := by
  cases h with
  | attention a kvHeads tokens headDim ha hshape hnew hs => rw [hs]; rfl
  | kda q k v logDecay beta scale heads tokens headDim valueDim hkind hshape hvalue hagree hlayer hs =>
    rw [hs]
  | conv x weight tokens channels kernel hkind hshape hkernel hagree hlayer hs => rw [hs]
  | other hattention hkda hconv hs => rw [hs]

/-- The state behind a turn, given the state behind its bookkeeping. -/
def State.put (s : State) (n id : Nat) (nodes : Nodes) : State :=
  { s with nodes, remapped := Function.update s.remapped n (some id) }

theorem State.put_remap_self (s : State) (n id : Nat) (nodes : Nodes) : (s.put n id nodes).remap n = id := by
  rw [State.remap, State.put]
  dsimp only
  rw [update_self, getD_some]

theorem State.put_remap_of_ne (s : State) {n m : Nat} (id : Nat) (nodes : Nodes) (h : m ≠ n) :
    (s.put n id nodes).remap m = s.remap m := by
  rw [State.remap, State.remap, State.put]
  dsimp only
  rw [update_of_ne h]

/-- One turn of the loop. -/
structure Turn (G : Graph) (o : Options) (rows slot : Nat) (s s₁ s' : State) (n layer : Nat) : Prop where
  booked : Booked G o rows s s₁ layer (kindOf G n)
  put : ∃ kind id, Specializes G o rows slot s₁.nodes s.remap layer (kindOf G n) kind ∧
    s.nodes.Grows s₁.nodes ∧ s₁.nodes.Built kind id s'.nodes ∧ s' = s₁.put n id s'.nodes

theorem specializeNode_ok (h : specializeNode infer G o rows slot s n = .ok s') :
    ∃ s₁ layer, Turn G o rows slot s s₁ s' n layer := by
  obtain ⟨⟨kind, s₁⟩, hkind, h⟩ := bind_ok.mp h
  obtain ⟨⟨id, nodes⟩, hnew, h⟩ := bind_ok.mp h
  cases h
  obtain ⟨layer, hspec, hgrows, hbooked⟩ := specializeKind_ok hkind
  exact ⟨s₁, layer, hbooked, kind, id, hspec, hgrows, Nodes.new_ok hnew, rfl⟩

theorem Copied.turn (h : Copied G o rows slot next s done layerOf) (hnew : n ∉ done)
    (hchildren : ∀ child ∈ nodeChildren (kindOf G n), child ∈ done)
    (hturn : Turn G o rows slot s s₁ s' n layer) :
    Copied G o rows slot next s' (done ++ [n]) (Function.update layerOf n layer) := by
  obtain ⟨kind, id, hspec, hgrows₁, hbuilt, hs'⟩ := hturn.put
  have hgrows := hgrows₁.trans hbuilt.grows
  have hne : ∀ m ∈ done, m ≠ n := fun _ hm heq => hnew (heq ▸ hm)
  have hself : s'.remap n = id := by rw [hs', State.put_remap_self]
  have hold : ∀ m ∈ done, s'.remap m = s.remap m := by
    intro m hm
    rw [hs', State.put_remap_of_ne _ _ _ (hne m hm), State.remap, hturn.booked.remapped_eq]
    rfl
  -- the copy of `n` is newer than those of `done`
  have hlt : ∀ m ∈ done, s.remap m < id := fun m hm =>
    Nat.lt_of_lt_of_le (h.fresh m hm).2 (Nat.le_trans hgrows₁.next_le hbuilt.fresh)
  refine ⟨h.grows.trans hgrows, fun m hm child hchild => ?_, fun m hm => ?_, fun m hm m' hm' heq => ?_,
    fun m hm => ?_⟩
  · rcases mem_append.mp hm with hm | hm
    · exact mem_append_left _ (h.closed m hm child hchild)
    · rw [mem_singleton.mp hm] at hchild
      exact mem_append_left _ (hchildren child hchild)
  · rcases mem_append.mp hm with hm | hm
    · rw [hold m hm]
      exact ⟨(h.fresh m hm).1, Nat.lt_of_lt_of_le (h.fresh m hm).2 hgrows.next_le⟩
    · rw [mem_singleton.mp hm, hself]
      exact ⟨Nat.le_trans (h.grows.trans hgrows₁).next_le hbuilt.fresh, hbuilt.at_new.1⟩
  · rcases mem_append.mp hm with hm | hm <;> rcases mem_append.mp hm' with hm' | hm'
    · rw [hold m hm, hold m' hm'] at heq
      exact h.injective m hm m' hm' heq
    · rw [hold m hm, mem_singleton.mp hm', hself] at heq
      exact absurd heq (Nat.ne_of_lt (hlt m hm))
    · rw [hold m' hm', mem_singleton.mp hm, hself] at heq
      exact absurd heq.symm (Nat.ne_of_lt (hlt m' hm'))
    · rw [mem_singleton.mp hm, mem_singleton.mp hm']
  · rcases mem_append.mp hm with hm | hm
    · obtain ⟨kind', hat, hcopy⟩ := h.copies m hm
      rw [hold m hm, update_of_ne (hne m hm)]
      exact ⟨kind', hat.mono hgrows, hcopy.mono hgrows fun child hchild =>
        hold child (h.closed m hm child hchild)⟩
    · rw [mem_singleton.mp hm, hself, update_self]
      exact ⟨kind, hbuilt.at_new, hspec.mono hbuilt.grows fun child hchild =>
        hold child (hchildren child hchild)⟩

/-! ## Layers -/

theorem update_old {m : Nat} (hnew : n ∉ done) (hm : m ∈ done) :
    Function.update layerOf n layer m = layerOf m := by
  have hne : m ≠ n := fun heq => hnew (heq ▸ hm)
  rw [update_of_ne hne]

section Counted

variable {family : Nat → Bool} {layers : Nat}

theorem Counted.skip (h : Counted family layers done layerOf) (hnew : n ∉ done)
    (hn : family n = false) : Counted family layers (done ++ [n]) (Function.update layerOf n layer) := by
  have hfilter : (done ++ [n]).filter family = done.filter family := by
    rw [filter_append, filter_singleton, hn, cond_false, append_nil]
  refine ⟨by rw [hfilter, h.layers_eq], fun i m hm => ?_⟩
  rw [hfilter] at hm
  rw [update_old hnew (mem_of_mem_filter (mem_of_getElem? hm))]
  exact h.index i m hm

theorem Counted.add (h : Counted family layers done layerOf) (hnew : n ∉ done)
    (hn : family n = true) (hlayer : layer = asU32 layers) :
    Counted family (layers + 1) (done ++ [n]) (Function.update layerOf n layer) := by
  have hfilter : (done ++ [n]).filter family = done.filter family ++ [n] := by
    rw [filter_append, filter_singleton, hn, cond_true]
  refine ⟨by rw [hfilter, length_append, h.layers_eq]; rfl, fun i m hm => ?_⟩
  rw [hfilter] at hm
  rcases Nat.lt_trichotomy i (done.filter family).length with hlt | rfl | hgt
  · rw [List.getElem?_append_left hlt] at hm
    rw [update_old hnew (mem_of_mem_filter (mem_of_getElem? hm))]
    exact h.index i m hm
  · rw [List.getElem?_concat_length] at hm
    obtain rfl := some.inj hm
    rw [update_self, hlayer, h.layers_eq]
  · rw [List.getElem?_eq_none (by rw [length_append]; exact hgt)] at hm
    cases hm

/-- Fewer than `2^32` layers have numbers of their own. -/
theorem Counted.bijOn (h : Counted family layers done layerOf)
    (hfit : layers ≤ 2 ^ 32) :
    Set.BijOn layerOf {n | n ∈ done ∧ family n = true} (Set.Iio layers) := by
  have hindex : ∀ n, n ∈ done ∧ family n = true →
      ∃ i, i < layers ∧ (done.filter family)[i]? = some n ∧ layerOf n = i := by
    intro n hn
    obtain ⟨i, hi⟩ := mem_iff_getElem?.mp (mem_filter.mpr hn)
    have hlt : i < layers := h.layers_eq ▸ (List.getElem?_eq_some_iff.mp hi).1
    refine ⟨i, hlt, hi, ?_⟩
    rw [h.index i n hi, asU32, Nat.mod_eq_of_lt (Nat.lt_of_lt_of_le hlt hfit)]
  refine ⟨fun n hn => ?_, fun n hn m hm heq => ?_, fun i hi => ?_⟩
  · obtain ⟨i, hlt, _, heq⟩ := hindex n hn
    exact Set.mem_Iio.mpr (heq ▸ hlt)
  · obtain ⟨i, _, hi, hni⟩ := hindex n hn
    obtain ⟨j, _, hj, hmj⟩ := hindex m hm
    obtain rfl : i = j := by rw [← hni, ← hmj, heq]
    exact some.inj (hi.symm.trans hj)
  · have hlt : i < (done.filter family).length := h.layers_eq ▸ Set.mem_Iio.mp hi
    have hget := List.getElem?_eq_getElem hlt
    refine ⟨_, mem_filter.mp (mem_of_getElem? hget), ?_⟩
    rw [h.index i _ hget, asU32, Nat.mod_eq_of_lt (Nat.lt_of_lt_of_le (Set.mem_Iio.mp hi) hfit)]

end Counted

theorem describe_update (hnew : n ∉ done) :
    done.filterMap (describe G o (Function.update layerOf n layer)) =
      done.filterMap (describe G o layerOf) := by
  refine filterMap_congr fun m hm => ?_
  rw [describe, describe, update_old hnew hm]

theorem Numbered.turn (h : Numbered G o s done layerOf) (hnew : n ∉ done)
    (hbooked : Booked G o rows s s₁ layer (kindOf G n)) :
    Numbered G o s₁ (done ++ [n]) (Function.update layerOf n layer) := by
  have hkv : (done ++ [n]).filterMap (describe G o (Function.update layerOf n layer)) =
      s.kvLayers ++ (describe G o (Function.update layerOf n layer) n).toList := by
    rw [filterMap_append, describe_update hnew, ← h.kv]
    rfl
  have hnone : attentionOf (kindOf G n) = none →
      (done ++ [n]).filterMap (describe G o (Function.update layerOf n layer)) = s.kvLayers := by
    intro hn
    rw [hkv, describe, hn, map_none, toList_none, append_nil]
  cases hbooked with
  | attention a kvHeads tokens headDim ha hshape hfree hs =>
    subst hs
    have hkda : isKda (kindOf G n) = false := by
      revert ha
      cases kindOf G n <;> simp [attentionOf, isKda]
    have hconv : isConv (kindOf G n) = false := by
      revert ha
      cases kindOf G n <;> simp [attentionOf, isConv]
    refine ⟨?_, ?_, ?_, ?_, h.kda.skip hnew hkda, h.conv.skip hnew hconv⟩
    · rw [hkv, describe, ha, map_some, toList_some, update_self, hshape]
      rfl
    · change s.layers + 1 = (s.kvLayers ++ [_]).length
      rw [length_append, ← h.layers]
      rfl
    · intro d hd
      rcases mem_append.mp hd with hd | hd
      · exact mem_cons_of_mem _ (h.ids d hd)
      · rw [mem_singleton.mp hd]
        exact mem_cons_self
    · change ((s.kvLayers ++ [_]).map KvLayerDescriptor.layerId).Nodup
      rw [map_append, nodup_append]
      refine ⟨h.nodup, nodup_singleton _, fun id hid id' hid' heq => ?_⟩
      obtain ⟨d, hd, rfl⟩ := mem_map.mp hid
      rw [map_singleton, mem_singleton] at hid'
      have hmem := h.ids d hd
      rw [heq, hid'] at hmem
      exact hfree hmem
  | kda q k v logDecay beta scale heads tokens headDim valueDim hkind hshape hvalue hagree hlayer hs =>
    subst hs
    refine ⟨?_, h.layers, h.ids, h.nodup, h.kda.add hnew ?_ hlayer, h.conv.skip hnew ?_⟩
    · rw [hnone (by rw [hkind]; rfl)]
    · rw [hkind]
      rfl
    · rw [hkind]
      rfl
  | conv x weight tokens channels kernel hkind hshape hkernel hagree hlayer hs =>
    subst hs
    refine ⟨?_, h.layers, h.ids, h.nodup, h.kda.skip hnew ?_, h.conv.add hnew ?_ hlayer⟩
    · rw [hnone (by rw [hkind]; rfl)]
    · rw [hkind]
      rfl
    · rw [hkind]
      rfl
  | other hattention hkda hconv hs =>
    rw [hs]
    exact ⟨(hnone hattention).symm, h.layers, h.ids, h.nodup, h.kda.skip hnew hkda,
      h.conv.skip hnew hconv⟩

/-! ## Geometry -/

theorem KdaFits.keep {geometry : Option (Nat × Nat × Nat × DType)} {q v : Nat}
    (h : KdaFits G rows geometry q v) (current : Nat × Nat × Nat × DType) :
    KdaFits G rows (some (geometry.getD current)) q v := by
  obtain ⟨heads, tokens, headDim, valueDim, dtype, rfl, hrest⟩ := h
  exact ⟨heads, tokens, headDim, valueDim, dtype, rfl, hrest⟩

/-- A layer that does not disagree with the geometry has it. -/
theorem KdaFits.new {geometry : Option (Nat × Nat × Nat × DType)} {q v heads tokens headDim valueDim : Nat}
    (hshape : (G.node q).shape = [rows, heads, tokens, headDim])
    (hvalue : (G.node v).shape[3]? = some valueDim)
    (hagree : ∀ previous, geometry = some previous →
      ¬ kdaDisagrees (G.node q).device previous (heads, headDim, valueDim, (G.node q).dtype)) :
    KdaFits G rows (some (geometry.getD (heads, headDim, valueDim, (G.node q).dtype))) q v := by
  cases geometry with
  | none => exact ⟨heads, tokens, headDim, valueDim, _, rfl, hshape, hvalue, fun _ => rfl⟩
  | some previous =>
    obtain ⟨heads', headDim', valueDim', dtype⟩ := previous
    have h := hagree _ rfl
    rw [kdaDisagrees, not_or, not_or, not_or, not_not, not_not, not_not, not_and, not_not] at h
    obtain ⟨rfl, rfl, rfl, hdtype⟩ := h
    exact ⟨heads', tokens, headDim', valueDim', dtype, rfl, hshape, hvalue, fun hcpu => (hdtype hcpu).symm⟩

theorem ConvFits.keep {geometry : Option (Nat × Nat)} {x weight : Nat}
    (h : ConvFits G rows geometry x weight) (current : Nat × Nat) :
    ConvFits G rows (some (geometry.getD current)) x weight := by
  obtain ⟨tokens, channels, kernel, rfl, hrest⟩ := h
  exact ⟨tokens, channels, kernel, rfl, hrest⟩

theorem ConvFits.new {geometry : Option (Nat × Nat)} {x weight tokens channels kernel : Nat}
    (hshape : (G.node x).shape = [rows, tokens, channels])
    (hkernel : (G.node weight).shape[1]? = some kernel)
    (hagree : ∀ previous, geometry = some previous → previous = (channels, kernel)) :
    ConvFits G rows (some (geometry.getD (channels, kernel))) x weight := by
  refine ⟨tokens, channels, kernel, ?_, hshape, hkernel⟩
  cases geometry with
  | none => rfl
  | some previous => rw [hagree previous rfl, getD_some]

/-- A layer does not narrow the widest window. -/
theorem Attention.widen_keeps (a : Attention) (window : Option Nat) {w maximum : Nat} (hle : w ≤ maximum) :
    ∃ maximum', a.widen window (some maximum) = some maximum' ∧ w ≤ maximum' := by
  cases window with
  | none => exact ⟨maximum, rfl, hle⟩
  | some required =>
    rw [Attention.widen]
    split
    · exact ⟨_, rfl, Nat.le_trans hle (Nat.le_max_left _ _)⟩
    · exact ⟨maximum, rfl, hle⟩

/-- The widest window covers the one of a layer that relies on it. -/
theorem Attention.widen_covers (a : Attention) (maximum : Option Nat) {w : Nat}
    (ha : a.legacyRetention = true) :
    ∃ maximum', a.widen (some w) maximum = some maximum' ∧ w ≤ maximum' := by
  rw [Attention.widen, if_pos ha]
  refine ⟨_, rfl, ?_⟩
  cases maximum with
  | none => exact Nat.le_refl _
  | some current => exact Nat.le_max_right _ _

/-- Each fact of `Measured` about one more node. -/
theorem Measured.turn (h : Measured G o rows s done)
    (hbooked : Booked G o rows s s₁ layer (kindOf G n)) : Measured G o rows s₁ (done ++ [n]) := by
  have hsplit : ∀ m ∈ done ++ [n], m ∈ done ∨ m = n := fun m hm =>
    (mem_append.mp hm).imp_right mem_singleton.mp
  have hany : ∀ b : Bool, isPosition (kindOf G n) = b →
      (done ++ [n]).any (isPosition <| kindOf G ·) = (done.any (isPosition <| kindOf G ·) || b) := by
    intro b hb
    rw [any_append, any_cons, any_nil, hb, Bool.or_false]
  have hcursor : isPosition (kindOf G n) = false →
      s.cursorTensor = ((done ++ [n]).any (isPosition <| kindOf G ·) && decide (1 < rows)) := by
    intro hn
    rw [hany false hn, Bool.or_false, h.cursorTensor]
  cases hbooked with
  | attention a kvHeads tokens headDim ha hshape hfree hs =>
    subst hs
    refine ⟨fun m hm a' ha' => ?_, fun m hm q k v logDecay beta scale hkind => ?_,
      fun m hm x weight hkind => ?_, fun m hm a' ha' hlegacy w hw => ?_, ?_, hcursor ?_⟩
    · rcases hsplit m hm with hm | rfl
      · exact h.attention m hm a' ha'
      · obtain rfl := some.inj (ha.symm.trans ha')
        exact ⟨kvHeads, tokens, headDim, hshape⟩
    · rcases hsplit m hm with hm | rfl
      · exact h.kda m hm q k v logDecay beta scale hkind
      · rw [hkind] at ha
        cases ha
    · rcases hsplit m hm with hm | rfl
      · exact h.conv m hm x weight hkind
      · rw [hkind] at ha
        cases ha
    · rcases hsplit m hm with hm | rfl
      · obtain ⟨maximum, hmax, hle⟩ := h.window m hm a' ha' hlegacy w hw
        change ∃ maximum, a.widen _ s.maximumAttentionWindow = some maximum ∧ w ≤ maximum
        rw [hmax]
        exact a.widen_keeps _ hle
      · obtain rfl := some.inj (ha.symm.trans ha')
        change ∃ maximum, a.widen _ s.maximumAttentionWindow = some maximum ∧ w ≤ maximum
        rw [hw]
        exact a.widen_covers _ hlegacy
    · change (s.allowsWindowEviction && _) = (s.kvLayers ++ [_]).all _
      rw [all_append, h.allows, all_cons, all_nil, Bool.and_true]
    · revert ha
      cases kindOf G n <;> simp [attentionOf, isPosition]
  | kda q k v logDecay beta scale heads tokens headDim valueDim hkind hshape hvalue hagree hlayer hs =>
    subst hs
    refine ⟨fun m hm a' ha' => ?_, fun m hm q' k' v' logDecay' beta' scale' hkind' => ?_,
      fun m hm x weight hkind' => ?_, fun m hm a' ha' => ?_, h.allows, hcursor (by rw [hkind]; rfl)⟩
    · rcases hsplit m hm with hm | rfl
      · exact h.attention m hm a' ha'
      · rw [hkind] at ha'
        cases ha'
    · rcases hsplit m hm with hm | rfl
      · exact (h.kda m hm q' k' v' logDecay' beta' scale' hkind').keep _
      · rw [hkind] at hkind'
        cases hkind'
        exact .new hshape hvalue hagree
    · rcases hsplit m hm with hm | rfl
      · exact h.conv m hm x weight hkind'
      · rw [hkind] at hkind'
        cases hkind'
    · rcases hsplit m hm with hm | rfl
      · exact h.window m hm a' ha'
      · rw [hkind] at ha'
        cases ha'
  | conv x weight tokens channels kernel hkind hshape hkernel hagree hlayer hs =>
    subst hs
    refine ⟨fun m hm a' ha' => ?_, fun m hm q k v logDecay beta scale hkind' => ?_,
      fun m hm x' weight' hkind' => ?_, fun m hm a' ha' => ?_, h.allows, hcursor (by rw [hkind]; rfl)⟩
    · rcases hsplit m hm with hm | rfl
      · exact h.attention m hm a' ha'
      · rw [hkind] at ha'
        cases ha'
    · rcases hsplit m hm with hm | rfl
      · exact h.kda m hm q k v logDecay beta scale hkind'
      · rw [hkind] at hkind'
        cases hkind'
    · rcases hsplit m hm with hm | rfl
      · exact (h.conv m hm x' weight' hkind').keep _
      · rw [hkind] at hkind'
        cases hkind'
        exact .new hshape hkernel hagree
    · rcases hsplit m hm with hm | rfl
      · exact h.window m hm a' ha'
      · rw [hkind] at ha'
        cases ha'
  | other hattention hkda hconv hs =>
    rw [hs]
    refine ⟨fun m hm a' ha' => ?_, fun m hm q k v logDecay beta scale hkind => ?_,
      fun m hm x weight hkind => ?_, fun m hm a' ha' => ?_, h.allows, ?_⟩
    · rcases hsplit m hm with hm | rfl
      · exact h.attention m hm a' ha'
      · rw [hattention] at ha'
        cases ha'
    · rcases hsplit m hm with hm | rfl
      · exact h.kda m hm q k v logDecay beta scale hkind
      · rw [hkind] at hkda
        cases hkda
    · rcases hsplit m hm with hm | rfl
      · exact h.conv m hm x weight hkind
      · rw [hkind] at hconv
        cases hconv
    · rcases hsplit m hm with hm | rfl
      · exact h.window m hm a' ha'
      · rw [hattention] at ha'
        cases ha'
    · change (s.cursorTensor || _) = _
      rw [hany _ rfl, h.cursorTensor, ← Bool.and_or_distrib_right]

/-! ## The loop -/

/-- What holds of the nodes that the loop has left behind. -/
structure Passed (G : Graph) (o : Options) (rows slot next : Nat) (s : State) (done : List Nat)
    (layerOf : Nat → Nat) : Prop where
  copied : Copied G o rows slot next s done layerOf
  numbered : Numbered G o s done layerOf
  measured : Measured G o rows s done

theorem Numbered.put {id : Nat} {nodes : Nodes} (h : Numbered G o s done layerOf) :
    Numbered G o (s.put n id nodes) done layerOf :=
  ⟨h.kv, h.layers, h.ids, h.nodup, h.kda, h.conv⟩

theorem Measured.put {id : Nat} {nodes : Nodes} (h : Measured G o rows s done) :
    Measured G o rows (s.put n id nodes) done :=
  ⟨h.attention, h.kda, h.conv, h.window, h.allows, h.cursorTensor⟩

theorem Passed.start : Passed G o rows slot next (.start ⟨G.node, next⟩) [] layerOf where
  copied := ⟨.refl _, nofun, nofun, nofun, nofun⟩
  numbered := ⟨rfl, rfl, nofun, .nil, ⟨rfl, nofun⟩, ⟨rfl, nofun⟩⟩
  measured := ⟨nofun, nofun, nofun, nofun, rfl, rfl⟩

theorem Passed.turn (h : Passed G o rows slot next s done layerOf) (hnew : n ∉ done)
    (hchildren : ∀ child ∈ nodeChildren (kindOf G n), child ∈ done)
    (hstep : specializeNode infer G o rows slot s n = .ok s') :
    ∃ layerOf', Passed G o rows slot next s' (done ++ [n]) layerOf' := by
  obtain ⟨s₁, layer, hturn⟩ := specializeNode_ok hstep
  have hnumbered := h.numbered.turn hnew hturn.booked
  have hmeasured := h.measured.turn hturn.booked
  obtain ⟨kind, id, -, -, -, hs'⟩ := hturn.put
  refine ⟨_, h.copied.turn hnew hchildren hturn, ?_, ?_⟩
  · rw [hs']
    exact hnumbered.put
  · rw [hs']
    exact hmeasured.put

/-- The loop copies what its order lists. -/
theorem pass_passed {order : List Nat} (horder : G.dag.reversed.Ordered order)
    (h : order.foldlM (specializeNode infer G o rows slot) (.start ⟨G.node, next⟩) = .ok s) :
    ∃ layerOf, Passed G o rows slot next s order layerOf := by
  refine foldlM_invariant (fun done s => ∃ layerOf, Passed G o rows slot next s done layerOf) order ?_
    ⟨fun _ => 0, .start⟩ h
  rintro done n rest s s' rfl ⟨layerOf, hs⟩ hstep
  obtain ⟨hnew, hchildren⟩ := horder.split
  exact hs.turn hnew (fun child hchild => hchildren child (mem_reverse.mpr hchild)) hstep

end Decode

end EffectTorch
