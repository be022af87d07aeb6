import EffectTorch.Compiler.Decode

/-!
# Copies of decode specialization

`Specializes` says of two operations that one takes the place of the other in a stateful
graph. The turns of the pass build such operations.

Results:
1. `Specializes.mono`: later turns leave an operation what it is.
2. `specializeKind_ok`: what a turn does, for each family of operations.
-/

namespace EffectTorch
open List Lib

namespace Decode

/-! ## Families of operations -/

def attentionOf : NodeKind Nat → Option Attention
  | .sdpa q k v scale causal window => some ⟨q, k, v, scale, causal, window, none⟩
  | .sdpaConfigured q k v scale causal window rounding layerId retention =>
    some ⟨q, k, v, scale, causal, window, some (rounding, layerId, retention)⟩
  | _ => none

def isKda : NodeKind Nat → Bool
  | .kdaChunk _ _ _ _ _ _ => true
  | _ => false

def isConv : NodeKind Nat → Bool
  | .shortConv1d _ _ => true
  | _ => false

def isPosition : NodeKind Nat → Bool
  | .positionEmbedding _ _ => true
  | _ => false

/-- The operations that the pass only gives other operands. -/
def isPlain : NodeKind Nat → Bool
  | .sdpa _ _ _ _ _ _ | .sdpaConfigured _ _ _ _ _ _ _ _ _ | .kdaChunk _ _ _ _ _ _
  | .shortConv1d _ _ | .rotaryEmbedding _ _ _ _ _ | .positionEmbedding _ _ => false
  | _ => true

/-! ## Positions behind a cursor -/

section Specializes

variable (G : Graph) (o : Options) (rows slot : Nat)

/-- `indexes` repeats, for each of `tokens` rows, its position behind the scalar cursor. -/
def OnePositions (nodes : Nodes) (tokens width : Nat) (device : Device) (indexes : Nat) : Prop :=
  ∃ range cursor positions flat,
    nodes.At range (.arange (.ofNat 0) (.ofNat tokens) (.ofNat 1) .i64 device) ∧
    nodes.At cursor (.scalarInput slot .i64 device) ∧
    nodes.At positions (.add range cursor) ∧
    nodes.At flat (.reshape positions [tokens, 1]) ∧
    nodes.At indexes (.broadcastTo flat [tokens, width])

/-- `indexes` repeats, for each of `tokens` rows of each lane, its position behind the cursor
of the lane. -/
def RowPositions (nodes : Nodes) (tokens width : Nat) (device : Device) (indexes : Nat) : Prop :=
  ∃ cursors column range row block positions flat,
    nodes.At cursors (.input slot [rows] .i64 device .dense) ∧
    nodes.At column (.reshape cursors [rows, 1]) ∧
    nodes.At range (.arange (.ofNat 0) (.ofNat tokens) (.ofNat 1) .i64 device) ∧
    nodes.At row (.reshape range [1, tokens]) ∧
    nodes.At block (.broadcastTo row [rows, tokens]) ∧
    nodes.At positions (.add column block) ∧
    nodes.At flat (.reshape positions [rows * tokens, 1]) ∧
    nodes.At indexes (.broadcastTo flat [rows * tokens, width])

/-- The first operation becomes the second one, where operands move along `r`. The stateful
operations read the state of `layer`. -/
inductive Specializes (nodes : Nodes) (r : Nat → Nat) (layer : Nat) :
    NodeKind Nat → NodeKind Nat → Prop
  | attention {kind : NodeKind Nat} (a : Attention) (ha : attentionOf kind = some a) :
    Specializes nodes r layer kind
      (.kvAttention (r a.q) (r a.k) (r a.v) a.scale layer (a.window.resolve o.window)
        o.attention.kvMode a.rounding)
  | kda (q k v logDecay beta : Nat) (scale : F64) :
    Specializes nodes r layer (.kdaChunk q k v logDecay beta scale)
      (.kdaRecurrence (r q) (r k) (r v) (r logDecay) (r beta) scale layer)
  | conv (x weight : Nat) :
    Specializes nodes r layer (.shortConv1d x weight) (.convState (r x) (r weight) layer)
  | rotary (x seqLen : Nat) (theta : F64) (offset : PositionOffset) (layout : RotaryLayout) :
    Specializes nodes r layer (.rotaryEmbedding x seqLen theta offset layout)
      (.rotaryEmbedding (r x) seqLen theta .cursor layout)
  | position (weight tokens width indexes : Nat) (hrows : ¬ 1 < rows)
    (hwidth : (G.node weight).shape[1]? = some width)
    (hindexes : OnePositions slot nodes tokens width (G.node weight).device indexes) :
    Specializes nodes r layer (.positionEmbedding weight tokens) (.gather (r weight) 0 indexes)
  | positions (weight tokens width indexes gathered : Nat) (hrows : 1 < rows)
    (hwidth : (G.node weight).shape[1]? = some width)
    (hindexes : RowPositions rows slot nodes tokens width (G.node weight).device indexes)
    (hgathered : nodes.At gathered (.gather (r weight) 0 indexes)) :
    Specializes nodes r layer (.positionEmbedding weight tokens)
      (.reshape gathered [rows, tokens, width])
  | plain {kind : NodeKind Nat} (hplain : isPlain kind = true) :
    Specializes nodes r layer kind (remapChildren r kind)

end Specializes

variable {G : Graph} {o : Options} {rows slot : Nat} {infer : Inference} {nodes nodes' : Nodes}

variable {tokens width indexes : Nat} {device : Device} {a : Attention} {kind kind' : NodeKind Nat}
  {s s' : State}

theorem OnePositions.mono (h : OnePositions slot nodes tokens width device indexes)
    (hgrows : nodes.Grows nodes') : OnePositions slot nodes' tokens width device indexes := by
  obtain ⟨range, cursor, positions, flat, h₁, h₂, h₃, h₄, h₅⟩ := h
  exact ⟨range, cursor, positions, flat, h₁.mono hgrows, h₂.mono hgrows, h₃.mono hgrows,
    h₄.mono hgrows, h₅.mono hgrows⟩

theorem RowPositions.mono (h : RowPositions rows slot nodes tokens width device indexes)
    (hgrows : nodes.Grows nodes') : RowPositions rows slot nodes' tokens width device indexes := by
  obtain ⟨cursors, column, range, row, block, positions, flat, h₁, h₂, h₃, h₄, h₅, h₆, h₇, h₈⟩ := h
  exact ⟨cursors, column, range, row, block, positions, flat, h₁.mono hgrows, h₂.mono hgrows,
    h₃.mono hgrows, h₄.mono hgrows, h₅.mono hgrows, h₆.mono hgrows, h₇.mono hgrows, h₈.mono hgrows⟩

theorem attentionOf_children (h : attentionOf kind = some a) : nodeChildren kind = [a.q, a.k, a.v] := by
  unfold attentionOf at h
  split at h
  · cases h
    rfl
  · cases h
    rfl
  · cases h

/-- Nodes built later and images given later do not matter. -/
theorem Specializes.mono {r r' : Nat → Nat} {layer : Nat}
    (h : Specializes G o rows slot nodes r layer kind kind') (hgrows : nodes.Grows nodes')
    (hr : ∀ child ∈ nodeChildren kind, r' child = r child) :
    Specializes G o rows slot nodes' r' layer kind kind' := by
  cases h with
  | attention a ha =>
    rw [attentionOf_children ha] at hr
    have hq := hr a.q (by simp)
    have hk := hr a.k (by simp)
    have hv := hr a.v (by simp)
    rw [← hq, ← hk, ← hv]
    exact .attention a ha
  | kda q k v logDecay beta scale =>
    simp only [nodeChildren, forall_mem_cons] at hr
    obtain ⟨hq, hk, hv, hdecay, hbeta, -⟩ := hr
    rw [← hq, ← hk, ← hv, ← hdecay, ← hbeta]
    exact .kda q k v logDecay beta scale
  | conv x weight =>
    simp only [nodeChildren, forall_mem_cons] at hr
    obtain ⟨hx, hweight, -⟩ := hr
    rw [← hx, ← hweight]
    exact .conv x weight
  | rotary x seqLen theta offset layout =>
    rw [← hr x (mem_singleton_self _)]
    exact .rotary x seqLen theta offset layout
  | position weight tokens width indexes hrows hwidth hindexes =>
    rw [← hr weight (mem_singleton_self _)]
    exact .position weight tokens width indexes hrows hwidth (hindexes.mono hgrows)
  | positions weight tokens width indexes gathered hrows hwidth hindexes hgathered =>
    have hat := hgathered.mono hgrows
    rw [← hr weight (mem_singleton_self _)] at hat
    exact .positions weight tokens width indexes gathered hrows hwidth (hindexes.mono hgrows) hat
  | plain hplain =>
    rw [← remapChildren_congr hr]
    exact .plain hplain

/-! ## Turns -/

theorem attention_ok (h : attention G o rows s a = .ok (kind, s')) :
    ∃ kvHeads tokens headDim, (G.node a.k).shape = [rows, kvHeads, tokens, headDim] ∧
      a.layerId.getD (asU32 s.layers) ∉ s.layerIds ∧
      kind = .kvAttention (s.remap a.q) (s.remap a.k) (s.remap a.v) a.scale
        (a.layerId.getD (asU32 s.layers)) (a.window.resolve o.window) o.attention.kvMode a.rounding ∧
      s' = s.attend a (a.window.resolve o.window) ⟨a.layerId.getD (asU32 s.layers), kvHeads, headDim,
        (G.node a.k).dtype, a.retention (a.window.resolve o.window)⟩ := by
  unfold attention at h
  split at h
  · cases h
  · split at h
    · next batch kvHeads tokens headDim hshape =>
      split at h
      · cases h
      · next hbatch =>
        obtain rfl := not_ne_iff.mp hbatch
        dsimp only at h
        split at h
        · cases h
        · split at h
          · cases h
          · next hnew =>
            cases h
            exact ⟨kvHeads, tokens, headDim, hshape, hnew, rfl, rfl⟩
    · cases h

theorem kda_ok {q k v logDecay beta : Nat} {scale : F64}
    (h : kda G rows s q k v logDecay beta scale = .ok (kind, s')) :
    ∃ heads tokens headDim valueDim, (G.node q).shape = [rows, heads, tokens, headDim] ∧
      (G.node v).shape[3]? = some valueDim ∧
      (∀ previous, s.kdaGeometry = some previous →
        ¬ kdaDisagrees (G.node q).device previous (heads, headDim, valueDim, (G.node q).dtype)) ∧
      kind = .kdaRecurrence (s.remap q) (s.remap k) (s.remap v) (s.remap logDecay) (s.remap beta)
        scale (asU32 s.kdaLayers) ∧
      s' = { s with
        kdaGeometry := some (s.kdaGeometry.getD (heads, headDim, valueDim, (G.node q).dtype))
        kdaLayers := s.kdaLayers + 1 } := by
  unfold kda at h
  dsimp only at h
  split at h
  · next batch heads tokens headDim hshape =>
    split at h
    · cases h
    · next hbatch =>
      obtain rfl := not_ne_iff.mp hbatch
      split at h
      · cases h
      · obtain ⟨valueDim, hvalue, h⟩ := bind_ok.mp h
        obtain ⟨u, hagree, h⟩ := bind_ok.mp h
        cases h
        refine ⟨heads, tokens, headDim, valueDim, hshape, expect_ok.mp hvalue, fun previous hp => ?_,
          rfl, rfl⟩
        rw [rejectIf_ok, hp] at hagree
        exact fun hdis => hagree (decide_eq_true hdis)
  · cases h

theorem conv_ok {x weight : Nat} (h : conv G rows s x weight = .ok (kind, s')) :
    ∃ tokens channels kernel, (G.node x).shape = [rows, tokens, channels] ∧
      (G.node weight).shape[1]? = some kernel ∧
      (∀ previous, s.convGeometry = some previous → previous = (channels, kernel)) ∧
      kind = .convState (s.remap x) (s.remap weight) (asU32 s.convLayers) ∧
      s' = { s with
        convGeometry := some (s.convGeometry.getD (channels, kernel))
        convLayers := s.convLayers + 1 } := by
  unfold conv at h
  split at h
  · next batch tokens channels hshape =>
    split at h
    · cases h
    · next hbatch =>
      obtain rfl := not_ne_iff.mp hbatch
      obtain ⟨kernel, hkernel, h⟩ := bind_ok.mp h
      obtain ⟨u, hagree, h⟩ := bind_ok.mp h
      cases h
      refine ⟨tokens, channels, kernel, hshape, expect_ok.mp hkernel, fun previous hp => ?_, rfl, rfl⟩
      rw [rejectIf_ok, hp] at hagree
      exact not_not.mp fun hne => hagree (decide_eq_true hne)
  · cases h

theorem rowPositions_ok (h : rowPositions infer rows slot nodes tokens width device = .ok (indexes, nodes')) :
    nodes.Grows nodes' ∧ RowPositions rows slot nodes' tokens width device indexes := by
  unfold rowPositions at h
  obtain ⟨⟨cursors, nodes₁⟩, h₁, h⟩ := bind_ok.mp h
  obtain ⟨⟨column, nodes₂⟩, h₂, h⟩ := bind_ok.mp h
  obtain ⟨⟨range, nodes₃⟩, h₃, h⟩ := bind_ok.mp h
  obtain ⟨⟨row, nodes₄⟩, h₄, h⟩ := bind_ok.mp h
  obtain ⟨⟨block, nodes₅⟩, h₅, h⟩ := bind_ok.mp h
  obtain ⟨⟨positions, nodes₆⟩, h₆, h⟩ := bind_ok.mp h
  obtain ⟨⟨flat, nodes₇⟩, h₇, h₈⟩ := bind_ok.mp h
  have b₁ := Nodes.new_ok h₁
  have b₂ := Nodes.new_ok h₂
  have b₃ := Nodes.new_ok h₃
  have b₄ := Nodes.new_ok h₄
  have b₅ := Nodes.new_ok h₅
  have b₆ := Nodes.new_ok h₆
  have b₇ := Nodes.new_ok h₇
  have b₈ := Nodes.new_ok h₈
  -- what is built behind each node
  have g₆ := b₇.grows.trans b₈.grows
  have g₅ := b₆.grows.trans g₆
  have g₄ := b₅.grows.trans g₅
  have g₃ := b₄.grows.trans g₄
  have g₂ := b₃.grows.trans g₃
  have g₁ := b₂.grows.trans g₂
  exact ⟨b₁.grows.trans g₁, cursors, column, range, row, block, positions, flat, b₁.at_new.mono g₁,
    b₂.at_new.mono g₂, b₃.at_new.mono g₃, b₄.at_new.mono g₄, b₅.at_new.mono g₅, b₆.at_new.mono g₆,
    b₇.at_new.mono b₈.grows, b₈.at_new⟩

theorem onePositions_ok (h : onePositions infer slot nodes tokens width device = .ok (indexes, nodes')) :
    nodes.Grows nodes' ∧ OnePositions slot nodes' tokens width device indexes := by
  unfold onePositions at h
  obtain ⟨⟨range, nodes₁⟩, h₁, h⟩ := bind_ok.mp h
  obtain ⟨⟨cursor, nodes₂⟩, h₂, h⟩ := bind_ok.mp h
  obtain ⟨⟨positions, nodes₃⟩, h₃, h⟩ := bind_ok.mp h
  obtain ⟨⟨flat, nodes₄⟩, h₄, h₅⟩ := bind_ok.mp h
  have b₁ := Nodes.new_ok h₁
  have b₂ := Nodes.new_ok h₂
  have b₃ := Nodes.new_ok h₃
  have b₄ := Nodes.new_ok h₄
  have b₅ := Nodes.new_ok h₅
  have g₃ := b₄.grows.trans b₅.grows
  have g₂ := b₃.grows.trans g₃
  have g₁ := b₂.grows.trans g₂
  exact ⟨b₁.grows.trans g₁, range, cursor, positions, flat, b₁.at_new.mono g₁, b₂.at_new.mono g₂,
    b₃.at_new.mono g₃, b₄.at_new.mono b₅.grows, b₅.at_new⟩

theorem positionEmbedding_ok {weight : Nat} (layer : Nat)
    (h : positionEmbedding infer G rows slot s weight tokens = .ok (kind, s')) :
    s.nodes.Grows s'.nodes ∧
      s' = { s with nodes := s'.nodes, cursorTensor := s.cursorTensor || decide (1 < rows) } ∧
      Specializes G o rows slot s'.nodes s.remap layer (.positionEmbedding weight tokens) kind := by
  unfold positionEmbedding at h
  obtain ⟨width, hwidth, h⟩ := bind_ok.mp h
  have hwidth := expect_ok.mp hwidth
  dsimp only at h
  split at h
  · next hrows =>
    obtain ⟨⟨indexes, nodes₁⟩, h₁, h⟩ := bind_ok.mp h
    obtain ⟨⟨gathered, nodes₂⟩, h₂, h⟩ := bind_ok.mp h
    obtain ⟨hgrows, hindexes⟩ := rowPositions_ok h₁
    have hbuilt := Nodes.new_ok h₂
    cases h
    refine ⟨hgrows.trans hbuilt.grows, ?_, .positions weight tokens width indexes gathered hrows hwidth
      (hindexes.mono hbuilt.grows) hbuilt.at_new⟩
    rw [decide_eq_true hrows, Bool.or_true]
  · next hrows =>
    obtain ⟨⟨indexes, nodes₁⟩, h₁, h⟩ := bind_ok.mp h
    obtain ⟨hgrows, hindexes⟩ := onePositions_ok h₁
    cases h
    refine ⟨hgrows, ?_, .position weight tokens width indexes hrows hwidth hindexes⟩
    rw [decide_eq_false hrows, Bool.or_false]

/-- The bookkeeping for an operation whose copy reads the state of `layer`. -/
inductive Booked (G : Graph) (o : Options) (rows : Nat) (s s' : State) (layer : Nat)
    (kind : NodeKind Nat) : Prop
  | attention (a : Attention) (kvHeads tokens headDim : Nat) (ha : attentionOf kind = some a)
    (hshape : (G.node a.k).shape = [rows, kvHeads, tokens, headDim])
    (hnew : layer ∉ s.layerIds)
    (hs : s' = s.attend a (a.window.resolve o.window) ⟨layer, kvHeads, headDim, (G.node a.k).dtype,
      a.retention (a.window.resolve o.window)⟩)
  | kda (q k v logDecay beta : Nat) (scale : F64) (heads tokens headDim valueDim : Nat)
    (hkind : kind = .kdaChunk q k v logDecay beta scale)
    (hshape : (G.node q).shape = [rows, heads, tokens, headDim])
    (hvalue : (G.node v).shape[3]? = some valueDim)
    (hagree : ∀ previous, s.kdaGeometry = some previous →
      ¬ kdaDisagrees (G.node q).device previous (heads, headDim, valueDim, (G.node q).dtype))
    (hlayer : layer = asU32 s.kdaLayers)
    (hs : s' = { s with
      kdaGeometry := some (s.kdaGeometry.getD (heads, headDim, valueDim, (G.node q).dtype))
      kdaLayers := s.kdaLayers + 1 })
  | conv (x weight tokens channels kernel : Nat) (hkind : kind = .shortConv1d x weight)
    (hshape : (G.node x).shape = [rows, tokens, channels])
    (hkernel : (G.node weight).shape[1]? = some kernel)
    (hagree : ∀ previous, s.convGeometry = some previous → previous = (channels, kernel))
    (hlayer : layer = asU32 s.convLayers)
    (hs : s' = { s with
      convGeometry := some (s.convGeometry.getD (channels, kernel))
      convLayers := s.convLayers + 1 })
  | other (hattention : attentionOf kind = none) (hkda : isKda kind = false)
    (hconv : isConv kind = false)
    (hs : s' = { s with
      nodes := s'.nodes
      cursorTensor := s.cursorTensor || (isPosition kind && decide (1 < rows)) })

theorem attention_booked (ha : attentionOf kind = some a) (h : attention G o rows s a = .ok (kind', s')) :
    ∃ layer, Specializes G o rows slot s'.nodes s.remap layer kind kind' ∧
      s.nodes.Grows s'.nodes ∧ Booked G o rows s s' layer kind := by
  obtain ⟨kvHeads, tokens, headDim, hshape, hnew, rfl, rfl⟩ := attention_ok h
  exact ⟨_, .attention a ha, .refl _, .attention a kvHeads tokens headDim ha hshape hnew rfl⟩

/-- What a turn makes of the operation of a node. -/
theorem specializeKind_ok (h : specializeKind infer G o rows slot s kind = .ok (kind', s')) :
    ∃ layer, Specializes G o rows slot s'.nodes s.remap layer kind kind' ∧
      s.nodes.Grows s'.nodes ∧ Booked G o rows s s' layer kind := by
  cases kind with
  | sdpa q k v scale causal window => exact attention_booked rfl h
  | sdpaConfigured q k v scale causal window rounding layerId retention =>
    exact attention_booked rfl h
  | kdaChunk q k v logDecay beta scale =>
    obtain ⟨heads, tokens, headDim, valueDim, hshape, hvalue, hagree, rfl, rfl⟩ := kda_ok h
    exact ⟨_, .kda q k v logDecay beta scale, .refl _,
      .kda q k v logDecay beta scale heads tokens headDim valueDim rfl hshape hvalue hagree rfl rfl⟩
  | shortConv1d x weight =>
    obtain ⟨tokens, channels, kernel, hshape, hkernel, hagree, rfl, rfl⟩ := conv_ok h
    exact ⟨_, .conv x weight, .refl _,
      .conv x weight tokens channels kernel rfl hshape hkernel hagree rfl rfl⟩
  | rotaryEmbedding x seqLen theta offset layout =>
    cases h
    refine ⟨0, .rotary x seqLen theta offset layout, .refl _, .other rfl rfl rfl ?_⟩
    rw [show isPosition _ = false from rfl, Bool.false_and, Bool.or_false]
  | positionEmbedding weight tokens =>
    obtain ⟨hgrows, hs, hspec⟩ := positionEmbedding_ok (o := o) 0 h
    refine ⟨0, hspec, hgrows, .other rfl rfl rfl ?_⟩
    rw [show isPosition _ = true from rfl, Bool.true_and]
    exact hs
  | _ =>
    cases h
    refine ⟨0, .plain rfl, .refl _, .other rfl rfl rfl ?_⟩
    rw [show isPosition _ = false from rfl, Bool.false_and, Bool.or_false]

end Decode

end EffectTorch
