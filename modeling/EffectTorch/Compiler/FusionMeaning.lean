import EffectTorch.Compiler.FusionSelect
import EffectTorch.Lib.Chunks

/-!
# Fused regions mean what their nodes mean

Results:
1. `Limited.absorb`: the expression of a chain keeps its meaning in the lanes of another.
2. `Selecting.elementwiseTurn`: a turn of selection keeps the open chains and the selected regions exact.
3. `selectElementwise_computes`: a selected region has, over its strided lanes, the elements of its node.
-/

namespace EffectTorch
open List Lib

/-! ## Broadcasting -/

section Broadcasting

variable {a b shape c : List Nat}

theorem repeats_trans (h : Repeats a b) (h' : Repeats b shape) : Repeats a shape := by
  induction h generalizing shape with
  | nil => exact h'
  | cons hd _ ih =>
    cases h' with
    | cons hd' hrest =>
      refine .cons ?_ (ih hrest)
      rcases hd with rfl | hone
      · exact hd'
      · exact .inr hone

theorem squash_squash (h : Repeats a b) (c : List Nat) : squash a (squash b c) = squash a c := by
  induction h generalizing c with
  | nil => rfl
  | cons hd _ ih =>
    cases c with
    | nil => rfl
    | cons x c =>
      refine congrArg₂ List.cons ?_ (ih c)
      dsimp only
      grind

theorem Broadcasts.refl (shape : List Nat) : Broadcasts shape shape := by
  refine ⟨le_rfl, ?_⟩
  rw [Nat.sub_self, drop_zero]
  exact forall₂_same.mpr fun _ _ => .inl rfl

theorem Broadcasts.trans (h : Broadcasts a b) (h' : Broadcasts b shape) : Broadcasts a shape := by
  refine ⟨h.1.trans h'.1, repeats_trans h.2 ?_⟩
  have hdrop := forall₂_drop (b.length - a.length) h'.2
  rwa [drop_drop, Nat.sub_add_sub_cancel h'.1 h.1] at hdrop

theorem broadcastSource_trans (h : Broadcasts a b) (h' : Broadcasts b shape) (hc : Coordinate shape c) :
    broadcastSource a (broadcastSource b c) = broadcastSource a c := by
  have hlength := (coordinate_broadcastSource h' hc).length_eq
  unfold broadcastSource at *
  rw [hlength, squash, squash, drop_zipWith, drop_drop, hc.length_eq, Nat.sub_add_sub_cancel h'.1 h.1]
  exact squash_squash h.2 _

end Broadcasting

/-! ## Meaning -/

variable {Plan : Type} (X : SelectionContext Plan)

/-- An operation of the two operands of a node, converted as it demands. Lanes are nodes. -/
abbrev joined (d : DenseNodeId) (f : KernelExpr → KernelExpr → KernelExpr) : KernelExpr :=
  f (semanticOperand X (.input (X.operand d 0)) d 0) (semanticOperand X (.input (X.operand d 1)) d 1)

/-- The expression of a node alone. Lanes are nodes. -/
def nodeExpression (d : DenseNodeId) : Option KernelExpr :=
  let operand := fun i => KernelExpr.input (X.operand d i)
  match (X.node d).kind with
  | .full _ value .. => some (typedConstant X value d)
  | .zeros .. => some (typedConstant X ⟨0⟩ d)
  | .cast _ dtype => some (.cast (operand 0) dtype)
  | .where .. => some (.select (operand 0) (operand 1) (operand 2))
  | kind => match kind.binary?, kind.comparison? with
    | some (operation, _), _ => some (joined X d (operation.apply · ·))
    | none, some (comparison, _) => some (joined X d (comparison.apply · ·))
    | none, none => kind.unary?.map fun operation => operation.apply (operand 0)

/-- The first operands of a node broadcast to it. -/
abbrev Fits (d : DenseNodeId) (n : Nat) : Prop := ∀ i < n, Broadcasts (X.node (X.operand d i)).shape (X.node d).shape

/-- The children are those of the graph, and the operands of elementwise nodes broadcast to them. -/
structure Shaped : Prop where
  /-- `Indexed.children`. -/
  children : ∀ (d : DenseNodeId) id, X.index.order[d]? = some id → ∃ children, X.index.children[d]? = some children ∧
    Forall₂ (fun child dense => X.index.order[dense]? = some child) (X.graph.children id) children
  broadcasts : ∀ d e, nodeExpression X d = some e → ∀ p ∈ X.childrenOf d, Broadcasts (X.node p).shape (X.node d).shape

/-- `val` is the elements at one coordinate of `shape` of the nodes that broadcast to it. -/
def Consistent {T : Type} [Scalar T] (shape : List Nat) (val scalar : Nat → T) : Prop :=
  ∀ d e, nodeExpression X d = some e → Broadcasts (X.node d).shape shape → val d = e.value val scalar

/-- With the elements of the inputs in its lanes, `e` has the value of `e'`, whose lanes are nodes, wherever `p` has
elements. -/
structure Represents (inputs : List DenseNodeId) (e e' : KernelExpr) (p : DenseNodeId) : Prop where
  lanes : ∀ k ∈ e.lanes, k < inputs.length
  value : ∀ (T : Type) [Scalar T] (shape : List Nat) (val scalar : Nat → T), Consistent X shape val scalar →
    Broadcasts (X.node p).shape shape → ∀ lane : Nat → T, (∀ (k : Nat) q, inputs[k]? = some q → lane k = val q) →
      e.value lane scalar = e'.value val scalar

/-- `e` has the elements of `p`. -/
abbrev Yields (inputs : List DenseNodeId) (e : KernelExpr) (p : DenseNodeId) : Prop :=
  Represents X inputs e (.input p) p

/-! ## Expressions -/

section Expressions

variable {X} {inputs inputs' : List DenseNodeId} {l r l' r' e e' : KernelExpr}
  {c d p : DenseNodeId}
open KernelExpr

theorem getElem?_mono {k : Nat} (h : inputs <+: inputs') (hk : inputs[k]? = some p) : inputs'[k]? = some p := by
  obtain ⟨more, rfl⟩ := h
  rw [List.getElem?_append_left (List.getElem?_eq_some_iff.mp hk).1, hk]

theorem Represents.mono (h : Represents X inputs e e' p) (hle : inputs <+: inputs') : Represents X inputs' e e' p :=
  ⟨fun k hk => (h.lanes k hk).trans_le hle.length_le, fun T _ shape val scalar hval hp lane hlane =>
    h.value T shape val scalar hval hp lane fun k q hk => hlane k q (getElem?_mono hle hk)⟩

theorem Represents.broadcast (h : Represents X inputs e e' c) (hc : Broadcasts (X.node c).shape (X.node d).shape) :
    Represents X inputs e e' d :=
  ⟨h.lanes, fun T _ shape val scalar hval hd => h.value T shape val scalar hval (hc.trans hd)⟩

/-- What represents the operation of a node has its elements. -/
theorem Represents.node (h : Represents X inputs e e' d) (hmeaning : nodeExpression X d = some e') :
    Yields X inputs e d :=
  ⟨h.lanes, fun T _ shape val scalar hval hd lane hlane =>
    (h.value T shape val scalar hval hd lane hlane).trans (hval d e' hmeaning hd).symm⟩

/-- The same operation on operands that represent the others. -/
theorem Represents.congr (h : Forall₂ (Represents X inputs · · p) e.children e'.children)
    (hne : e'.children ≠ [] := by exact cons_ne_nil _ _) (hop : e.op = e'.op := by rfl) :
    Represents X inputs e e' p := by
  refine ⟨fun k hk => ?_, fun T _ shape val scalar hval hp lane hlane => ?_⟩
  · have hne' : e.children ≠ [] := fun hnil => hne (forall₂_nil_left_iff.mp (hnil ▸ h))
    rw [lanes_node hne', mem_flatMap] at hk
    obtain ⟨child, hchild, hk⟩ := hk
    exact ((forall₂_and_left _ _).mp (h.imp fun a b hab => ⟨hab.lanes, hab⟩)).1 child hchild k hk
  · obtain ⟨e'', hrebuild, hop', hchildren⟩ := e'.rebuild_ok h.length_eq
    obtain rfl := eq_of_children (hop'.trans hop.symm) hchildren
    refine rebuild_value hrebuild hne ?_
    rw [← forall₂_eq_eq_eq, forall₂_map_left_iff, forall₂_map_right_iff]
    exact h.imp fun a b hab => hab.value T shape val scalar hval hp lane hlane

theorem represents_const (bits : UInt64) : Represents X inputs (.const bits) (.const bits) p := by
  refine ⟨?_, fun _ _ _ _ _ _ _ _ _ => rfl⟩
  rw [lanes, postorder_eq]
  exact fun k hk => absurd hk not_mem_nil

theorem Represents.unary (operation : UnaryOperation) (h : Represents X inputs l l' p) :
    Represents X inputs (operation.apply l) (operation.apply l') p := by
  have hconst : ∀ bits, Represents X inputs (.const bits) (.const bits) p := represents_const
  cases operation with
  | relu => exact .congr (.cons h (.cons (hconst _) .nil))
  | gelu approximate => cases approximate <;> exact .congr (.cons h .nil)
  | sign =>
    have hgt : Represents X inputs (.gt l .zero) (.gt l' .zero) p :=
      .congr (.cons h (.cons (hconst _) .nil))
    have hlt : Represents X inputs (.lt l .zero) (.lt l' .zero) p :=
      .congr (.cons h (.cons (hconst _) .nil))
    refine .congr (.cons hgt (.cons (hconst _) (.cons ?_ .nil)))
    exact .congr (.cons hlt (.cons (hconst _) (.cons (hconst _) .nil)))
  | pow exponent =>
    have hsquare : Represents X inputs (.mul l l) (.mul l' l') p := .congr (.cons h (.cons h .nil))
    have hsqrt : Represents X inputs (.sqrt l) (.sqrt l') p := .congr (.cons h .nil)
    simp only [UnaryOperation.apply, powExpr]
    split_ifs
    · exact hconst _
    · exact h
    · exact .congr (.cons (hconst _) (.cons h .nil))
    · exact hsquare
    · exact .congr (.cons hsquare (.cons h .nil))
    · exact hsqrt
    · exact .congr (.cons (hconst _) (.cons hsqrt .nil))
    · exact .congr (.cons h .nil)
  | _ => exact .congr (.cons h .nil)

theorem Represents.binary (operation : BinaryOperation) (hl : Represents X inputs l l' p)
    (hr : Represents X inputs r r' p) : Represents X inputs (operation.apply l r) (operation.apply l' r') p := by
  cases operation <;> exact .congr (.cons hl (.cons hr .nil))

theorem Represents.comparison (operation : ComparisonOperation) (hl : Represents X inputs l l' p)
    (hr : Represents X inputs r r' p) : Represents X inputs (operation.apply l r) (operation.apply l' r') p := by
  cases operation <;> exact .congr (.cons hl (.cons hr .nil))

theorem Represents.select (he : Represents X inputs e e' p) (hl : Represents X inputs l l' p)
    (hr : Represents X inputs r r' p) : Represents X inputs (.select e l r) (.select e' l' r') p :=
  .congr (.cons he (.cons hl (.cons hr .nil)))

theorem Represents.semantic (h : Represents X inputs e e' p) (d : DenseNodeId) (dtype : DType) :
    Represents X inputs (.semantic e d dtype) e' p := by
  refine ⟨fun k hk => h.lanes k ?_, h.value⟩
  rwa [lanes_node (e := .semantic e d dtype) (cons_ne_nil _ _), KernelExpr.children, flatMap_singleton] at hk

theorem Represents.semanticOperand (h : Represents X inputs e e' p) (d : DenseNodeId) (i : Nat) :
    Represents X inputs (semanticOperand X e d i) (semanticOperand X e' d i) p := by
  unfold EffectTorch.semanticOperand
  split
  · exact .congr (.cons h .nil)
  · exact h

theorem yields_lane {k : Nat} (hk : inputs[k]? = some p) : Yields X inputs (.input k) p := by
  refine ⟨fun j hj => ?_, fun T _ shape val scalar _ _ lane hlane => hlane k p hk⟩
  rw [lanes_input, mem_singleton] at hj
  exact hj ▸ (List.getElem?_eq_some_iff.mp hk).1

theorem yields_constant {shape : List Nat} {value : F64} (h : constValue X c shape = some value) :
    Yields X inputs (typedConstant X value c) c := by
  have hmeaning : nodeExpression X c = some (typedConstant X value c) := by
    unfold constValue at h
    unfold nodeExpression
    split at h
    · next hkind => rw [hkind]; simp_all
    · next hkind => rw [hkind]; simp_all
    · cases h
  have hself : Represents X inputs (typedConstant X value c) (typedConstant X value c) c :=
    .congr (.cons (represents_const _) .nil)
  exact hself.node hmeaning

end Expressions

/-! ## Lanes -/

namespace OpenRegion

variable {inputs : List DenseNodeId} {p : DenseNodeId}

theorem getElem?_of_idxOf? {k : Nat} (h : inputs.idxOf? p = some k) : inputs[k]? = some p := by
  obtain ⟨hlt, hget, -⟩ := idxOf?_eq_some_iff.mp h
  exact List.getElem?_eq_some_iff.mpr ⟨hlt, hget⟩

theorem nodup_append (h : inputs.Nodup) (hp : inputs.idxOf? p = none) : (inputs ++ [p]).Nodup :=
  nodup_append_comm.mp (h.cons (idxOf?_eq_none_iff.mp hp))

/-- What the lanes of the entries are after the loop of `absorb`. -/
structure Interned (inputs : List DenseNodeId) (entries : List (DenseNodeId × Nat))
    (found : List DenseNodeId × (Nat → Option Nat)) : Prop where
  nodup : found.1.Nodup
  grows : inputs <+: found.1
  length : found.1.length ≤ inputs.length + entries.length
  lane : ∀ k m, found.2 k = some m → ∃ p, (p, k) ∈ entries ∧ found.1[m]? = some p
  total : ∀ entry ∈ entries, (found.2 entry.2).isSome

theorem intern (h : inputs.Nodup) (entries : List (DenseNodeId × Nat)) :
    Interned inputs entries (entries.foldl internLane (inputs, fun _ => none)) := by
  induction entries using List.reverseRecOn with
  | nil => exact ⟨h, prefix_rfl, le_rfl, by rintro _ _ ⟨⟩, forall_mem_nil _⟩
  | append_singleton entries entry ih =>
    rw [foldl_concat]
    generalize entries.foldl internLane (inputs, fun _ => none) = found at ih ⊢
    obtain ⟨merged, remap⟩ := found
    obtain ⟨hnodup, hgrows, hlength, hlane, htotal⟩ := ih
    rw [internLane]
    have hget : ∀ {k m : Nat} {p}, merged[k]? = some p → (merged ++ [entry.1])[k]? = some p :=
      getElem?_mono (prefix_append _ _)
    split
    · next lane hfound =>
      have hlast := getElem?_of_idxOf? hfound
      exact ⟨hnodup, hgrows, by grind, by grind [Function.update_apply], by grind [Function.update_apply]⟩
    · next hnone =>
      have hlast := List.getElem?_concat_length (l := merged) (a := entry.1)
      exact ⟨nodup_append hnodup hnone, hgrows.trans (prefix_append _ _), by grind, by grind [Function.update_apply],
        by grind [Function.update_apply]⟩

end OpenRegion

section Operands

/-- Distinct inputs within the limit. -/
structure Limited (inputs : List DenseNodeId) : Prop where
  nodup : inputs.Nodup
  few : inputs.length ≤ maxLanes

/-- A region with one more operand `c`, and its expression. -/
structure Operand (r : OpenRegion) (step : KernelExpr × OpenRegion) (c : DenseNodeId) : Prop where
  limited : Limited step.2.inputs
  yields : Yields X step.2.inputs step.1 c
  grows : r.inputs <+: step.2.inputs

structure Chain (endpoint : DenseNodeId) (r : OpenRegion) : Prop where
  limited : Limited r.inputs
  yields : Yields X r.inputs r.expression endpoint

variable {X} {r other : OpenRegion} {c : DenseNodeId}

theorem limited_empty : Limited OpenRegion.empty.inputs := ⟨nodup_nil, Nat.zero_le _⟩

theorem Limited.lane (h : Limited r.inputs) (hroom : (r.laneOf c).isSome ∨ r.inputs.length < maxLanes) :
    Operand X r (r.lane c) c := by
  unfold OpenRegion.lane
  split
  · next k hk => exact ⟨h, yields_lane (OpenRegion.getElem?_of_idxOf? hk), prefix_rfl⟩
  · next hnone =>
    rw [hnone] at hroom
    exact ⟨⟨OpenRegion.nodup_append h.nodup hnone, length_append.trans_le (hroom.resolve_left Bool.false_ne_true)⟩,
      yields_lane List.getElem?_concat_length, prefix_append _ _⟩

theorem Limited.operand (h : Limited r.inputs) (shape : List Nat)
    (hroom : (constValue X c shape).isSome ∨ (r.laneOf c).isSome ∨ r.inputs.length < maxLanes) :
    Operand X r (elementOperand X r c shape) c := by
  unfold elementOperand
  split
  · next value hvalue => exact ⟨h, yields_constant hvalue, prefix_rfl⟩
  · next hnone => exact h.lane (hroom.resolve_left (by rw [hnone]; exact Bool.false_ne_true))

/-- The expression of a chain keeps its meaning in the lanes of another, and none of its lanes is lost. -/
theorem Limited.absorb (h : Limited r.inputs) (hother : Chain X c other)
    (hfit : r.inputs.length + other.inputs.length ≤ maxLanes) :
    ∃ step, r.absorb other = .ok step ∧ Operand X r step c := by
  obtain ⟨hnodup, hgrows, hlength, hlane, htotal⟩ := OpenRegion.intern h.nodup other.inputs.zipIdx
  rw [length_zipIdx] at hlength
  unfold OpenRegion.absorb
  generalize other.inputs.zipIdx.foldl OpenRegion.internLane (r.inputs, fun _ => none) = found at *
  obtain ⟨inputs, remap⟩ := found
  obtain ⟨hok, hvalue⟩ := other.expression.transform_substitution (KernelExpr.remapLane remap)
  obtain ⟨e, he⟩ : ∃ e, other.expression.remapLanes remap = .ok e := hok.mpr fun k hk => by
    have hget := List.getElem?_eq_getElem (hother.yields.lanes k hk)
    obtain ⟨m, hm⟩ := Option.isSome_iff_exists.mp (htotal (_, k) (mem_zipIdx_iff_getElem?.mpr hget))
    exact ⟨_, KernelExpr.remapLane_ok.mpr ⟨m, hm, rfl⟩⟩
  obtain ⟨hlanes, hvalue⟩ := hvalue e he
  have hsame : ∀ k m, remap k = some m → ∃ p, other.inputs[k]? = some p ∧ inputs[m]? = some p := by
    intro k m hm
    obtain ⟨p, hp, hget⟩ := hlane k m hm
    exact ⟨p, mem_zipIdx_iff_getElem?.mp hp, hget⟩
  refine ⟨_, by dsimp only; rw [he]; rfl, ⟨hnodup, hlength.trans hfit⟩, ⟨fun m hm => ?_, ?_⟩, hgrows⟩
  · rw [hlanes, mem_flatMap] at hm
    obtain ⟨k, -, hm⟩ := hm
    cases hr : KernelExpr.remapLane remap k with
    | error _ => rw [hr] at hm; cases hm
    | ok r' =>
      obtain ⟨m', hm', rfl⟩ := KernelExpr.remapLane_ok.mp hr
      obtain ⟨p, -, hget⟩ := hsame k m' hm'
      rw [hr] at hm
      exact (yields_lane (X := X) hget).lanes m hm
  · intro T _ shape val scalar hval hc lane hread
    -- the lanes of the other chain are read through the map
    refine (hvalue T lane (fun k => lane ((remap k).getD 0)) scalar fun k _ r' hr => ?_).trans
      (hother.yields.value T shape val scalar hval hc _ fun k q hk => ?_)
    · obtain ⟨m, hm, rfl⟩ := KernelExpr.remapLane_ok.mp hr
      rw [hm, Option.getD_some, KernelExpr.value]
    · obtain ⟨m, hm⟩ : ∃ m, remap k = some m :=
        Option.isSome_iff_exists.mp (htotal (q, k) (mem_zipIdx_iff_getElem?.mpr hk))
      obtain ⟨p, hp, hget⟩ := hsame k m hm
      rw [hm, Option.getD_some, hread m p hget, Option.some_inj.mp (hp.symm.trans hk)]

end Operands

/-! ## Selection -/

section Selection

/-- The node whose elements the expression of a region has: a reduction folds those of its operand. -/
def FusedKind.source (endpoint : DenseNodeId) : FusedKind → DenseNodeId
  | elementwise => endpoint
  | _ => X.operand endpoint 0

/-- The shape that the lanes are read over. -/
def FusedKind.domain (shape : List Nat) : FusedKind → List Nat
  | elementwise => shape
  | reduce _ _ _ inputShape => inputShape
  | argReduce _ _ inputShape => inputShape

/-- A reduction is the one of its node. -/
def FusedKind.Of (endpoint : DenseNodeId) (shape : List Nat) : FusedKind → Prop
  | elementwise => True
  | reduce op dims keepdims inputShape => ∃ reserved axes, elementOperation X reserved endpoint =
      some (.reduce op axes keepdims) ∧ dims = normalizeNodes axes ∧ shape = reducedShape inputShape dims keepdims
  | argReduce maximum dim _ => ∃ reserved, elementOperation X reserved endpoint = some (.argReduce maximum dim)

/-- The region computes its source, and its lanes are read as the inputs broadcast. -/
structure ExactRegion (kind : FusedKind) (region : FusedRegion) (output : ElementwiseOutput) : Prop where
  limited : Limited region.inputs
  node : kind.Of X output.semanticNode region.shape
  yields : Yields X region.inputs output.expression (kind.source X output.semanticNode)
  domain : kind.domain region.shape = (X.node (kind.source X output.semanticNode)).shape
  strides : X.stridesOver region.inputs (kind.domain region.shape) = some region.laneStrides

structure Selecting (s : RegionSelector Plan) : Prop where
  opened : ∀ o ∈ s.opened, Chain X o.1 o.2
  drafts : ∀ draft ∈ s.drafts, ∀ kind region output, draft.region = .fused kind region output →
    ExactRegion X kind region output

variable {X} {s : RegionSelector Plan} {r : OpenRegion} {c d : DenseNodeId} {e : KernelExpr} {kind : FusedKind}
  {region : FusedRegion} {output : ElementwiseOutput}

theorem Selecting.chain (h : Selecting X s) (hr : s.opened.lookup c = some r) : Chain X c r := by
  obtain ⟨l₁, l₂, heq, -⟩ := lookup_eq_some_iff.mp hr
  exact h.opened (c, r) (heq ▸ mem_append_right _ mem_cons_self)

theorem Selecting.take (h : Selecting X s) (c : DenseNodeId) : Selecting X (s.take c) :=
  ⟨fun o ho => h.opened o (mem_of_mem_filter ho), h.drafts⟩

theorem Selecting.add (h : Selecting X s) (hexact : ExactRegion X kind region output) :
    Selecting X (s.addRegion X (.fused kind region output)).2 := by
  unfold RegionSelector.addRegion RegionSelector.classifyRegion
  cases X.classify (.fused kind region output) with
  | error fault => exact ⟨h.opened, h.drafts⟩
  | ok plan =>
    cases plan with
    | none => exact h
    | some plan =>
      refine ⟨h.opened, fun draft hdraft => ?_⟩
      rcases mem_append.mp hdraft with hdraft | hdraft
      · exact h.drafts draft hdraft
      · rintro kind' region' output' heq
        rw [mem_singleton.mp hdraft] at heq
        cases heq
        exact hexact

theorem Selecting.emit (h : Selecting X s) (hc : Chain X c r) : Selecting X (s.emitElementwise X c r) := by
  unfold RegionSelector.emitElementwise
  dsimp only
  split
  · next strides hstrides =>
    split_ifs
    · exact h.add ⟨hc.limited, trivial, hc.yields, rfl, hstrides⟩
    · exact h
  · exact h

theorem Selecting.closeChild (h : Selecting X s) (operation : Option ElementOperation) (c : DenseNodeId) :
    Selecting X (s.closeChild X operation c) := by
  unfold RegionSelector.closeChild
  split
  · next r hr =>
    split_ifs
    · exact (h.take c).emit (h.chain hr)
    · exact h
  · exact h

theorem Selecting.put (h : Selecting X s) (hr : Limited r.inputs) (he : Yields X r.inputs e d)
    (nodes : List DenseNodeId) : Selecting X (s.put X d r e nodes) := by
  refine ⟨fun o ho => ?_, h.drafts⟩
  rcases mem_append.mp ho with ho | ho
  · exact h.opened o ho
  · rw [mem_singleton.mp ho]
    exact ⟨hr, he.semantic d _⟩

theorem Selecting.fuseReduction (h : Selecting X s) (kind : FusedKind) (guardsOk emitRejected : Bool) (shape : List Nat)
    (hnode : kind.Of X d shape) (hsource : kind.source X d = X.operand d 0)
    (hdomain : kind.domain shape = (X.node (X.operand d 0)).shape) :
    Selecting X (s.fuseReduction X d guardsOk kind shape emitRejected) := by
  unfold RegionSelector.fuseReduction
  dsimp only
  split
  · exact h
  · next r hr =>
    have hs := h.take (X.operand d 0)
    have hc := h.chain hr
    split
    · next strides hstrides =>
      have hexact : ExactRegion X kind ⟨normalizeNodes (r.nodes ++ [d]), r.inputs, strides, shape, (X.node d).dtype,
          (X.node d).device⟩ ⟨d, r.expression⟩ :=
        ⟨hc.limited, hnode, hsource ▸ hc.yields, hsource ▸ hdomain, hdomain ▸ hstrides⟩
      split_ifs
      · exact (hs.add hexact).emit hc
      · exact hs.add hexact
      · exact hs.emit hc
    · exact hs.emit hc

theorem Selecting.growUnary {operation : UnaryOperation} (h : Selecting X s)
    (hmeaning : nodeExpression X d = some (operation.apply (.input (X.operand d 0))))
    (hshape : Broadcasts (X.node (X.operand d 0)).shape (X.node d).shape) :
    Selecting X (s.growUnary X d operation) := by
  unfold RegionSelector.growUnary
  dsimp only
  split
  · next r hr =>
    have hc := h.chain hr
    exact (h.take _).put hc.limited (((hc.yields.broadcast hshape).unary operation).node hmeaning) [d]
  · have hoperand := limited_empty.operand (X := X) (c := X.operand d 0) (X.node d).shape
      (.inr (.inr (Nat.zero_lt_succ 29)))
    exact h.put hoperand.limited (((hoperand.yields.broadcast hshape).unary operation).node hmeaning) [d]

/-! ## Operands together -/

theorem spill_none (s : RegionSelector Plan) (other : Option OpenRegion) (operand : DenseNodeId) (shape : List Nat) :
    s.spill X c none other operand shape = (none, s) := rfl

theorem spill_other (s : RegionSelector Plan) (region : Option OpenRegion) (o : OpenRegion) (operand : DenseNodeId)
    (shape : List Nat) : s.spill X c region (some o) operand shape = (region, s) := by
  cases region <;> rfl

/-- A chain alone is emitted when the other operand would be one lane too many. -/
theorem spill_cases (s : RegionSelector Plan) (r : OpenRegion) (operand : DenseNodeId) (shape : List Nat) :
    s.spill X c (some r) none operand shape = (none, s.emitElementwise X c r) ∨
      s.spill X c (some r) none operand shape = (some r, s) ∧
        ((constValue X operand shape).isSome ∨ (r.laneOf operand).isSome ∨ r.inputs.length < maxLanes) := by
  unfold RegionSelector.spill
  dsimp only
  split_ifs with hfull
  · exact .inl rfl
  · refine .inr ⟨rfl, ?_⟩
    simpa [Option.isSome_iff_ne_none, Decidable.imp_iff_not_or, or_assoc] using hfull

theorem elementOperand_length (r : OpenRegion) (c : DenseNodeId) (shape : List Nat) :
    (elementOperand X r c shape).2.inputs.length ≤ r.inputs.length + 1 := by
  unfold elementOperand OpenRegion.lane
  split
  · exact Nat.le_succ _
  · split
    · exact Nat.le_succ _
    · exact length_append.le

theorem Selecting.joinOperands {operation : BinaryOperation} {left right : Option OpenRegion} (h : Selecting X s)
    (hleft : ∀ l, left = some l → Chain X (X.operand d 0) l)
    (hright : ∀ r, right = some r → Chain X (X.operand d 1) r)
    (hfit : ∀ l r, left = some l → right = some r → l.inputs.length + r.inputs.length ≤ maxLanes)
    (hmeaning : nodeExpression X d = some (joined X d (operation.apply · ·))) (hshape : Fits X d 2) :
    ∃ s', s.joinOperands X d operation left right = .ok s' ∧ Selecting X s' := by
  have hput : ∀ {s : RegionSelector Plan} {region : OpenRegion} {l r}, Selecting X s → Limited region.inputs →
      Yields X region.inputs l (X.operand d 0) → Yields X region.inputs r (X.operand d 1) →
      Selecting X (s.put X d region (operation.apply (semanticOperand X l d 0) (semanticOperand X r d 1)) [d]) :=
    fun hs hregion hl hr => hs.put hregion (.node (.binary operation
      ((hl.broadcast (hshape 0 Nat.two_pos)).semanticOperand d 0)
      ((hr.broadcast (hshape 1 Nat.one_lt_two)).semanticOperand d 1)) hmeaning) [d]
  unfold RegionSelector.joinOperands
  generalize X.operand d 0 = a at *
  generalize X.operand d 1 = b at *
  generalize (X.node d).shape = shape at *
  have hnone : ∀ {s}, Selecting X s → Selecting X (s.put X d
      (elementOperand X (elementOperand X .empty a shape).2 b shape).2
      (operation.apply (semanticOperand X (elementOperand X .empty a shape).1 d 0)
        (semanticOperand X (elementOperand X (elementOperand X .empty a shape).2 b shape).1 d 1)) [d]) := fun hs => by
    have hfirst := limited_empty.operand (X := X) (c := a) shape (.inr (.inr (Nat.zero_lt_succ 29)))
    have hsecond := hfirst.limited.operand (X := X) (c := b) shape
      (.inr (.inr ((elementOperand_length _ a shape).trans_lt (by decide))))
    exact hput hs hsecond.limited (hfirst.yields.mono hsecond.grows) hsecond.yields
  cases left with
  | none =>
    cases right with
    | none => exact ⟨_, rfl, hnone h⟩
    | some r =>
      have hr := hright r rfl
      rcases spill_cases (X := X) (c := b) s r a shape with hspill | ⟨hspill, hroom⟩
      · exact ⟨_, by simp only [spill_none, hspill]; rfl, hnone (h.emit hr)⟩
      · have hother := hr.limited.operand _ hroom
        exact ⟨_, by simp only [spill_none, hspill]; rfl,
          hput h hother.limited hother.yields (hr.yields.mono hother.grows)⟩
  | some l =>
    have hl := hleft l rfl
    cases right with
    | none =>
      rcases spill_cases (X := X) (c := a) s l b shape with hspill | ⟨hspill, hroom⟩
      · exact ⟨_, by simp only [hspill]; rfl, hnone (h.emit hl)⟩
      · have hother := hl.limited.operand _ hroom
        exact ⟨_, by simp only [hspill]; rfl, hput h hother.limited (hl.yields.mono hother.grows) hother.yields⟩
    | some r =>
      obtain ⟨step, hstep, hother⟩ := hl.limited.absorb (hright r rfl) (hfit l r rfl rfl)
      exact ⟨_, by simp only [spill_other, hstep]; rfl,
        hput h hother.limited (hl.yields.mono hother.grows) hother.yields⟩

theorem Selecting.growBinary {operation : BinaryOperation} (h : Selecting X s)
    (hmeaning : nodeExpression X d = some (joined X d (operation.apply · ·))) (hshape : Fits X d 2) :
    ∃ s', s.growBinary X d operation = .ok s' ∧ Selecting X s' := by
  have hs := (h.take (X.operand d 0)).take (X.operand d 1)
  have hleft := fun l => h.chain (c := X.operand d 0) (r := l)
  have hright := fun r => (h.take (X.operand d 0)).chain (c := X.operand d 1) (r := r)
  unfold RegionSelector.growBinary
  dsimp only
  split
  · next l r hl hr =>
    split_ifs with hwide
    · exact (hs.emit (hright r hr)).joinOperands hleft (by rintro r ⟨⟩) (by rintro _ _ _ ⟨⟩) hmeaning hshape
    · refine hs.joinOperands hleft hright (fun l' r' hl' hr' => ?_) hmeaning hshape
      rw [← Option.some_inj.mp (hl.symm.trans hl'), ← Option.some_inj.mp (hr.symm.trans hr')]
      exact Nat.not_lt.mp hwide
  · next hsome => exact hs.joinOperands hleft hright (fun l r hl hr => (hsome l r hl hr).elim) hmeaning hshape

/-- The loop ends, and has the expressions of the operands unless a lane was lacking. -/
def Gathered (X : SelectionContext Plan) (operands : List DenseNodeId)
    (run : Fallible Empty (RegionSelector Plan × Option (OpenRegion × List KernelExpr))) : Prop :=
  ∃ s found, run = .ok (s, found) ∧ Selecting X s ∧ ∀ r expressions, found = some (r, expressions) →
    Limited r.inputs ∧ Forall₂ (Yields X r.inputs) expressions operands

theorem Selecting.gatherOperands (shape : List Nat) (operands done : List DenseNodeId) {expressions : List KernelExpr}
    (h : Selecting X s) (hr : Limited r.inputs) (hdone : Forall₂ (Yields X r.inputs) expressions done) :
    Gathered X (done ++ operands) (s.gatherOperands X shape operands r expressions) := by
  induction operands generalizing s r expressions done with
  | nil =>
    refine ⟨s, some (r, expressions), rfl, h, ?_⟩
    rintro _ _ ⟨⟩
    exact ⟨hr, by rwa [append_nil]⟩
  | cons c rest ih =>
    have hnext : ∀ {s} step, Selecting X s → Operand X r step c →
        Gathered X (done ++ c :: rest) (s.gatherOperands X shape rest step.2 (expressions ++ [step.1])) := by
      intro s step hs hstep
      have hall := rel_append (hdone.imp fun _ _ he => he.mono hstep.grows) (.cons hstep.yields .nil)
      have hrest := ih (done ++ [c]) hs hstep.limited hall
      rwa [append_assoc] at hrest
    have hstop : ∀ {s}, Selecting X s → Gathered X (done ++ c :: rest) (.ok (s, none)) := fun hs =>
      ⟨_, _, rfl, hs, by rintro _ _ ⟨⟩⟩
    have hroom : ¬ ((r.laneOf c).isNone && decide (maxLanes ≤ r.inputs.length)) = true →
        (r.laneOf c).isSome ∨ r.inputs.length < maxLanes := by
      simp [Option.isSome_iff_ne_none, Decidable.imp_iff_not_or]
    rw [RegionSelector.gatherOperands]
    split
    · next other hother =>
      split_ifs with hwide hfull
      · exact hstop ((h.take c).emit (h.chain hother))
      · exact hnext _ ((h.take c).emit (h.chain hother)) (hr.lane (hroom hfull))
      · obtain ⟨step, hstep, hoperand⟩ := hr.absorb (h.chain hother) (Nat.not_lt.mp hwide)
        rw [hstep, ok_bind]
        exact hnext _ (h.take c) hoperand
    · split
      · next value hvalue => exact hnext (typedConstant X value c, r) h ⟨hr, yields_constant hvalue, prefix_rfl⟩
      · split_ifs with hfull
        · exact hstop h
        · exact hnext _ h (hr.lane (hroom hfull))

theorem Selecting.growSelect {comparison : ComparisonOperation} (h : Selecting X s)
    (hcompare : nodeExpression X (X.operand d 0) = some (joined X (X.operand d 0) (comparison.apply · ·)))
    (hcompared : Fits X (X.operand d 0) 2) (hmeaning : nodeExpression X d = some
      (.select (.input (X.operand d 0)) (.input (X.operand d 1)) (.input (X.operand d 2)))) (hshape : Fits X d 3) :
    ∃ s', s.growSelect X d comparison = .ok s' ∧ Selecting X s' := by
  have hcond := hshape 0 (by decide)
  unfold RegionSelector.growSelect
  dsimp only
  generalize X.operand d 0 = cond at *
  obtain ⟨s', found, hrun, hs, hfound⟩ := h.gatherOperands (X.node d).shape
    [X.operand cond 0, X.operand cond 1, X.operand d 1, X.operand d 2] []
    limited_empty .nil
  rw [hrun, ok_bind]
  cases found with
  | none => exact ⟨s', rfl, hs⟩
  | some found =>
    obtain ⟨r, expressions⟩ := found
    obtain ⟨hr, hall⟩ := hfound r expressions rfl
    rcases hall with _ | ⟨hx, _ | ⟨hy, _ | ⟨ha, _ | ⟨hb, ⟨⟩⟩⟩⟩⟩
    have hcondition := ((hx.broadcast (hcompared 0 Nat.two_pos)).semanticOperand cond 0).comparison comparison
      ((hy.broadcast (hcompared 1 Nat.one_lt_two)).semanticOperand cond 1)
    have hselect := (((hcondition.node hcompare).semantic cond (X.node cond).dtype).broadcast hcond).select
      (ha.broadcast (hshape 1 (by decide))) (hb.broadcast (hshape 2 (by decide)))
    exact ⟨_, rfl, hs.put hr (hselect.node hmeaning) _⟩


/-! ## Turns -/

theorem nodeExpression_comparison {comparison : ComparisonOperation} {operands : Nat × Nat}
    (h : (X.node d).kind.comparison? = some (comparison, operands)) : (nodeChildren (X.node d).kind).length = 2 ∧
      nodeExpression X d = some (joined X d (comparison.apply · ·)) := by
  unfold nodeExpression
  cases hkind : (X.node d).kind <;> simp_all [NodeKind.comparison?, NodeKind.binary?, nodeChildren]

theorem nodeExpression_binary {operation : BinaryOperation} {operands : Nat × Nat}
    (h : (X.node d).kind.binary? = some (operation, operands)) : (nodeChildren (X.node d).kind).length = 2 ∧
      nodeExpression X d = some (joined X d (operation.apply · ·)) := by
  unfold nodeExpression
  cases hkind : (X.node d).kind <;> simp_all [NodeKind.binary?, nodeChildren]

theorem nodeExpression_unary {operation : UnaryOperation} (h : (X.node d).kind.unary? = some operation) :
    (nodeChildren (X.node d).kind).length = 1 ∧
      nodeExpression X d = some (operation.apply (.input (X.operand d 0))) := by
  unfold nodeExpression
  cases hkind : (X.node d).kind <;>
    simp_all [NodeKind.unary?, NodeKind.comparison?, NodeKind.binary?, nodeChildren]

theorem elementOperation_cases {reserved : DenseNodeId → Bool} {operation : ElementOperation}
    (h : elementOperation X reserved d = some operation) :
    (∃ a dtype, (X.node d).kind = .cast a dtype ∧ operation = .unary (.cast dtype)) ∨
    (∃ cond a b comparison operands, (X.node d).kind = .where cond a b ∧
      (X.graph.node cond).kind.comparison? = some (comparison, operands) ∧ operation = .select comparison) ∨
    (∃ maximum dim, operation = .argReduce maximum dim) ∨ (∃ op dims keepdims, operation = .reduce op dims keepdims) ∨
    (∃ binary operands, (X.node d).kind.binary? = some (binary, operands) ∧ operation = .binary binary) ∨
    ∃ unary, (X.node d).kind.unary? = some unary ∧ operation = .unary unary := by
  unfold elementOperation at h
  dsimp only at h
  generalize (X.node d).kind = kind at *
  grind [Option.map_eq_some_iff]

section Turn

variable (hshaped : Shaped X)
include hshaped

theorem Shaped.children_forall (h : d < X.index.order.length) :
    Forall₂ (fun child dense => X.index.order[dense]? = some child) (nodeChildren (X.node d).kind) (X.childrenOf d) := by
  have hd := List.getElem?_eq_getElem h
  obtain ⟨children, hchildren, hforall⟩ := hshaped.children d _ hd
  rw [SelectionContext.childrenOf, SelectionContext.node, getD_eq_getElem?_getD, getD_eq_getElem?_getD, hchildren, hd]
  exact hforall

theorem Shaped.operand (hd : d < X.index.order.length) (hmeaning : nodeExpression X d = some e) {n i : Nat}
    (hn : (nodeChildren (X.node d).kind).length = n) (hlt : i < n) :
    Broadcasts (X.node (X.operand d i)).shape (X.node d).shape := by
  have hlength := (hshaped.children_forall hd).length_eq
  rw [SelectionContext.operand, getD_eq_getElem _ 0 (hlength ▸ hn ▸ hlt)]
  exact hshaped.broadcasts d e hmeaning _ (getElem_mem _)

theorem Selecting.elementwiseTurn (h : Selecting X s) (hd : d < X.index.order.length) :
    ∃ s', s.elementwiseTurn X d = .ok s' ∧ Selecting X s' := by
  unfold RegionSelector.elementwiseTurn
  generalize hoperation : elementOperation X s.reserved d = operation
  have hs : Selecting X ((X.childrenOf d).foldl (fun s child => s.closeChild X operation child) s) := by
    clear hoperation
    induction X.childrenOf d generalizing s with
    | nil => exact h
    | cons child children ih => exact ih (h.closeChild operation child)
  dsimp only
  cases operation with
  | none => exact ⟨_, rfl, hs⟩
  | some operation =>
    rcases elementOperation_cases hoperation with ⟨a, dtype, hkind, rfl⟩ |
      ⟨cond, a, b, comparison, operands, hkind, hcompare, rfl⟩ | ⟨maximum, dim, rfl⟩ | ⟨op, dims, keepdims, rfl⟩ |
      ⟨binary, operands, hkind, rfl⟩ | ⟨unary, hkind, rfl⟩
    · have hmeaning : nodeExpression X d = some (UnaryOperation.apply (.input (X.operand d 0)) (.cast dtype)) := by
        rw [nodeExpression, hkind]
        rfl
      exact ⟨_, rfl, hs.growUnary hmeaning (hshaped.operand hd hmeaning (hkind ▸ rfl) Nat.one_pos)⟩
    · have hforall := hshaped.children_forall hd
      rw [hkind] at hforall
      have hmeaning : nodeExpression X d = some (.select (.input (X.operand d 0))
          (.input (X.operand d 1)) (.input (X.operand d 2))) := by
        rw [nodeExpression, hkind]
      have hshape := fun i (hlt : i < 3) => hshaped.operand hd hmeaning (hkind ▸ rfl) hlt
      -- the condition, by its position
      obtain ⟨c, rest, hcond, -, hchildren⟩ := forall₂_cons_left_iff.mp hforall
      have hc : X.operand d 0 = c := by rw [SelectionContext.operand, hchildren]; rfl
      have hcompare' : (X.node (X.operand d 0)).kind.comparison? = some (comparison, operands) := by
        rw [hc, SelectionContext.node, getD_eq_getElem?_getD, hcond]
        exact hcompare
      obtain ⟨htwo, hcondition⟩ := nodeExpression_comparison hcompare'
      have hlt : X.operand d 0 < X.index.order.length := hc ▸ (List.getElem?_eq_some_iff.mp hcond).1
      exact hs.growSelect hcondition (fun i hi' => hshaped.operand hlt hcondition htwo hi') hmeaning hshape
    · exact ⟨_, rfl, hs.fuseReduction _ _ _ _ ⟨_, hoperation⟩ rfl rfl⟩
    · exact ⟨_, rfl, hs.fuseReduction _ _ _ _ ⟨_, _, hoperation, rfl, rfl⟩ rfl rfl⟩
    · obtain ⟨htwo, hmeaning⟩ := nodeExpression_binary hkind
      exact hs.growBinary hmeaning fun i hlt => hshaped.operand hd hmeaning htwo hlt
    · obtain ⟨hone, hmeaning⟩ := nodeExpression_unary hkind
      exact ⟨_, rfl, hs.growUnary hmeaning (hshaped.operand hd hmeaning hone Nat.one_pos)⟩

/-- The pass ends, and leaves exact regions. -/
theorem Selecting.selectElementwise (hdrafts : ∀ draft ∈ s.drafts, ∃ nodes, draft.region = .other nodes) :
    ∃ s', s.selectElementwise X = .ok s' ∧ Selecting X s' := by
  have hstart : Selecting X { s with opened := [] } := ⟨forall_mem_nil _, fun draft hdraft kind region output heq => by
    obtain ⟨nodes, hother⟩ := hdrafts draft hdraft
    rw [heq] at hother
    cases hother⟩
  obtain ⟨s', hrun, hs⟩ := rangeLoop_total (fun _ s => Selecting X s)
    (fun d hd s hs => Selecting.elementwiseTurn hshaped hs hd) hstart
  refine ⟨_, by rw [RegionSelector.selectElementwise, hrun, ok_bind]; rfl, ?_⟩
  have hclose : ∀ (opened : List (DenseNodeId × OpenRegion)) {s : RegionSelector Plan}, Selecting X s →
      (∀ o ∈ opened, Chain X o.1 o.2) →
      Selecting X (opened.foldl (fun s (endpoint, region) => s.emitElementwise X endpoint region) s) := by
    intro opened
    induction opened with
    | nil => exact fun hs _ => hs
    | cons o opened ih =>
      intro s hs hopened
      exact ih (hs.emit (hopened o mem_cons_self)) fun o ho => hopened o (mem_cons_of_mem _ ho)
  exact hclose s'.opened ⟨forall_mem_nil _, hs.drafts⟩ hs.opened

end Turn

/-! ## Elements -/

/-- `data` is the elements of the nodes in row-major order: an elementwise node computes each from the elements of its
operands that are broadcast there. -/
def Elementwise (X : SelectionContext Plan) {T : Type} [Scalar T] (data : DenseNodeId → Nat → T) (scalar : Nat → T) :
    Prop :=
  ∀ d e, nodeExpression X d = some e → ∀ c, Coordinate (X.node d).shape c → ∀ lane : Nat → T,
    (∀ p ∈ X.childrenOf d, lane p = data p (rowIndex (X.node p).shape (broadcastSource (X.node p).shape c))) →
      data d (rowIndex (X.node d).shape c) = e.value lane scalar

theorem stridesOver_get {inputs : List DenseNodeId} {strides : List (List Nat)} {shape : List Nat}
    (h : X.stridesOver inputs shape = some strides) {k : Nat} {q : DenseNodeId} (hq : inputs[k]? = some q) :
    laneStrides (X.node q).shape shape = some (strides.getD k []) := by
  induction inputs generalizing strides k with
  | nil => cases hq
  | cons input inputs ih =>
    rw [SelectionContext.stridesOver, mapM_cons] at h
    obtain ⟨first, hfirst, h⟩ := Option.bind_eq_some_iff.mp h
    obtain ⟨rest, hrest, h⟩ := Option.bind_eq_some_iff.mp h
    cases h
    cases k with
    | zero => cases hq; exact hfirst
    | succ k => exact ih hrest hq

/-- The elements at one coordinate of a shape are consistent. -/
theorem Elementwise.consistent {T : Type} [Scalar T] {data : DenseNodeId → Nat → T} {scalar : Nat → T}
    {shape c : List Nat} (h : Elementwise X data scalar) (hshaped : Shaped X) (hc : Coordinate shape c) :
    Consistent X shape (fun p => data p (rowIndex (X.node p).shape (broadcastSource (X.node p).shape c))) scalar := by
  intro d e hmeaning hd
  refine h d e hmeaning _ (coordinate_broadcastSource hd hc) _ fun p hp => ?_
  rw [broadcastSource_trans (hshaped.broadcasts d e hmeaning p hp) hd hc]

/-- Over its strided lanes, a fused region has the elements of its node, or of the operand that it reduces as its node
does, whatever the scalar operations are. -/
def NativeRegion.Computes (X : SelectionContext Plan) : NativeRegion → Prop
  | fused kind region output => kind.Of X output.semanticNode region.shape ∧
    ∀ (T : Type) [Scalar T] (data : DenseNodeId → Nat → T) (scalar : Nat → T), Elementwise X data scalar →
      ∀ c, Coordinate (kind.domain region.shape) c →
        output.expression.value (fun k => data (region.inputs.getD k 0) (stridedOffset
          (rowIndex (kind.domain region.shape) c) (kind.domain region.shape) (region.laneStrides.getD k []))) scalar =
        data (kind.source X output.semanticNode) (rowIndex (kind.domain region.shape) c)
  | other _ => True

/-- Selection ends without a panic, and every region that it fuses means what its nodes mean. -/
theorem selectElementwise_computes (hshaped : Shaped X)
    (hdrafts : ∀ draft ∈ s.drafts, ∃ nodes, draft.region = .other nodes) :
    ∃ s', s.selectElementwise X = .ok s' ∧ ∀ draft ∈ s'.drafts, draft.region.Computes X := by
  obtain ⟨s', hrun, hs⟩ := Selecting.selectElementwise hshaped hdrafts
  refine ⟨s', hrun, fun draft hdraft => ?_⟩
  cases hregion : draft.region with
  | other nodes => trivial
  | fused kind region output =>
    obtain ⟨-, hnode, hyields, hdomain, hstrides⟩ := hs.drafts draft hdraft kind region output hregion
    refine ⟨hnode, fun T _ data scalar hdata c hc => ?_⟩
    have hdata := hdata.consistent hshaped hc
    refine (hyields.value T _ _ scalar hdata (hdomain ▸ Broadcasts.refl _) _ fun k q hq => ?_).trans ?_
    · rw [getD_eq_getElem?_getD, hq, stridedOffset_rowIndex (stridesOver_get hstrides hq) hc]
      rfl
    · rw [KernelExpr.value, ← hdomain, broadcastSource, ← hc.length_eq, Nat.sub_self, drop_zero, squash_self hc]

/-- A fused region reads distinct inputs within the limit, and all lanes of its expression are among them. -/
theorem selectElementwise_limited (hshaped : Shaped X)
    (hdrafts : ∀ draft ∈ s.drafts, ∃ nodes, draft.region = .other nodes) :
    ∃ s', s.selectElementwise X = .ok s' ∧ ∀ draft ∈ s'.drafts, ∀ kind region output,
      draft.region = .fused kind region output → region.inputs.Nodup ∧ region.inputs.length ≤ maxLanes ∧
        ∀ k ∈ output.expression.lanes, k < region.inputs.length := by
  obtain ⟨s', hrun, hs⟩ := Selecting.selectElementwise hshaped hdrafts
  refine ⟨s', hrun, fun draft hdraft kind region output heq => ?_⟩
  obtain ⟨hlimited, -, hyields, -, -⟩ := hs.drafts draft hdraft kind region output heq
  exact ⟨hlimited.nodup, hlimited.few, hyields.lanes⟩

end Selection

/-- The negation of the exponential of ones. -/
def negExp : SelectionContext Unit where
  graph := {
    node := fun id => ⟨[4], .f32, .cpu 0, .dense,
      if id = 1 then .exp 0 else if id = 2 then .neg 1 else .ones [4] .f32 (.cpu 0)⟩
    age := id
    children_older := fun id child h => by
      dsimp only at h
      split_ifs at h <;> simp_all [nodeChildren] }
  index := ⟨[0, 1, 2], replicate 3 .dense, ⟨[⟨0, 0⟩, ⟨1, 1⟩, ⟨2, 2⟩], (by decide : [0, 1, 2].Nodup)⟩,
    [[], [0], [1]], [[1], [2], []], [2], [], [], [], replicate 3 none, [], ⟨1, 3, 2⟩⟩
  castF64 value _ := value
  classify _ := .ok (some ())

theorem shaped_negExp : Shaped negExp := by
  refine ⟨fun d id h => ?_, fun _ _ _ _ _ => Broadcasts.refl [4]⟩
  rcases d with _ | _ | _ | d <;> cases h
  · exact ⟨_, rfl, .nil⟩
  · exact ⟨_, rfl, .cons rfl .nil⟩
  · exact ⟨_, rfl, .cons rfl .nil⟩

/-- Both operations are one region. -/
theorem negExp_computes : ∃ s', RegionSelector.new.selectElementwise negExp = .ok s' ∧
    s'.drafts.length = 1 ∧ ∀ draft ∈ s'.drafts, draft.region.Computes negExp := by
  obtain ⟨s', hrun, hs⟩ := selectElementwise_computes (s := .new) shaped_negExp (forall_mem_nil _)
  cases hrun.symm.trans (rfl : _ = Except.ok _)
  exact ⟨_, rfl, rfl, hs⟩

theorem negExp_limited : ∃ s', RegionSelector.new.selectElementwise negExp = .ok s' ∧
    ∀ draft ∈ s'.drafts, ∀ kind region output, draft.region = .fused kind region output → region.inputs.Nodup := by
  obtain ⟨s', hrun, hs⟩ := selectElementwise_limited (s := .new) shaped_negExp (forall_mem_nil _)
  exact ⟨s', hrun, fun draft hdraft kind region output h => (hs draft hdraft kind region output h).1⟩

end EffectTorch
