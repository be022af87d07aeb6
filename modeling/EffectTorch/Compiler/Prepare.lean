import EffectTorch.Graph.Attributes
import EffectTorch.Graph.Semantic
import EffectTorch.Lib.StackWalk

/-!
# Native preparation

`prepare_semantics` of `compiler/src/semantic.rs`: an iterative postorder traversal that rebuilds
the nodes with new operands and decomposes the semantic operations.

Results:
1. `prepareSemantics_prepared`: a node below the roots is kept if no operand was replaced, else
   it is rebuilt over the images of its operands; only a decomposition replaces its operation.
-/

namespace EffectTorch

namespace Prepare
open List Lib

section Loop

variable (infer : Inference) (G : Graph)

/-- The node with the images of its operands; it is the same node if they are the same. -/
def rebuildNode (s : Rewriting) (n : Nat) : Fallible String (Nat × NodeKind Nat × Nodes) :=
  let kind := (G.node n).kind
  if ∃ child ∈ nodeChildren kind, s.image child ≠ child then do
    let kind := remapChildren s.image kind
    let (id, nodes) ← s.nodes.new infer kind
    return (id, kind, nodes)
  else .ok (n, kind, s.nodes)

/-- What the loop does at a node whose operands it is done with. -/
def prepareNode (s : Rewriting) (n : Nat) : Fallible String Rewriting := do
  let (current, kind, nodes) ← rebuildNode infer G s n
  let (decomposed, nodes) ← (decomposeSemantic (remapChildren nodes.ref kind)).run infer nodes
  return s.put n (decomposed.elim current NodeRef.id) nodes

/-- The operands that the loop is not done with. -/
def missing (s : Rewriting) (n : Nat) : List Nat :=
  (G.dag.children n).filter fun child => (s.mapped child).isNone

/-- The loop; the head of the list is the top of the stack. -/
def prepareLoop (s : Rewriting) : List (Nat × Bool) → Fallible String Rewriting
  | [] => .ok s
  | (n, true) :: stack =>
    if (s.mapped n).isSome then prepareLoop s stack
    else do
      let s ← prepareNode infer G s n
      prepareLoop s stack
  | (n, false) :: stack =>
    if (s.mapped n).isSome then prepareLoop s stack
    else prepareLoop s ((missing G s n).map (·, false) ++ (n, true) :: stack)
termination_by stack => (stack.map G.dag.entryWeight).sum
decreasing_by
  · rw [map_cons, sum_cons]
    exact Nat.lt_add_of_pos_left (G.dag.entryWeight_pos _)
  · rw [map_cons, sum_cons]
    exact Nat.lt_add_of_pos_left (G.dag.entryWeight_pos _)
  · rw [map_cons, sum_cons]
    exact Nat.lt_add_of_pos_left (G.dag.entryWeight_pos _)
  · rw [map_append, sum_append, map_cons, sum_cons, map_cons,
      sum_cons, ← Nat.add_assoc]
    exact Nat.add_lt_add_right (G.dag.expand_filter_weight n _) _

/-- `prepare_semantics`, in a process whose next node is `next`. -/
def prepareSemantics (next : Nat) (roots : List Nat) : Fallible String (List Nat × Nodes) := do
  let s ← prepareLoop infer G ⟨⟨G.node, next⟩, fun _ => none⟩ (roots.map (·, false))
  return (roots.map s.image, s.nodes)

end Loop

/-! ## What becomes of a node -/

section Prepared

variable (infer : Inference) (G : Graph) (next : Nat) (nodes : Nodes) (r : Nat → Nat)

/-- The operation with the images of its operands, and the node that has it. -/
inductive Rebuilt (n : Nat) : Nat → NodeKind Nat → Prop
  | kept (hkeep : ∀ child ∈ G.children n, r child = child) : Rebuilt n n (G.node n).kind
  | copied {current : Nat} {kind : NodeKind Nat} (hchanged : ∃ child ∈ G.children n, r child ≠ child)
    (hnew : next ≤ current) (hat : nodes.At current kind) (hcopies : Copies r (G.node n).kind kind) :
    Rebuilt n current kind

/-- The two operations that are decomposed. -/
def isSemantic {ν : Type} : NodeKind ν → Bool
  | .sdpaConfigured _ _ _ _ _ _ _ _ _ | .rotaryEmbeddingExplicit _ _ _ _ => true
  | _ => false

/-- `m` is what decomposition makes of a node. -/
inductive Decomposed (current : Nat) (kind : NodeKind Nat) : Nat → Prop
  | plain (hplain : isSemantic kind = false) : Decomposed current kind current
  | semantic {before after : Nodes} {m : NodeRef} (hsemantic : isSemantic kind = true)
    (hrun : (decomposeSemantic (remapChildren before.ref kind)).run infer before = .ok (some m, after))
    (hgrows : after.Grows nodes) : Decomposed current kind m.id

/-- `m` stands for `n` behind the pass. -/
def Prepared (n m : Nat) : Prop :=
  ∃ current kind, Rebuilt G next nodes r n current kind ∧ Decomposed infer nodes current kind m

end Prepared

variable {infer : Inference} {G : Graph} {next : Nat} {nodes nodes' : Nodes} {n m : Nat}

theorem isSemantic_remapChildren {ν μ : Type} (f : ν → μ) (kind : NodeKind ν) :
    isSemantic (remapChildren f kind) = isSemantic kind := by
  cases kind <;> rfl

/-- Only the two operations are decomposed. -/
theorem decomposeSemantic_plain {ν : Type} [Described ν] {kind : NodeKind ν}
    (h : isSemantic kind = false) : decomposeSemantic kind = .done none := by
  cases kind with
  | sdpaConfigured => cases h
  | rotaryEmbeddingExplicit => cases h
  | _ => rfl

theorem decomposeSemantic_some {kind : NodeKind NodeRef} (h : isSemantic kind = true)
    {decomposed : Option NodeRef} (hrun : (decomposeSemantic kind).run infer nodes = .ok (decomposed, nodes')) :
    ∃ m, decomposed = some m := by
  -- both programs end with the node that they built
  have hsome : ∀ program : NodeProgram NodeRef NodeRef,
      (program >>= fun m => pure (some m)).run infer nodes = .ok (decomposed, nodes') →
        ∃ m, decomposed = some m := by
    intro program hrun
    rw [NodeProgram.run_bind] at hrun
    obtain ⟨⟨m, built⟩, -, hlast⟩ := bind_ok.mp hrun
    cases hlast
    exact ⟨m, rfl⟩
  cases kind with
  | sdpaConfigured q k v scale causal window rounding layerId retention =>
    cases rounding with
    | fused => exact hsome _ hrun
    | stepwise => exact hsome _ hrun
  | rotaryEmbeddingExplicit => exact hsome _ hrun
  | _ => cases h

theorem Prepared.mono {r r' : Nat → Nat} (h : Prepared infer G next nodes r n m)
    (hgrows : nodes.Grows nodes') (hr : ∀ child ∈ G.children n, r' child = r child) :
    Prepared infer G next nodes' r' n m := by
  obtain ⟨current, kind, hrebuilt, hdecomposed⟩ := h
  refine ⟨current, kind, ?_, ?_⟩
  · cases hrebuilt with
    | kept hkeep => exact .kept fun child hchild => (hr child hchild).trans (hkeep child hchild)
    | copied hchanged hnew hat hcopies =>
      obtain ⟨child, hchild, hne⟩ := hchanged
      exact .copied ⟨child, hchild, hr child hchild ▸ hne⟩ hnew (hat.mono hgrows) (hcopies.congr hr)
  · cases hdecomposed with
    | plain hplain => exact .plain hplain
    | semantic hsemantic hrun hafter => exact .semantic hsemantic hrun (hafter.trans hgrows)

/-! ## The loop -/

variable {s s' : Rewriting} {stack : List (Nat × Bool)}

theorem rebuildNode_ok {current : Nat} {kind : NodeKind Nat}
    (h : rebuildNode infer G s n = .ok (current, kind, nodes)) (hgrows : Nodes.Grows ⟨G.node, next⟩ s.nodes) :
    s.nodes.Grows nodes ∧ Rebuilt G next nodes s.image n current kind := by
  unfold rebuildNode at h
  dsimp only at h
  split at h
  · next hchanged =>
    obtain ⟨⟨id, built⟩, hnew, hrest⟩ := bind_ok.mp h
    cases hrest
    have hbuilt := Nodes.new_ok hnew
    exact ⟨hbuilt.grows, .copied hchanged (Nat.le_trans hgrows.next_le hbuilt.fresh) hbuilt.at_new
      (remapChildren_copies _ _)⟩
  · next hkeep =>
    cases h
    refine ⟨.refl _, .kept fun child hchild => ?_⟩
    by_contra hne
    exact hkeep ⟨child, hchild, hne⟩

/-- A turn maps the node to what stands for it and leaves the rest as it is. -/
theorem prepareNode_ok (h : prepareNode infer G s n = .ok s') (hgrows : Nodes.Grows ⟨G.node, next⟩ s.nodes) :
    ∃ m, s' = s.put n m s'.nodes ∧ s.nodes.Grows s'.nodes ∧ Prepared infer G next s'.nodes s.image n m := by
  obtain ⟨⟨current, kind, built⟩, hrebuild, h⟩ := bind_ok.mp h
  obtain ⟨⟨decomposed, nodes⟩, hrun, h⟩ := bind_ok.mp h
  cases h
  obtain ⟨hbuilt, hrebuilt⟩ := rebuildNode_ok hrebuild hgrows
  have hafter := NodeProgram.run_grows hrun
  have hprepared : ∀ m, Decomposed infer nodes current kind m → Prepared infer G next nodes s.image n m :=
    fun m hm => by
      cases hrebuilt with
      | kept hkeep => exact ⟨_, _, .kept hkeep, hm⟩
      | copied hchanged hnew hat hcopies => exact ⟨_, _, .copied hchanged hnew (hat.mono hafter) hcopies, hm⟩
  refine ⟨_, rfl, hbuilt.trans hafter, hprepared _ ?_⟩
  cases hsemantic : isSemantic kind with
  | false =>
    rw [decomposeSemantic_plain ((isSemantic_remapChildren _ _).trans hsemantic)] at hrun
    cases hrun
    exact .plain hsemantic
  | true =>
    obtain ⟨m, rfl⟩ := decomposeSemantic_some ((isSemantic_remapChildren _ _).trans hsemantic) hrun
    exact .semantic hsemantic hrun (.refl _)

/-- What holds of the nodes that the loop is done with. -/
structure Done (infer : Inference) (G : Graph) (next : Nat) (s : Rewriting) : Prop where
  grows : Nodes.Grows ⟨G.node, next⟩ s.nodes
  closed : ∀ n, (s.mapped n).isSome → ∀ child ∈ G.children n, (s.mapped child).isSome
  prepared : ∀ n m, s.mapped n = some m → Prepared infer G next s.nodes s.image n m

theorem Done.turn (h : Done infer G next s) (hchildren : ∀ child ∈ G.children n, (s.mapped child).isSome)
    (hnew : s.mapped n = none) (hstep : prepareNode infer G s n = .ok s') :
    Done infer G next s' ∧ ∀ k, (s'.mapped k).isSome ↔ (s.mapped k).isSome ∨ k = n := by
  obtain ⟨m, hs', hgrows, hprepared⟩ := prepareNode_ok hstep h.grows
  have hmapped : ∀ k, (s'.mapped k).isSome ↔ (s.mapped k).isSome ∨ k = n := by
    intro k
    rw [hs']
    by_cases hk : k = n
    · rw [hk, Rewriting.put_mapped_self]
      exact ⟨fun _ => .inr rfl, fun _ => rfl⟩
    · rw [Rewriting.put_mapped_of_ne hk]
      exact ⟨.inl, fun hk' => hk'.resolve_right hk⟩
  -- `n` is no operand of a node that the loop is done with
  have himage : ∀ k, (∀ child ∈ G.children k, (s.mapped child).isSome) →
      ∀ child ∈ G.children k, s'.image child = s.image child := by
    intro k hk child hchild
    have hne : child ≠ n := fun heq => by
      have hsome := hk child hchild
      rw [heq, hnew] at hsome
      cases hsome
    rw [hs', Rewriting.put_image_of_ne hne]
  refine ⟨⟨h.grows.trans hgrows, fun k hk child hchild => ?_, fun k m' hk => ?_⟩, hmapped⟩
  · refine (hmapped child).mpr (.inl ?_)
    rcases (hmapped k).mp hk with hk | rfl
    · exact h.closed k hk child hchild
    · exact hchildren child hchild
  · by_cases hkn : k = n
    · subst hkn
      rw [hs', Rewriting.put_mapped_self] at hk
      cases hk
      exact hprepared.mono (.refl _) (himage k hchildren)
    · rw [hs', Rewriting.put_mapped_of_ne hkn] at hk
      refine (h.prepared k m' hk).mono hgrows (himage k (h.closed k ?_))
      rw [hk]
      rfl

/-- The operands of a marked entry are done with or above it in the stack. -/
def Pending (G : Graph) (s : Rewriting) : List Nat → List (Nat × Bool) → Prop
  | _, [] => True
  | above, (n, ready) :: stack =>
    (ready = true → ∀ child ∈ G.children n, (s.mapped child).isSome ∨ child ∈ above) ∧
      Pending G s (n :: above) stack

theorem Pending.mono {above above' : List Nat} (h : Pending G s above stack)
    (hmono : ∀ k, (s.mapped k).isSome ∨ k ∈ above → (s'.mapped k).isSome ∨ k ∈ above') :
    Pending G s' above' stack := by
  induction stack generalizing above above' with
  | nil => trivial
  | cons entry stack ih =>
    refine ⟨fun hready child hchild => hmono child (h.1 hready child hchild), ih h.2 fun k hk => ?_⟩
    rcases hk with hk | hk
    · exact (hmono k (.inl hk)).imp_right (mem_cons_of_mem _)
    · rcases mem_cons.mp hk with rfl | hk
      · exact .inr mem_cons_self
      · exact (hmono k (.inr hk)).imp_right (mem_cons_of_mem _)

theorem Pending.unmarked {above children : List Nat} (h : Pending G s (children.reverse ++ above) stack) :
    Pending G s above (children.map (·, false) ++ stack) := by
  induction children generalizing above with
  | nil => exact h
  | cons child children ih =>
    refine ⟨fun hready => (by cases hready), ih ?_⟩
    rw [reverse_cons, append_assoc] at h
    exact h

/-- An entry that is done with can be dropped. -/
theorem Pending.drop {ready : Bool} (h : Pending G s [] ((n, ready) :: stack))
    (hmono : ∀ k, (s.mapped k).isSome ∨ k = n → (s'.mapped k).isSome) : Pending G s' [] stack :=
  h.2.mono fun k hk => .inl (hmono k (hk.imp_right mem_singleton.mp))

/-- The loop is done with what was done before and with what is on the stack. -/
theorem prepareLoop_done (h : Done infer G next s) (hpending : Pending G s [] stack)
    (hrun : prepareLoop infer G s stack = .ok s') :
    Done infer G next s' ∧ ∀ k, (s.mapped k).isSome ∨ k ∈ stack.map Prod.fst → (s'.mapped k).isSome := by
  fun_induction prepareLoop infer G s stack with
  | case1 s =>
    cases hrun
    exact ⟨h, fun k hk => hk.resolve_right not_mem_nil⟩
  | case2 s n stack hdone ih | case4 s n stack hdone ih =>
    have hkeep : ∀ k, (s.mapped k).isSome ∨ k = n → (s.mapped k).isSome := fun k hk =>
      hk.elim id fun heq => heq ▸ hdone
    obtain ⟨hend, hfound⟩ := ih h (hpending.drop hkeep) hrun
    refine ⟨hend, fun k hk => hfound k ?_⟩
    rw [map_cons, mem_cons, ← or_assoc] at hk
    exact hk.imp_left (hkeep k)
  | case3 s n stack hnew ih =>
    obtain ⟨s₁, hstep, hrest⟩ := bind_ok.mp hrun
    have hchildren : ∀ child ∈ G.children n, (s.mapped child).isSome := fun child hchild =>
      (hpending.1 rfl child hchild).resolve_right not_mem_nil
    obtain ⟨hturn, hmapped⟩ := h.turn hchildren (Option.not_isSome_iff_eq_none.mp hnew) hstep
    obtain ⟨hend, hfound⟩ := ih s₁ hturn (hpending.drop fun k hk => (hmapped k).mpr hk) hrest
    refine ⟨hend, fun k hk => hfound k ?_⟩
    rw [map_cons, mem_cons, ← or_assoc] at hk
    exact hk.imp_left (hmapped k).mpr
  | case5 s n stack hnew ih =>
    -- the marked entry is behind the operands that are not done with
    have hmissing : ∀ child ∈ G.children n, (s.mapped child).isSome ∨ child ∈ missing G s n := by
      intro child hchild
      by_cases hsome : (s.mapped child).isSome
      · exact .inl hsome
      · exact .inr (mem_filter.mpr ⟨hchild, Option.isNone_iff_eq_none.mpr
          (Option.not_isSome_iff_eq_none.mp hsome)⟩)
    have hnext : Pending G s [] ((missing G s n).map (·, false) ++ (n, true) :: stack) := by
      refine Pending.unmarked ⟨fun _ child hchild => ?_, hpending.2.mono fun k hk => ?_⟩
      · exact (hmissing child hchild).imp_right fun hmem =>
          mem_append_left _ (mem_reverse.mpr hmem)
      · refine hk.imp_right fun hmem => ?_
        rw [mem_singleton.mp hmem]
        exact mem_cons_self
    obtain ⟨hend, hfound⟩ := ih h hnext hrun
    refine ⟨hend, fun k hk => hfound k (hk.imp_right fun hmem => ?_)⟩
    rw [map_append]
    exact mem_append_right _ hmem

/-! ## The pass -/

/-- What native preparation returns: the prepared roots, in a process where the source graph is
as before. -/
structure Preparation (infer : Inference) (G : Graph) (next : Nat) (roots prepared : List Nat)
    (nodes : Nodes) (r : Nat → Nat) : Prop where
  source : ∀ n < next, nodes.node n = G.node n
  outputs : prepared = roots.map r
  nodes : ∀ root ∈ roots, ∀ n, G.dag.Reaches root n → Prepared infer G next nodes r n (r n)

theorem prepareSemantics_prepared {roots prepared : List Nat}
    (h : prepareSemantics infer G next roots = .ok (prepared, nodes)) :
    ∃ r, Preparation infer G next roots prepared nodes r := by
  obtain ⟨s, hloop, hrest⟩ := bind_ok.mp h
  cases hrest
  have hstart : Done infer G next ⟨⟨G.node, next⟩, fun _ => none⟩ :=
    ⟨.refl _, fun n hn => (by cases hn), fun n m hm => (by cases hm)⟩
  have hpending : Pending G ⟨⟨G.node, next⟩, fun _ => none⟩ [] (roots.map (·, false)) := by
    rw [← append_nil (roots.map _)]
    exact Pending.unmarked trivial
  obtain ⟨hdone, hfound⟩ := prepareLoop_done hstart hpending hloop
  refine ⟨s.image, hdone.grows.node_eq, rfl, fun root hroot n hreach => ?_⟩
  have hmapped : (s.mapped n).isSome := by
    induction hreach with
    | refl => exact hfound root (.inr (mem_map.mpr ⟨(root, false),
        mem_map.mpr ⟨root, hroot, rfl⟩, rfl⟩))
    | tail _ hchild ih => exact hdone.closed _ ih _ hchild
  obtain ⟨m, hm⟩ := Option.isSome_iff_exists.mp hmapped
  have himage : s.image n = m := by rw [Rewriting.image, hm, Option.getD_some]
  rw [himage]
  exact hdone.prepared n m hm

end Prepare

end EffectTorch
