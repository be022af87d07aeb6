import EffectTorch.Compiler.FusionEval

/-!
# Rewriting of fused expressions

`rebuild`, `transform`, `remap_lanes` and `merge_lane` of `compiler/src/ir.rs`, and the equality of
expressions by their flat forms. A map of lanes that lacks a lane panics.

Results:
1. `flattenInto_inj`: expressions are known by their flat forms.
2. `transform_eq`: the traversal with a stack is the recursive transformation.
3. `mergeLane_value`: inlining is substitution.
-/

namespace EffectTorch
open List Lib

namespace KernelExpr

/-! ## Rebuilding -/

/-- The same variant with new operands, taken from the front. -/
def rebuild (e : KernelExpr) (children : List KernelExpr) : Fallible Empty KernelExpr :=
  match e, children with
  | input k, _ => .ok (input k)
  | scalar k, _ => .ok (scalar k)
  | const bits, _ => .ok (const bits)
  | cast _ dtype, a :: _ => .ok (cast a dtype)
  | roundTo _ dtype, a :: _ => .ok (roundTo a dtype)
  | semantic _ node dtype, a :: _ => .ok (semantic a node dtype)
  | select .., cond :: a :: b :: _ => .ok (select cond a b)
  | add .., a :: b :: _ => .ok (add a b)
  | sub .., a :: b :: _ => .ok (sub a b)
  | mul .., a :: b :: _ => .ok (mul a b)
  | div .., a :: b :: _ => .ok (div a b)
  | min .., a :: b :: _ => .ok (min a b)
  | max .., a :: b :: _ => .ok (max a b)
  | lt .., a :: b :: _ => .ok (lt a b)
  | le .., a :: b :: _ => .ok (le a b)
  | gt .., a :: b :: _ => .ok (gt a b)
  | ge .., a :: b :: _ => .ok (ge a b)
  | eq .., a :: b :: _ => .ok (eq a b)
  | ne .., a :: b :: _ => .ok (ne a b)
  | neg _, a :: _ => .ok (neg a)
  | sqrt _, a :: _ => .ok (sqrt a)
  | exp _, a :: _ => .ok (exp a)
  | sin _, a :: _ => .ok (sin a)
  | cos _, a :: _ => .ok (cos a)
  | tanh _, a :: _ => .ok (tanh a)
  | abs _, a :: _ => .ok (abs a)
  | log _, a :: _ => .ok (log a)
  | floor _, a :: _ => .ok (floor a)
  | ceil _, a :: _ => .ok (ceil a)
  | round _, a :: _ => .ok (round a)
  | powf _ exponent, a :: _ => .ok (powf a exponent)
  | erf _, a :: _ => .ok (erf a)
  | gelu _, a :: _ => .ok (gelu a)
  | geluTanh _, a :: _ => .ok (geluTanh a)
  | _, _ => .error (.panic "removal index (is 0) should be < len (is 0)")

/-- As many operands as before: an expression with the operation and with these operands. -/
theorem rebuild_ok (e : KernelExpr) {children : List KernelExpr} (h : children.length = e.children.length) :
    ∃ e', e.rebuild children = .ok e' ∧ e'.op = e.op ∧ e'.children = children := by
  cases e with
  | input _ | scalar _ | const _ => exact ⟨_, rfl, rfl, (length_eq_zero_iff.mp h).symm⟩
  | select _ _ _ =>
    obtain ⟨cond, a, b, rfl⟩ := length_eq_three.mp h
    exact ⟨_, rfl, rfl, rfl⟩
  | add _ _ | sub _ _ | mul _ _ | div _ _ | min _ _ | max _ _ | lt _ _ | le _ _ | gt _ _ | ge _ _ | eq _ _ | ne _ _ =>
    obtain ⟨a, b, rfl⟩ := length_eq_two.mp h
    exact ⟨_, rfl, rfl, rfl⟩
  | cast _ _ | roundTo _ _ | semantic _ _ _ | neg _ | sqrt _ | exp _ | sin _ | cos _ | tanh _ | abs _ | log _ | floor _
  | ceil _ | round _ | powf _ _ | erf _ | gelu _ | geluTanh _ =>
    obtain ⟨a, rfl⟩ := length_eq_one_iff.mp h
    exact ⟨_, rfl, rfl, rfl⟩

end KernelExpr

/-- An expression with this operation. -/
def Flat.root : Flat → KernelExpr
  | .input k => .input k
  | .scalar k => .scalar k
  | .const bits => .const bits
  | .cast dtype => .cast (.const 0) dtype
  | .roundTo dtype => .roundTo (.const 0) dtype
  | .semantic node dtype => .semantic (.const 0) node dtype
  | .add => .add (.const 0) (.const 0)
  | .sub => .sub (.const 0) (.const 0)
  | .mul => .mul (.const 0) (.const 0)
  | .div => .div (.const 0) (.const 0)
  | .min => .min (.const 0) (.const 0)
  | .max => .max (.const 0) (.const 0)
  | .lt => .lt (.const 0) (.const 0)
  | .le => .le (.const 0) (.const 0)
  | .gt => .gt (.const 0) (.const 0)
  | .ge => .ge (.const 0) (.const 0)
  | .eq => .eq (.const 0) (.const 0)
  | .ne => .ne (.const 0) (.const 0)
  | .select => .select (.const 0) (.const 0) (.const 0)
  | .neg => .neg (.const 0)
  | .sqrt => .sqrt (.const 0)
  | .exp => .exp (.const 0)
  | .sin => .sin (.const 0)
  | .cos => .cos (.const 0)
  | .tanh => .tanh (.const 0)
  | .abs => .abs (.const 0)
  | .log => .log (.const 0)
  | .floor => .floor (.const 0)
  | .ceil => .ceil (.const 0)
  | .round => .round (.const 0)
  | .powf exponent => .powf (.const 0) exponent
  | .erf => .erf (.const 0)
  | .gelu => .gelu (.const 0)
  | .geluTanh => .geluTanh (.const 0)

namespace KernelExpr

theorem root_rebuild (e : KernelExpr) : e.op.root.rebuild e.children = .ok e := by
  cases e <;> rfl

/-- An expression is its operation and its operands. -/
theorem eq_of_children {e e' : KernelExpr} (hop : e.op = e'.op) (hchildren : e.children = e'.children) : e = e' := by
  have h := e.root_rebuild
  rw [hop, hchildren, e'.root_rebuild] at h
  exact (Except.ok.inj h).symm

/-- Expressions side by side are known by the operations of all of them: the last operation says how many
operands are in front of it. -/
theorem flatMap_postorder_inj {es es' : List KernelExpr} (h : es.flatMap postorder = es'.flatMap postorder) : es = es' := by
  induction hn : (es.flatMap postorder).length generalizing es es' with
  | zero =>
    have hnil : ∀ es : List KernelExpr, es.flatMap postorder = [] → es = [] := by
      intro es hes
      cases es with
      | nil => rfl
      | cons e es => simp [e.postorder_eq] at hes
    have hes := length_eq_zero_iff.mp hn
    rw [hnil es hes, hnil es' (h ▸ hes)]
  | succ n ih =>
    have hlast : ∀ (es : List KernelExpr) (e : KernelExpr), (es ++ [e]).flatMap postorder =
        (es ++ e.children).flatMap postorder ++ [e.op] := by
      intro es e
      rw [flatMap_append, flatMap_singleton, e.postorder_eq, flatMap_append, append_assoc]
    rcases eq_nil_or_concat' es with rfl | ⟨front, e, rfl⟩
    · cases hn
    rcases eq_nil_or_concat' es' with rfl | ⟨front', e', rfl⟩
    · rw [h] at hn
      cases hn
    rw [hlast, hlast] at h
    rw [hlast, length_append, length_singleton, Nat.add_right_cancel_iff] at hn
    obtain ⟨hoperands, hops⟩ := append_inj' h rfl
    have hop := (List.cons.inj hops).1
    have hlength : e.children.length = e'.children.length := by
      rw [← arity_op, ← arity_op, hop]
    obtain ⟨hfront, hchildren⟩ := append_inj' (ih hoperands hn) hlength
    rw [hfront, eq_of_children hop hchildren]

end KernelExpr

/-- Expressions are known by their flat forms. -/
theorem flattenInto_inj (e e' : KernelExpr) : flattenInto e [] = flattenInto e' [] ↔ e = e' := by
  constructor
  · intro h
    rw [flattenInto_eq, flattenInto_eq, nil_append, nil_append] at h
    have hforest : [e].flatMap KernelExpr.postorder = [e'].flatMap KernelExpr.postorder := by
      rw [flatMap_singleton, flatMap_singleton, h]
    exact singleton_inj.mp (KernelExpr.flatMap_postorder_inj hforest)
  · rintro rfl
    rfl

/-! ## Transformation -/

/-- The loop of `transform`: `f` replaces a leaf or keeps it, and the results of the operands of a processed
node are the last ones. -/
def transformLoop (f : KernelExpr → Fallible Empty (Option KernelExpr)) :
    List (KernelExpr × Bool) → List KernelExpr → Fallible Empty (List KernelExpr)
  | [], out => .ok out
  | (node, true) :: stack, out => do
    let start ← expect (checkedSub out.length node.children.length) "attempt to subtract with overflow"
    let rebuilt ← node.rebuild (out.drop start)
    transformLoop f stack (out.take start ++ [rebuilt])
  | (node, false) :: stack, out =>
    if node.children = [] then do
      let replaced ← f node
      let leaf ← replaced.elim (node.rebuild []) .ok
      transformLoop f stack (out ++ [leaf])
    else transformLoop f (node.children.map (fun child => (child, false)) ++ (node, true) :: stack) out
termination_by stack => (stack.map pendingTurns).sum
decreasing_by
  · simp [pendingTurns]
  · have hpos : 0 < sizeOf node := by
      have h := node.sizeOf_children
      omega
    simp [pendingTurns, hpos]
  · have h := pendingTurns_children node
    simp only [map_append, map_cons, sum_append, sum_cons]
    have hone : pendingTurns (node, true) = 1 := rfl
    omega

namespace KernelExpr

def transform (f : KernelExpr → Fallible Empty (Option KernelExpr)) (e : KernelExpr) : Fallible Empty KernelExpr := do
  let out ← transformLoop f [(e, false)] []
  expect out.getLast? "transform result"

/-- The transformation by recursion. -/
def transformed (f : KernelExpr → Fallible Empty (Option KernelExpr)) (e : KernelExpr) : Fallible Empty KernelExpr := do
  if e.children = [] then
    let replaced ← f e
    replaced.elim (e.rebuild []) .ok
  else
    let operands ← e.children.attach.mapM fun child => transformed f child.1
    e.rebuild operands
termination_by sizeOf e
decreasing_by exact sizeOf_child child.2

theorem transformed_eq (f : KernelExpr → Fallible Empty (Option KernelExpr)) (e : KernelExpr) : transformed f e =
    if e.children = [] then f e >>= fun replaced => replaced.elim (e.rebuild []) .ok
    else e.children.mapM (transformed f) >>= e.rebuild := by
  rw [transformed]
  split
  · rfl
  · rw [← e.children.attach_map_subtype_val, mapM_map, e.children.attach_map_subtype_val]
    rfl

end KernelExpr

section Traversal

variable (f : KernelExpr → Fallible Empty (Option KernelExpr))

theorem transformLoop_visit (e : KernelExpr) (stack : List (KernelExpr × Bool)) (out : List KernelExpr) :
    transformLoop f ((e, false) :: stack) out = e.transformed f >>= fun e' => transformLoop f stack (out ++ [e']) := by
  -- the operands are smaller, and leave their results from left to right
  have hchildren : ∀ (children : List KernelExpr), (∀ child ∈ children, child ∈ e.children) → ∀ stack out,
      transformLoop f (children.map (fun child => (child, false)) ++ stack) out =
        children.mapM (KernelExpr.transformed f) >>= fun es => transformLoop f stack (out ++ es) := by
    intro children hsub
    induction children with
    | nil =>
      intro stack out
      rw [mapM_nil, pure_bind, append_nil]
      rfl
    | cons child children ih =>
      intro stack out
      rw [map_cons, cons_append, transformLoop_visit child, mapM_cons, bind_assoc]
      refine congrArg _ (funext fun e' => ?_)
      rw [ih fun c hc => hsub c (mem_cons_of_mem child hc), bind_assoc]
      refine congrArg _ (funext fun es => ?_)
      rw [pure_bind, append_assoc, singleton_append]
  rw [KernelExpr.transformed_eq, transformLoop]
  split
  · rw [bind_assoc]
  · rw [hchildren e.children fun _ h => h, bind_assoc]
    cases hoperands : e.children.mapM (KernelExpr.transformed f) with
    | error fault => rfl
    | ok es =>
      have hlength := (mapM_ok.mp hoperands).1
      have hstart : checkedSub (out ++ es).length e.children.length = some out.length := by
        rw [checkedSub, length_append, hlength, if_pos (Nat.le_add_left _ _), Nat.add_sub_cancel]
      rw [ok_bind, ok_bind, transformLoop, hstart, expect_some, ok_bind, drop_left, take_left]
termination_by sizeOf e
decreasing_by exact KernelExpr.sizeOf_child (hsub child mem_cons_self)

/-- The traversal with a stack is the recursive transformation. -/
theorem KernelExpr.transform_eq (e : KernelExpr) : e.transform f = e.transformed f := by
  rw [transform, transformLoop_visit, bind_assoc]
  cases e.transformed f with
  | error fault => rfl
  | ok e' => rw [ok_bind, transformLoop]; rfl

end Traversal

namespace KernelExpr

/-! ## Lanes -/

/-- Every lane is replaced by an expression; the other leaves stay. -/
def substitution (replace : Nat → Fallible Empty KernelExpr) : KernelExpr → Fallible Empty (Option KernelExpr)
  | input k => (replace k).map some
  | _ => .ok none

/-- `remap[&k]`. -/
def remapLane (remap : Nat → Option Nat) (k : Nat) : Fallible Empty KernelExpr :=
  (expect (remap k) "no entry found for key").map input

def remapLanes (e : KernelExpr) (remap : Nat → Option Nat) : Fallible Empty KernelExpr :=
  e.transform (substitution (remapLane remap))

/-- Inlines `replacement` for `lane` and remaps the other lanes. -/
def mergeLane (e : KernelExpr) (lane : Nat) (replacement : KernelExpr) (remap : Nat → Option Nat) : Fallible Empty KernelExpr :=
  e.transform (substitution fun k => if k = lane then .ok replacement else remapLane remap k)

/-- The lanes that an expression reads, in postorder. -/
def lanes (e : KernelExpr) : List Nat :=
  e.postorder.filterMap fun
    | .input k => some k
    | _ => none

theorem lanes_node {e : KernelExpr} (h : e.children ≠ []) : e.lanes = e.children.flatMap lanes := by
  have hop : ([e.op].filterMap fun | .input k => some k | _ => none) = ([] : List Nat) := by
    cases e with
    | input _ | scalar _ | const _ => exact absurd rfl h
    | _ => rfl
  rw [lanes, postorder_eq, filterMap_append, filterMap_flatMap]
  exact (congrArg _ hop).trans (append_nil _)

/-- A leaf is a lane, or reads none. -/
theorem lanes_leaf {e : KernelExpr} (h : e.children = []) : (∃ k, e = input k ∧ e.lanes = [k]) ∨
    (e.lanes = [] ∧ (∀ replace, substitution replace e = .ok none) ∧
      ∀ (T : Type) [Scalar T] (lane env scalar : Nat → T), e.value lane scalar = e.value env scalar) := by
  have hpost : e.postorder = [e.op] := by rw [postorder_eq, h]; rfl
  cases e with
  | input k => exact .inl ⟨k, rfl, by rw [lanes, hpost]; rfl⟩
  | scalar _ | const _ => exact .inr ⟨by rw [lanes, hpost]; rfl, fun _ => rfl, fun _ _ _ _ _ => rfl⟩
  | _ => cases h

section Values

variable {T : Type} [Scalar T] {e e' : KernelExpr} {es : List KernelExpr}

/-- The value of a node comes from the values of its operands. -/
theorem rebuild_value (h : e.rebuild es = .ok e') (hchildren : e.children ≠ []) {lane env scalar : Nat → T}
    (hvalues : es.map (value lane scalar) = e.children.map (value env scalar)) : e'.value lane scalar = e.value env scalar := by
  have hlength : es.length = e.children.length := by simpa using congrArg List.length hvalues
  cases e with
  | input _ | scalar _ | const _ => exact absurd rfl hchildren
  | select _ _ _ =>
    obtain ⟨cond, a, b, rfl⟩ := length_eq_three.mp hlength
    simp only [children, map_cons, map_nil, List.cons.injEq, and_true] at hvalues
    cases h
    simp only [value, hvalues]
  | add _ _ | sub _ _ | mul _ _ | div _ _ | min _ _ | max _ _ | lt _ _ | le _ _ | gt _ _ | ge _ _ | eq _ _ | ne _ _ =>
    obtain ⟨a, b, rfl⟩ := length_eq_two.mp hlength
    simp only [children, map_cons, map_nil, List.cons.injEq, and_true] at hvalues
    cases h
    simp only [value, hvalues]
  | cast _ _ | roundTo _ _ | semantic _ _ _ | neg _ | sqrt _ | exp _ | sin _ | cos _ | tanh _ | abs _ | log _ | floor _
  | ceil _ | round _ | powf _ _ | erf _ | gelu _ | geluTanh _ =>
    obtain ⟨a, rfl⟩ := length_eq_one_iff.mp hlength
    simp only [children, map_cons, map_nil, List.cons.injEq, and_true] at hvalues
    cases h
    simp only [value, hvalues]

end Values

section Substitution

variable {replace : Nat → Fallible Empty KernelExpr} {e e' : KernelExpr}

/-- What the lanes of an expression are replaced by. -/
def Replaced (replace : Nat → Fallible Empty KernelExpr) (e e' : KernelExpr) : Prop :=
  ∃ rs, e.lanes.mapM replace = .ok rs ∧ e'.lanes = rs.flatMap lanes ∧
    ∀ (T : Type) [Scalar T] (lane env scalar : Nat → T),
      (∀ k ∈ e.lanes, ∀ r, replace k = .ok r → env k = r.value lane scalar) → e'.value lane scalar = e.value env scalar

theorem replaced_operands {children es : List KernelExpr} (h : List.Forall₂ (Replaced replace) children es) :
    ∃ rs, (children.flatMap lanes).mapM replace = .ok rs ∧ es.flatMap lanes = rs.flatMap lanes ∧
      ∀ (T : Type) [Scalar T] (lane env scalar : Nat → T),
        (∀ k ∈ children.flatMap lanes, ∀ r, replace k = .ok r → env k = r.value lane scalar) →
          es.map (value lane scalar) = children.map (value env scalar) := by
  induction h with
  | nil => exact ⟨[], rfl, rfl, fun _ _ _ _ _ _ => rfl⟩
  | cons hchild _ ih =>
    obtain ⟨rs, hrs, hlanes, hvalue⟩ := hchild
    obtain ⟨rest, hrest, hmore, hvalues⟩ := ih
    refine ⟨rs ++ rest, ?_, ?_, fun T _ lane env scalar henv => ?_⟩
    · rw [flatMap_cons, mapM_append, hrs, ok_bind, hrest]
      rfl
    · rw [flatMap_cons, hlanes, hmore, flatMap_append]
    · rw [flatMap_cons] at henv
      rw [map_cons, map_cons, hvalue T lane env scalar fun k hk => henv k (mem_append_left _ hk),
        hvalues T lane env scalar fun k hk => henv k (mem_append_right _ hk)]

/-- Operands that are replaced make a node that is replaced. -/
theorem replaced_node {es : List KernelExpr} (hchildren : e.children ≠ []) (hoperands : List.Forall₂ (Replaced replace) e.children es)
    (h : e.rebuild es = .ok e') : Replaced replace e e' := by
  obtain ⟨e₁, he₁, hop, hes⟩ := rebuild_ok e hoperands.length_eq.symm
  cases he₁.symm.trans h
  obtain ⟨rs, hrs, hlanes, hvalues⟩ := replaced_operands hoperands
  have hnode : e'.children ≠ [] := by
    rw [hes]
    exact fun hnil => hchildren (length_eq_zero_iff.mp (hoperands.length_eq.trans (congrArg List.length hnil)))
  refine ⟨rs, by rw [lanes_node hchildren, hrs], by rw [lanes_node hnode, hes, hlanes], fun T _ lane env scalar henv => ?_⟩
  exact rebuild_value h hchildren (hvalues T lane env scalar (lanes_node hchildren ▸ henv))

/-- The transformation returns when every lane has its replacement. -/
theorem transformed_ok {e e' : KernelExpr} (h : e.transformed (substitution replace) = .ok e') : Replaced replace e e' := by
  by_cases hchildren : e.children = []
  · rw [transformed_eq, if_pos hchildren] at h
    obtain ⟨replaced, hreplaced, h⟩ := bind_ok.mp h
    rcases lanes_leaf hchildren with ⟨k, rfl, hlanes⟩ | ⟨hlanes, hnone, hvalue⟩
    · obtain ⟨r, hr, rfl⟩ := map_ok.mp hreplaced
      obtain rfl := Except.ok.inj h
      refine ⟨[r], ?_, (flatMap_singleton _ _).symm, fun T _ lane env scalar henv => ?_⟩
      · rw [hlanes, mapM_cons, hr, ok_bind, mapM_nil]
        rfl
      · exact (henv k (hlanes ▸ mem_singleton.mpr rfl) r hr).symm
    · rw [hnone] at hreplaced
      obtain rfl := Except.ok.inj hreplaced
      obtain ⟨e₁, he₁, hop, hes⟩ := rebuild_ok e (congrArg List.length hchildren.symm)
      obtain rfl : e' = e₁ := Except.ok.inj (h.symm.trans he₁)
      obtain rfl : e' = e := eq_of_children hop (hes.trans hchildren.symm)
      exact ⟨[], by rw [hlanes]; rfl, hlanes, fun T _ lane env scalar _ => hvalue T lane env scalar⟩
  · rw [transformed_eq, if_neg hchildren] at h
    obtain ⟨es, hes, h⟩ := bind_ok.mp h
    have hoperands : ∀ {children es : List KernelExpr}, (∀ child ∈ children, child ∈ e.children) →
        List.Forall₂ (fun child e' => child.transformed (substitution replace) = .ok e') children es →
          List.Forall₂ (Replaced replace) children es := by
      intro children es hsub hes
      induction hes with
      | nil => exact .nil
      | @cons child _ _ _ hchild _ ih =>
        exact .cons (transformed_ok hchild) (ih fun c hc => hsub c (mem_cons_of_mem child hc))
    exact replaced_node hchildren (hoperands (fun _ h => h) (mapM_forall₂.mp hes)) h
termination_by sizeOf e
decreasing_by exact sizeOf_child (hsub child mem_cons_self)

/-- A lane without replacement is the only reason to stop. -/
theorem exists_transformed {e : KernelExpr} (h : ∀ k ∈ e.lanes, ∃ r, replace k = .ok r) :
    ∃ e', e.transformed (substitution replace) = .ok e' := by
  by_cases hchildren : e.children = []
  · simp only [transformed_eq, if_pos hchildren]
    rcases lanes_leaf hchildren with ⟨k, rfl, hlanes⟩ | ⟨hlanes, hnone, -⟩
    · obtain ⟨r, hr⟩ := h k (hlanes ▸ mem_singleton.mpr rfl)
      exact ⟨r, by rw [substitution, hr]; rfl⟩
    · obtain ⟨e', he', -⟩ := rebuild_ok e (congrArg List.length hchildren.symm)
      exact ⟨e', by rw [hnone]; exact he'⟩
  · simp only [transformed_eq, if_neg hchildren]
    rw [lanes_node hchildren] at h
    have hoperands : ∀ child ∈ e.children, ∃ e', child.transformed (substitution replace) = .ok e' := fun child hchild =>
      exists_transformed fun k hk => h k (mem_flatMap.mpr ⟨child, hchild, hk⟩)
    obtain ⟨es, hes⟩ := exists_forall₂ hoperands
    obtain ⟨e', he', -⟩ := rebuild_ok e hes.length_eq.symm
    exact ⟨e', by rw [mapM_forall₂.mpr hes]; exact he'⟩
termination_by sizeOf e
decreasing_by exact sizeOf_child hchild

/-- The transformation returns when every lane has its replacement, and then it is substitution. -/
theorem transform_substitution (e : KernelExpr) (replace : Nat → Fallible Empty KernelExpr) :
    ((∃ e', e.transform (substitution replace) = .ok e') ↔ ∀ k ∈ e.lanes, ∃ r, replace k = .ok r) ∧
    ∀ e', e.transform (substitution replace) = .ok e' →
      e'.lanes = (e.lanes.flatMap fun k => (replace k).toOption.elim [] lanes) ∧
      ∀ (T : Type) [Scalar T] (lane env scalar : Nat → T),
        (∀ k ∈ e.lanes, ∀ r, replace k = .ok r → env k = r.value lane scalar) → e'.value lane scalar = e.value env scalar := by
  rw [transform_eq]
  refine ⟨⟨?_, exists_transformed⟩, fun e' h => ?_⟩
  · rintro ⟨e', h⟩ k hk
    obtain ⟨rs, hrs, -⟩ := transformed_ok h
    obtain ⟨r, -, hr⟩ := mapM_mem_left hrs hk
    exact ⟨r, hr⟩
  · obtain ⟨rs, hrs, hlanes, hvalue⟩ := transformed_ok h
    refine ⟨?_, hvalue⟩
    rw [hlanes, flatMap_def, flatMap_def]
    refine congrArg List.flatten (map_eq_of_forall₂ (mapM_forall₂.mp hrs) fun k r hr => ?_)
    rw [hr]
    rfl

theorem remapLane_ok {remap : Nat → Option Nat} {k : Nat} {r : KernelExpr} :
    remapLane remap k = .ok r ↔ ∃ k', remap k = some k' ∧ input k' = r := by
  rw [remapLane, map_ok]
  exact exists_congr fun k' => and_congr_left fun _ => expect_ok

theorem lanes_input (k : Nat) : (input k).lanes = [k] := by
  rw [lanes, postorder_eq]
  rfl

/-- Inlining a lane and remapping the others is substitution, and so is remapping alone: no lane is captured or lost. -/
theorem mergeLane_value (e replacement : KernelExpr) (lane : Nat) (remap : Nat → Option Nat) :
    ((∃ e', e.mergeLane lane replacement remap = .ok e') ↔ ∀ k ∈ e.lanes, k ≠ lane → ∃ k', remap k = some k') ∧
    (∀ e', e.mergeLane lane replacement remap = .ok e' →
      e'.lanes = (e.lanes.flatMap fun k => if k = lane then replacement.lanes else (remap k).toList) ∧
      ∀ (T : Type) [Scalar T] (env scalar : Nat → T), e'.value env scalar =
        e.value (fun k => if k = lane then replacement.value env scalar else env ((remap k).getD 0)) scalar) ∧
    ((∃ e', e.remapLanes remap = .ok e') ↔ ∀ k ∈ e.lanes, ∃ k', remap k = some k') ∧
    ∀ e', e.remapLanes remap = .ok e' →
      e'.lanes = (e.lanes.flatMap fun k => (remap k).toList) ∧
      ∀ (T : Type) [Scalar T] (env scalar : Nat → T), e'.value env scalar =
        e.value (fun k => env ((remap k).getD 0)) scalar := by
  have hsome : ∀ {k : Nat}, (∃ r, remapLane remap k = .ok r) ↔ ∃ k', remap k = some k' := by
    intro k
    simp only [remapLane_ok]
    exact ⟨fun ⟨_, k', h, _⟩ => ⟨k', h⟩, fun ⟨k', h⟩ => ⟨_, k', h, rfl⟩⟩
  have hlanes : ∀ k, (remapLane remap k).toOption.elim [] lanes = (remap k).toList := by
    intro k
    rw [remapLane]
    cases remap k with
    | none => rfl
    | some k' => exact lanes_input k'
  obtain ⟨hmerge, hmerged⟩ := e.transform_substitution fun k => if k = lane then .ok replacement else remapLane remap k
  obtain ⟨hremap, hremapped⟩ := e.transform_substitution (remapLane remap)
  refine ⟨hmerge.trans (forall₂_congr fun k _ => ?_), fun e' h => ?_, hremap.trans (forall₂_congr fun _ _ => hsome), fun e' h => ?_⟩
  · by_cases hk : k = lane
    · simp [hk]
    · simp only [hk, if_false, hsome, ne_eq, not_false_eq_true, true_implies]
  · obtain ⟨hl, hv⟩ := hmerged e' h
    refine ⟨hl.trans (flatMap_congr fun k _ => ?_), fun T _ env scalar => hv T env _ scalar fun k _ r hr => ?_⟩
    · by_cases hk : k = lane
      · simp only [hk, if_true]
        rfl
      · simp only [hk, if_false, hlanes]
    · by_cases hk : k = lane
      · simp only [hk, if_true, Except.ok.injEq] at hr ⊢
        rw [hr]
      · simp only [hk, if_false] at hr ⊢
        obtain ⟨k', hk', rfl⟩ := remapLane_ok.mp hr
        rw [hk']
        rfl
  · obtain ⟨hl, hv⟩ := hremapped e' h
    refine ⟨hl.trans (flatMap_congr fun k _ => hlanes k), fun T _ env scalar => hv T env _ scalar fun k _ r hr => ?_⟩
    obtain ⟨k', hk', rfl⟩ := remapLane_ok.mp hr
    rw [hk']
    rfl

end Substitution

end KernelExpr

end EffectTorch
