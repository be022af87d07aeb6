import EffectTorch.Graph.ValueOps

/-!
# The adjoints of index operations

An index operation reads its operands at the positions that its indices name. Its transpose gives
each position of an operand the sum of the cotangents of the positions that read it.

Results:
1. `indexAdjoint_exact_iff`: when the rules give the transpose.
-/

namespace EffectTorch
open List Lib Value

variable {K : Type} [CommRing K] [Trigonometric K] {build : Build}

omit [CommRing K] [Trigonometric K] in
theorem Value.InBounds.index_lt {indexes : Value K} {extent : Nat} {c : List Nat}
    (h : indexes.InBounds extent c) : indexes.index c < extent :=
  (Int.toNat_lt h.1).mpr h.2

/-! ## Programs that the kernels accept -/

namespace NodeProgram

variable {α β : Type} {program : NodeProgram (Value K) α} {f : α → NodeProgram (Value K) β}

theorem Evaluates.bind (h : program.Evaluates)
    (hf : ∀ a, program.interpret denote = .ok a → (f a).Evaluates) : (program >>= f).Evaluates := by
  induction program with
  | done a => exact hf a rfl
  | error fault => exact h
  | new kind next ih =>
    refine ⟨h.1, fun v hv => ih v (h.2 v hv) fun a ha => hf a ?_⟩
    rw [interpret, hv]
    exact ha

theorem Evaluates.of_bind {a : α} (h : (program >>= f).Evaluates) (ha : program.interpret denote = .ok a) :
    (f a).Evaluates := by
  induction program with
  | done b =>
    cases ha
    exact h
  | error fault => exact absurd h id
  | new kind next ih =>
    obtain ⟨v, hv, hrest⟩ := bind_ok.mp ha
    exact ih v (h.2 v hv) hrest

theorem Evaluates.left (h : (program >>= f).Evaluates) : program.Evaluates := by
  induction program with
  | done a => trivial
  | error fault => exact h
  | new kind next ih => exact ⟨h.1, fun v hv => ih v (h.2 v hv)⟩

theorem evaluates_foldlM {σ : Type} {f : σ → α → NodeProgram (Value K) σ} (h : ∀ s a, (f s a).Evaluates)
    (l : List α) (s : σ) : (l.foldlM f s).Evaluates := by
  induction l generalizing s with
  | nil => trivial
  | cons a l ih =>
    rw [foldlM_cons]
    exact (h s a).bind fun s' _ => ih s'

theorem evaluates_newNode {kind : NodeKind (Value K)} : (newNode kind).Evaluates ↔ Value.Evaluates kind :=
  ⟨And.left, fun h => ⟨h, fun _ _ => trivial⟩⟩

end NodeProgram

namespace Adjoint

theorem reshape_evaluates (a : Value K) (shape : List Nat) : (reshape a shape).Evaluates := by
  rw [reshape]
  split
  · trivial
  · exact NodeProgram.evaluates_newNode.mpr trivial

theorem broadcastTo_evaluates (a : Value K) (shape : List Nat) : (broadcastTo a shape).Evaluates := by
  rw [broadcastTo]
  split
  · trivial
  · exact NodeProgram.evaluates_newNode.mpr trivial

theorem zerosLike_evaluates (a : Value K) : (zerosLike a).Evaluates :=
  NodeProgram.evaluates_newNode.mpr trivial

theorem zerosLike_ok (a : Value K) : (zerosLike a).interpret denote = .ok (a.alike a.shape fun _ => 0) := by
  rw [zerosLike, NodeProgram.interpret_newNode]
  exact denote_zeros a a.shape

variable {dim : Nat} {a indexes src g : Value K}

/-- What is scattered into zeros. -/
theorem scatter_ok (hdim : dim < a.shape.length) (hindexes : indexes.dtype = .i64 ∨ indexes.dtype = .u32)
    (hshape : indexes.shape = src.shape) (hdtype : src.dtype = a.dtype)
    (hdevice : indexes.device = a.device ∧ src.device = a.device) :
    ∃ v, (do
      let z ← zerosLike a
      newNode (.scatterAdd z dim indexes src)).interpret denote = .ok v ∧ v.shape = a.shape ∧
      ∀ c, v.data c = sumOver src.shape fun k => if k.set dim (indexes.index k) = c then src.data k else 0 := by
  rw [NodeProgram.interpret_bind, zerosLike_ok, ok_bind, NodeProgram.interpret_newNode,
    denote_scatterAdd (a := a.alike a.shape fun _ => 0) hdim hindexes hshape hdtype hdevice]
  exact ⟨_, rfl, rfl, fun c => zero_add _⟩

theorem scatter_evaluates : (do
      let z ← zerosLike a
      newNode (.scatterAdd z dim indexes src)).Evaluates ↔ Value.Evaluates (.scatterAdd a dim indexes src) := by
  constructor
  · intro h
    have hrest := NodeProgram.evaluates_newNode.mp (h.of_bind (zerosLike_ok a))
    exact hrest
  · intro h
    refine (zerosLike_evaluates a).bind fun z hz => NodeProgram.evaluates_newNode.mpr ?_
    obtain rfl := Except.ok.inj ((zerosLike_ok a).symm.trans hz)
    exact h

/-! ## Transposes -/

/-- Each position of `v` has the sum of the cotangents of the positions that read it. -/
def Receives (g v : Value K) (shape : List Nat) (reads : List Nat → List Nat → Bool) : Prop :=
  v.shape = shape ∧ ∀ c, Coordinate shape c →
    v.data c = sumOver g.shape fun k => if reads k c then g.data k else 0

/-- What the operands receive is the transpose of the operation. -/
def Transposes (g : Value K) (received : List (Value K × Value K)) : NodeKind (Value K) → Prop
  | .indexSelect a dim indexes => ∃ v, received = [(a, v)] ∧
    Receives g v a.shape fun k c => k.set dim (indexes.index [k.getD dim 0]) = c
  | .gather a dim indexes => ∃ v, received = [(a, v)] ∧
    Receives g v a.shape fun k c => k.set dim (indexes.index k) = c
  | .scatterAdd a dim indexes src => ∃ u v, received = [(a, u), (src, v)] ∧
    (Receives g u a.shape fun k c => k = c) ∧
    Receives g v src.shape fun k c => c.set dim (indexes.index c) = k
  | _ => False

/-- The rule builds the cotangents of the operands, and they are those of the transpose if the
operation itself can be evaluated. -/
def Exact (build : Build) (kind : NodeKind (Value K)) (g : Value K) : Prop :=
  ∃ received, (adjoint build kind g).interpret denote = .ok received ∧
    (Value.Evaluates kind → (adjoint build kind g).Evaluates ∧ Transposes g received kind)

/-! ## Selections -/

/-- The indices of a selection at the positions of its cotangent. -/
theorem selected_ok (pre post : List Nat) {n : Nat} (hindexes : indexes.shape = [n]) :
    ∃ row idx, (reshape indexes
        (List.replicate pre.length 1 ++ n :: List.replicate post.length 1)).interpret denote = .ok row ∧
      (broadcastTo row (pre ++ n :: post)).interpret denote = .ok idx ∧
      idx.shape = pre ++ n :: post ∧ idx.dtype = indexes.dtype ∧ idx.device = indexes.device ∧
      ∀ k, Coordinate (pre ++ n :: post) k → idx.data k = indexes.data [k.getD pre.length 0] := by
  have hlen : (List.replicate pre.length 1 ++ n :: List.replicate post.length 1).length =
      (pre ++ n :: post).length := by
    simp
  obtain ⟨row, hrow, hspread⟩ := Spread.reshape indexes
    (List.replicate pre.length 1 ++ n :: List.replicate post.length 1) (by simp [hindexes])
  obtain ⟨idx, hidx, hshape, hdtype, hdevice, hdata⟩ := @broadcastTo_ok K _ _ row (pre ++ n :: post)
    (by rw [hspread.shape, hlen]) (by
      rw [hspread.shape, hlen, Nat.sub_self, drop_zero]
      exact (repeats_ones pre).axis n (repeats_ones post))
  refine ⟨row, idx, hrow, hidx, hshape, hdtype.trans hspread.dtype, hdevice.trans hspread.device, ?_⟩
  intro k hk
  rw [hdata k hk]
  obtain ⟨ci, x, cj, rfl, hi, hx, hj⟩ := coordinate_split.mp hk
  have hone : Coordinate indexes.shape [x] := hindexes ▸ .cons hx .nil
  have hrow : rowIndex indexes.shape [x] = x := by
    rw [hindexes, rowIndex_cons, prod_nil, Nat.mul_one]
    rfl
  have hsquash : squash row.shape ((ci ++ x :: cj).drop ((ci ++ x :: cj).length - row.shape.length)) =
      List.replicate pre.length 0 ++ x :: List.replicate post.length 0 := by
    rw [hspread.shape, hlen, ← hk.length_eq, Nat.sub_self, drop_zero, squash_append (by rw [length_replicate, hi.length_eq]), squash_ones hi.length_eq]
    exact congrArg _ (congrArg₂ _ (squash_axis hx) (squash_ones hj.length_eq))
  have hplaced := hspread.places.placed [x] hone
  have hinside : Coordinate (List.replicate pre.length 1 ++ n :: List.replicate post.length 1)
      (List.replicate pre.length 0 ++ x :: List.replicate post.length 0) :=
    coordinate_mk (coordinate_ones.mpr rfl) hx (coordinate_ones.mpr rfl)
  rw [hrow, ← rowIndex_between_ones pre.length post.length n x, unravel_rowIndex hinside] at hplaced
  rw [Value.repeated, hsquash, hplaced, getD_coordinate hi, rowIndex_between_ones]

theorem indexSelect_exact (hg : inferMetadata (.indexSelect a dim indexes) = .ok g.toSignature) :
    Exact build (.indexSelect a dim indexes) g := by
  obtain ⟨hoperation, hdevice⟩ := inferMetadata_iff.mp hg
  obtain ⟨hdim, hindexDType, n, hindexes, hresult⟩ := Metadata.indexSelect_ok hoperation
  obtain ⟨hgshape, hgdtype, hgdevice⟩ : g.shape = a.shape.set dim n ∧ g.dtype = a.dtype ∧ g.device = a.device :=
    ⟨congrArg Prod.fst hresult, congrArg (·.2.1) hresult, congrArg (·.2.2) hresult⟩
  obtain ⟨pre, d, post, ha, rfl⟩ := @exists_axis Nat a.shape _ hdim
  rw [ha, set_axis] at hgshape
  obtain ⟨row, idx, hrow, hidx, hshape, hdtype, hidxDevice, hdata⟩ :=
    selected_ok pre post hindexes
  have hones : (List.replicate (shapeOf a).length 1).set pre.length ((shapeOf indexes).getD 0 0) =
      List.replicate pre.length 1 ++ n :: List.replicate post.length 1 := by
    rw [hindexes, shapeOf_value, ha]
    exact ones_axis pre post d n
  obtain ⟨v, hv, hvshape, hvdata⟩ := scatter_ok hdim (hdtype ▸ hindexDType) (hshape.trans hgshape.symm) hgdtype
    ⟨hidxDevice.trans ((hdevice indexes (by simp [nodeChildren])).trans hgdevice), hgdevice⟩
  refine ⟨[(a, v)], ?_, fun hevaluates => ⟨?_, v, rfl, hvshape, fun c _ => ?_⟩⟩
  · rw [adjoint, NodeProgram.interpret_bind, indexSelect, hones, NodeProgram.interpret_bind, hrow, ok_bind,
      NodeProgram.interpret_bind, shapeOf_value, hgshape, hidx, ok_bind, hv]
    rfl
  · refine @NodeProgram.Evaluates.bind K _ _ _ _ (indexSelect a pre.length indexes g) _ ?_ fun _ _ => trivial
    rw [indexSelect, hones, shapeOf_value, hgshape]
    refine (reshape_evaluates _ _).bind fun row' hrow' => ?_
    obtain rfl := Except.ok.inj (hrow.symm.trans hrow')
    refine (broadcastTo_evaluates _ _).bind fun idx' hidx' => scatter_evaluates.mpr ?_
    obtain rfl := Except.ok.inj (hidx.symm.trans hidx')
    refine ⟨?_, fun i _ hne => ?_, fun c hc => ?_⟩
    · rw [hgshape, ha, length_append, length_append]
      rfl
    · rw [hgshape, ha]
      exact Nat.le_of_eq (getD_off_axis pre post n d 0 hne)
    · rw [hgshape] at hc
      have hbounds := hevaluates c (by rw [ha, set_axis, ← shapeOf_value indexes, hindexes]; exact hc)
      rw [InBounds, hdata c hc]
      exact hbounds
  · rw [hvdata c]
    refine sumOver_congr fun k hk => ?_
    have hindex : idx.index k = indexes.index [k.getD pre.length 0] := by
      rw [Value.index, Value.index, hdata k (hgshape ▸ hk)]
    simp only [hindex, decide_eq_true_eq]

/-! ## Scattered sums -/

theorem scatterAdd_exact_iff (hg : inferMetadata (.scatterAdd a dim indexes src) = .ok g.toSignature) :
    Exact build (.scatterAdd a dim indexes src) g ↔ Metadata.GatherFits a dim src := by
  obtain ⟨hoperation, hdevice⟩ := inferMetadata_iff.mp hg
  obtain ⟨hdim, hindexDType, hshape, hsrc, hresult⟩ := Metadata.scatterAdd_ok hoperation
  obtain ⟨hgshape, hgdevice⟩ : g.shape = a.shape ∧ g.device = a.device :=
    ⟨congrArg Prod.fst hresult, congrArg (·.2.2) hresult⟩
  have hfits : Metadata.GatherFits g dim indexes ↔ Metadata.GatherFits a dim src := by
    have hsame : shapeOf g = shapeOf a := hgshape
    rw [Metadata.GatherFits, Metadata.GatherFits, hshape, hsame]
  rw [← hfits]
  constructor
  · rintro ⟨received, hrun, _⟩
    rw [adjoint, NodeProgram.interpret_bind, NodeProgram.interpret_newNode] at hrun
    obtain ⟨v, hv, _⟩ := bind_ok.mp hrun
    obtain ⟨signature, hinfer, _⟩ := bind_ok.mp hv
    exact (Metadata.gather_ok.mp (inferMetadata_iff.mp hinfer).1).2.2.1
  · intro h
    have hgather := denote_gather (a := g) (hgshape ▸ hdim) hindexDType h
      (hdevice indexes (by simp [nodeChildren]))
    refine ⟨[(a, g), (src, g.alike indexes.shape fun c => g.data (c.set dim (indexes.index c)))], ?_,
      fun hevaluates => ⟨?_, g, _, rfl, ⟨hgshape, fun c hc => ?_⟩, hshape, fun c hc => ?_⟩⟩
    · rw [adjoint, NodeProgram.interpret_bind, NodeProgram.interpret_newNode, hgather]
      rfl
    · refine NodeProgram.Evaluates.bind (NodeProgram.evaluates_newNode.mpr fun c hc => ?_) fun _ _ => trivial
      rw [hgshape]
      rw [show indexes.shape = src.shape from hshape] at hc
      exact hevaluates.2.2 c hc
    · rw [← hgshape] at hc
      rw [sumOver_single hc fun c' _ hne => if_neg (by simpa using hne), if_pos (by simp)]
    · have hinside : Coordinate g.shape (c.set dim (indexes.index c)) := by
        obtain ⟨hrank, hle, hbounds⟩ := hevaluates
        rw [hgshape]
        exact coordinate_set hc hrank hle (hbounds c hc).index_lt
      rw [sumOver_single hinside fun k _ hne => if_neg (by simpa using hne.symm), if_pos (by simp)]
      rfl

/-! ## Padding -/

section Padding

/-- The shape of the cotangent and the indices of a gather after the turns for `i` axes. -/
def paddedUpTo (a : Value K) (dim : Nat) (shape : List Nat) (i : Nat) : List Nat :=
  (a.shape.set dim (shape.getD dim 0)).take i ++ shape.drop i

/-- The cotangent and the indices have zeros behind them, in the same places. -/
def Padded (a : Value K) (dim : Nat) (indexes g : Value K) (i : Nat) (padded : Value K × Value K) : Prop :=
  g.Spread (paddedUpTo a dim indexes.shape i) id padded.1 ∧
    indexes.Spread (paddedUpTo a dim indexes.shape i) id padded.2

/-- An axis that is not padded, or indices of the dtype of the padding. -/
def CanPad (a : Value K) (dim : Nat) (indexes : Value K) (i : Nat) : Prop :=
  i = dim ∨ indexes.shape.getD i 0 = a.shape.getD i 0 ∨ indexes.dtype = .i64

variable {a indexes g : Value K} {dim i : Nat} {padded : Value K × Value K}

theorem concat_dtype {b v : Value K} (h : denote (.concat a b dim) = .ok v) : a.dtype = b.dtype := by
  obtain ⟨signature, hinfer, _⟩ := bind_ok.mp h
  obtain ⟨_, hdtype, _⟩ := bind_ok.mp (inferMetadata_iff.mp hinfer).1
  exact not_not.mp (rejectIf_ok.mp hdtype)

/-- One turn pads an axis to the size of the input. -/
theorem padAxis_axis {pre post : List Nat} {d n : Nat} (hg : padded.1.shape = pre ++ d :: post)
    (hindexes : padded.2.shape = pre ++ d :: post) (hn : a.shape.getD pre.length 0 = n)
    (hle : pre.length ≠ dim → d ≤ n) (hcan : pre.length = dim ∨ d = n ∨ padded.2.dtype = .i64) :
    ∃ padded', (padAxis a dim padded pre.length).interpret denote = .ok padded' ∧
      padded.1.Spread (pre ++ (if pre.length = dim then d else n) :: post) id padded'.1 ∧
      padded.2.Spread (pre ++ (if pre.length = dim then d else n) :: post) id padded'.2 := by
  obtain ⟨u, idx⟩ := padded
  have hmissing : (shapeOf a).getD pre.length 0 - (shapeOf u).getD pre.length 0 = n - d := by
    rw [shapeOf_value, hn, shapeOf_value, hg, getD_axis]
  rw [padAxis, hmissing]
  by_cases hskip : pre.length = dim ∨ n - d = 0
  · rw [if_pos hskip]
    have hsize : (if pre.length = dim then d else n) = d := by
      split
      · rfl
      · next hne => exact Nat.le_antisymm (Nat.sub_eq_zero_iff_le.mp (hskip.resolve_left hne)) (hle hne)
    rw [hsize, ← hg]
    exact ⟨(u, idx), rfl, .refl u, hg ▸ hindexes ▸ .refl idx⟩
  · rw [if_neg hskip]
    obtain ⟨hne, hpos⟩ := not_or.mp hskip
    have hdtype : idx.dtype = .i64 := (hcan.resolve_left hne).resolve_left fun heq => hpos (by rw [heq, Nat.sub_self])
    rw [if_neg hne]
    obtain ⟨u', hu', hspread⟩ := Spread.concat_zeros (u.shape.set pre.length (n - d)) hg (by rw [hg, set_axis])
    obtain ⟨idx', hidx', hidxSpread⟩ := Spread.concat_zeros (idx.shape.set pre.length (n - d)) hindexes (by
      rw [hindexes, set_axis])
    rw [Nat.add_sub_of_le (hle hne)] at hspread hidxSpread
    refine ⟨(u', idx'), ?_, hspread, hidxSpread⟩
    rw [NodeProgram.interpret_bind, zerosAlong_ok, ok_bind, NodeProgram.interpret_bind,
      NodeProgram.interpret_newNode, hu', ok_bind, NodeProgram.interpret_bind, NodeProgram.interpret_newNode,
      ← hdtype, deviceOf_value, shapeOf_value, denote_zeros, ok_bind, NodeProgram.interpret_bind,
      NodeProgram.interpret_newNode, hidx']
    rfl

/-- The zeros behind the indices are of `i64`. -/
theorem padAxis_canPad {padded' : Value K × Value K}
    (h : (padAxis a dim padded i).interpret denote = .ok padded') :
    i = dim ∨ a.shape.getD i 0 - padded.1.shape.getD i 0 = 0 ∨ padded.2.dtype = .i64 := by
  obtain ⟨u, idx⟩ := padded
  rw [padAxis] at h
  split at h
  · next hskip => exact hskip.imp_right .inl
  · rw [NodeProgram.interpret_bind] at h
    obtain ⟨z, _, h⟩ := bind_ok.mp h
    rw [NodeProgram.interpret_bind] at h
    obtain ⟨u', _, h⟩ := bind_ok.mp h
    rw [NodeProgram.interpret_bind, NodeProgram.interpret_newNode] at h
    obtain ⟨z', hz', h⟩ := bind_ok.mp h
    rw [NodeProgram.interpret_bind, NodeProgram.interpret_newNode] at h
    obtain ⟨idx', hconcat, _⟩ := bind_ok.mp h
    have hdtype : z'.dtype = .i64 := by
      obtain ⟨signature, hinfer, hdata⟩ := bind_ok.mp hz'
      obtain ⟨data, _, hdata⟩ := bind_ok.mp hdata
      cases hdata
      exact (congrArg (·.2.1) (Except.ok.inj (inferMetadata_iff.mp hinfer).1)).symm
    exact .inr (.inr ((concat_dtype hconcat).trans hdtype))

omit [CommRing K] [Trigonometric K] in
theorem paddedUpTo_split {shape : List Nat} (hrank : shape.length = a.shape.length) (hi : i < a.shape.length) :
    ∃ pre post, pre.length = i ∧ paddedUpTo a dim shape i = pre ++ shape.getD i 0 :: post ∧
      paddedUpTo a dim shape (i + 1) =
        pre ++ (if i = dim then shape.getD i 0 else a.shape.getD i 0) :: post := by
  have hset : i < (a.shape.set dim (shape.getD dim 0)).length := by rwa [length_set]
  have hshape : i < shape.length := hrank ▸ hi
  refine ⟨(a.shape.set dim (shape.getD dim 0)).take i, shape.drop (i + 1),
    length_take_of_le (Nat.le_of_lt hset), ?_, ?_⟩
  · rw [paddedUpTo, drop_eq_getElem_cons hshape, getD_eq_getElem _ _ hshape]
  · rw [paddedUpTo, take_succ_eq_append_getElem hset, append_assoc, singleton_append,
      getElem_set, getD_eq_getElem _ _ hi]
    by_cases hdim : i = dim
    · subst hdim
      rw [if_pos rfl]
    · rw [if_neg (Ne.symm hdim), if_neg hdim]

/-- What one turn does to what the turns before have padded. -/
theorem padAxis_padded (hfits : Metadata.GatherFits a dim indexes)
    (hi : i < a.shape.length) (hpadded : Padded a dim indexes g i padded) :
    (CanPad a dim indexes i → ∃ padded', (padAxis a dim padded i).interpret denote = .ok padded' ∧
      Padded a dim indexes g (i + 1) padded') ∧
    ∀ padded', (padAxis a dim padded i).interpret denote = .ok padded' → CanPad a dim indexes i := by
  obtain ⟨hgSpread, hidxSpread⟩ := hpadded
  obtain ⟨pre, post, rfl, hnow, hthen⟩ := @paddedUpTo_split K a dim _ indexes.shape hfits.1 hi
  have hle : pre.length ≠ dim → indexes.shape.getD pre.length 0 ≤ a.shape.getD pre.length 0 :=
    hfits.2 pre.length hi
  rw [hnow] at hgSpread hidxSpread
  constructor
  · intro hcan
    obtain ⟨padded', hrun, hgNext, hidxNext⟩ := @padAxis_axis K _ _ a dim _ _ _ _ _ hgSpread.shape hidxSpread.shape
      rfl hle (by rwa [hidxSpread.dtype])
    refine ⟨padded', hrun, ?_⟩
    rw [Padded, hthen]
    exact ⟨hgSpread.trans hgNext, hidxSpread.trans hidxNext⟩
  · intro padded' hrun
    rcases padAxis_canPad hrun with hdim | hmissing | hdtype
    · exact .inl hdim
    · by_cases hdim : pre.length = dim
      · exact .inl hdim
      · rw [hgSpread.shape, getD_axis] at hmissing
        exact .inr (.inl (Nat.le_antisymm (hle hdim) (Nat.sub_eq_zero_iff_le.mp hmissing)))
    · exact .inr (.inr (hidxSpread.dtype.symm.trans hdtype))

omit [Trigonometric K] in
theorem padded_zero (hg : g.shape = indexes.shape) : Padded a dim indexes g 0 (g, indexes) :=
  ⟨hg ▸ .refl g, .refl indexes⟩

/-- The loop over the axes returns if every axis can be padded. -/
theorem padAxes_ok (hfits : Metadata.GatherFits a dim indexes) (hg : g.shape = indexes.shape)
    (hcan : ∀ i < a.shape.length, CanPad a dim indexes i) :
    ∃ padded, ((List.range a.shape.length).foldlM (padAxis a dim) (g, indexes)).interpret denote = .ok padded ∧
      g.Spread (a.shape.set dim (indexes.shape.getD dim 0)) id padded.1 ∧
      indexes.Spread (a.shape.set dim (indexes.shape.getD dim 0)) id padded.2 := by
  have hrank : indexes.shape.length = a.shape.length := hfits.1
  obtain ⟨padded, hrun, hpadded⟩ := foldlM_total
    (f := fun padded i => (padAxis a dim padded i).interpret denote) (fun done padded => Padded a dim indexes g done.length padded) (List.range a.shape.length)
    (fun done i rest padded hsplit hpadded => by
      obtain ⟨rfl, hi⟩ := range_eq_length hsplit
      rw [length_append, length_singleton]
      exact (padAxis_padded hfits hi hpadded).1 (hcan _ hi))
    (g, indexes) (padded_zero hg)
  rw [NodeProgram.interpret_foldlM]
  rw [length_range] at hpadded
  have hall : paddedUpTo a dim indexes.shape a.shape.length = a.shape.set dim (indexes.shape.getD dim 0) := by
    rw [paddedUpTo, take_of_length_le (Nat.le_of_eq length_set),
      drop_of_length_le (Nat.le_of_eq hrank), append_nil]
  rw [Padded, hall] at hpadded
  exact ⟨padded, hrun, hpadded⟩

/-- It returns only then. -/
theorem canPad_of_padAxes (hfits : Metadata.GatherFits a dim indexes) (hg : g.shape = indexes.shape)
    (h : ((List.range a.shape.length).foldlM (padAxis a dim) (g, indexes)).interpret denote = .ok padded) :
    ∀ i < a.shape.length, CanPad a dim indexes i := by
  rw [NodeProgram.interpret_foldlM] at h
  obtain ⟨_, hcan⟩ := foldlM_invariant
    (fun done padded => Padded a dim indexes g done.length padded ∧ ∀ i ∈ done, CanPad a dim indexes i)
    (List.range a.shape.length)
    (fun done i rest padded padded' hsplit ⟨hpadded, hdone⟩ hstep => by
      obtain ⟨rfl, hi⟩ := range_eq_length hsplit
      obtain ⟨hok, hcan⟩ := padAxis_padded hfits hi hpadded
      obtain ⟨padded'', hstep', hpadded'⟩ := hok (hcan padded' hstep)
      obtain rfl := Except.ok.inj (hstep.symm.trans hstep')
      rw [length_append, length_singleton]
      exact ⟨hpadded', forall_mem_append.mpr ⟨hdone, forall_mem_singleton.mpr (hcan padded' hstep)⟩⟩)
    ⟨padded_zero hg, fun _ h => nomatch h⟩ h
  exact fun i hi => hcan i (mem_range.mpr hi)

end Padding

/-! ## Gathers -/

theorem padAxis_evaluates (a : Value K) (dim : Nat) (padded : Value K × Value K) (i : Nat) :
    (padAxis a dim padded i).Evaluates := by
  obtain ⟨u, idx⟩ := padded
  rw [padAxis]
  split
  · trivial
  · refine NodeProgram.Evaluates.bind (NodeProgram.evaluates_newNode.mpr trivial) fun z _ => ?_
    refine NodeProgram.Evaluates.bind (NodeProgram.evaluates_newNode.mpr trivial) fun u' _ => ?_
    refine NodeProgram.Evaluates.bind (NodeProgram.evaluates_newNode.mpr trivial) fun z' _ => ?_
    exact NodeProgram.Evaluates.bind (NodeProgram.evaluates_newNode.mpr trivial) fun idx' _ => trivial

/-- No axis is padded, or the indices are `i64` and index zero can be read where there is padding. -/
def GatherPads (a : Value K) (dim : Nat) (indexes : Value K) : Prop :=
  (∀ i < a.shape.length, i ≠ dim → indexes.shape.getD i 0 = a.shape.getD i 0) ∨
    indexes.dtype = .i64 ∧ (a.shape.getD dim 0 = 0 → 0 ∈ indexes.shape →
      0 ∈ a.shape.set dim (indexes.shape.getD dim 0))

omit [Trigonometric K] in
/-- The padded indices are in bounds if those of the gather are. -/
theorem padded_inBounds {idx : Value K} {c : List Nat} (hfits : Metadata.GatherFits a dim indexes)
    (hpads : GatherPads a dim indexes) (hevaluates : Value.Evaluates (.gather a dim indexes))
    (hidx : indexes.Spread (a.shape.set dim (indexes.shape.getD dim 0)) id idx)
    (hc : Coordinate (a.shape.set dim (indexes.shape.getD dim 0)) c) : idx.InBounds (a.shape.getD dim 0) c := by
  by_cases hread : Coordinate indexes.shape c
  · rw [InBounds, show idx.data c = indexes.data c from hidx.places.placed c hread]
    exact hevaluates c hread
  · have hzero : idx.data c = 0 := hidx.places.zero c hc fun k hk heq => hread (heq ▸ hk)
    rw [InBounds, hzero]
    refine ⟨Int.le_refl 0, Int.natCast_pos.mpr (Nat.pos_of_ne_zero fun hempty => ?_)⟩
    have hnone : 0 ∈ indexes.shape := by
      by_contra hpositive
      obtain ⟨hnonneg, hlt⟩ := hevaluates _ (coordinate_origin hpositive)
      rw [hempty] at hlt
      exact absurd hlt (Int.not_lt.mpr hnonneg)
    rcases hpads with hsame | ⟨_, hpads⟩
    · have hshape : a.shape.set dim (indexes.shape.getD dim 0) = indexes.shape := by
        refine ext_getElem (by rw [length_set]; exact hfits.1.symm) fun i hi hi' => ?_
        rw [length_set] at hi
        rw [getElem_set]
        split
        · next h =>
          subst h
          exact getD_eq_getElem _ _ hi'
        · next h =>
          have heq := hsame i hi (Ne.symm h)
          rw [getD_eq_getElem _ _ hi', getD_eq_getElem _ _ hi] at heq
          exact heq.symm
      exact hread (hshape ▸ hc)
    · exact Coordinate.positive hc (hpads hempty hnone)

theorem gather_exact_iff (hg : inferMetadata (.gather a dim indexes) = .ok g.toSignature) :
    Exact build (.gather a dim indexes) g ↔ GatherPads a dim indexes := by
  obtain ⟨hoperation, hdevice⟩ := inferMetadata_iff.mp hg
  obtain ⟨hdim, hindexDType, hfits, hresult⟩ := Metadata.gather_ok.mp hoperation
  obtain ⟨hgshape, hgdtype, hgdevice⟩ : g.shape = indexes.shape ∧ g.dtype = a.dtype ∧ g.device = a.device :=
    ⟨congrArg Prod.fst hresult, congrArg (·.2.1) hresult, congrArg (·.2.2) hresult⟩
  constructor
  · rintro ⟨received, hrun, hexact⟩
    rw [adjoint, gather, NodeProgram.interpret_bind, NodeProgram.interpret_bind] at hrun
    obtain ⟨v, hv, _⟩ := bind_ok.mp hrun
    obtain ⟨padded, hpadded, _⟩ := bind_ok.mp hv
    have hcan := canPad_of_padAxes hfits hgshape hpadded
    by_cases hsame : ∀ i < a.shape.length, i ≠ dim → indexes.shape.getD i 0 = a.shape.getD i 0
    · exact .inl hsame
    · obtain ⟨i, hi, hne, hdiffers⟩ : ∃ i < a.shape.length, i ≠ dim ∧
          indexes.shape.getD i 0 ≠ a.shape.getD i 0 := by
        simpa only [not_forall, exists_prop] using hsame
      refine .inr ⟨((hcan i hi).resolve_left hne).resolve_left hdiffers, fun hempty hzero => ?_⟩
      by_contra hpositive
      -- nothing is read, but the padding scatters to index zero
      obtain ⟨⟨u, idx⟩, hpadded', hspread, _⟩ := padAxes_ok hfits hgshape hcan
      obtain rfl := Except.ok.inj (hpadded.symm.trans hpadded')
      obtain ⟨hevaluates, _⟩ := hexact fun c hc => absurd hc (not_coordinate hzero)
      rw [adjoint, gather] at hevaluates
      obtain ⟨_, _, hbounds⟩ := scatter_evaluates.mp (hevaluates.left.of_bind hpadded)
      obtain ⟨hnonneg, hlt⟩ := hbounds (origin _) (hspread.shape ▸ coordinate_origin hpositive)
      rw [hempty] at hlt
      exact absurd hlt (Int.not_lt.mpr hnonneg)
  · intro hpads
    have hcan : ∀ i < a.shape.length, CanPad a dim indexes i := by
      intro i hi
      rcases hpads with hsame | ⟨hdtype, _⟩
      · by_cases hne : i = dim
        · exact .inl hne
        · exact .inr (.inl (hsame i hi hne))
      · exact .inr (.inr hdtype)
    obtain ⟨⟨u, idx⟩, hpadded, huSpread, hidxSpread⟩ := padAxes_ok hfits hgshape hcan
    obtain ⟨v, hv, hvshape, hvdata⟩ := scatter_ok hdim (by rwa [hidxSpread.dtype])
      (hidxSpread.shape.trans huSpread.shape.symm) (huSpread.dtype.trans hgdtype)
      ⟨hidxSpread.device.trans ((hdevice indexes (by simp [nodeChildren])).trans hgdevice),
        huSpread.device.trans hgdevice⟩
    refine ⟨[(a, v)], ?_, fun hevaluates => ⟨?_, v, rfl, hvshape, fun c _ => ?_⟩⟩
    · rw [adjoint, gather, NodeProgram.interpret_bind, NodeProgram.interpret_bind]
      exact bind_ok.mpr ⟨v, bind_ok.mpr ⟨(u, idx), hpadded, hv⟩, rfl⟩
    · rw [adjoint, gather]
      refine NodeProgram.Evaluates.bind (NodeProgram.Evaluates.bind
        (NodeProgram.evaluates_foldlM (padAxis_evaluates a dim) _ _) fun padded hrun => ?_) fun _ _ => trivial
      obtain rfl := Except.ok.inj (hpadded.symm.trans hrun)
      refine scatter_evaluates.mpr ⟨?_, fun i hi hne => ?_, fun c hc => ?_⟩
      · rw [huSpread.shape, length_set]
      · rw [huSpread.shape, getD_eq_getElem?_getD, List.getElem?_set_ne hne.symm,
          ← getD_eq_getElem?_getD]
      · rw [huSpread.shape] at hc
        exact padded_inBounds hfits hpads hevaluates hidxSpread hc
    · rw [hvdata c, huSpread.shape, huSpread.places.sum (fun k _ k' _ heq => heq)
        (F := fun k x => if k.set dim (idx.index k) = c then x else 0) fun k => ite_self 0]
      refine sumOver_congr fun k hk => ?_
      have hindex : idx.index k = indexes.index k := by
        rw [Value.index, Value.index, ← hidxSpread.places.placed k (hgshape ▸ hk)]
        rfl
      simp only [id, hindex, decide_eq_true_eq]

/-- The index operations. -/
def Indexes : NodeKind (Value K) → Prop
  | .indexSelect .. | .gather .. | .scatterAdd .. => True
  | _ => False

/-- The index operations with an exact rule: what is scattered fits its target, and the padding of a
gather has the dtype of the indices and a position to go to. -/
def Indexable : NodeKind (Value K) → Prop
  | .gather a dim indexes => GatherPads a dim indexes
  | .scatterAdd a dim _ src => Metadata.GatherFits a dim src
  | _ => True

end Adjoint

/-- The rule for an index operation gives its transpose if and only if it is `Indexable`. -/
theorem indexAdjoint_exact_iff {kind : NodeKind (Value K)} {g : Value K} (hkind : Adjoint.Indexes kind)
    (hg : inferMetadata kind = .ok g.toSignature) : Adjoint.Exact build kind g ↔ Adjoint.Indexable kind := by
  cases kind with
  | indexSelect a dim indexes => exact iff_of_true (Adjoint.indexSelect_exact hg) trivial
  | gather a dim indexes => exact Adjoint.gather_exact_iff hg
  | scatterAdd a dim indexes src => exact Adjoint.scatterAdd_exact_iff hg
  | _ => exact absurd hkind id

/-- Indices of zero. -/
def firsts (shape : List Nat) (dtype : DType) (h : Supported dtype (.cpu 0)) : Value Int :=
  ⟨⟨shape, dtype, .cpu 0, h⟩, fun _ => (0, 0)⟩

/-- A matrix of ones. -/
def onesMatrix (rows columns : Nat) : Value Int :=
  ⟨⟨[rows, columns], .f32, .cpu 0, supported_f32⟩, fun _ => (1, 0)⟩

theorem indexAdjoint_exact_i64 :
    Adjoint.Exact .wrapping (.gather (onesMatrix 2 3) 1 (firsts [1, 2] .i64 (by decide))) (onesMatrix 1 2) :=
  (@indexAdjoint_exact_iff Int _ _ _ (.gather (onesMatrix 2 3) 1 (firsts [1, 2] .i64 (by decide))) _
    trivial rfl).mpr (.inr ⟨rfl, fun h => absurd h (by decide)⟩)

/-- The zeros behind `u32` indices are `i64`. -/
theorem indexAdjoint_stops_u32 :
    inferMetadata (.gather (onesMatrix 2 3) 1 (firsts [1, 2] .u32 (by decide))) =
      .ok (onesMatrix 1 2).toSignature ∧
    (adjoint .wrapping (.gather (onesMatrix 2 3) 1 (firsts [1, 2] .u32 (by decide))) (onesMatrix 1 2)).interpret denote =
      fail "concat: operands must share a dtype; insert an explicit cast" ∧
    ¬ Adjoint.Exact .wrapping (.gather (onesMatrix 2 3) 1 (firsts [1, 2] .u32 (by decide))) (onesMatrix 1 2) := by
  have hstops : (adjoint .wrapping (.gather (onesMatrix 2 3) 1 (firsts [1, 2] .u32 (by decide)))
      (onesMatrix 1 2)).interpret denote =
      fail "concat: operands must share a dtype; insert an explicit cast" := rfl
  refine ⟨rfl, hstops, ?_⟩
  rintro ⟨received, hrun, _⟩
  exact fail_ne_ok _ _ (hstops.symm.trans hrun)

end EffectTorch
