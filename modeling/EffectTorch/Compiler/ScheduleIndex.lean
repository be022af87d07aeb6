import EffectTorch.Compiler.Schedule

/-!
# The dense index of a graph

`GraphIndex::new` (`compiler/src/schedule.rs`): dense ids in postorder, the children and
consumers of every node, the caller-visible slots, the generated leaves and the random
sources. Ids are `u32`; an `expect` that fails is a panic.

Results:
1. `collectProgramSlots_spec`: which graphs have a table of slots, and what is in it.
2. `graphIndex_new`: when there is an index, and what it says.
-/

namespace EffectTorch
open List Option Lib

/-! ## Slots -/

structure ProgramSlot where
  scalar : Bool
  shape : List Nat
  dtype : DType
  storage : StorageMetadata
  device : Device
deriving DecidableEq, Repr

def Device.name : Device → String
  | cpu _ => "cpu"
  | metal _ => "metal"
  | cuda _ => "cuda"

def Device.ordinal : Device → Nat
  | cpu ordinal | metal ordinal | cuda ordinal => ordinal

/-- `ProgramSlot::signature`. -/
def ProgramSlot.signature (slot : ProgramSlot) : String :=
  (if slot.scalar then "scalar" else String.intercalate "x" (slot.shape.map toString)) ++ ":" ++
    slot.dtype.name ++ "@" ++ slot.device.name ++ ":" ++ toString slot.device.ordinal

/-- The slot that a node declares. -/
def declaredSlot : NodeKind Nat → Option (Nat × ProgramSlot)
  | .input slot shape dtype device storage => some (slot, ⟨false, shape, dtype, storage, device⟩)
  | .scalarInput slot dtype device => some (slot, ⟨true, [], dtype, .dense, device⟩)
  | _ => none

/-- The slots found so far, and the leaves that declare them. -/
abbrev SlotTable := List (Option ProgramSlot) × List (Nat × Nat)

/-- The slots, resized so that `slot` is one of them. -/
def growTo (slots : List (Option ProgramSlot)) (slot : Nat) : List (Option ProgramSlot) :=
  slots ++ List.replicate (slot + 1 - slots.length) none

/-- The loop body of `collect_program_slots_from_order`. -/
def collectSlot (G : Graph) (table : SlotTable) (node : Nat) : Except String SlotTable :=
  match declaredSlot (G.node node).kind with
  | none => .ok table
  | some (slot, declared) =>
    let slots := growTo table.1 slot
    let leaves := table.2 ++ [(node, slot)]
    match slots[slot]? with
    | some (some existing) =>
      if existing = declared then .ok (slots, leaves)
      else .error ("compile: slot " ++ toString slot ++
        " is used with conflicting signatures (" ++ existing.signature ++ " vs " ++
        declared.signature ++ ")")
    | _ => .ok (slots.set slot (some declared), leaves)

def collectProgramSlots (G : Graph) (order : List Nat) :
    Except String (List ProgramSlot × List (Nat × Nat)) := do
  let table ← order.foldlM (collectSlot G) ([], [])
  let slots ← table.1.zipIdx.mapM fun (declared, slot) =>
    match declared with
    | some declared => .ok declared
    | none => .error ("compile: slot " ++ toString slot ++ " is declared but never used")
  .ok (slots, table.2)

/-! ## The index -/

abbrev DenseNodeId := Nat

/-- `from_index`, for both kinds of dense ids. -/
def denseFromIndex (index : Nat) : Option Nat :=
  if index ≤ u32Max then some index else none

inductive RandomSourceKind where
  | randn
  | uniform
deriving DecidableEq, Repr

structure RandomSource where
  id : Nat
  node : DenseNodeId
  provenance : Nat
  kind : RandomSourceKind
deriving DecidableEq, Repr

structure GeneratedBinding where
  node : DenseNodeId
  nodeId : Nat
  slotIdentity : Nat
  shape : List Nat
  dtype : DType
  storage : StorageMetadata
  device : Device
deriving DecidableEq, Repr

structure GraphIndexWork where
  graphIndexBuilds : Nat
  semanticNodeVisits : Nat
  graphEdgeVisits : Nat
deriving DecidableEq, Repr

structure GraphIndex where
  order : List Nat
  valueStorage : List StorageMetadata
  denseByNode : AList fun _ : Nat => DenseNodeId
  children : List (List DenseNodeId)
  consumers : List (List DenseNodeId)
  roots : List DenseNodeId
  slots : List ProgramSlot
  slotLeaves : List (DenseNodeId × Nat)
  leaves : List GeneratedBinding
  randomSources : List (Option Nat)
  randomSourceOrder : List RandomSource
  work : GraphIndexWork

/-- The dense ids of an order. -/
def assignDense (order : List Nat) : Fallible String (AList fun _ : Nat => DenseNodeId) :=
  order.zipIdx.foldlM (fun table (node, index) => do
    let dense ← okOr (denseFromIndex index) "compile: graph contains too many nodes"
    pure (table.insert node dense)) ∅

/-- `consumers[child.index()].push(parent)`. -/
def pushConsumer (parent : DenseNodeId) (consumers : List (List DenseNodeId))
    (child : DenseNodeId) : Fallible String (List (List DenseNodeId)) := do
  let consumersOf ← expect consumers[child]? "index out of bounds"
  pure (consumers.set child (consumersOf ++ [parent]))

/-- The children and the consumers of the nodes seen so far, and the children that are left. -/
structure EdgeTables where
  children : List (List DenseNodeId)
  consumers : List (List DenseNodeId)
  childrenByNode : AList fun _ : Nat => List Nat

/-- The edges of one node. -/
def indexEdges (denseByNode : AList fun _ : Nat => DenseNodeId) (tables : EdgeTables)
    (entry : Nat × Nat) : Fallible String EdgeTables := do
  let parent ← expect (denseFromIndex entry.2)
    "graph node count was validated while assigning dense IDs"
  let denseChildren ← ((tables.childrenByNode.lookup entry.1).getD []).mapM fun child =>
    expect (denseByNode.lookup child) "discovered child must have a dense ID"
  let consumers ← denseChildren.foldlM (pushConsumer parent) tables.consumers
  pure ⟨tables.children ++ [denseChildren], consumers, tables.childrenByNode.erase entry.1⟩

/-- The generated leaves and the random sources of the nodes seen so far. -/
structure LeafTables where
  leaves : List GeneratedBinding
  randomSources : List (Option Nat)
  randomSourceOrder : List RandomSource

def randomKind : NodeKind Nat → Option RandomSourceKind
  | .randn .. => some .randn
  | .uniform .. => some .uniform
  | _ => none

/-- The leaf or the random source of one node. -/
def indexLeaf (G : Graph) (tables : LeafTables) (entry : Nat × Nat) :
    Fallible String LeafTables := do
  let dense ← expect (denseFromIndex entry.2)
    "graph node count was validated while assigning dense IDs"
  let node := G.node entry.1
  match node.kind with
  | .leaf slot =>
    pure { tables with
      leaves := tables.leaves ++
        [⟨dense, entry.1, slot, node.shape, node.dtype, node.storage, node.device⟩] }
  | kind =>
    match randomKind kind with
    | none => pure tables
    | some random => do
      let source ← expect (denseFromIndex tables.randomSourceOrder.length)
        "random source count cannot exceed graph node count"
      pure { tables with
        randomSources := tables.randomSources.set entry.2 (some source)
        randomSourceOrder := tables.randomSourceOrder ++ [⟨source, dense, entry.1, random⟩] }

/-- `GraphIndex::new`. -/
def GraphIndex.new (G : Graph) (roots : List Nat) : Fallible String GraphIndex := do
  let discovery := G.discoverGraph roots
  let order := discovery.order
  let denseByNode ← assignDense order
  let edges ← order.zipIdx.foldlM (indexEdges denseByNode)
    ⟨[], List.replicate order.length [], discovery.childrenByNode⟩
  let denseRoots ← roots.mapM fun root =>
    expect (denseByNode.lookup root) "every root must have a dense ID"
  let (slots, slotLeaves) ← (collectProgramSlots G order).mapError .error
  let denseLeaves ← slotLeaves.mapM fun leaf => do
    let dense ← expect (denseByNode.lookup leaf.1) "every slot leaf must have a dense ID"
    pure (dense, leaf.2)
  let leaves ← order.zipIdx.foldlM (indexLeaf G) ⟨[], List.replicate order.length none, []⟩
  pure {
    order
    valueStorage := order.map fun node => (G.node node).storage
    denseByNode
    children := edges.children
    consumers := edges.consumers
    roots := denseRoots
    slots
    slotLeaves := denseLeaves
    leaves := leaves.leaves
    randomSources := leaves.randomSources
    randomSourceOrder := leaves.randomSourceOrder
    work := ⟨1, order.length, discovery.edgeVisits⟩ }

/-! ## What an index says -/

/-- Two declarations of one slot agree, and no slot below a declared one is missing. -/
structure ProgramSlotsOk (G : Graph) (order : List Nat) : Prop where
  agree : ∀ a ∈ order, ∀ b ∈ order, ∀ slot p q, declaredSlot (G.node a).kind = some (slot, p) →
    declaredSlot (G.node b).kind = some (slot, q) → p = q
  complete : ∀ a ∈ order, ∀ slot p, declaredSlot (G.node a).kind = some (slot, p) →
    ∀ below ≤ slot, ∃ b ∈ order, ∃ q, declaredSlot (G.node b).kind = some (below, q)

/-- An index holds the postorder of the roots, its edges in both directions and the slots. -/
structure Indexed (G : Graph) (roots : List Nat) (index : GraphIndex) : Prop where
  order : index.order = G.dag.postorder roots
  dense : ∀ id i, index.denseByNode.lookup id = some i ↔ index.order[i]? = some id
  /-- The children of a node in caller order, duplicates kept. -/
  children : ∀ (i : Nat) id, index.order[i]? = some id → ∃ denseChildren,
    index.children[i]? = some denseChildren ∧
      List.Forall₂ (fun child dense => index.order[dense]? = some child) (G.children id)
        denseChildren
  children_length : index.children.length = index.order.length
  children_before : ∀ (i : Nat) denseChildren, index.children[i]? = some denseChildren →
    ∀ child ∈ denseChildren, child < i
  consumers_length : index.consumers.length = index.order.length
  /-- The two edge tables are transposes of each other. -/
  transpose : ∀ (i j : Nat) consumersOf denseChildren, index.consumers[i]? = some consumersOf →
    index.children[j]? = some denseChildren → consumersOf.count j = denseChildren.count i
  consumers_after : ∀ (i : Nat) consumersOf, index.consumers[i]? = some consumersOf →
    ∀ consumer ∈ consumersOf, i < consumer ∧ consumer < index.order.length
  roots : List.Forall₂ (fun root dense => index.order[dense]? = some root) roots index.roots
  /-- Every slot up to the last is declared, and all its declarations say the same. -/
  slots : ∀ (slot : Nat) declared, index.slots[slot]? = some declared ↔
    ∃ id ∈ index.order, declaredSlot (G.node id).kind = some (slot, declared)
  slotLeaves : ∀ dense slot, (dense, slot) ∈ index.slotLeaves ↔ ∃ id declared,
    index.order[dense]? = some id ∧ declaredSlot (G.node id).kind = some (slot, declared)

section Slots

variable {G : Graph} {order : List Nat}

/-! ## The slot table -/

/-- What the slots found among some nodes say of them. -/
structure SlotsFound (G : Graph) (done : List Nat) (table : SlotTable) : Prop where
  found : ∀ (slot : Nat) declared, table.1[slot]? = some (some declared) ↔
    ∃ id ∈ done, declaredSlot (G.node id).kind = some (slot, declared)
  short : ∀ slot, slot < table.1.length → ∃ id ∈ done, ∃ above declared,
    declaredSlot (G.node id).kind = some (above, declared) ∧ slot ≤ above
  leaves : table.2 = done.filterMap fun id =>
    (declaredSlot (G.node id).kind).map fun declared => (id, declared.1)

theorem SlotsFound.skip {done : List Nat} {table : SlotTable} (h : SlotsFound G done table)
    {node : Nat} (hnone : declaredSlot (G.node node).kind = none) :
    SlotsFound G (done ++ [node]) table where
  found slot declared := by
    rw [h.found]
    constructor
    · rintro ⟨id, hid, hdeclared⟩
      exact ⟨id, mem_append_left _ hid, hdeclared⟩
    · rintro ⟨id, hid, hdeclared⟩
      rcases mem_append.mp hid with hid | hid
      · exact ⟨id, hid, hdeclared⟩
      · rw [mem_singleton.mp hid, hnone] at hdeclared
        cases hdeclared
  short slot hslot := by
    obtain ⟨id, hid, hrest⟩ := h.short slot hslot
    exact ⟨id, mem_append_left _ hid, hrest⟩
  leaves := by
    rw [filterMap_append, h.leaves, filterMap_cons_none (by rw [hnone]; rfl), filterMap_nil,
      append_nil]

theorem growTo_length (slots : List (Option ProgramSlot)) (slot : Nat) :
    (growTo slots slot).length = max slots.length (slot + 1) := by
  rw [growTo, length_append, length_replicate, Nat.add_comm, Nat.sub_add_eq_max,
    Nat.max_comm]

theorem growTo_some {slots : List (Option ProgramSlot)} {slot i : Nat} {declared : ProgramSlot} :
    (growTo slots slot)[i]? = some (some declared) ↔ slots[i]? = some (some declared) := by
  unfold growTo
  rcases Nat.lt_or_ge i slots.length with hlt | hge
  · rw [List.getElem?_append_left hlt]
  · rw [List.getElem?_append_right hge, List.getElem?_replicate, List.getElem?_eq_none hge]
    split
    · exact ⟨nofun, nofun⟩
    · exact ⟨nofun, nofun⟩

/-- A declaration that fits what was found joins it. -/
theorem SlotsFound.declare {done : List Nat} {table : SlotTable} (h : SlotsFound G done table)
    {node slot : Nat} {declared : ProgramSlot} {slots : List (Option ProgramSlot)}
    (hdeclared : declaredSlot (G.node node).kind = some (slot, declared))
    (hslots : ∀ i q, slots[i]? = some (some q) ↔
      table.1[i]? = some (some q) ∨ (i = slot ∧ q = declared))
    (hlength : slots.length = max table.1.length (slot + 1)) :
    SlotsFound G (done ++ [node]) (slots, table.2 ++ [(node, slot)]) where
  found i q := by
    rw [hslots, h.found]
    constructor
    · rintro (⟨id, hid, hq⟩ | ⟨rfl, rfl⟩)
      · exact ⟨id, mem_append_left _ hid, hq⟩
      · exact ⟨node, mem_append_right _ (mem_singleton_self _), hdeclared⟩
    · rintro ⟨id, hid, hq⟩
      rcases mem_append.mp hid with hid | hid
      · exact .inl ⟨id, hid, hq⟩
      · rw [mem_singleton.mp hid, hdeclared] at hq
        obtain ⟨rfl, rfl⟩ := Prod.mk.inj (some.inj hq)
        exact .inr ⟨rfl, rfl⟩
  short i hi := by
    rw [hlength] at hi
    rcases Nat.lt_or_ge i table.1.length with hlt | hge
    · obtain ⟨id, hid, hrest⟩ := h.short i hlt
      exact ⟨id, mem_append_left _ hid, hrest⟩
    · refine ⟨node, mem_append_right _ (mem_singleton_self _), slot, declared,
        hdeclared, ?_⟩
      rcases Nat.le_total table.1.length (slot + 1) with hle | hle
      · rw [Nat.max_eq_right hle] at hi
        exact Nat.le_of_lt_succ hi
      · rw [Nat.max_eq_left hle] at hi
        exact absurd hi (Nat.not_lt.mpr hge)
  leaves := by
    rw [filterMap_append, ← h.leaves, filterMap_cons_some (by rw [hdeclared]; rfl),
      filterMap_nil]

/-- One turn: a declaration is taken up unless it contradicts one of before. -/
theorem collectSlot_spec {done : List Nat} {table : SlotTable} (h : SlotsFound G done table)
    (node : Nat) : (∃ table', collectSlot G table node = .ok table' ∧
      SlotsFound G (done ++ [node]) table') ∨
    ∃ message, collectSlot G table node = .error message ∧ ∃ id ∈ done, ∃ slot p q,
      declaredSlot (G.node id).kind = some (slot, p) ∧
        declaredSlot (G.node node).kind = some (slot, q) ∧ p ≠ q := by
  unfold collectSlot
  cases hdeclared : declaredSlot (G.node node).kind with
  | none => exact .inl ⟨table, rfl, h.skip hdeclared⟩
  | some declaration =>
    obtain ⟨slot, declared⟩ := declaration
    have hroom : slot < (growTo table.1 slot).length := by
      rw [growTo_length]
      exact Nat.lt_of_lt_of_le (Nat.lt_succ_self _) (Nat.le_max_right _ _)
    dsimp only
    split
    · next existing hexisting =>
      have hfound := growTo_some.mp hexisting
      split
      · next heq =>
        rw [heq] at hfound
        refine .inl ⟨_, rfl, h.declare hdeclared (fun i q => ?_) (growTo_length _ _)⟩
        refine growTo_some.trans ⟨.inl, fun hor => hor.elim id ?_⟩
        rintro ⟨rfl, rfl⟩
        exact hfound
      · next hne =>
        obtain ⟨id, hid, hp⟩ := (h.found slot existing).mp hfound
        exact .inr ⟨_, rfl, id, hid, slot, existing, declared, hp, rfl, hne⟩
    · next hnone =>
      have hnone : ∀ q, table.1[slot]? ≠ some (some q) := fun q hq =>
        hnone q (growTo_some.mpr hq)
      refine .inl ⟨_, rfl, h.declare hdeclared (fun i q => ?_) ?_⟩
      · rw [List.getElem?_set]
        split
        · next heq =>
          subst heq
          rw [Option.some.injEq, Option.some.injEq]
          exact ⟨fun hq => .inr ⟨rfl, hq.symm⟩, fun hor => hor.elim (absurd · (hnone q))
            fun hq => hq.2.symm⟩
        · next hne =>
          refine growTo_some.trans ⟨.inl, fun hor => hor.elim id fun hq => ?_⟩
          exact absurd hq.1.symm hne
      · rw [length_set]
        exact growTo_length _ _

/-- Which graphs have a slot table, and what it says. -/
theorem collectProgramSlots_spec (G : Graph) (order : List Nat) :
    (∃ slots leaves, collectProgramSlots G order = .ok (slots, leaves) ∧ ProgramSlotsOk G order ∧
      (∀ (slot : Nat) declared, slots[slot]? = some declared ↔
        ∃ id ∈ order, declaredSlot (G.node id).kind = some (slot, declared)) ∧
      leaves = order.filterMap fun id =>
        (declaredSlot (G.node id).kind).map fun declared => (id, declared.1)) ∨
    ∃ message, collectProgramSlots G order = .error message ∧ ¬ ProgramSlotsOk G order := by
  have hstart : SlotsFound G [] ([], []) :=
    ⟨fun slot declared => ⟨(fun h => nomatch h), fun ⟨_, h, _⟩ => absurd h not_mem_nil⟩,
      fun slot h => absurd h (Nat.not_lt_zero _), rfl⟩
  have hstep : ∀ done a rest s s', order = done ++ a :: rest → SlotsFound G done s →
      collectSlot G s a = .ok s' → SlotsFound G (done ++ [a]) s' := by
    intro done a rest s s' _ hfound hs
    rcases collectSlot_spec hfound a with ⟨s'', hs'', hfound'⟩ | ⟨message, herror, _⟩
    · obtain rfl := Except.ok.inj (hs.symm.trans hs'')
      exact hfound'
    · cases hs.symm.trans herror
  unfold collectProgramSlots
  cases hfold : order.foldlM (collectSlot G) ([], []) with
  | error message =>
    refine .inr ⟨message, rfl, fun hok => ?_⟩
    obtain ⟨done, a, rest, s, horder, hfound, herror⟩ :=
      foldlM_fault (SlotsFound G) order hstep hstart hfold
    rcases collectSlot_spec hfound a with ⟨s', hs', _⟩ | ⟨_, _, id, hid, slot, p, q, hp, hq, hne⟩
    · cases hs'.symm.trans herror
    · refine hne (hok.agree id ?_ a ?_ slot p q hp hq)
      · rw [horder]
        exact mem_append_left _ hid
      · rw [horder]
        exact mem_append_right _ mem_cons_self
  | ok table =>
    have hfound := foldlM_invariant (SlotsFound G) order hstep hstart hfold
    have hagree : ∀ a ∈ order, ∀ b ∈ order, ∀ slot p q,
        declaredSlot (G.node a).kind = some (slot, p) →
        declaredSlot (G.node b).kind = some (slot, q) → p = q := by
      intro a ha b hb slot p q hp hq
      have hp := (hfound.found slot p).mpr ⟨a, ha, hp⟩
      have hq := (hfound.found slot q).mpr ⟨b, hb, hq⟩
      exact some.inj (some.inj (hp.symm.trans hq))
    rw [ok_bind]
    cases hslots : table.1.zipIdx.mapM (fun (declared, slot) =>
        match declared with
        | some declared => Except.ok declared
        | none => Except.error ("compile: slot " ++ toString slot ++
          " is declared but never used")) with
    | error message =>
      refine .inr ⟨message, rfl, fun hok => ?_⟩
      obtain ⟨slots, htotal⟩ : ∃ slots, table.1.zipIdx.mapM (fun (declared, slot) =>
          match declared with
          | some declared => Except.ok declared
          | none => Except.error ("compile: slot " ++ toString slot ++
            " is declared but never used")) = .ok slots := by
        refine mapM_total fun ⟨declared, slot⟩ hmem => ?_
        have hslot := mk_mem_zipIdx_iff_getElem?.mp hmem
        obtain ⟨id, hid, above, p, hp, hle⟩ :=
          hfound.short slot (List.getElem?_eq_some_iff.mp hslot).1
        obtain ⟨b, hb, q, hq⟩ := hok.complete id hid above p hp slot hle
        have hq := (hfound.found slot q).mpr ⟨b, hb, hq⟩
        obtain rfl := some.inj (hslot.symm.trans hq)
        exact ⟨q, rfl⟩
      cases hslots.symm.trans htotal
    | ok slots =>
      obtain ⟨hlen, hget⟩ := mapM_ok.mp hslots
      have hsome : ∀ (slot : Nat) declared, slots[slot]? = some declared ↔
          table.1[slot]? = some (some declared) := by
        intro slot declared
        constructor
        · intro hslot
          have hlt : slot < table.1.length := by
            rw [← length_zipIdx, hlen]
            exact (List.getElem?_eq_some_iff.mp hslot).1
          obtain ⟨found, hfound'⟩ : ∃ found, table.1[slot]? = some found :=
            ⟨_, List.getElem?_eq_getElem hlt⟩
          obtain ⟨b, hb, hok⟩ := hget slot (found, slot) (by
            rw [List.getElem?_zipIdx, hfound']
            simp)
          obtain rfl := some.inj (hslot.symm.trans hb)
          cases found with
          | none => cases hok
          | some q =>
            obtain rfl := Except.ok.inj hok
            exact hfound'
        · intro hslot
          obtain ⟨b, hb, hok⟩ := hget slot (some declared, slot) (by
            rw [List.getElem?_zipIdx, hslot]
            simp)
          obtain rfl := Except.ok.inj hok
          exact hb
      refine .inl ⟨slots, table.2, rfl, ⟨hagree, ?_⟩, fun slot declared => ?_, hfound.leaves⟩
      · intro a ha slot p hp below hle
        have hslot := (hsome slot p).mpr ((hfound.found slot p).mpr ⟨a, ha, hp⟩)
        have hlt := Nat.lt_of_le_of_lt hle (List.getElem?_eq_some_iff.mp hslot).1
        obtain ⟨b, hb, hdeclared⟩ := (hfound.found below _).mp
          ((hsome below _).mp (List.getElem?_eq_getElem hlt))
        exact ⟨b, hb, _, hdeclared⟩
      · rw [hsome, hfound.found]

end Slots

section Tables

variable {G : Graph} {order : List Nat}

/-! ## Dense ids -/

/-- A turn of a loop over the entries of an order. -/
theorem zipIdx_turn {done rest : List (Nat × Nat)} {node index : Nat}
    (h : order.zipIdx = done ++ (node, index) :: rest) :
    index = done.length ∧ order[index]? = some node ∧
      ∀ id i, (id, i) ∈ done ↔ order[i]? = some id ∧ i < index := by
  have hget : ∀ (i : Nat), order.zipIdx[i]? = (order[i]?).map fun id => (id, i) := fun i => by
    rw [List.getElem?_zipIdx, Nat.zero_add]
  have hhere : order.zipIdx[done.length]? = some (node, index) := by
    rw [h, List.getElem?_append_right (Nat.le_refl _), Nat.sub_self]
    rfl
  rw [hget] at hhere
  obtain ⟨_, hnode, heq⟩ := map_eq_some_iff.mp hhere
  obtain ⟨rfl, rfl⟩ := Prod.mk.inj heq
  refine ⟨rfl, hnode, fun id i => ?_⟩
  constructor
  · intro hmem
    obtain ⟨k, hk⟩ := mem_iff_getElem?.mp hmem
    have hlt := (List.getElem?_eq_some_iff.mp hk).1
    have hwhole : order.zipIdx[k]? = done[k]? := by rw [h, List.getElem?_append_left hlt]
    rw [← hwhole, hget] at hk
    obtain ⟨_, hid, heq⟩ := map_eq_some_iff.mp hk
    obtain ⟨rfl, rfl⟩ := Prod.mk.inj heq
    exact ⟨hid, hlt⟩
  · rintro ⟨hid, hlt⟩
    have hi := hget i
    rw [hid, h, List.getElem?_append_left hlt] at hi
    exact mem_of_getElem? hi

theorem denseFromIndex_some {index : Nat} {dense : Nat} :
    denseFromIndex index = some dense ↔ index ≤ u32Max ∧ dense = index := by
  unfold denseFromIndex
  split
  · next h => rw [Option.some.injEq, and_iff_right h, eq_comm]
  · next h => exact ⟨nofun, fun hok => absurd hok.1 h⟩

/-- A table of dense ids. -/
def DenseTable (order : List Nat) (table : AList fun _ : Nat => DenseNodeId) : Prop :=
  ∀ id i, table.lookup id = some i ↔ order[i]? = some id

/-- Dense ids are the positions in the order, as far as they fit. -/
theorem assignDense_spec (hnodup : order.Nodup) :
    (∃ table, assignDense order = .ok table ∧ order.length ≤ u32Max + 1 ∧
      DenseTable order table) ∨
    assignDense order = fail "compile: graph contains too many nodes" ∧
      u32Max + 1 < order.length := by
  unfold assignDense
  rcases Nat.lt_or_ge (u32Max + 1) order.length with hlong | hshort
  · refine .inr ⟨?_, hlong⟩
    cases hfold : order.zipIdx.foldlM (fun table (entry : Nat × Nat) => do
        let dense ← okOr (denseFromIndex entry.2) "compile: graph contains too many nodes"
        pure (table.insert entry.1 dense)) (∅ : AList fun _ : Nat => DenseNodeId) with
    | ok table =>
      have hall := foldlM_forall (C := fun entry : Nat × Nat => entry.2 ≤ u32Max)
        (fun table entry table' hturn => by
          obtain ⟨dense, hdense, _⟩ := bind_ok.mp hturn
          exact (denseFromIndex_some.mp (okOr_ok.mp hdense)).1) hfold
      have hmem := hall (order[u32Max + 1], u32Max + 1)
        (mk_mem_zipIdx_iff_getElem?.mpr (List.getElem?_eq_getElem hlong))
      exact absurd hmem (Nat.not_succ_le_self _)
    | error e =>
      obtain ⟨_, entry, _, table, _, _, herror⟩ :=
        foldlM_fault (fun _ _ => True) _ (fun _ _ _ _ _ _ _ _ => trivial) trivial hfold
      rcases bind_error.mp herror with herror | ⟨_, _, herror⟩
      · unfold okOr at herror
        split at herror
        · cases herror
        · rw [← Except.error.inj herror]
          rfl
      · cases herror
  · obtain ⟨table, hok, htable⟩ := foldlM_total
      (fun done (table : AList fun _ : Nat => DenseNodeId) =>
        ∀ id i, table.lookup id = some i ↔ (id, i) ∈ done)
      order.zipIdx (f := fun table (entry : Nat × Nat) => (do
        let dense ← okOr (denseFromIndex entry.2) "compile: graph contains too many nodes"
        pure (table.insert entry.1 dense) :
          Fallible String (AList fun _ : Nat => DenseNodeId)))
      (fun done entry rest table horder htable => by
        obtain ⟨node, index⟩ := entry
        obtain ⟨_, hnode, hdone⟩ := zipIdx_turn horder
        have hfits : index ≤ u32Max := Nat.le_of_lt_succ
          (Nat.lt_of_lt_of_le (List.getElem?_eq_some_iff.mp hnode).1 hshort)
        refine ⟨table.insert node index, ?_, fun id i => ?_⟩
        · rw [denseFromIndex_some.mpr ⟨hfits, rfl⟩]
          rfl
        · rw [mem_append, mem_singleton, Prod.mk.injEq]
          rcases Decidable.eq_or_ne id node with rfl | hne
          · -- the order lists the node once
            rw [AList.lookup_insert, Option.some.injEq]
            refine ⟨fun heq => .inr ⟨rfl, heq.symm⟩, fun hor => ?_⟩
            rcases hor with hmem | ⟨_, heq⟩
            · obtain ⟨hi, hlt⟩ := (hdone _ _).mp hmem
              exact absurd ((List.getElem?_inj (List.getElem?_eq_some_iff.mp hi).1 hnodup).mp
                (hi.trans hnode.symm)) (Nat.ne_of_lt hlt)
            · exact heq.symm
          · rw [AList.lookup_insert_ne hne, htable]
            exact ⟨.inl, fun hor => hor.resolve_right fun h => hne h.1⟩)
      ∅ (fun id i => ⟨(fun h => nomatch (AList.lookup_empty id).symm.trans h),
        fun h => absurd h not_mem_nil⟩)
    refine .inl ⟨table, hok, hshort, fun id i => ?_⟩
    rw [htable, mk_mem_zipIdx_iff_getElem?]

/-! ## Edges -/

/-- Pushing one consumer for each child. -/
theorem pushConsumers_spec (parent : DenseNodeId) (children : List DenseNodeId)
    {consumers : List (List DenseNodeId)} (hlt : ∀ child ∈ children, child < consumers.length) :
    ∃ consumers', children.foldlM (pushConsumer parent) consumers = .ok consumers' ∧
      ∀ i : Nat, consumers'[i]? =
        (consumers[i]?).map (· ++ List.replicate (children.count i) parent) := by
  induction children generalizing consumers with
  | nil =>
    refine ⟨consumers, rfl, fun i => ?_⟩
    cases consumers[i]? with
    | none => rfl
    | some consumersOf => simp
  | cons child children ih =>
    have hchild := hlt child mem_cons_self
    obtain ⟨consumersOf, hof⟩ : ∃ consumersOf, consumers[child]? = some consumersOf :=
      ⟨_, List.getElem?_eq_getElem hchild⟩
    have hrestlt : ∀ c ∈ children,
        c < (consumers.set child (consumersOf ++ [parent])).length := fun c hc => by
      rw [length_set]
      exact hlt c (mem_cons_of_mem _ hc)
    obtain ⟨consumers', hrest, hconsumers⟩ := ih hrestlt
    refine ⟨consumers', ?_, fun i => ?_⟩
    · rw [foldlM_cons, pushConsumer, hof]
      exact hrest
    · rw [hconsumers, List.getElem?_set, count_cons]
      rcases Decidable.eq_or_ne child i with rfl | hne
      · rw [if_pos rfl, if_pos hchild, hof, beq_self_eq_true, if_pos rfl, map_some,
          map_some, append_assoc, Nat.add_comm, replicate_add]
        rfl
      · rw [if_neg hne, if_neg (by simpa using hne), Nat.add_zero]

/-- The edges of the nodes seen so far, in both directions. -/
structure EdgesOk (G : Graph) (order : List Nat) (done : List (Nat × Nat))
    (tables : EdgeTables) : Prop where
  left : ∀ id ∈ order, (∀ i, (id, i) ∉ done) →
    tables.childrenByNode.lookup id = some (G.children id)
  length : tables.children.length = done.length
  children : ∀ id i, (id, i) ∈ done → ∃ denseChildren,
    tables.children[i]? = some denseChildren ∧
      List.Forall₂ (fun child dense => order[dense]? = some child) (G.children id) denseChildren
  consumers_length : tables.consumers.length = order.length
  consumers : ∀ (i : Nat) consumersOf, tables.consumers[i]? = some consumersOf → ∀ j,
    consumersOf.count j = ((tables.children[j]?).getD []).count i

/-- One turn adds the edges of one node. -/
theorem indexEdges_spec {table : AList fun _ : Nat => DenseNodeId} {done rest : List (Nat × Nat)}
    {tables : EdgeTables} {entry : Nat × Nat} (hnodup : order.Nodup)
    (hshort : order.length ≤ u32Max + 1) (htable : DenseTable order table)
    (hclosed : ∀ id ∈ order, ∀ child ∈ G.children id, child ∈ order)
    (horder : order.zipIdx = done ++ entry :: rest) (h : EdgesOk G order done tables) :
    ∃ tables', indexEdges table tables entry = .ok tables' ∧
      EdgesOk G order (done ++ [entry]) tables' := by
  obtain ⟨node, index⟩ := entry
  obtain ⟨hindex, hnode, hdone⟩ := zipIdx_turn horder
  have hmem : node ∈ order := mem_of_getElem? hnode
  have hfits : index ≤ u32Max := Nat.le_of_lt_succ
    (Nat.lt_of_lt_of_le (List.getElem?_eq_some_iff.mp hnode).1 hshort)
  have hchildren : tables.childrenByNode.lookup node = some (G.children node) := by
    refine h.left node hmem fun i hi => ?_
    obtain ⟨hi, hlt⟩ := (hdone node i).mp hi
    exact absurd ((List.getElem?_inj (List.getElem?_eq_some_iff.mp hi).1 hnodup).mp
      (hi.trans hnode.symm)) (Nat.ne_of_lt hlt)
  obtain ⟨denseChildren, hdense⟩ : ∃ denseChildren, (G.children node).mapM (fun child =>
      expect (table.lookup child) "discovered child must have a dense ID") =
        (.ok denseChildren : Fallible String (List DenseNodeId)) := by
    refine mapM_total fun child hchild => ?_
    obtain ⟨i, hi⟩ := mem_iff_getElem?.mp (hclosed node hmem child hchild)
    exact ⟨i, expect_ok.mpr ((htable child i).mpr hi)⟩
  have hforall : List.Forall₂ (fun child dense => order[dense]? = some child) (G.children node)
      denseChildren := by
    obtain ⟨hlen, hget⟩ := mapM_ok.mp hdense
    refine forall₂_iff_get.mpr ⟨hlen, fun k hk hk' => ?_⟩
    obtain ⟨dense, hk, hlookup⟩ := hget k _ (List.getElem?_eq_getElem hk)
    rw [List.getElem?_eq_getElem hk'] at hk
    obtain rfl := some.inj hk
    exact (htable _ _).mp (expect_ok.mp hlookup)
  have hlt : ∀ child ∈ denseChildren, child < tables.consumers.length := by
    intro child hchild
    obtain ⟨k, hk⟩ := mem_iff_getElem?.mp hchild
    obtain ⟨hlen, hget⟩ := forall₂_iff_get.mp hforall
    obtain ⟨hlt, rfl⟩ := List.getElem?_eq_some_iff.mp hk
    rw [h.consumers_length]
    exact (List.getElem?_eq_some_iff.mp (hget k (hlen ▸ hlt) hlt)).1
  obtain ⟨consumers, hpush, hconsumers⟩ := pushConsumers_spec index denseChildren hlt
  refine ⟨⟨tables.children ++ [denseChildren], consumers, tables.childrenByNode.erase node⟩, ?_,
    fun id hid hnot => ?_, ?_, fun id i hi => ?_, ?_, fun i consumersOf hi j => ?_⟩
  · rw [indexEdges, denseFromIndex_some.mpr ⟨hfits, rfl⟩, expect_some, ok_bind, hchildren,
      getD_some, hdense, ok_bind, hpush]
    rfl
  · have hne : id ≠ node := by
      rintro rfl
      exact hnot index (mem_append_right _ (mem_singleton_self _))
    rw [AList.lookup_erase_ne hne]
    exact h.left id hid fun i hi => hnot i (mem_append_left _ hi)
  · rw [length_append, length_append, h.length]
    rfl
  · rcases mem_append.mp hi with hi | hi
    · obtain ⟨found, hfound, hedges⟩ := h.children id i hi
      have hlt := (List.getElem?_eq_some_iff.mp hfound).1
      exact ⟨found, by rw [List.getElem?_append_left hlt, hfound], hedges⟩
    · obtain ⟨rfl, rfl⟩ := Prod.mk.inj (mem_singleton.mp hi)
      refine ⟨denseChildren, ?_, hforall⟩
      rw [hindex, ← h.length, List.getElem?_concat_length]
  · rw [← h.consumers_length]
    refine Nat.le_antisymm (Nat.not_lt.mp fun hlt => ?_) (Nat.not_lt.mp fun hlt => ?_)
    · have hi := hconsumers tables.consumers.length
      rw [List.getElem?_eq_getElem hlt, List.getElem?_eq_none (Nat.le_refl _)] at hi
      cases hi
    · have hi := hconsumers consumers.length
      rw [List.getElem?_eq_none (Nat.le_refl _), List.getElem?_eq_getElem hlt] at hi
      cases hi
  · rw [hconsumers] at hi
    obtain ⟨before, hbefore, rfl⟩ := map_eq_some_iff.mp hi
    rw [count_append, h.consumers i before hbefore, count_replicate]
    rcases Decidable.eq_or_ne index j with rfl | hne
    · rw [beq_self_eq_true, if_pos rfl, hindex, ← h.length, List.getElem?_concat_length,
        List.getElem?_eq_none (Nat.le_refl _)]
      exact Nat.zero_add _
    · rw [if_neg (by simpa using hne), Nat.add_zero]
      rcases Nat.lt_or_ge j tables.children.length with hlt | hge
      · rw [List.getElem?_append_left hlt]
      · rw [List.getElem?_eq_none hge, List.getElem?_eq_none]
        rw [length_append, length_singleton, h.length, ← hindex]
        rw [h.length, ← hindex] at hge
        exact Nat.lt_of_le_of_ne hge hne

/-! ## Leaves and random sources -/

/-- A graph has no more random sources than nodes, so their ids fit. -/
theorem indexLeaf_total {done rest : List (Nat × Nat)} {tables : LeafTables} {entry : Nat × Nat}
    (hshort : order.length ≤ u32Max + 1) (horder : order.zipIdx = done ++ entry :: rest)
    (h : tables.randomSourceOrder.length ≤ done.length) :
    ∃ tables', indexLeaf G tables entry = .ok tables' ∧
      tables'.randomSourceOrder.length ≤ (done ++ [entry]).length := by
  obtain ⟨node, index⟩ := entry
  obtain ⟨hindex, hnode, _⟩ := zipIdx_turn horder
  have hfits : index ≤ u32Max := Nat.le_of_lt_succ
    (Nat.lt_of_lt_of_le (List.getElem?_eq_some_iff.mp hnode).1 hshort)
  have hlonger : (done ++ [(node, index)]).length = done.length + 1 := by
    rw [length_append]
    rfl
  rw [indexLeaf, denseFromIndex_some.mpr ⟨hfits, rfl⟩, expect_some, ok_bind, hlonger]
  dsimp only
  split
  · exact ⟨_, rfl, Nat.le_succ_of_le h⟩
  · split
    · exact ⟨_, rfl, Nat.le_succ_of_le h⟩
    · rw [denseFromIndex_some.mpr ⟨Nat.le_trans h (hindex ▸ hfits), rfl⟩]
      refine ⟨_, rfl, ?_⟩
      rw [length_append]
      exact Nat.succ_le_succ h

/-! ## The index of a graph -/

/-- The walk finds every node below the roots once and after its children, as the recursive
walk from left to right does. There is an index of it unless there are too many nodes for
`u32` ids or the slots contradict each other or leave a gap; the index has all edges in both
directions. -/
theorem graphIndex_new (G : Graph) (roots : List Nat) :
    (G.discoverGraph roots).order = G.dag.postorder roots ∧
      (G.dag.postorder roots).Nodup ∧
      (∀ id, id ∈ G.dag.postorder roots ↔ ∃ root ∈ roots, G.dag.Reaches root id) ∧
      (∀ (i : Nat) id, (G.dag.postorder roots)[i]? = some id → ∀ child ∈ G.children id,
        ∃ j, j < i ∧ (G.dag.postorder roots)[j]? = some child) ∧
      ((∃ index, GraphIndex.new G roots = .ok index ∧ Indexed G roots index ∧
        (G.dag.postorder roots).length ≤ u32Max + 1 ∧ ProgramSlotsOk G (G.dag.postorder roots)) ∨
      ∃ message, GraphIndex.new G roots = fail message ∧
        (u32Max + 1 < (G.dag.postorder roots).length ∨ ¬ ProgramSlotsOk G (G.dag.postorder roots))) := by
  obtain ⟨hwalk, hchildren⟩ := G.discoverGraph_walked roots
  have hnodup := Dag.postorder_nodup G.dag roots
  have hbefore : ∀ (i : Nat) id, (G.dag.postorder roots)[i]? = some id → ∀ child ∈ G.children id,
      ∃ j, j < i ∧ (G.dag.postorder roots)[j]? = some child :=
    fun i id hid child hchild => Dag.postorder_before hid hchild
  refine ⟨hwalk, hnodup, fun id => Dag.mem_postorder, hbefore, ?_⟩
  have hclosed : ∀ id ∈ G.dag.postorder roots, ∀ child ∈ G.children id,
      child ∈ G.dag.postorder roots := by
    intro id hid child hchild
    obtain ⟨i, hi⟩ := mem_iff_getElem?.mp hid
    obtain ⟨j, _, hj⟩ := hbefore i id hi child hchild
    exact mem_of_getElem? hj
  unfold GraphIndex.new
  dsimp only
  rw [hwalk] at hchildren ⊢
  generalize horder : G.dag.postorder roots = order at *
  rcases assignDense_spec hnodup with ⟨table, hassign, hshort, htable⟩ | ⟨herror, hlong⟩
  swap
  · refine .inr ⟨"compile: graph contains too many nodes", ?_, .inl hlong⟩
    rw [herror]
    rfl
  rw [hassign, ok_bind]
  -- the edges
  obtain ⟨edges, hedgesRun, hedges⟩ := foldlM_total (EdgesOk G order) order.zipIdx
    (fun done entry rest tables hsplit h =>
      indexEdges_spec hnodup hshort htable hclosed hsplit h)
    ⟨[], List.replicate order.length [], (G.discoverGraph roots).childrenByNode⟩
    ⟨fun id hid _ => hchildren id hid, rfl, fun _ _ h => absurd h not_mem_nil,
      length_replicate, fun i consumersOf hi j => by
        rw [List.getElem?_replicate] at hi
        split at hi
        · obtain rfl := some.inj hi
          rfl
        · cases hi⟩
  rw [hedgesRun, ok_bind]
  have hdense : ∀ id ∈ order, ∃ i, table.lookup id = some i := fun id hid => by
    obtain ⟨i, hi⟩ := mem_iff_getElem?.mp hid
    exact ⟨i, (htable id i).mpr hi⟩
  -- the roots
  obtain ⟨denseRoots, hroots⟩ : ∃ denseRoots, roots.mapM (fun root =>
      expect (table.lookup root) "every root must have a dense ID") =
        (.ok denseRoots : Fallible String (List DenseNodeId)) := by
    refine mapM_total fun root hroot => ?_
    obtain ⟨i, hi⟩ := hdense root (horder ▸ Dag.mem_postorder.mpr ⟨root, hroot, .refl⟩)
    exact ⟨i, expect_ok.mpr hi⟩
  rw [hroots, ok_bind]
  -- the slots
  rcases collectProgramSlots_spec G order with
    ⟨slots, slotLeaves, hslotsRun, hslotsOk, hslots, hleaves⟩ | ⟨message, herror, hbad⟩
  swap
  · refine .inr ⟨message, ?_, .inr hbad⟩
    rw [herror]
    rfl
  have hmap : (Except.ok (slots, slotLeaves) : Except String _).mapError Fault.error =
      .ok (slots, slotLeaves) := rfl
  rw [hslotsRun, hmap, ok_bind]
  have hleafOf : ∀ id slot, (id, slot) ∈ slotLeaves ↔ id ∈ order ∧ ∃ declared,
      declaredSlot (G.node id).kind = some (slot, declared) := by
    intro id slot
    rw [hleaves, mem_filterMap]
    constructor
    · rintro ⟨id', hid', hmap⟩
      obtain ⟨⟨slot', declared⟩, hdeclared, heq⟩ := map_eq_some_iff.mp hmap
      obtain ⟨rfl, rfl⟩ := Prod.mk.inj heq
      exact ⟨hid', declared, hdeclared⟩
    · rintro ⟨hid, declared, hdeclared⟩
      exact ⟨id, hid, by rw [hdeclared]; rfl⟩
  obtain ⟨denseLeaves, hdenseLeaves⟩ : ∃ denseLeaves, slotLeaves.mapM (fun leaf => do
      let dense ← expect (table.lookup leaf.1) "every slot leaf must have a dense ID"
      pure (dense, leaf.2)) = (.ok denseLeaves : Fallible String (List (DenseNodeId × Nat))) := by
    refine mapM_total fun ⟨id, slot⟩ hmem => ?_
    obtain ⟨i, hi⟩ := hdense id ((hleafOf id slot).mp hmem).1
    exact ⟨(i, slot), by rw [hi]; rfl⟩
  rw [hdenseLeaves, ok_bind]
  -- the leaves
  obtain ⟨leaves, hleavesRun, _⟩ := foldlM_total
    (fun done (tables : LeafTables) => tables.randomSourceOrder.length ≤ done.length)
    order.zipIdx (f := indexLeaf G) (fun done entry rest tables hsplit h =>
      indexLeaf_total hshort hsplit h)
    ⟨[], List.replicate order.length none, []⟩ (Nat.le_refl _)
  rw [hleavesRun, ok_bind]
  refine .inl ⟨_, rfl, ?_, hshort, hslotsOk⟩
  have hedge : ∀ (i : Nat) id, order[i]? = some id → ∃ denseChildren,
      edges.children[i]? = some denseChildren ∧
        List.Forall₂ (fun child dense => order[dense]? = some child) (G.children id)
          denseChildren :=
    fun i id hid => hedges.children id i (mk_mem_zipIdx_iff_getElem?.mpr hid)
  have hlength : edges.children.length = order.length :=
    hedges.length.trans length_zipIdx
  have hdown : ∀ (i : Nat) denseChildren, edges.children[i]? = some denseChildren →
      ∀ child ∈ denseChildren, child < i := by
    intro i denseChildren hi dense hmem
    have hlt : i < order.length := hlength ▸ (List.getElem?_eq_some_iff.mp hi).1
    have hid := List.getElem?_eq_getElem hlt
    obtain ⟨found, hfound, hforall⟩ := hedge i _ hid
    obtain rfl := some.inj (hi.symm.trans hfound)
    obtain ⟨child, hchild, hdenseChild⟩ := mem_of_forall₂_right hforall hmem
    obtain ⟨j, hj, hchild'⟩ := hbefore i _ hid child hchild
    rwa [(List.getElem?_inj (List.getElem?_eq_some_iff.mp hdenseChild).1 hnodup).mp
      (hdenseChild.trans hchild'.symm)]
  refine ⟨horder.symm, htable, hedge, hlength, hdown, hedges.consumers_length,
    fun i j consumersOf denseChildren hi hj => ?_, fun i consumersOf hi consumer hmem => ?_,
    (mapM_forall₂.mp hroots).imp fun root dense hroot => (htable root dense).mp (expect_ok.mp hroot),
    hslots, fun dense slot => ⟨fun hmem => ?_, ?_⟩⟩
  · rw [hedges.consumers i consumersOf hi j, hj, getD_some]
  · have hcount := hedges.consumers i consumersOf hi consumer
    cases hchildrenOf : edges.children[consumer]? with
    | none =>
      rw [hchildrenOf] at hcount
      exact absurd hcount (Nat.ne_of_gt (count_pos_iff.mpr hmem))
    | some denseChildren =>
      rw [hchildrenOf, getD_some] at hcount
      refine ⟨hdown consumer denseChildren hchildrenOf i (count_pos_iff.mp ?_),
        hlength ▸ (List.getElem?_eq_some_iff.mp hchildrenOf).1⟩
      exact hcount ▸ count_pos_iff.mpr hmem
  · obtain ⟨⟨id, slot'⟩, hleaf, hturn⟩ := mapM_mem_right hdenseLeaves hmem
    obtain ⟨dense', hdense', heq⟩ := bind_ok.mp hturn
    obtain ⟨rfl, rfl⟩ := Prod.mk.inj (Except.ok.inj heq)
    obtain ⟨_, declared, hdeclared⟩ := (hleafOf id slot').mp hleaf
    exact ⟨id, declared, (htable id dense').mp (expect_ok.mp hdense'), hdeclared⟩
  · rintro ⟨id, declared, hid, hdeclared⟩
    obtain ⟨leaf, hleaf, hturn⟩ := mapM_mem_left hdenseLeaves
      ((hleafOf id slot).mpr ⟨mem_of_getElem? hid, declared, hdeclared⟩)
    rw [(htable id dense).mpr hid] at hturn
    obtain rfl := Except.ok.inj hturn
    exact hleaf

end Tables

end EffectTorch
