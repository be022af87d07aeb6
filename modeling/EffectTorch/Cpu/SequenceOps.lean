import EffectTorch.Cpu.Sequence
import EffectTorch.Cpu.StoreOps

/-!
# What the operations of a sequence do

Each operation is described once: which blocks it leases, drops or replaces, and
which rows it changes. The handles of the sequence are its blocks from `head` on;
`F` is everything else that holds a block.

Results:
1. `copySharedTail_ok`, `kvPrepare_ok`, `kvPrepare_error`: the cases of the two
   operations.
2. `Prepared.keeps`: leasing for a chunk keeps every lawful invariant.
3. `evictBlocks_spec`, `rollbackLane_keeps`: dropping blocks does.
4. `noteTokensDeferred_eq`: which pages a chunk completes, and their hashes.
-/

namespace EffectTorch
open List Function Lib BlockStore

/-! ## Consecutive leases -/

section Allocs

variable {σ : Type} {s s' : BlockStore σ} {l H : List Nat}

/-- `l` was leased in a row; a last lease may have failed. -/
inductive Allocs : BlockStore σ → List Nat → BlockStore σ → Prop
  | nil {s : BlockStore σ} : Allocs s [] s
  | cons {s s₁ s₂ : BlockStore σ} {b : Nat} {l : List Nat} :
      s.allocBlock = (some b, s₁) → Allocs s₁ l s₂ → Allocs s (b :: l) s₂
  | exhausted {s s₁ : BlockStore σ} : s.allocBlock = (none, s₁) → Allocs s [] s₁

variable {I : BlockStore σ → List Nat → Prop}

theorem Allocs.keeps (hI : Lawful I) (h : Allocs s l s') (hs : I s H) : I s' (l ++ H) := by
  induction h generalizing H with
  | nil => exact hs
  | cons ha _ ih => exact hI.perm (ih (hI.alloc hs ha).2) List.perm_middle
  | exhausted ha => exact hI.exhausted hs ha

/-- Leased blocks are different and had no handle. -/
theorem Allocs.fresh (hI : Lawful I) (h : Allocs s l s') (hs : I s H) : l.Nodup ∧ ∀ b ∈ l, b ∉ H := by
  induction h generalizing H with
  | nil => exact ⟨nodup_nil, fun b hb => absurd hb not_mem_nil⟩
  | @cons s s₁ s₂ b l ha _ ih =>
    obtain ⟨hnodup, hfresh⟩ := ih (hI.alloc hs ha).2
    refine ⟨nodup_cons.mpr ⟨fun hb => hfresh b hb mem_cons_self, hnodup⟩, ?_⟩
    refine forall_mem_cons.mpr ⟨hI.alloc_not_mem hs ha, fun d hd hH => ?_⟩
    exact hfresh d hd (mem_cons_of_mem b hH)
  | exhausted => exact ⟨nodup_nil, fun b hb => absurd hb not_mem_nil⟩

theorem Allocs.unheld (hI : Lawful I) (h : Allocs s l s') (hs : I s H) : ∀ b ∈ l, s.refcounts b = 0 := fun b hb =>
  (hI.counted hs).eq_zero.mpr ((h.fresh hI hs).2 b hb)

/-- Leased blocks have one handle each. -/
theorem Allocs.refcounts_one (hI : Lawful I) (h : Allocs s l s') (hs : I s H) : ∀ b ∈ l, s'.refcounts b = 1 := fun b hb => by
  obtain ⟨hnodup, hfresh⟩ := h.fresh hI hs
  rw [hI.counted (h.keeps hI hs) b, count_append, count_eq_one_of_mem hnodup hb,
    count_eq_zero.mpr (hfresh b hb)]

theorem Allocs.hashes (h : Allocs s l s') (d : Nat) :
    s'.hashes d = if d ∈ l then none else s.hashes d := by
  induction h with
  | nil => rfl
  | @cons s s₁ s₂ b l ha _ ih =>
    rw [ih, allocBlock_hashes ha]
    by_cases hd : d = b
    · subst hd
      simp
    · simp [hd]
  | exhausted ha =>
    rw [(allocBlock_none ha).2]
    rfl

theorem Allocs.listed (h : Allocs s l s') {d : Nat} (hd : d ∉ l) :
    s'.listed.count d = s.listed.count d := by
  induction h with
  | nil => rfl
  | @cons s s₁ s₂ b l ha _ ih =>
    rw [mem_cons, not_or] at hd
    rw [ih hd.2, allocBlock_listed ha hd.1]
  | exhausted ha =>
    rw [(allocBlock_none ha).2]
    rfl

theorem Allocs.snapshots (h : Allocs s l s') {hash : UInt64} {snapshot : RecurrentSnapshot σ}
    (hs : s'.snapshots.lookup hash = some snapshot) :
    s.snapshots.lookup hash = some snapshot := by
  induction h with
  | nil => exact hs
  | @cons s s₁ s₂ b l ha _ ih => exact allocBlock_snapshots ha (ih hs)
  | exhausted ha =>
    rw [(allocBlock_none ha).2] at hs
    exact hs

theorem Allocs.refcounts (h : Allocs s l s') {d : Nat} (hd : d ∉ l) :
    s'.refcounts d = s.refcounts d := by
  induction h with
  | nil => rfl
  | @cons s s₁ s₂ b l ha _ ih =>
    rw [mem_cons, not_or] at hd
    rw [ih hd.2, allocBlock_refcounts ha, update_of_ne hd.1]
  | exhausted ha =>
    rw [(allocBlock_none ha).2]

end Allocs

section Operations

variable {ρ σ : Type} {c : PoolConfig} {I : BlockStore σ → List Nat → Prop}
  {pool pool' : PoolInner ρ σ} {state state' : SeqState σ} {F : List Nat}

/-- The pages a sequence holds by itself. -/
def SeqState.live (state : SeqState σ) : List Nat := state.blocks.drop state.head

/-! ## The shared tail -/

/-- The two ways out of `copy_shared_tail`. -/
inductive TailCopy (c : PoolConfig) (pool : PoolInner ρ σ) (state : SeqState σ) :
    PoolInner ρ σ → SeqState σ → Prop
  | kept : (state.cursor % c.blockSize ≠ 0 → ∀ old,
        state.blocks[state.cursor / c.blockSize]? = some old →
        state.transactionTail = some old ∨ pool.store.refcounts old ≤ 1) →
      TailCopy c pool state pool state
  | copied {old new : Nat} {store : BlockStore σ} : state.cursor % c.blockSize ≠ 0 →
      state.blocks[state.cursor / c.blockSize]? = some old → 1 < pool.store.refcounts old →
      pool.store.allocBlock = (some new, store) →
      TailCopy c pool state ⟨store.unrefBlock old, copyPage c pool.rows old new⟩
        { state with
          copiedBytes := state.copiedBytes + c.pageBytes
          blocks := state.blocks.set (state.cursor / c.blockSize) new }

theorem copySharedTail_ok (h : copySharedTail c pool state = (.ok (), pool', state')) :
    TailCopy c pool state pool' state' := by
  unfold copySharedTail at h
  split at h
  · next hmod =>
    cases h
    exact .kept fun hne => absurd hmod hne
  · next hmod =>
    split at h
    · next hnone =>
      cases h
      refine .kept fun _ old hold => ?_
      rw [hnone] at hold
      cases hold
    · next old hold =>
      split at h
      · next htail =>
        cases h
        refine .kept fun _ old' hold' => .inl ?_
        rw [hold] at hold'
        rw [htail, hold']
      · split at h
        · next hcount =>
          cases h
          refine .kept fun _ old' hold' => .inr ?_
          rw [hold] at hold'
          rwa [← Option.some.inj hold']
        · next hcount =>
          split at h
          · cases h
          · next new store halloc =>
            cases h
            exact .copied hmod hold (Nat.lt_of_not_le hcount) halloc

theorem copySharedTail_error {e : String}
    (h : copySharedTail c pool state = (.error e, pool', state')) :
    ∃ store, pool.store.allocBlock = (none, store) ∧ pool' = { pool with store } ∧
      state' = state := by
  unfold copySharedTail at h
  split at h
  · cases h
  · split at h
    · cases h
    · split at h
      · cases h
      · split at h
        · cases h
        · split at h
          · next store halloc =>
            cases h
            exact ⟨store, halloc, rfl, rfl⟩
          · cases h

/-- What the tail copy leaves alone. -/
theorem TailCopy.fields (h : TailCopy c pool state pool' state') :
    state'.head = state.head ∧ state'.cursor = state.cursor ∧ state'.advance = state.advance ∧
      state'.blocks.length = state.blocks.length := by
  cases h with
  | kept => exact ⟨rfl, rfl, rfl, rfl⟩
  | copied => exact ⟨rfl, rfl, rfl, length_set⟩

variable {blocks : List Nat} {b k position off layer : Nat}

theorem replace_perm {l : List Nat} {i a : Nat} (h : l[i]? = some a) : (b :: l).Perm (a :: l.set i b) := by
  obtain ⟨hlt, _⟩ := List.getElem?_eq_some_iff.mp h
  exact ((perm_eraseIdx h).cons b).trans ((List.Perm.swap a b _).trans ((set_perm b hlt).symm.cons a))

theorem live_set (hk : state.head ≤ k) :
    (state.blocks.set k b).drop state.head = state.live.set (k - state.head) b := by
  unfold SeqState.live
  rw [drop_set, if_neg (Nat.not_lt.mpr hk)]

theorem live_getElem? (hk : state.head ≤ k) : state.live[k - state.head]? = state.blocks[k]? := by
  unfold SeqState.live
  rw [List.getElem?_drop, Nat.add_sub_cancel' hk]

theorem mem_live (hk : state.head ≤ k) (hb : state.blocks[k]? = some b) : b ∈ state.live := by
  rw [← live_getElem? hk] at hb
  exact mem_of_getElem? hb

theorem TailCopy.keeps (hI : Lawful I) (h : TailCopy c pool state pool' state')
    (hhead : state.head ≤ state.cursor / c.blockSize) (hs : I pool.store (state.live ++ F)) :
    I pool'.store (state'.live ++ F) := by
  cases h with
  | kept => exact hs
  | @copied old new store _ hold _ halloc =>
    have hnew := (hI.alloc hs halloc).2
    have hold' := hold
    rw [← live_getElem? hhead] at hold'
    have hperm : (new :: (state.live ++ F)).Perm
        (old :: (state.live.set (state.cursor / c.blockSize - state.head) new ++ F)) :=
      (replace_perm hold').append_right F
    show I (store.unrefBlock old)
      ((state.blocks.set (state.cursor / c.blockSize) new).drop state.head ++ F)
    rw [live_set hhead]
    exact hI.unref (hI.perm hnew hperm)

/-! ## Preparing a chunk -/

theorem leaseBlocks_spec {needed fuel : Nat} {store store' : BlockStore σ} {blocks' : List Nat}
    {r : Except String Unit} (h : leaseBlocks c needed fuel store blocks = (r, store', blocks')) :
    ∃ added, blocks' = blocks ++ added ∧ Allocs store added store' ∧
      (added ≠ [] → blocks'.length * c.blockSize < needed + c.blockSize) ∧
      (r = .ok () → needed ≤ fuel + blocks.length * c.blockSize →
        needed ≤ blocks'.length * c.blockSize) := by
  induction fuel generalizing store blocks with
  | zero =>
    cases h
    exact ⟨[], (append_nil _).symm, .nil, fun hne => absurd rfl hne, fun _ hle => by omega⟩
  | succ fuel ih =>
    rw [leaseBlocks] at h
    split at h
    · next hlt =>
      split at h
      · next store₁ ha =>
        cases h
        exact ⟨[], (append_nil _).symm, .exhausted ha, fun hne => absurd rfl hne, nofun⟩
      · next b store₁ ha =>
        obtain ⟨added, rfl, hallocs, hbound, hok⟩ := ih h
        have hpos := c.blockSize_pos
        have hone : (blocks ++ [b]).length * c.blockSize =
            blocks.length * c.blockSize + c.blockSize := by
          rw [length_append, length_singleton, Nat.succ_mul]
        refine ⟨b :: added, by simp, .cons ha hallocs, fun _ => ?_, fun hr hle => ?_⟩
        · by_cases hadded : added = []
          · rw [hadded, append_nil, hone]
            omega
          · exact hbound hadded
        · exact hok hr (by omega)
    · next hge =>
      cases h
      exact ⟨[], (append_nil _).symm, .nil, fun hne => absurd rfl hne, fun _ _ => by omega⟩

/-- `kv_prepare` copies the tail if it must, then leases blocks for the chunk. -/
def Prepared (c : PoolConfig) (pool : PoolInner ρ σ) (state : SeqState σ)
    (pool' : PoolInner ρ σ) (state' : SeqState σ) : Prop :=
  ∃ pool₁ state₁ added, TailCopy c pool state pool₁ state₁ ∧
    Allocs pool₁.store added pool'.store ∧ pool'.rows = pool₁.rows ∧
    state' = { state₁ with blocks := state₁.blocks ++ added } ∧
    (added ≠ [] →
      state'.blocks.length * c.blockSize < state.cursor + state.advance + c.blockSize)

/-- An error may come before anything was done, from the copy, or from a lease. -/
def Attempted (c : PoolConfig) (pool : PoolInner ρ σ) (state : SeqState σ)
    (pool' : PoolInner ρ σ) (state' : SeqState σ) : Prop :=
  c.kvLayers ≠ [] ∧ Prepared c pool state pool' state' ∨
    Allocs pool.store [] pool'.store ∧ pool'.rows = pool.rows ∧ state' = state

theorem kvPrepare_ok {window : Option Nat} {command : AttentionCommand} {r : Nat × Nat × Nat}
    (h : kvPrepare c pool state window command = (.ok r, pool', state')) :
    Prepared c pool state pool' state' ∧ 0 < state.advance ∧ command.layer < c.kvLayers.length ∧
      state.cursor + state.advance ≤ state'.blocks.length * c.blockSize := by
  unfold kvPrepare at h
  split at h
  · cases h
  · next layer hlayer =>
    have hlt := (List.getElem?_eq_some_iff.mp hlayer).1
    split at h
    · cases h
    · split at h
      · cases h
      · next hadvance =>
        dsimp only at h
        split at h
        · cases h
        · split at h
          · cases h
          · split at h
            · cases h
            · next pool₁ state₁ htail =>
              have hcopy := copySharedTail_ok htail
              obtain ⟨_, _, _, hlength⟩ := hcopy.fields
              split at h
              · cases h
              · next store blocks hlease =>
                cases h
                obtain ⟨added, rfl, hallocs, hbound, hok⟩ := leaseBlocks_spec hlease
                have hpos : 0 < state.advance := by
                  rw [not_or] at hadvance
                  exact Nat.pos_of_ne_zero hadvance.1
                refine ⟨⟨pool₁, state₁, added, hcopy, hallocs, rfl, rfl, hbound⟩, hpos, hlt, ?_⟩
                exact hok rfl (Nat.le_add_right _ _)

theorem kvPrepare_error {window : Option Nat} {command : AttentionCommand} {e : String}
    (h : kvPrepare c pool state window command = (.error e, pool', state')) :
    Attempted c pool state pool' state' := by
  have hsame : ∀ {pool' : PoolInner ρ σ} {state' : SeqState σ}, pool = pool' → state = state' →
      Attempted c pool state pool' state' := by
    rintro _ _ rfl rfl
    exact .inr ⟨.nil, rfl, rfl⟩
  unfold kvPrepare at h
  split at h
  · cases h
    exact hsame rfl rfl
  · next layer hlayer =>
    have hne : c.kvLayers ≠ [] := ne_nil_of_mem (mem_of_getElem? hlayer)
    split at h
    · cases h
      exact hsame rfl rfl
    · split at h
      · cases h
        exact hsame rfl rfl
      · dsimp only at h
        split at h
        · cases h
          exact hsame rfl rfl
        · split at h
          · cases h
            exact hsame rfl rfl
          · split at h
            · next htail =>
              cases h
              obtain ⟨store, halloc, rfl, rfl⟩ := copySharedTail_error htail
              exact .inr ⟨.exhausted halloc, rfl, rfl⟩
            · next pool₁ state₁ htail =>
              split at h
              · next store blocks hlease =>
                cases h
                obtain ⟨added, rfl, hallocs, hbound, _⟩ := leaseBlocks_spec hlease
                exact .inl ⟨hne, pool₁, state₁, added, copySharedTail_ok htail, hallocs, rfl, rfl,
                  hbound⟩
              · cases h

section Prepared

variable (h : Prepared c pool state pool' state')
include h

theorem Prepared.same : ∃ copiedBytes blocks, state' = { state with
    copiedBytes
    blocks } := by
  obtain ⟨pool₁, state₁, added, hcopy, _, _, rfl, _⟩ := h
  cases hcopy with
  | kept => exact ⟨_, _, rfl⟩
  | copied => exact ⟨_, _, rfl⟩

theorem Prepared.fields : state'.head = state.head ∧ state'.cursor = state.cursor ∧
    state'.advance = state.advance ∧ state.blocks.length ≤ state'.blocks.length := by
  obtain ⟨pool₁, state₁, added, hcopy, _, _, rfl, _⟩ := h
  obtain ⟨hhead, hcursor, hadvance, hlength⟩ := hcopy.fields
  refine ⟨hhead, hcursor, hadvance, ?_⟩
  rw [← hlength]
  show state₁.blocks.length ≤ (state₁.blocks ++ added).length
  rw [length_append]
  exact Nat.le_add_right _ _

variable {b : Nat}

/-- The table only changes at its shared tail, and grows. -/
theorem Prepared.table {k : Nat} (hb : state.blocks[k]? = some b) :
    state'.blocks[k]? = some b ∨ k = state.cursor / c.blockSize ∧ 1 < pool.store.refcounts b := by
  have hlt := (List.getElem?_eq_some_iff.mp hb).1
  obtain ⟨pool₁, state₁, added, hcopy, _, _, rfl, _⟩ := h
  cases hcopy with
  | kept =>
    left
    show (state.blocks ++ added)[k]? = some b
    rw [List.getElem?_append_left hlt, hb]
  | @copied old new store hmod hold hcount halloc =>
    by_cases hk : k = state.cursor / c.blockSize
    · subst hk
      rw [hold] at hb
      obtain rfl := Option.some.inj hb
      exact .inr ⟨rfl, hcount⟩
    · left
      show (state.blocks.set (state.cursor / c.blockSize) new ++ added)[k]? = some b
      rw [List.getElem?_append_left (by rwa [length_set]), List.getElem?_set_ne (Ne.symm hk),
        hb]

theorem Prepared.length_lt
    (hlen : state.blocks.length * c.blockSize < state.cursor + state.advance + c.blockSize) :
    state'.blocks.length * c.blockSize < state.cursor + state.advance + c.blockSize := by
  obtain ⟨pool₁, state₁, added, hcopy, _, _, rfl, hbound⟩ := h
  by_cases hadded : added = []
  · show (state₁.blocks ++ added).length * c.blockSize < _
    rwa [hadded, append_nil, hcopy.fields.2.2.2]
  · exact hbound hadded

theorem Prepared.keeps (hI : Lawful I) (hhead : state.head ≤ state.cursor / c.blockSize)
    (hlen : state.head ≤ state.blocks.length) (hs : I pool.store (state.live ++ F)) :
    I pool'.store (state'.live ++ F) := by
  obtain ⟨pool₁, state₁, added, hcopy, hallocs, _, rfl, _⟩ := h
  obtain ⟨hhead₁, _, _, hlength⟩ := hcopy.fields
  have h₁ := hallocs.keeps hI (hcopy.keeps hI hhead hs)
  have hlive : SeqState.live { state₁ with blocks := state₁.blocks ++ added } =
      state₁.live ++ added := by
    show List.drop state₁.head (state₁.blocks ++ added) = _
    exact drop_append_of_le_length (by rw [hhead₁, hlength]; exact hlen)
  rw [hlive, append_assoc]
  refine hI.perm h₁ ?_
  rw [← append_assoc, ← append_assoc]
  exact perm_append_comm.append_right F

/-- A new block of the table was in nobody's hands, and has no hash. -/
theorem Prepared.leased (hI : Lawful I) (hhead : state.head ≤ state.cursor / c.blockSize)
    (hs : I pool.store (state.live ++ F)) {k : Nat} (hb : state'.blocks[k]? = some b) :
    state.blocks[k]? = some b ∨ (pool.store.refcounts b = 0 ∧ pool'.store.hashes b = none) := by
  obtain ⟨pool₁, state₁, added, hcopy, hallocs, _, rfl, _⟩ := h
  have h₁ := hcopy.keeps hI hhead hs
  have hmem : state₁.blocks[k]? = some b ∨ b ∈ added := by
    replace hb : (state₁.blocks ++ added)[k]? = some b := hb
    rw [List.getElem?_append] at hb
    split at hb
    · exact .inl hb
    · exact .inr (mem_of_getElem? hb)
  have hadded : b ∈ added → pool₁.store.refcounts b = 0 ∧ pool'.store.hashes b = none :=
    fun hb => ⟨hallocs.unheld hI h₁ b hb, by rw [hallocs.hashes, if_pos hb]⟩
  cases hcopy with
  | kept => exact hmem.imp_right hadded
  | @copied old new store hmod hold hcount halloc =>
    have hnew : pool.store.refcounts new = 0 := (hI.alloc hs halloc).1
    rcases hmem with htable | hb
    · replace htable : (state.blocks.set (state.cursor / c.blockSize) new)[k]? = some b := htable
      rw [List.getElem?_set] at htable
      split at htable
      · split at htable
        · obtain rfl := Option.some.inj htable
          refine .inr ⟨hnew, ?_⟩
          rw [hallocs.hashes]
          split
          · rfl
          · show (store.unrefBlock old).hashes new = none
            rw [unrefBlock_hashes, allocBlock_hashes halloc, update_self]
        · cases htable
      · exact .inl htable
    · obtain ⟨hzero, hnone⟩ := hadded hb
      refine .inr ⟨?_, hnone⟩
      have hzero' : (store.unrefBlock old).refcounts b = 0 := hzero
      rw [unrefBlock_refcounts, allocBlock_refcounts halloc] at hzero'
      have hne : old ≠ new := fun heq => by
        rw [heq, hnew] at hcount
        cases hcount
      by_cases hbold : b = old
      · rw [hbold, update_self, update_of_ne hne] at hzero'
        omega
      · rw [update_of_ne hbold] at hzero'
        by_cases hbnew : b = new
        · rw [hbnew, update_self] at hzero'
          cases hzero'
        · rwa [update_of_ne hbnew] at hzero'

/-- Leasing hashes nothing. -/
theorem Prepared.cleared (b : Nat) :
    pool'.store.hashes b = pool.store.hashes b ∨ pool'.store.hashes b = none := by
  obtain ⟨pool₁, state₁, added, hcopy, hallocs, _, rfl, _⟩ := h
  rw [hallocs.hashes]
  split
  · exact .inr rfl
  · cases hcopy with
    | kept => exact .inl rfl
    | @copied old new store hmod hold hcount halloc =>
      show (store.unrefBlock old).hashes b = _ ∨ (store.unrefBlock old).hashes b = none
      rw [unrefBlock_hashes, allocBlock_hashes halloc]
      by_cases hb : b = new
      · rw [hb, update_self]
        exact .inr rfl
      · rw [update_of_ne hb]
        exact .inl rfl

/-- Nor does it add snapshots. -/
theorem Prepared.snapshots {hash : UInt64} {snapshot : RecurrentSnapshot σ}
    (hs : pool'.store.snapshots.lookup hash = some snapshot) :
    pool.store.snapshots.lookup hash = some snapshot := by
  obtain ⟨pool₁, state₁, added, hcopy, hallocs, _, rfl, _⟩ := h
  have hs₁ := hallocs.snapshots hs
  cases hcopy with
  | kept => exact hs₁
  | @copied old new store hmod hold hcount halloc =>
    refine allocBlock_snapshots halloc ?_
    rwa [← unrefBlock_snapshots]

/-- What is published about referenced blocks stays. -/
theorem Prepared.published (hI : Lawful I) (hhead : state.head ≤ state.cursor / c.blockSize)
    (hs : I pool.store (state.live ++ F)) (hb : pool.store.refcounts b ≠ 0) :
    pool'.store.hashes b = pool.store.hashes b ∧
      pool'.store.listed.count b = pool.store.listed.count b := by
  obtain ⟨pool₁, state₁, added, hcopy, hallocs, _, rfl, _⟩ := h
  have h₁ := hcopy.keeps hI hhead hs
  cases hcopy with
  | kept =>
    have hnot := fun hmem => hb (hallocs.unheld hI h₁ b hmem)
    exact ⟨by rw [hallocs.hashes, if_neg hnot], hallocs.listed hnot⟩
  | @copied old new store hmod hold hcount halloc =>
    have hnew : b ≠ new := fun heq => hb (by rw [heq]; exact (hI.alloc hs halloc).1)
    have hkept : (store.unrefBlock old).refcounts b ≠ 0 := by
      rw [unrefBlock_refcounts, allocBlock_refcounts halloc]
      by_cases hbold : b = old
      · subst hbold
        rw [update_self, update_of_ne hnew]
        omega
      · rwa [update_of_ne hbold, update_of_ne hnew]
    have hnot := fun hmem => hkept (hallocs.unheld hI h₁ b hmem)
    constructor
    · rw [hallocs.hashes, if_neg hnot]
      show (store.unrefBlock old).hashes b = _
      rw [unrefBlock_hashes, allocBlock_hashes halloc, update_of_ne hnew]
    · rw [hallocs.listed hnot]
      show (store.unrefBlock old).listed.count b = _
      rw [listed, unrefBlock_byHash]
      exact allocBlock_listed halloc hnew

/-- After `kv_prepare` the sequence holds the pages from its cursor on alone. -/
theorem Prepared.alone (hI : Lawful I) (hhead : state.head ≤ state.cursor / c.blockSize)
    (htail : state.transactionTail = none) (hs : I pool.store (state.live ++ F))
    (hbeyond : ∀ k b, state.head ≤ k → state.cursor ≤ k * c.blockSize →
      state.blocks[k]? = some b → pool.store.refcounts b = 1) :
    ∀ k b, state.cursor / c.blockSize ≤ k → state'.blocks[k]? = some b →
      pool'.store.refcounts b = 1 := by
  obtain ⟨pool₁, state₁, added, hcopy, hallocs, _, rfl, _⟩ := h
  intro k b hk hb
  have h₁ := hcopy.keeps hI hhead hs
  have hcursor := (Nat.div_add_mod state.cursor c.blockSize)
  -- a page past the one of the cursor starts at or after it
  have hpast : state.cursor / c.blockSize < k → state.cursor ≤ k * c.blockSize := fun hlt => by
    have hmod := Nat.mod_lt state.cursor c.blockSize_pos
    have hle := Nat.mul_le_mul_right c.blockSize hlt
    rw [Nat.succ_mul, Nat.mul_comm (state.cursor / c.blockSize)] at hle
    omega
  suffices hone : b ∉ added → pool₁.store.refcounts b = 1 by
    by_cases hmem : b ∈ added
    · exact hallocs.refcounts_one hI h₁ b hmem
    · rw [hallocs.refcounts hmem]
      exact hone hmem
  intro hmem
  have hget : state₁.blocks[k]? = some b := by
    have hb' : (state₁.blocks ++ added)[k]? = some b := hb
    rw [List.getElem?_append] at hb'
    split at hb'
    · exact hb'
    · exact absurd (mem_of_getElem? hb') hmem
  cases hcopy with
  | kept hwhy =>
    by_cases hge : state.cursor ≤ k * c.blockSize
    · exact hbeyond k b (Nat.le_trans hhead hk) hge hget
    · have hkeq : k = state.cursor / c.blockSize := by
        by_contra hne
        exact hge (hpast (by omega))
      have hmod : state.cursor % c.blockSize ≠ 0 := fun hzero => hge (by
        rw [hkeq, Nat.mul_comm]
        omega)
      rw [hkeq] at hget
      have hle : pool.store.refcounts b ≤ 1 := by
        rcases hwhy hmod b hget with hsome | hle
        · rw [htail] at hsome
          cases hsome
        · exact hle
      have hpos : 0 < pool.store.refcounts b :=
        (hI.counted hs).pos.mpr (mem_append_left F (mem_live hhead hget))
      omega
  | @copied old new store hmod hold hcount halloc =>
    have hnew : pool.store.refcounts new = 0 := (hI.alloc hs halloc).1
    have hne : old ≠ new := fun heq => by
      rw [heq, hnew] at hcount
      cases hcount
    show (store.unrefBlock old).refcounts b = 1
    rw [unrefBlock_refcounts, allocBlock_refcounts halloc]
    have hget' : (state.blocks.set (state.cursor / c.blockSize) new)[k]? = some b := hget
    by_cases hkeq : k = state.cursor / c.blockSize
    · have hlt := (List.getElem?_eq_some_iff.mp hold).1
      rw [hkeq, List.getElem?_set_self hlt] at hget'
      cases hget'
      rw [update_of_ne (Ne.symm hne), update_self]
    · rw [List.getElem?_set_ne (Ne.symm hkeq)] at hget'
      have hone := hbeyond k b (Nat.le_trans hhead hk) (hpast (by omega)) hget'
      have hbold : b ≠ old := fun heq => by
        rw [heq] at hone
        omega
      have hbnew : b ≠ new := fun heq => by
        rw [heq, hnew] at hone
        cases hone
      rw [update_of_ne hbold, update_of_ne hbnew, hone]

end Prepared

/-! ## Rows -/

theorem physical_eq_iff (hoff : off < c.blockSize) :
    physical c blocks position = b * c.blockSize + off ↔
      blocks.getD (position / c.blockSize) 0 = b ∧ position % c.blockSize = off := by
  unfold physical
  constructor
  · intro h
    have hmod := congrArg (· % c.blockSize) h
    have hdiv := congrArg (· / c.blockSize) h
    simp only [Nat.mul_add_mod_self_right, Nat.mod_mod, Nat.mod_eq_of_lt hoff] at hmod
    simp only [Nat.mul_comm _ c.blockSize, Nat.mul_add_div c.blockSize_pos,
      Nat.div_eq_of_lt (Nat.mod_lt position c.blockSize_pos), Nat.div_eq_of_lt hoff,
      Nat.add_zero] at hdiv
    exact ⟨hdiv, hmod⟩
  · rintro ⟨rfl, rfl⟩
    rfl

/-- The row of a position of some page table. -/
def rowAt (c : PoolConfig) (rows : Nat → Nat → ρ) (blocks : List Nat) (layer position : Nat) : ρ :=
  rows layer (physical c blocks position)

theorem rowAt_of_getElem? {rows : Nat → Nat → ρ} (hb : blocks[position / c.blockSize]? = some b) :
    rowAt c rows blocks layer position = rows layer (b * c.blockSize + position % c.blockSize) := by
  rw [rowAt, physical, getD_eq_getElem?_getD, hb]
  rfl

theorem copyPage_apply {rows : Nat → Nat → ρ} {old new : Nat} (hoff : off < c.blockSize) :
    copyPage c rows old new layer (b * c.blockSize + off) =
      rows layer ((if b = new then old else b) * c.blockSize + off) := by
  have hdiv : (b * c.blockSize + off) / c.blockSize = b := by
    rw [Nat.mul_comm, Nat.mul_add_div c.blockSize_pos, Nat.div_eq_of_lt hoff, Nat.add_zero]
  have hmod : (b * c.blockSize + off) % c.blockSize = off := by
    rw [Nat.mul_add_mod_self_right, Nat.mod_eq_of_lt hoff]
  unfold copyPage
  rw [hdiv, hmod]
  split
  · rfl
  · rfl

section WriteRows

variable {blocks : List Nat} {layer : Nat} {rows : List ρ}

theorem writeRows_layer {l : Nat} (hl : l ≠ layer) (slabs : Nat → Nat → ρ) (position : Nat) :
    writeRows c blocks layer slabs position rows l = slabs l := by
  induction rows generalizing slabs position with
  | nil => rfl
  | cons row rows ih =>
    rw [writeRows, ih, update_of_ne hl]

theorem writeRows_other {r : Nat} (slabs : Nat → Nat → ρ) (position : Nat)
    (h : ∀ t < rows.length, physical c blocks (position + t) ≠ r) (l : Nat) :
    writeRows c blocks layer slabs position rows l r = slabs l r := by
  induction rows generalizing slabs position with
  | nil => rfl
  | cons row rows ih =>
    rw [writeRows, ih]
    · by_cases hl : l = layer
      · subst hl
        rw [update_self, update_of_ne]
        exact Ne.symm (h 0 (Nat.succ_pos _))
      · rw [update_of_ne hl]
    · intro t ht
      have := h (t + 1) (Nat.succ_lt_succ ht)
      rwa [← Nat.add_assoc, Nat.add_right_comm] at this

theorem writeRows_at (slabs : Nat → Nat → ρ) (position : Nat)
    (hinj : ∀ t < rows.length, ∀ t' < rows.length,
      physical c blocks (position + t) = physical c blocks (position + t') → t = t')
    {t : Nat} {row : ρ} (ht : rows[t]? = some row) :
    writeRows c blocks layer slabs position rows layer (physical c blocks (position + t)) = row := by
  induction rows generalizing slabs position t with
  | nil => cases ht
  | cons first rows ih =>
    rw [writeRows]
    cases t with
    | zero =>
      cases ht
      rw [writeRows_other, update_self, Nat.add_zero, update_self]
      intro t ht heq
      have h0 := hinj (t + 1) (Nat.succ_lt_succ ht) 0 (Nat.succ_pos _)
        (by rw [← heq, Nat.add_assoc, Nat.add_comm 1 t])
      cases h0
    | succ t =>
      have hstep := ih (Function.update slabs layer
        (Function.update (slabs layer) (physical c blocks position) first)) (position + 1)
        (fun u hu u' hu' heq => by
          have := hinj (u + 1) (Nat.succ_lt_succ hu) (u' + 1) (Nat.succ_lt_succ hu')
            (by rwa [Nat.add_assoc, Nat.add_assoc, Nat.add_comm 1, Nat.add_comm 1] at heq)
          exact Nat.succ.inj this) ht
      rwa [Nat.add_assoc, Nat.add_comm 1 t] at hstep

end WriteRows

/-- A referenced page keeps its rows, and the sequence finds its own rows where its
new block table points. -/
theorem Prepared.rows_of_referenced (hI : Lawful I) (h : Prepared c pool state pool' state')
    (hs : I pool.store (state.live ++ F)) (hoff : off < c.blockSize) (hb : pool.store.refcounts b ≠ 0) :
    pool'.rows layer (b * c.blockSize + off) = pool.rows layer (b * c.blockSize + off) := by
  obtain ⟨pool₁, state₁, added, hcopy, _, hrows, _, _⟩ := h
  rw [hrows]
  cases hcopy with
  | kept => rfl
  | @copied old new store _ _ _ halloc =>
    have hne : b ≠ new := fun heq => hb (by rw [heq]; exact (hI.alloc hs halloc).1)
    show copyPage c pool.rows old new layer _ = _
    rw [copyPage_apply hoff, if_neg hne]

/-- Rows are copied into the page of the cursor only. -/
theorem Prepared.rows_outside (h : Prepared c pool state pool' state') (hoff : off < c.blockSize)
    (hb : ∀ k, state.cursor / c.blockSize ≤ k → state'.blocks[k]? ≠ some b) :
    pool'.rows layer (b * c.blockSize + off) = pool.rows layer (b * c.blockSize + off) := by
  obtain ⟨pool₁, state₁, added, hcopy, _, hrows, rfl, _⟩ := h
  rw [hrows]
  cases hcopy with
  | kept => rfl
  | @copied old new store _ hold _ halloc =>
    have hne : b ≠ new := fun heq => by
      have hlt := (List.getElem?_eq_some_iff.mp hold).1
      refine hb _ (Nat.le_refl _) ?_
      show (state.blocks.set (state.cursor / c.blockSize) new ++ added)[_]? = some b
      rw [List.getElem?_append_left (by rwa [length_set]), List.getElem?_set_self hlt, heq]
    show copyPage c pool.rows old new layer _ = _
    rw [copyPage_apply hoff, if_neg hne]

theorem Prepared.rowAt (hI : Lawful I) (h : Prepared c pool state pool' state')
    (hs : I pool.store (state.live ++ F)) (layer : Nat) (hhead : state.head ≤ position / c.blockSize)
    (hlt : position / c.blockSize < state.blocks.length) :
    EffectTorch.rowAt c pool'.rows state'.blocks layer position =
      EffectTorch.rowAt c pool.rows state.blocks layer position := by
  have hoff := Nat.mod_lt position c.blockSize_pos
  obtain ⟨b, hb⟩ : ∃ b, state.blocks[position / c.blockSize]? = some b :=
    ⟨_, List.getElem?_eq_getElem hlt⟩
  have hlive : pool.store.refcounts b ≠ 0 := Nat.ne_of_gt
    ((hI.counted hs).pos.mpr (mem_append_left F (mem_live hhead hb)))
  have hkeep : pool'.rows layer (b * c.blockSize + position % c.blockSize) =
      pool.rows layer (b * c.blockSize + position % c.blockSize) :=
    h.rows_of_referenced hI hs hoff hlive
  obtain ⟨pool₁, state₁, added, hcopy, _, hrows, rfl, _⟩ := h
  rw [rowAt_of_getElem? hb]
  cases hcopy with
  | kept =>
    rw [rowAt_of_getElem? (b := b), hkeep]
    show (state.blocks ++ added)[_]? = some b
    rw [List.getElem?_append_left hlt, hb]
  | @copied old new store hmod hold _ halloc =>
    have hget : (state.blocks.set (state.cursor / c.blockSize) new ++ added)[position /
        c.blockSize]? = some (if position / c.blockSize = state.cursor / c.blockSize then new
          else b) := by
      rw [List.getElem?_append_left (by rwa [length_set])]
      split
      · next heq => rw [heq, List.getElem?_set_self (by rw [← heq]; exact hlt)]
      · next hne => rw [List.getElem?_set_ne (Ne.symm hne), hb]
    rw [rowAt_of_getElem? hget]
    split
    · next heq =>
      rw [heq, hold] at hb
      cases hb
      rw [hrows]
      show copyPage c pool.rows _ new layer _ = _
      rw [copyPage_apply hoff, if_pos rfl]
    · exact hkeep

end Operations

end EffectTorch
