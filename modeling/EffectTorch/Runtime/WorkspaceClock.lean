import EffectTorch.Runtime.WorkspaceAges

/-!
# The clock of the workspace pool

Beside the pool runs one with a clock that never ends.

Results:
1. `releaseAllWith_lockstep`, `evictLoop_lockstep`: pools that differ in ages only stay so and
   evict the same segments.
2. `poolStepWith_lockstep`: every operation does the same to both.
3. `pool_clock_unbounded`: over any run, the pool serves, fails and evicts as the pool with the
   unbounded clock does.
-/

namespace EffectTorch
open List Lib WorkspacePoolInner

section Clock

variable {K T E A : Type}

/-! ## Release in lockstep -/

/-- Two pools that differ in ages only, of which the accounts are right. -/
structure Kin (p q : WorkspacePoolInner K T A) (held : List (IdleEntry K T)) : Prop where
  twin : PoolTwin p q
  accounts : Accounts p held
  fits : p.idleBytes ≤ usizeMax

def FailedKin (held : List (IdleEntry K T)) (r r' : WorkspacePoolInner K T A × PoolFailure E) :
    Prop :=
  r.2 = r'.2 ∧ Kin r.1 r'.1 held

variable {p q : WorkspacePoolInner K T A} {held : List (IdleEntry K T)}
  {clock clock' : LruClock K T E A} {s : PoolState K T A}

theorem Kin.forget {held' : List (IdleEntry K T)} (h : Kin p q (held ++ held')) : Kin p q held' :=
  ⟨h.twin, h.accounts.forget, h.fits⟩

theorem Kin.aged (h : Kin p q held) : Aged p ∧ Aged q := by
  have hids : (p.idle.map (·.id)).Nodup :=
    h.accounts.nodup.sublist ((sublist_append_left _ _).map _)
  have hcount : p.idle.length ≤ u64Max :=
    Nat.le_trans (by rw [length_append]; exact Nat.le_add_right _ _) h.accounts.count_le
  have hlength : p.idle.length = q.idle.length := by
    have := congrArg List.length h.twin.body
    rwa [length_map, length_map] at this
  refine ⟨⟨fun e he => h.twin.clock e (mem_append_left _ he), hids, hcount⟩,
    fun e he => h.twin.clock' e (mem_append_left _ he), ?_, hlength ▸ hcount⟩
  rw [← id_of_body h.twin.body]
  exact hids

theorem SameAges.refl_left {l l' : List (IdleEntry K T)} (h : SameAges l l')
    (hnodup : (l.map (·.id)).Nodup) : SameAges l l := by
  have heq : ∀ e ∈ l, ∀ f ∈ l, e.id = f.id → e = f := fun e he f hf hid =>
    inj_on_of_nodup_map hnodup he hf hid
  refine ⟨fun e he f hf e' he' f' hf' hee hff => ?_, h.distinct, h.distinct⟩
  rw [heq e' he' e he hee, heq f' hf' f hf hff]

theorem Twin.pool_ages (h : PoolTwin p q) : SameAges p.idle q.idle :=
  h.ages.subset (subset_append_left _ _) (subset_append_left _ _)

/-- A segment returns to both pools. -/
def releaseOneWith (clock : LruClock K T E A) (pool : WorkspacePoolInner K T A)
    (segment : LeasedWorkspace K T) : PoolResult K T E A (WorkspacePoolInner K T A) := do
  let (pool, lastUsed) ← clock pool
  let entry := { segment.entry with lastUsed }
  let idleBytes ← expectPool pool (checkedAdd pool.idleBytes entry.capacity)
    "workspace pool idle byte accounting overflow"
  .ok { pool with idleBytes, idle := pool.idle ++ [entry] }

/-- A tick on both pools keeps them together, and the ticks are the newest. -/
theorem Kin.tick (hclock : Ticking clock) (hclock' : Ticking clock') (h : Kin p q held) :
    ∃ p' t q' t', clock p = .ok (p', t) ∧ clock' q = .ok (q', t') ∧
      Kin p' q' held ∧ p'.clock = t ∧ q'.clock = t' ∧ (∀ e ∈ p'.idle, e.lastUsed < t) ∧
      ∀ e ∈ q'.idle, e.lastUsed < t' := by
  obtain ⟨haged, haged'⟩ := h.aged
  have hages := h.twin.pool_ages
  obtain ⟨p', t, hp, htick⟩ := hclock p haged (hages.refl_left haged.ids)
  obtain ⟨q', t', hq, htick'⟩ := hclock' q haged' (hages.symm.refl_left haged'.ids)
  have hclk : p'.clock = t := congrArg (·.clock) htick.same
  have hclk' : q'.clock = t' := congrArg (·.clock) htick'.same
  have hstamp : p'.idle.map stamp = p.idle.map stamp := by
    have := congrArg (List.map fun b => (b.1, b.2.2.1)) htick.body
    rw [map_map, map_map] at this
    exact this
  have hbytes : p'.idleBytes = p.idleBytes := congrArg (·.idleBytes) htick.same
  have hnext : p'.nextId = p.nextId := congrArg (·.nextId) htick.same
  refine ⟨p', t, q', t', hp, hq, ⟨⟨?_, ?_, rfl, ?_, ?_, ?_⟩, ?_, ?_⟩, hclk, hclk', htick.newest,
    htick'.newest⟩
  · have hsame := h.twin.same
    obtain ⟨_, _, _, _, _, _, _, _⟩ := p
    obtain ⟨_, _, _, _, _, _, _, _⟩ := q
    obtain ⟨_, _, _, _, _, _, _, _⟩ := p'
    obtain ⟨_, _, _, _, _, _, _, _⟩ := q'
    have hs := htick.same
    have hs' := htick'.same
    simp only [WorkspacePoolInner.mk.injEq] at hsame hs hs' ⊢
    simp [hsame, hs, hs']
  · rw [htick.body, htick'.body, h.twin.body]
  · have hids := id_of_body h.twin.body
    have hids' := id_of_body htick.body
    have := (htick.ages.symm.trans (hages.trans htick'.ages hids) hids')
    simpa [reusedOf] using this
  · intro e he
    rw [hclk]
    exact Nat.le_of_lt (htick.newest e (by simpa [reusedOf] using he))
  · intro e he
    rw [hclk']
    exact Nat.le_of_lt (htick'.newest e (by simpa [reusedOf] using he))
  · exact (h.accounts.relabel hstamp rfl hbytes hnext).1
  · rw [hbytes]
    exact h.fits

theorem releaseOneWith_lockstep (hclock : Ticking clock) (hclock' : Ticking clock')
    {segment segment' : LeasedWorkspace K T} (h : Kin p q (segment.entry :: held))
    (hbody : segment'.entry.body = segment.entry.body) :
    Lockstep (FailedKin held) (fun p q => Kin p q held) (releaseOneWith clock p segment)
      (releaseOneWith clock' q segment') := by
  obtain ⟨p', t, q', t', hp, hq, hkin, hclk, hclk', hnew, hnew'⟩ := h.tick hclock hclock'
  have hbytes : q'.idleBytes = p'.idleBytes := congrArg (·.idleBytes) hkin.twin.same
  obtain ⟨⟨id, key, capacity, workspace, age⟩, requested⟩ := segment
  obtain ⟨⟨id', key', capacity', workspace', age'⟩, requested'⟩ := segment'
  obtain ⟨rfl, rfl, rfl, rfl⟩ : id' = id ∧ key' = key ∧ capacity' = capacity ∧
      workspace' = workspace := by
    simpa only [IdleEntry.body, Prod.mk.injEq] using hbody
  unfold releaseOneWith
  rw [hp, hq, ok_bind, ok_bind]
  dsimp only
  rw [hbytes]
  cases hadd : checkedAdd p'.idleBytes capacity' with
  | none => exact .error ⟨rfl, Kin.forget (show Kin p' _ ([_] ++ held) from hkin)⟩
  | some bytes =>
    obtain ⟨hfit, rfl⟩ := checkedAdd_some.mp hadd
    let returned (age : Nat) : IdleEntry K T := ⟨id', key', capacity', workspace', age⟩
    have hrelabel : Accounts p' (returned t :: held) ∧
        totalCapacity p'.idle = totalCapacity p'.idle := hkin.accounts.relabel rfl rfl rfl rfl
    have hfresh : ∀ f ∈ p'.idle, f.id ≠ id' := by
      intro f hf
      have hnodup := hkin.accounts.nodup
      rw [map_append] at hnodup
      exact (nodup_append.mp hnodup).2.2 _ (mem_map_of_mem hf) _
        (mem_map_of_mem mem_cons_self)
    have hfresh' : ∀ f ∈ q'.idle, f.id ≠ id' := by
      intro f hf
      obtain ⟨e, he, hid⟩ := exists_same_id (id_of_body hkin.twin.body).symm hf
      exact hid ▸ hfresh e he
    have hjoin : SameAges (p'.idle ++ [returned t]) (q'.idle ++ [returned t']) :=
      hkin.twin.pool_ages.join rfl hfresh hfresh' hnew hnew'
    have hclocked : ∀ {l : List (IdleEntry K T)} {t : Nat}, (∀ e ∈ l, e.lastUsed < t) →
        ∀ e ∈ l ++ [returned t], e.lastUsed ≤ t := by
      intro l t hl e he
      rcases mem_append.mp he with he | he
      · exact Nat.le_of_lt (hl e he)
      · rw [mem_singleton.mp he]
    refine .ok ⟨⟨by rw [hkin.twin.same], ?_, rfl, ?_, ?_, ?_⟩, hrelabel.1.give, hfit⟩
    · rw [map_append, map_append, hkin.twin.body]
      rfl
    · simpa [reusedOf] using hjoin
    · rw [show reusedOf ([] : List (PendingEntry K T)) = [] from rfl, append_nil]
      exact hclk.symm ▸ hclocked hnew
    · rw [show reusedOf ([] : List (PendingEntry K T)) = [] from rfl, append_nil]
      exact hclk'.symm ▸ hclocked hnew'

theorem releaseAllWith_lockstep (hclock : Ticking clock) (hclock' : Ticking clock') :
    ∀ {segments segments' : List (LeasedWorkspace K T)} {p q : WorkspacePoolInner K T A},
      Kin p q (segments.map (·.entry) ++ held) →
      (segments.map fun s => (s.entry.body, s.requestedBytes)) =
        segments'.map (fun s => (s.entry.body, s.requestedBytes)) →
      Lockstep (FailedKin held) (fun p q => Kin p q held)
        (segments.foldlM (releaseOneWith clock) p) (segments'.foldlM (releaseOneWith clock') q) := by
  intro segments
  induction segments with
  | nil =>
    intro segments' p q h hsame
    obtain rfl := map_eq_nil_iff.mp hsame.symm
    exact .ok h
  | cons segment rest ih =>
    intro segments' p q h hsame
    obtain ⟨segment', rest', rfl, hhead, hrest⟩ := map_eq_cons_iff.mp hsame.symm
    have hone := releaseOneWith_lockstep hclock hclock'
      (show Kin p q (segment.entry :: (rest.map (·.entry) ++ held)) from h)
      (congrArg Prod.fst hhead)
    rw [foldlM_cons, foldlM_cons]
    exact (hone.mono (fun _ _ hf => ⟨hf.1, hf.2.forget⟩) fun _ _ h => h).bind
      fun _ _ h => ih h hrest.symm

/-- The first part of a drop: the segments return to the pool. -/
def returnSegments (clock : LruClock K T E A) (pool : WorkspacePoolInner K T A)
    (lease : WorkspaceLease K T) : PoolResult K T E A (WorkspacePoolInner K T A) := do
  let leasedBytes ← expectPool pool (checkedSub pool.leasedBytes lease.actualBytes)
    "workspace pool leased byte accounting underflow"
  let pool := { pool with leasedBytes }
  let leasedSegments ← expectPool pool (checkedSub pool.leasedSegments lease.segments.length)
    "workspace pool leased segment accounting underflow"
  lease.segments.foldlM (releaseOneWith clock) { pool with leasedSegments }

theorem returnSegments_lockstep (hclock : Ticking clock) (hclock' : Ticking clock')
    {lease lease' : WorkspaceLease K T} (h : Kin p q (lease.segments.map (·.entry) ++ held))
    (hlease : lease.view = lease'.view) :
    Lockstep (FailedKin held) (fun p q => Kin p q held) (returnSegments clock p lease)
      (returnSegments clock' q lease') := by
  have hbytes : q.leasedBytes = p.leasedBytes := congrArg (·.leasedBytes) h.twin.same
  have hsegments : q.leasedSegments = p.leasedSegments :=
    congrArg (·.leasedSegments) h.twin.same
  obtain ⟨hsame, hactual⟩ := Prod.mk.inj hlease
  have hactual : lease.actualBytes = lease'.actualBytes := congrArg Prod.snd hactual
  have hlength : lease'.segments.length = lease.segments.length := by
    have := congrArg List.length hsame
    rw [length_map, length_map] at this
    exact this.symm
  unfold returnSegments
  dsimp only
  rw [hbytes, hsegments, hlength, hactual]
  have hcount : ∀ {held} (bytes segments : Nat), Kin p q held →
      Kin { p with leasedBytes := bytes, leasedSegments := segments }
        { q with leasedBytes := bytes, leasedSegments := segments } held :=
    fun _ _ h => ⟨⟨by rw [h.twin.same], h.twin.body, rfl, h.twin.ages, h.twin.clock,
      h.twin.clock'⟩, ⟨h.accounts.idle_bytes, h.accounts.nodup, h.accounts.ids_lt,
      h.accounts.next_le⟩, h.fits⟩
  cases checkedSub p.leasedBytes lease'.actualBytes with
  | none => exact .error ⟨rfl, h.forget⟩
  | some leasedBytes =>
    rw [expectPool_some, expectPool_some, ok_bind, ok_bind]
    cases checkedSub p.leasedSegments lease.segments.length with
    | none =>
      have hfail := hcount leasedBytes p.leasedSegments h.forget
      refine .error ⟨rfl, ?_⟩
      rw [← hsegments] at hfail
      exact ⟨⟨by rw [h.twin.same], hfail.twin.body, rfl, hfail.twin.ages, hfail.twin.clock,
        hfail.twin.clock'⟩, ⟨hfail.accounts.idle_bytes, hfail.accounts.nodup,
        hfail.accounts.ids_lt, hfail.accounts.next_le⟩, hfail.fits⟩
    | some leasedSegments =>
      rw [expectPool_some, expectPool_some, ok_bind, ok_bind]
      exact releaseAllWith_lockstep hclock hclock' (hcount leasedBytes leasedSegments h)
        hsame

/-! ## Eviction in lockstep -/

theorem checkedSub_some {a b c : Nat} (h : checkedSub a b = some c) : c = a - b := by
  unfold checkedSub at h
  split at h
  · exact (Option.some.inj h).symm
  · cases h

/-- The segments that `evict_to_limit` drops, in its order. -/
def victims : Nat → WorkspacePoolInner K T A → List (IdleEntry K T)
  | 0, _ => []
  | fuel + 1, pool =>
    if pool.maxIdleBytes < pool.idleBytes then
      match lru pool.idle with
      | none => []
      | some (entry, index) => entry :: victims fuel { pool with
          idle := pool.idle.eraseIdx index
          idleBytes := pool.idleBytes - entry.capacity }
    else []

/-- Both pools evict the same segments, in the same order. -/
theorem evictLoop_lockstep : ∀ {fuel : Nat}
    {p q : WorkspacePoolInner K T A}, Kin p q held →
    Lockstep (FailedKin (E := E) held) (fun p q => Kin p q held) (evictLoop fuel p)
      (evictLoop fuel q) ∧
    (victims fuel p).map IdleEntry.body = (victims fuel q).map IdleEntry.body := by
  intro fuel
  induction fuel with
  | zero => exact fun h => ⟨.ok h, rfl⟩
  | succ fuel ih =>
    intro p q h
    have hbytes : q.idleBytes = p.idleBytes := congrArg (·.idleBytes) h.twin.same
    have hmax : q.maxIdleBytes = p.maxIdleBytes := congrArg (·.maxIdleBytes) h.twin.same
    unfold evictLoop victims
    by_cases hover : p.maxIdleBytes < p.idleBytes
    case neg =>
      have hover' : ¬ q.maxIdleBytes < q.idleBytes := by rwa [hbytes, hmax]
      rw [if_neg hover, if_neg hover', if_neg hover, if_neg hover']
      exact ⟨.ok h, rfl⟩
    have hover' : q.maxIdleBytes < q.idleBytes := by rwa [hbytes, hmax]
    rw [if_pos hover, if_pos hover', if_pos hover, if_pos hover']
    change Lockstep _ _ (match lru p.idle with | none => _ | some (entry, index) => _)
      (match lru q.idle with | none => _ | some (entry, index) => _) ∧ _
    cases hl : lru p.idle with
    | none =>
      have hempty : q.idle = [] := by
        have := h.twin.body
        rw [lru_none hl] at this
        exact map_eq_nil_iff.mp this.symm
      have hl' : lru q.idle = none := by rw [hempty]; rfl
      rw [hl']
      exact ⟨.ok h, rfl⟩
    | some found =>
      obtain ⟨e, index⟩ := found
      obtain ⟨he, -⟩ := lru_some hl
      have hids : (p.idle.map (·.id)).Nodup := h.aged.1.ids
      obtain ⟨e', hl', hbody⟩ := lru_congr h.twin.body h.twin.pool_ages hids hl
      obtain ⟨he', -⟩ := lru_some hl'
      have hcapacity : e'.capacity = e.capacity := congrArg (·.2.2.1) hbody
      obtain ⟨hle, htake, -⟩ := h.accounts.take he
      have hsub : checkedSub q.idleBytes e'.capacity = some (p.idleBytes - e.capacity) := by
        rw [hbytes, hcapacity, checkedSub_of_le hle]
      rw [hl']
      dsimp only
      rw [hsub, checkedSub_of_le hle, expectPool_some, expectPool_some, ok_bind, ok_bind, hbytes,
        hcapacity]
      have hkin : Kin { p with idle := p.idle.eraseIdx index, idleBytes := p.idleBytes - e.capacity }
          { q with idle := q.idle.eraseIdx index, idleBytes := p.idleBytes - e.capacity } held :=
        ⟨(show Twin _ _ ([] ++ [⟨e, 0, true⟩]) _ from h.twin.take he he' hbody).forget,
          Accounts.forget (show Accounts _ ([e] ++ held) from htake), Nat.le_trans (Nat.sub_le _ _) h.fits⟩
      obtain ⟨hloop, hvictims⟩ := ih hkin
      refine ⟨hloop, ?_⟩
      rw [map_cons, map_cons, hbody, hvictims]

theorem evictToLimit_lockstep (h : Kin p q held) :
    Lockstep (FailedKin (E := E) held) (fun p q => Kin p q held) (evictToLimit p)
      (evictToLimit q) ∧
    (victims p.idle.length p).map IdleEntry.body =
      (victims q.idle.length q).map IdleEntry.body := by
  have hlength : q.idle.length = p.idle.length := by
    have := congrArg List.length h.twin.body
    rw [length_map, length_map] at this
    exact this.symm
  unfold evictToLimit
  rw [hlength]
  exact evictLoop_lockstep h

/-! ## Runs in lockstep -/

/-- `Drop` of a lease under a clock. -/
def releaseLeaseWith (clock : LruClock K T E A) (pool : WorkspacePoolInner K T A)
    (lease : WorkspaceLease K T) : PoolResult K T E A (WorkspacePoolInner K T A) := do
  let pool ← returnSegments clock pool lease
  evictToLimit pool

/-- One operation under a clock. -/
def poolStepWith [DecidableEq K] (clock : LruClock K T E A) (allocate : WorkspaceAllocator K T E A)
    (s : PoolState K T A) : PoolOp K → PoolState K T A × Option (PoolFailure E)
  | .acquire requests =>
    match acquire allocate s.pool requests with
    | .ok (pool, lease) => (⟨pool, s.leases ++ [⟨lease, requests⟩]⟩, none)
    | .error (pool, failure) => (⟨pool, s.leases⟩, some failure)
  | .dropLease index =>
    match s.leases[index]? with
    | none => (s, none)
    | some held =>
      match releaseLeaseWith clock s.pool held.lease with
      | .ok pool => (⟨pool, s.leases.eraseIdx index⟩, none)
      | .error (pool, failure) => (⟨pool, s.leases.eraseIdx index⟩, some failure)
  | .setMaxIdleBytes maxIdleBytes =>
    match (setMaxIdleBytes s.pool maxIdleBytes : PoolResult K T E A _) with
    | .ok pool => (⟨pool, s.leases⟩, none)
    | .error (pool, failure) => (⟨pool, s.leases⟩, some failure)

theorem releaseLeaseWith_nextLruTick (pool : WorkspacePoolInner K T A)
    (lease : WorkspaceLease K T) :
    (releaseLeaseWith nextLruTick pool lease : PoolResult K T E A _) = releaseLease pool lease := by
  unfold releaseLeaseWith returnSegments releaseLease
  cases checkedSub pool.leasedBytes lease.actualBytes with
  | none => rfl
  | some leasedBytes =>
    rw [expectPool_some, ok_bind, ok_bind]
    dsimp only
    cases checkedSub pool.leasedSegments lease.segments.length <;> rfl

/-- Under the pool's clock these are the operations of the pool. -/
theorem poolStepWith_nextLruTick [DecidableEq K] (allocate : WorkspaceAllocator K T E A)
    (s : PoolState K T A) (op : PoolOp K) :
    poolStepWith nextLruTick allocate s op = poolStep allocate s op := by
  unfold poolStepWith poolStep
  cases op with
  | acquire requests => rfl
  | setMaxIdleBytes maxIdleBytes => rfl
  | dropLease index =>
    dsimp only
    cases s.leases[index]? with
    | none => rfl
    | some held =>
      have hsame : (releaseLeaseWith nextLruTick s.pool held.lease : PoolResult K T E A _) = _ :=
        releaseLeaseWith_nextLruTick s.pool held.lease
      dsimp only
      generalize releaseLeaseWith nextLruTick s.pool held.lease = released at hsame ⊢
      subst hsame
      rfl

/-- The segments that one request evicts: all idle ones, when none fits and the allocator fails. -/
def evictedFor [DecidableEq K] (allocate : WorkspaceAllocator K T E A)
    (pool : WorkspacePoolInner K T A) (request : WorkspaceRequest K) : List (IdleEntry K T) :=
  match bestFit pool request.key request.bytes,
    allocate pool.allocator request.key request.bytes with
  | none, (.error _, _) => pool.idle
  | _, _ => []

/-- The segments that the loop over the requests evicts. -/
def evictedDuring [DecidableEq K] (allocate : WorkspaceAllocator K T E A) :
    List (WorkspaceRequest K) → WorkspacePoolInner K T A × List (PendingEntry K T) →
    List (IdleEntry K T)
  | [], _ => []
  | request :: rest, state => evictedFor allocate state.1 request ++
    match acquireOne allocate state request with
    | .ok state => evictedDuring allocate rest state
    | .error _ => []

/-- The segments that an acquisition evicts. -/
def acquireEvictions [DecidableEq K] (allocate : WorkspaceAllocator K T E A)
    (pool : WorkspacePoolInner K T A) (requests : List (WorkspaceRequest K)) :
    List (IdleEntry K T) :=
  match checkedSum (requests.map (·.bytes)) with
  | some _ => evictedDuring allocate requests (pool, [])
  | none => []

/-- The segments that an operation evicts, in order. -/
def evictions [DecidableEq K] (clock : LruClock K T E A) (allocate : WorkspaceAllocator K T E A)
    (s : PoolState K T A) : PoolOp K → List (IdleEntry K T)
  | .acquire requests => acquireEvictions allocate s.pool requests
  | .dropLease index =>
    match s.leases[index]? with
    | none => []
    | some held =>
      match returnSegments clock s.pool held.lease with
      | .ok pool => victims pool.idle.length pool
      | .error _ => []
  | .setMaxIdleBytes maxIdleBytes =>
    victims s.pool.idle.length { s.pool with maxIdleBytes }

/-- What an operation does: how it fails, what it evicts, and the leases, the idle segments and the
counters that it leaves. -/
structure PoolReport (K T E : Type) where
  failure : Option (PoolFailure E)
  evicted : List (Nat × K × Nat × T)
  leases : List (List ((Nat × K × Nat × T) × Nat) × Nat × Nat)
  idle : List (Nat × K × Nat × T)
  counters : Nat × Nat × Nat

def poolReport [DecidableEq K] (clock : LruClock K T E A) (allocate : WorkspaceAllocator K T E A)
    (s : PoolState K T A) (op : PoolOp K) : PoolReport K T E :=
  let after := poolStepWith clock allocate s op
  { failure := after.2
    evicted := (evictions clock allocate s op).map IdleEntry.body
    leases := after.1.leases.map (·.lease.view)
    idle := after.1.pool.idle.map IdleEntry.body
    counters := (after.1.pool.idleBytes, after.1.pool.leasedSegments, after.1.pool.leasedBytes) }

/-- The reports of a run, and the state it ends in. -/
def poolReports [DecidableEq K] (clock : LruClock K T E A) (allocate : WorkspaceAllocator K T E A) :
    PoolState K T A → List (PoolOp K) → List (PoolReport K T E) × PoolState K T A
  | s, [] => ([], s)
  | s, op :: ops =>
    let rest := poolReports clock allocate (poolStepWith clock allocate s op).1 ops
    (poolReport clock allocate s op :: rest.1, rest.2)

/-- Two states that differ in ages only. -/
structure StateTwin (s t : PoolState K T A) : Prop where
  kin : Kin s.pool t.pool (leasedEntries s.leases)
  leases : s.leases.map (·.lease.view) = t.leases.map (·.lease.view)

theorem evictedFor_body [DecidableEq K] (allocate : WorkspaceAllocator K T E A)
    {pending pending' : List (PendingEntry K T)} (h : Twin p q pending pending')
    (request : WorkspaceRequest K) :
    (evictedFor allocate p request).map IdleEntry.body =
      (evictedFor allocate q request).map IdleEntry.body := by
  have hallocator : q.allocator = p.allocator := congrArg (·.allocator) h.same
  unfold evictedFor
  rw [← bestFit_congr h.body, hallocator]
  split
  · exact h.body
  · rfl

theorem evictedDuring_body [DecidableEq K] (allocate : WorkspaceAllocator K T E A) :
    ∀ {requests : List (WorkspaceRequest K)}
      {s t : WorkspacePoolInner K T A × List (PendingEntry K T)}, Twin s.1 t.1 s.2 t.2 →
      (evictedDuring allocate requests s).map IdleEntry.body =
        (evictedDuring allocate requests t).map IdleEntry.body := by
  intro requests
  induction requests with
  | nil => exact fun _ => rfl
  | cons request rest ih =>
    intro s t h
    unfold evictedDuring
    rw [map_append, map_append, evictedFor_body allocate h]
    have hstep := acquireOne_lockstep allocate h request
    cases hs : acquireOne allocate s request with
    | error r =>
      rw [hs] at hstep
      obtain ⟨r', ht, -⟩ := hstep.error_left
      rw [ht]
    | ok s' =>
      rw [hs] at hstep
      obtain ⟨t', ht, h'⟩ := hstep.ok_left
      rw [ht]
      exact congrArg _ (ih h')

theorem acquireEvictions_body [DecidableEq K] (allocate : WorkspaceAllocator K T E A) (h : PoolTwin p q)
    (requests : List (WorkspaceRequest K)) :
    (acquireEvictions allocate p requests).map IdleEntry.body =
      (acquireEvictions allocate q requests).map IdleEntry.body := by
  unfold acquireEvictions
  split
  · exact evictedDuring_body allocate h
  · rfl

theorem poolStepWith_acquire [DecidableEq K] (clock clock' : LruClock K T E A)
    (allocate : WorkspaceAllocator K T E A) {t : PoolState K T A} (h : StateTwin s t)
    (requests : List (WorkspaceRequest K)) :
    StateTwin (poolStepWith clock allocate s (.acquire requests)).1
      (poolStepWith clock' allocate t (.acquire requests)).1 ∧
    (poolStepWith clock allocate s (.acquire requests)).2 =
      (poolStepWith clock' allocate t (.acquire requests)).2 := by
  have hbytes := h.kin.accounts.idle_bytes
  have hstep := acquire_lockstep allocate h.kin.twin requests
  unfold poolStepWith
  dsimp only
  rcases acquire_spec allocate h.kin.accounts (hbytes ▸ h.kin.fits) requests with
    ⟨p', lease, hok, hacquired⟩ | ⟨r, hfail, hfailed⟩
  · rw [hok] at hstep ⊢
    obtain ⟨⟨q', lease'⟩, hok', htwin, hlease⟩ := hstep.ok_left
    rw [hok']
    have hentries : leasedEntries (s.leases ++ [⟨lease, requests⟩]) =
        leasedEntries s.leases ++ lease.segments.map (·.entry) := by
      simp [leasedEntries]
    refine ⟨⟨⟨htwin, ?_, ?_⟩, ?_⟩, rfl⟩
    · rw [hentries]
      exact hacquired.accounts.perm perm_append_comm
    · show p'.idleBytes ≤ usizeMax
      rw [hacquired.accounts.idle_bytes]
      exact Nat.le_trans hacquired.idle_le (hbytes ▸ h.kin.fits)
    · rw [map_append, map_append, h.leases, map_singleton, map_singleton]
      exact congrArg (fun v => _ ++ [v]) hlease
  · rw [hfail] at hstep ⊢
    obtain ⟨r', hfail', hsame, htwin⟩ := hstep.error_left
    rw [hfail']
    refine ⟨⟨⟨htwin, hfailed.accounts, ?_⟩, h.leases⟩, congrArg some hsame⟩
    show r.1.idleBytes ≤ usizeMax
    rw [hfailed.accounts.idle_bytes]
    exact Nat.le_trans hfailed.idle_le (hbytes ▸ h.kin.fits)

/-- The state after an operation on the pool. -/
theorem StateTwin.finish {s t : List (HeldLease K T)}
    (hleases : s.map (·.lease.view) = t.map (·.lease.view))
    {x y : PoolResult K T E A (WorkspacePoolInner K T A)}
    (h : Lockstep (FailedKin (leasedEntries s)) (fun p q => Kin p q (leasedEntries s)) x y) :
    (∃ p q, x = .ok p ∧ y = .ok q ∧ StateTwin ⟨p, s⟩ ⟨q, t⟩) ∨
      ∃ p q failure, x = .error (p, failure) ∧ y = .error (q, failure) ∧
        StateTwin ⟨p, s⟩ ⟨q, t⟩ := by
  cases h with
  | ok h => exact .inl ⟨_, _, rfl, rfl, h, hleases⟩
  | @error r r' h =>
    obtain ⟨p, failure⟩ := r
    obtain ⟨q, failure'⟩ := r'
    obtain ⟨hsame, hkin⟩ := h
    obtain rfl : failure = failure' := hsame
    exact .inr ⟨p, q, failure, rfl, rfl, hkin, hleases⟩

theorem evictions_dropLease [DecidableEq K] (clock : LruClock K T E A)
    (allocate : WorkspaceAllocator K T E A) {index : Nat} {held : HeldLease K T}
    (h : s.leases[index]? = some held) :
    evictions clock allocate s (.dropLease index) =
      match returnSegments clock s.pool held.lease with
      | .ok pool => victims pool.idle.length pool
      | .error _ => [] := by
  rw [evictions, h]

/-- Twins stay twins, fail alike and evict alike. -/
theorem poolStepWith_lockstep [DecidableEq K] (hclock : Ticking clock) (hclock' : Ticking clock')
    (allocate : WorkspaceAllocator K T E A) {t : PoolState K T A} (h : StateTwin s t) (op : PoolOp K) :
    StateTwin (poolStepWith clock allocate s op).1 (poolStepWith clock' allocate t op).1 ∧
    (poolStepWith clock allocate s op).2 = (poolStepWith clock' allocate t op).2 ∧
    (evictions clock allocate s op).map IdleEntry.body =
      (evictions clock' allocate t op).map IdleEntry.body := by
  cases op with
  | acquire requests =>
    obtain ⟨htwin, hfailure⟩ := poolStepWith_acquire clock clock' allocate h requests
    exact ⟨htwin, hfailure, acquireEvictions_body allocate h.kin.twin requests⟩
  | dropLease index =>
    cases hs : s.leases[index]? with
    | none =>
      have ht : t.leases[index]? = none := by
        have hlength := congrArg List.length h.leases
        rw [length_map, length_map] at hlength
        rw [List.getElem?_eq_none_iff] at hs ⊢
        exact hlength ▸ hs
      unfold poolStepWith evictions
      dsimp only
      rw [hs, ht]
      exact ⟨h, rfl, rfl⟩
    | some held =>
      have hview : (t.leases.map (·.lease.view))[index]? = some held.lease.view := by
        rw [← h.leases, List.getElem?_map, hs]
        rfl
      rw [List.getElem?_map] at hview
      obtain ⟨held', ht, hlease⟩ := Option.map_eq_some_iff.mp hview
      have herase : (s.leases.eraseIdx index).map (·.lease.view) =
          (t.leases.eraseIdx index).map (·.lease.view) := by
        rw [← eraseIdx_map, ← eraseIdx_map, h.leases]
      have hkin : Kin s.pool t.pool (held.lease.segments.map (·.entry) ++
          leasedEntries (s.leases.eraseIdx index)) :=
        ⟨h.kin.twin, h.kin.accounts.perm (leasedEntries_perm hs), h.kin.fits⟩
      have hreturned := returnSegments_lockstep hclock hclock' hkin hlease.symm
      have hrelease : Lockstep (FailedKin (leasedEntries (s.leases.eraseIdx index)))
          (fun p q => Kin p q (leasedEntries (s.leases.eraseIdx index)))
          (releaseLeaseWith clock s.pool held.lease)
          (releaseLeaseWith clock' t.pool held'.lease) :=
        hreturned.bind fun _ _ h => (evictToLimit_lockstep h).1
      rw [evictions_dropLease clock allocate hs, evictions_dropLease clock' allocate ht, ← and_assoc]
      refine ⟨?_, ?_⟩
      · unfold poolStepWith
        dsimp only
        rw [hs, ht]
        dsimp only
        rcases StateTwin.finish herase hrelease with
          ⟨p, q, hp, hq, htwin⟩ | ⟨p, q, failure, hp, hq, htwin⟩
        · rw [hp, hq]
          exact ⟨htwin, rfl⟩
        · rw [hp, hq]
          exact ⟨htwin, rfl⟩
      · generalize returnSegments clock s.pool held.lease = x at hreturned ⊢
        generalize returnSegments clock' t.pool held'.lease = y at hreturned ⊢
        cases hreturned with
        | ok h => exact (evictToLimit_lockstep (E := E) h).2
        | error h => rfl
  | setMaxIdleBytes maxIdleBytes =>
    have hkin : Kin { s.pool with maxIdleBytes } { t.pool with maxIdleBytes }
        (leasedEntries s.leases) :=
      ⟨⟨by rw [h.kin.twin.same], h.kin.twin.body, rfl, h.kin.twin.ages, h.kin.twin.clock,
        h.kin.twin.clock'⟩, ⟨h.kin.accounts.idle_bytes, h.kin.accounts.nodup,
        h.kin.accounts.ids_lt, h.kin.accounts.next_le⟩, h.kin.fits⟩
    obtain ⟨hevict, hvictims⟩ := evictToLimit_lockstep (E := E) hkin
    rw [← and_assoc]
    refine ⟨?_, hvictims⟩
    unfold poolStepWith setMaxIdleBytes
    dsimp only
    rcases StateTwin.finish h.leases hevict with
      ⟨p, q, hp, hq, htwin⟩ | ⟨p, q, failure, hp, hq, htwin⟩
    · rw [hp, hq]
      exact ⟨htwin, rfl⟩
    · rw [hp, hq]
      exact ⟨htwin, rfl⟩

theorem poolReports_lockstep [DecidableEq K] (hclock : Ticking clock) (hclock' : Ticking clock')
    (allocate : WorkspaceAllocator K T E A) :
    ∀ {ops : List (PoolOp K)} {s t : PoolState K T A}, StateTwin s t →
      (poolReports clock allocate s ops).1 = (poolReports clock' allocate t ops).1 ∧
      StateTwin (poolReports clock allocate s ops).2 (poolReports clock' allocate t ops).2 := by
  intro ops
  induction ops with
  | nil => exact fun h => ⟨rfl, h⟩
  | cons op ops ih =>
    intro s t h
    obtain ⟨htwin, hfailure, hevicted⟩ := poolStepWith_lockstep hclock hclock' allocate h op
    obtain ⟨hreports, hend⟩ := ih htwin
    refine ⟨?_, hend⟩
    unfold poolReports
    dsimp only
    rw [hreports]
    refine congrArg (· :: _) ?_
    unfold poolReport
    dsimp only
    rw [hfailure, hevicted, htwin.leases, htwin.kin.twin.body]
    rw [htwin.kin.twin.same]

/-- A new pool. -/
def newPool (maxIdleBytes : Nat) (allocator : A) : PoolState K T A :=
  ⟨.new maxIdleBytes allocator, []⟩

theorem newPool_twin (maxIdleBytes : Nat) (allocator : A) :
    StateTwin (newPool maxIdleBytes allocator : PoolState K T A)
      (newPool maxIdleBytes allocator) :=
  ⟨⟨⟨rfl, rfl, rfl, ⟨nofun, nofun, nofun⟩, nofun, nofun⟩,
    ⟨rfl, nodup_nil, nofun, Nat.zero_le _⟩, Nat.zero_le _⟩, rfl⟩

/-- Over any run the pool serves, fails and evicts as a pool with an unbounded clock; its idle
segments are in the order of that clock, and no two of them have the same age. -/
theorem pool_clock_unbounded [DecidableEq K] (allocate : WorkspaceAllocator K T E A)
    (maxIdleBytes : Nat) (allocator : A) (ops : List (PoolOp K)) :
    let run := poolReports nextLruTick allocate (newPool maxIdleBytes allocator) ops
    let run' := poolReports unboundedTick allocate (newPool maxIdleBytes allocator) ops
    (∀ s op, poolStepWith nextLruTick allocate s op = poolStep allocate s op) ∧
      run.1 = run'.1 ∧ SameAges run.2.pool.idle run'.2.pool.idle ∧
      (run.2.pool.idle.map (·.lastUsed)).Nodup := by
  intro run run'
  obtain ⟨hreports, hend⟩ := @poolReports_lockstep K T E A _ _ _ nextLruTick_ticking
    unboundedTick_ticking allocate ops _ _ (newPool_twin maxIdleBytes allocator)
  have hages := hend.kin.twin.pool_ages
  refine ⟨poolStepWith_nextLruTick allocate, hreports, hages, ?_⟩
  have hids : (run.2.pool.idle.map (·.id)).Nodup := hend.kin.aged.1.ids
  refine (List.Nodup.of_map _ hids).map_on fun e he f hf hage => ?_
  exact inj_on_of_nodup_map hids he hf (hages.distinct e he f hf hage)

end Clock

end EffectTorch
