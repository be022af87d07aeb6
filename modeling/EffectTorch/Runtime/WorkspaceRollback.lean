import EffectTorch.Runtime.WorkspaceClock

/-!
# Failed acquisitions

Results:
1. `acquire_error`: a failed acquisition returns what it had reserved and keeps all counters.
2. `SameChoices.of_perm`: the place of a segment in the idle list decides nothing.
3. `acquire_rolls_back`: in every run, a failed acquisition leaves the pool as it was, less the
   segments evicted for the retry.
-/

namespace EffectTorch
open List Lib WorkspacePoolInner

section Rollback

variable {K T E A : Type}

/-! ## What a rollback returns -/

/-- All but the idle list, its bytes and the allocator is the same. -/
def SameRest (pool pool' : WorkspacePoolInner K T A) : Prop :=
  pool' = { pool with
    allocator := pool'.allocator, idle := pool'.idle, idleBytes := pool'.idleBytes }

theorem SameRest.trans {p q r : WorkspacePoolInner K T A} (h : SameRest p q) (h' : SameRest q r) :
    SameRest p r := by
  unfold SameRest at *
  rw [h', h]

/-- The idle bytes are those of the idle segments. -/
def Balanced (pool : WorkspacePoolInner K T A) : Prop :=
  pool.idleBytes = totalCapacity pool.idle

theorem rollback_eq : ∀ {pending : List (PendingEntry K T)} {pool pool' : WorkspacePoolInner K T A},
    (rollback pool pending : PoolResult K T E A _) = .ok pool' →
    pool' = { pool with
      idle := pool.idle ++ reusedOf pending
      idleBytes := pool.idleBytes + totalCapacity (reusedOf pending) } := by
  intro pending
  induction pending with
  | nil =>
    intro pool pool' h
    obtain rfl := Except.ok.inj h
    simp [reusedOf]
  | cons p rest ih =>
    intro pool pool' h
    unfold rollback at h
    rw [foldlM_cons, restore] at h
    rw [reusedOf_cons]
    cases hp : p.reused with
    | false =>
      rw [hp] at h
      exact ih h
    | true =>
      rw [hp, if_pos rfl] at h
      obtain ⟨pool₁, hone, h⟩ := bind_ok.mp h
      obtain ⟨bytes, hbytes, hone⟩ := bind_ok.mp hone
      cases hadd : checkedAdd pool.idleBytes p.entry.capacity with
      | none =>
        rw [hadd] at hbytes
        cases hbytes
      | some sum =>
        rw [hadd] at hbytes
        obtain rfl := Except.ok.inj hbytes
        obtain ⟨-, rfl⟩ := checkedAdd_some.mp hadd
        obtain rfl := Except.ok.inj hone
        rw [ih h, if_pos rfl]
        simp only [append_assoc, singleton_append, totalCapacity_cons, Nat.add_assoc]

theorem rollback_error : ∀ {pending : List (PendingEntry K T)} {pool : WorkspacePoolInner K T A}
    {r : WorkspacePoolInner K T A × PoolFailure E}, rollback pool pending = .error r →
    ∃ message, r.2 = .panic message := by
  intro pending
  induction pending with
  | nil => exact nofun
  | cons p rest ih =>
    intro pool r h
    unfold rollback at h
    rw [foldlM_cons, restore] at h
    cases hp : p.reused with
    | false =>
      rw [hp] at h
      exact ih h
    | true =>
      rw [hp, if_pos rfl] at h
      cases hadd : checkedAdd pool.idleBytes p.entry.capacity with
      | none =>
        rw [hadd] at h
        obtain rfl := Except.error.inj h
        exact ⟨_, rfl⟩
      | some sum =>
        rw [hadd] at h
        exact ih h

variable {α : Type} {pool pool' : WorkspacePoolInner K T A} {pending : List (PendingEntry K T)}
  {e e' : WorkspacePoolError E} {s : WorkspacePoolInner K T A × List (PendingEntry K T)}
  {request : WorkspaceRequest K}

theorem abandon_error (h : (abandon pool pending e : PoolResult K T E A α) = .error (pool', .error e')) :
    pool' = { pool with
      idle := pool.idle ++ reusedOf pending
      idleBytes := pool.idleBytes + totalCapacity (reusedOf pending) } := by
  rcases bind_error.mp h with hroll | ⟨restored, hroll, h⟩
  · obtain ⟨message, hpanic⟩ := rollback_error hroll
    cases hpanic
  · obtain ⟨rfl, -⟩ := Prod.mk.inj (Except.error.inj h)
    exact rollback_eq hroll

/-- The segments that an acquisition has not used up. -/
def available (state : WorkspacePoolInner K T A × List (PendingEntry K T)) :
    List (IdleEntry K T) :=
  state.1.idle ++ reusedOf state.2

/-- The pool that an acquisition leaves when it gives up in `state`, having evicted `evicted`. -/
structure GaveUp (state : WorkspacePoolInner K T A × List (PendingEntry K T))
    (pool' : WorkspacePoolInner K T A) (evicted : List (IdleEntry K T)) : Prop where
  rest : SameRest state.1 pool'
  idle : (available state).Perm (pool'.idle ++ evicted)
  balanced : Balanced state.1 → Balanced pool'

theorem abandon_gaveUp (h : (abandon pool pending e : PoolResult K T E A α) = .error (pool', .error e')) :
    GaveUp (pool, pending) pool' [] := by
  obtain rfl := abandon_error h
  refine ⟨rfl, ?_, fun hb => ?_⟩
  · rw [append_nil]
    exact .refl _
  · unfold Balanced at *
    rw [totalCapacity_append, hb]

theorem orAbandon_gaveUp {x : Option α}
    (h : (orAbandon pool pending x e : PoolResult K T E A α) = .error (pool', .error e')) :
    GaveUp (pool, pending) pool' [] := by
  cases x with
  | some a => cases h
  | none => exact abandon_gaveUp h

/-- One turn of the acquisition loop that goes on. -/
structure WentOn (state state' : WorkspacePoolInner K T A × List (PendingEntry K T))
    (evicted : List (IdleEntry K T)) : Prop where
  rest : SameRest state.1 state'.1
  idle : (available state).Perm (available state' ++ evicted)
  balanced : Balanced state.1 → Balanced state'.1

theorem WentOn.gaveUp {s' : WorkspacePoolInner K T A × List (PendingEntry K T)}
    {evicted evicted' : List (IdleEntry K T)} (h : WentOn s s' evicted) (h' : GaveUp s' pool' evicted') :
    GaveUp s pool' (evicted ++ evicted') where
  rest := h.rest.trans h'.rest
  idle := by
    refine h.idle.trans ((h'.idle.append_right evicted).trans ?_)
    rw [append_assoc]
    exact perm_append_comm.append_left _
  balanced hb := h'.balanced (h.balanced hb)

theorem allocateOrEvict_ok (allocate : WorkspaceAllocator K T E A) {allocation : WorkspaceAllocation T}
    (h : allocateOrEvict allocate pool pending request = .ok (pool', allocation)) :
    WentOn (pool, pending) (pool', pending)
      (match allocate pool.allocator request.key request.bytes with
        | (.error _, _) => pool.idle
        | _ => []) := by
  unfold allocateOrEvict at h
  rcases hone : allocate pool.allocator request.key request.bytes with ⟨_ | _ | _, allocator⟩
  · rw [hone] at h
    obtain ⟨rfl, -⟩ := Prod.mk.inj (Except.ok.inj h)
    exact ⟨rfl, by rw [append_nil]; exact .refl _, id⟩
  · rw [hone] at h
    dsimp only at h
    split at h
    · obtain ⟨_, _, h⟩ := bind_ok.mp h
      cases h
    · dsimp only [WorkspacePoolInner.evictAllIdle] at h
      rcases htwo : allocate allocator request.key request.bytes with ⟨_ | _ | _, allocator'⟩
      · rw [htwo] at h
        obtain ⟨rfl, -⟩ := Prod.mk.inj (Except.ok.inj h)
        exact ⟨rfl, perm_append_comm, fun _ => rfl⟩
      · rw [htwo] at h
        obtain ⟨_, _, h⟩ := bind_ok.mp h
        cases h
      · rw [htwo] at h
        cases h
  · rw [hone] at h
    cases h

theorem allocateOrEvict_error (allocate : WorkspaceAllocator K T E A)
    (h : allocateOrEvict allocate pool pending request = .error (pool', .error e)) :
    GaveUp (pool, pending) pool'
      (match allocate pool.allocator request.key request.bytes with
        | (.error _, _) => pool.idle
        | _ => []) := by
  unfold allocateOrEvict at h
  rcases hone : allocate pool.allocator request.key request.bytes with ⟨_ | _ | _, allocator⟩
  · rw [hone] at h
    cases h
  · rw [hone] at h
    dsimp only at h
    split at h
    · next hempty =>
      have hidle : pool.idle = [] := List.isEmpty_iff.mp hempty
      dsimp only
      rw [hidle]
      obtain ⟨hrest, hperm, hbalanced⟩ := abandon_gaveUp h
      exact ⟨hrest, hperm, hbalanced⟩
    · dsimp only [WorkspacePoolInner.evictAllIdle] at h
      rcases htwo : allocate allocator request.key request.bytes with ⟨_ | _ | _, allocator'⟩
      · rw [htwo] at h
        cases h
      · rw [htwo] at h
        obtain ⟨hrest, hperm, hbalanced⟩ := abandon_gaveUp h
        rw [append_nil] at hperm
        exact ⟨hrest, perm_append_comm.trans (hperm.append_right pool.idle),
          fun _ => hbalanced rfl⟩
      · rw [htwo] at h
        cases h
  · rw [hone] at h
    cases h

theorem evictedFor_fit [DecidableEq K] (allocate : WorkspaceAllocator K T E A) {index : Nat}
    (h : bestFit pool request.key request.bytes = some index) : evictedFor allocate pool request = [] := by
  unfold evictedFor
  rw [h]

theorem evictedFor_miss [DecidableEq K] (allocate : WorkspaceAllocator K T E A)
    (h : bestFit pool request.key request.bytes = none) :
    evictedFor allocate pool request =
      match allocate pool.allocator request.key request.bytes with
        | (.error _, _) => pool.idle
        | _ => [] := by
  unfold evictedFor
  rw [h]
  rcases allocate pool.allocator request.key request.bytes with ⟨_ | _ | _, allocator⟩ <;> rfl

theorem acquireOne_wentOn [DecidableEq K] (allocate : WorkspaceAllocator K T E A)
    {s' : WorkspacePoolInner K T A × List (PendingEntry K T)} (h : acquireOne allocate s request = .ok s') :
    WentOn s s' (evictedFor allocate s.1 request) := by
  obtain ⟨pool, pending⟩ := s
  unfold acquireOne at h
  dsimp only at h ⊢
  cases hfit : bestFit pool request.key request.bytes with
  | some index =>
    obtain ⟨entry, he, -⟩ := bestFit_some hfit
    rw [evictedFor_fit allocate hfit]
    rw [hfit] at h
    dsimp only at h
    rw [he, expectPool_some, ok_bind] at h
    obtain ⟨bytes, hbytes, h⟩ := bind_ok.mp h
    cases hsub : checkedSub pool.idleBytes entry.capacity with
    | none =>
      rw [hsub] at hbytes
      cases hbytes
    | some left =>
      rw [hsub] at hbytes
      obtain rfl := Except.ok.inj hbytes
      obtain rfl := checkedSub_some hsub
      obtain rfl := Except.ok.inj h
      have hperm := perm_eraseIdx he
      refine ⟨rfl, ?_, fun hb => ?_⟩
      · rw [append_nil]
        unfold available
        rw [reusedOf_append]
        have hmove : (pool.idle ++ reusedOf pending).Perm
            (entry :: (pool.idle.eraseIdx index ++ reusedOf pending)) := hperm.append_right _
        refine hmove.trans ?_
        rw [← append_assoc]
        exact (perm_append_singleton _ _).symm
      · unfold Balanced at *
        dsimp only at hb ⊢
        rw [hb, totalCapacity_perm hperm, totalCapacity_cons, Nat.add_sub_cancel_left]
  | none =>
    rw [hfit] at h
    obtain ⟨⟨pool', allocation⟩, halloc, h⟩ := bind_ok.mp h
    obtain ⟨hrest, hperm, hbalanced⟩ := allocateOrEvict_ok allocate halloc
    dsimp only at h
    split at h
    · obtain ⟨_, _, h⟩ := bind_ok.mp h
      cases h
    · obtain rfl := Except.ok.inj h
      refine ⟨hrest, ?_, hbalanced⟩
      have hsame : available (pool', pending ++
          [⟨⟨0, request.key, allocation.capacity, allocation.workspace, 0⟩, request.bytes,
            false⟩]) = available (pool', pending) := by
        simp [available, reusedOf]
      rw [hsame, evictedFor_miss allocate hfit]
      exact hperm

theorem acquireOne_gaveUp [DecidableEq K] (allocate : WorkspaceAllocator K T E A)
    (h : acquireOne allocate s request = .error (pool', .error e)) :
    GaveUp s pool' (evictedFor allocate s.1 request) := by
  obtain ⟨pool, pending⟩ := s
  unfold acquireOne at h
  dsimp only at h ⊢
  cases hfit : bestFit pool request.key request.bytes with
  | some index =>
    obtain ⟨entry, he, -⟩ := bestFit_some hfit
    rw [hfit] at h
    dsimp only at h
    rw [he, expectPool_some, ok_bind] at h
    cases hsub : checkedSub pool.idleBytes entry.capacity with
    | none =>
      rw [hsub] at h
      cases h
    | some left =>
      rw [hsub] at h
      cases h
  | none =>
    rw [hfit] at h
    rw [evictedFor_miss allocate hfit]
    rcases bind_error.mp h with halloc | ⟨⟨pool₁, allocation⟩, halloc, h⟩
    · exact allocateOrEvict_error allocate halloc
    · dsimp only at h
      split at h
      · have hgave := (allocateOrEvict_ok allocate halloc).gaveUp (abandon_gaveUp h)
        rwa [append_nil] at hgave
      · cases h

/-- The loop over the requests accounts for every segment. -/
theorem acquireLoop_wentOn [DecidableEq K] (allocate : WorkspaceAllocator K T E A) :
    ∀ {requests : List (WorkspaceRequest K)}
      {s s' : WorkspacePoolInner K T A × List (PendingEntry K T)},
      requests.foldlM (acquireOne allocate) s = .ok s' →
      WentOn s s' (evictedDuring allocate requests s) := by
  intro requests
  induction requests with
  | nil =>
    intro s s' h
    obtain rfl := Except.ok.inj h
    exact ⟨rfl, by rw [evictedDuring, append_nil], id⟩
  | cons request rest ih =>
    intro s s' h
    rw [foldlM_cons] at h
    obtain ⟨s₁, hone, h⟩ := bind_ok.mp h
    have hfirst := acquireOne_wentOn allocate hone
    have hrest := ih h
    rw [evictedDuring, hone]
    refine ⟨hfirst.rest.trans hrest.rest, ?_, fun hb => hrest.balanced (hfirst.balanced hb)⟩
    refine hfirst.idle.trans ((hrest.idle.append_right _).trans ?_)
    rw [append_assoc]
    exact perm_append_comm.append_left _

theorem acquireLoop_gaveUp [DecidableEq K] (allocate : WorkspaceAllocator K T E A) :
    ∀ {requests : List (WorkspaceRequest K)}
      {s : WorkspacePoolInner K T A × List (PendingEntry K T)} {pool' : WorkspacePoolInner K T A}
      {e : WorkspacePoolError E},
      requests.foldlM (acquireOne allocate) s = .error (pool', .error e) →
      GaveUp s pool' (evictedDuring allocate requests s) := by
  intro requests
  induction requests with
  | nil => exact nofun
  | cons request rest ih =>
    intro s pool' e h
    rw [foldlM_cons] at h
    rw [evictedDuring]
    rcases bind_error.mp h with hone | ⟨s₁, hone, h⟩
    · rw [hone, append_nil]
      exact acquireOne_gaveUp allocate hone
    · rw [hone]
      exact (acquireOne_wentOn allocate hone).gaveUp (ih h)

/-- A failed acquisition keeps all but what it evicted for its retry. -/
theorem acquire_error [DecidableEq K] (allocate : WorkspaceAllocator K T E A)
    {requests : List (WorkspaceRequest K)} (h : acquire allocate pool requests = .error (pool', .error e)) :
    GaveUp (pool, []) pool' (acquireEvictions allocate pool requests) := by
  unfold acquire at h
  unfold acquireEvictions
  cases hsum : checkedSum (requests.map (·.bytes)) with
  | none =>
    rw [hsum] at h
    rcases bind_error.mp h with h | ⟨_, h, -⟩
    · exact orAbandon_gaveUp h
    · obtain ⟨_, _, h⟩ := bind_ok.mp h
      cases h
  | some requestedBytes =>
    rw [hsum, orAbandon_some, ok_bind] at h
    dsimp only
    rcases bind_error.mp h with hloop | ⟨⟨pool₁, pending⟩, hloop, h⟩
    · exact acquireLoop_gaveUp allocate hloop
    have hwent := acquireLoop_wentOn allocate hloop
    suffices hgave : GaveUp (pool₁, pending) pool' [] by
      have := hwent.gaveUp hgave
      rwa [append_nil] at this
    dsimp only at h
    rcases bind_error.mp h with h | ⟨_, _, h⟩
    · exact orAbandon_gaveUp h
    rcases bind_error.mp h with h | ⟨_, _, h⟩
    · exact orAbandon_gaveUp h
    rcases bind_error.mp h with h | ⟨_, _, h⟩
    · exact orAbandon_gaveUp h
    rcases bind_error.mp h with h | ⟨_, _, h⟩
    · exact orAbandon_gaveUp h
    rcases bind_error.mp h with h | ⟨_, _, h⟩
    · exact orAbandon_gaveUp h
    · cases hids : assignIds pool₁.nextId pending with
      | none =>
        rw [hids] at h
        cases h
      | some assigned =>
        rw [hids] at h
        cases h

/-! ## Choices after a rollback -/

/-- The segment that `best_fit` takes. -/
def bestFitEntry [DecidableEq K] (pool : WorkspacePoolInner K T A) (key : K) (bytes : Nat) :
    Option (IdleEntry K T) :=
  (bestFit pool key bytes).bind (pool.idle[·]?)

/-- Both pools give the same segment to any request, and evict in the same order down to any
limit. -/
structure SameChoices [DecidableEq K] (p q : WorkspacePoolInner K T A) : Prop where
  fit : ∀ key bytes, bestFitEntry p key bytes = bestFitEntry q key bytes
  order : ∀ fuel maxIdleBytes,
    victims fuel { p with maxIdleBytes } = victims fuel { q with maxIdleBytes }

/-- With distinct ids, the order of the entries does not matter for the least one. -/
theorem minByKey_perm (f : IdleEntry K T → Nat) {l l' : List (IdleEntry K T)} (hp : l.Perm l')
    (hids : (l.map (·.id)).Nodup) :
    minByKey (fun e => (f e, e.id)) l = minByKey (fun e => (f e, e.id)) l' := by
  cases hl : minByKey (fun e => (f e, e.id)) l with
  | none =>
    obtain rfl := minByKey_none hl
    rw [hp.symm.eq_nil]
    rfl
  | some a =>
    cases hl' : minByKey (fun e => (f e, e.id)) l' with
    | none =>
      obtain rfl := minByKey_none hl'
      rw [hp.eq_nil] at hl
      cases hl
    | some b =>
      have ha := minByKey_mem hl
      have hb := hp.mem_iff.mpr (minByKey_mem hl')
      have hab := minByKey_le hl hb
      have hba := minByKey_le hl' (hp.mem_iff.mp ha)
      dsimp only at hab hba
      exact congrArg some (inj_on_of_nodup_map hids ha hb (by omega))

theorem map_fst_minByKey (key : α → Nat × Nat) (l : List (α × Nat)) :
    (minByKey (fun e => key e.1) l).map Prod.fst = minByKey key (l.map Prod.fst) :=
  (minByKey_map Prod.fst key l).symm

theorem bestFitEntry_eq [DecidableEq K] (pool : WorkspacePoolInner K T A) (key : K)
    (bytes : Nat) : bestFitEntry pool key bytes = minByKey (fun e => (e.capacity, e.id))
      (pool.idle.filter fun e => decide (e.key = key) && decide (bytes ≤ e.capacity)) := by
  have hfst : pool.idle.filter (fun e => decide (e.key = key) && decide (bytes ≤ e.capacity)) =
      (pool.idle.zipIdx.filter fun e => decide (e.1.key = key) &&
        decide (bytes ≤ e.1.capacity)).map Prod.fst := by
    conv_lhs => rw [← zipIdx_map_fst 0 pool.idle, filter_map]
    rfl
  rw [hfst, ← map_fst_minByKey]
  unfold bestFitEntry bestFit
  cases hmin : minByKey (fun e => (e.1.capacity, e.1.id)) (pool.idle.zipIdx.filter fun e =>
      decide (e.1.key = key) && decide (bytes ≤ e.1.capacity)) with
  | none => rfl
  | some found =>
    obtain ⟨entry, index⟩ := found
    exact mk_mem_zipIdx_iff_getElem?.mp (mem_filter.mp (minByKey_mem hmin)).1

theorem lru_fst (idle : List (IdleEntry K T)) :
    (lru idle).map Prod.fst = minByKey (fun e => (e.lastUsed, e.id)) idle := by
  unfold lru
  rw [map_fst_minByKey (fun e : IdleEntry K T => (e.lastUsed, e.id)), zipIdx_map_fst]

/-- Pools with the same idle segments evict them in the same order. -/
theorem victims_perm : ∀ {fuel : Nat} {p q : WorkspacePoolInner K T A}, p.idle.Perm q.idle →
    (p.idle.map (·.id)).Nodup → p.idleBytes = q.idleBytes → p.maxIdleBytes = q.maxIdleBytes →
    victims fuel p = victims fuel q := by
  intro fuel
  induction fuel with
  | zero => exact fun _ _ _ _ => rfl
  | succ fuel ih =>
    intro p q hperm hids hbytes hmax
    have hleast := minByKey_perm (·.lastUsed) hperm hids
    rw [← lru_fst, ← lru_fst] at hleast
    unfold victims
    rw [hbytes, hmax]
    split
    · cases hl : lru p.idle with
      | none =>
        rw [hl] at hleast
        rw [Option.map_eq_none_iff.mp hleast.symm]
      | some found =>
        obtain ⟨e, i⟩ := found
        rw [hl] at hleast
        obtain ⟨⟨e', j⟩, hl', he⟩ := Option.map_eq_some_iff.mp hleast.symm
        obtain rfl : e' = e := he
        rw [hl']
        have hp := perm_eraseIdx (lru_some hl).1
        have hq := perm_eraseIdx (lru_some hl').1
        refine congrArg (e' :: ·) (ih (((hp.symm.trans hperm).trans hq).cons_inv)
          (hids.sublist ((eraseIdx_sublist _ _).map _)) rfl rfl)
    · rfl

theorem SameChoices.of_perm [DecidableEq K] {p q : WorkspacePoolInner K T A}
    (hperm : p.idle.Perm q.idle) (hids : (p.idle.map (·.id)).Nodup)
    (hbytes : p.idleBytes = q.idleBytes) : SameChoices p q where
  fit key bytes := by
    rw [bestFitEntry_eq, bestFitEntry_eq]
    exact minByKey_perm (·.capacity) (hperm.filter _) (hids.sublist (filter_sublist.map _))
  order _ _ := victims_perm hperm hids hbytes rfl

/-- What a failed acquisition that evicted `evicted` leaves of the pool. -/
structure RolledBack [DecidableEq K] (pool pool' : WorkspacePoolInner K T A)
    (evicted : List (IdleEntry K T)) : Prop where
  leased_bytes : pool'.leasedBytes = pool.leasedBytes
  leased_segments : pool'.leasedSegments = pool.leasedSegments
  /-- Nothing but the allocator, the idle list and its bytes is touched. -/
  rest : SameRest pool pool'
  /-- The idle segments are those from before, with their ages, less the evicted ones. -/
  idle : pool.idle.Perm (pool'.idle ++ evicted)
  idle_bytes : pool'.idleBytes + totalCapacity evicted = pool.idleBytes
  /-- The pool chooses among the survivors as it would have before. -/
  choices : ∃ kept, kept.Sublist pool.idle ∧ kept.Perm pool'.idle ∧
    SameChoices { pool with idle := kept, idleBytes := pool'.idleBytes } pool'
  /-- Without an eviction nothing observable has changed. -/
  unchanged : evicted = [] → pool.idle.Perm pool'.idle ∧ pool'.idleBytes = pool.idleBytes ∧
    SameChoices pool pool'

theorem RolledBack.of_gaveUp [DecidableEq K] {evicted : List (IdleEntry K T)}
    (hids : (pool.idle.map (·.id)).Nodup) (hbalanced : Balanced pool) (h : GaveUp (pool, []) pool' evicted) :
    RolledBack pool pool' evicted := by
  obtain ⟨hrest, hperm, hbalanced'⟩ := h
  have hbytes : pool'.idleBytes = totalCapacity pool'.idle := hbalanced' hbalanced
  have hperm : pool.idle.Perm (pool'.idle ++ evicted) := by
    simpa [available, reusedOf] using hperm
  refine ⟨congrArg (·.leasedBytes) hrest, congrArg (·.leasedSegments) hrest, hrest, hperm, ?_, ?_,
    ?_⟩
  · rw [hbytes, ← totalCapacity_append, ← totalCapacity_perm hperm, hbalanced]
  · obtain ⟨kept, hkept, hsub⟩ := (sublist_append_left pool'.idle evicted).subperm.trans
      hperm.symm.subperm
    exact ⟨kept, hsub, hkept, .of_perm hkept (hids.sublist (hsub.map _)) rfl⟩
  · rintro rfl
    rw [append_nil] at hperm
    have hsame : pool'.idleBytes = pool.idleBytes := by
      rw [hbytes, hbalanced, totalCapacity_perm hperm]
    exact ⟨hperm, hsame, .of_perm hperm hids hsame.symm⟩

/-- The state after a run from a new pool. -/
def poolRun [DecidableEq K] (allocate : WorkspaceAllocator K T E A) (maxIdleBytes : Nat)
    (allocator : A) (ops : List (PoolOp K)) : PoolState K T A :=
  ops.foldl (fun s op => (poolStep allocate s op).1) (newPool maxIdleBytes allocator)

theorem poolReports_end [DecidableEq K] (allocate : WorkspaceAllocator K T E A) :
    ∀ (ops : List (PoolOp K)) (s : PoolState K T A), (poolReports nextLruTick allocate s ops).2 =
      ops.foldl (fun s op => (poolStep allocate s op).1) s := by
  intro ops
  induction ops with
  | nil => exact fun _ => rfl
  | cons op ops ih =>
    intro s
    unfold poolReports
    rw [foldl_cons, ← poolStepWith_nextLruTick]
    exact ih _

theorem poolRun_kin [DecidableEq K] (allocate : WorkspaceAllocator K T E A) (maxIdleBytes : Nat)
    (allocator : A) (ops : List (PoolOp K)) : let s := poolRun allocate maxIdleBytes allocator ops
    Kin s.pool s.pool (leasedEntries s.leases) := by
  have hend := (@poolReports_lockstep K T E A _ _ _ nextLruTick_ticking nextLruTick_ticking allocate
    ops _ _ (newPool_twin maxIdleBytes allocator)).2.kin
  rw [poolReports_end] at hend
  exact hend

/-- After any run, an acquisition that fails leaves the leases' counters as they are, and the idle
segments less those that it evicted for its retry. -/
theorem acquire_rolls_back [DecidableEq K] (allocate : WorkspaceAllocator K T E A)
    (maxIdleBytes : Nat) (allocator : A) (ops : List (PoolOp K))
    (requests : List (WorkspaceRequest K)) (pool' : WorkspacePoolInner K T A)
    (e : WorkspacePoolError E)
    (h : acquire allocate (poolRun allocate maxIdleBytes allocator ops).pool requests =
      .error (pool', .error e)) :
    RolledBack (poolRun allocate maxIdleBytes allocator ops).pool pool'
      (acquireEvictions allocate (poolRun allocate maxIdleBytes allocator ops).pool requests) := by
  have hkin := poolRun_kin allocate maxIdleBytes allocator ops
  exact .of_gaveUp hkin.aged.1.ids hkin.accounts.idle_bytes (acquire_error allocate h)

end Rollback

/-! ## A failed retry -/

/-- An allocator that has nothing for key 2. -/
def keyedAllocator : WorkspaceAllocator Nat Unit String Nat := fun calls key bytes =>
  if key = 2 then (.error "no memory", calls + 1) else (.ok ⟨(), bytes⟩, calls + 1)

/-- A request that cannot be served evicts the one idle segment that is not reserved, and the
reserved one returns. -/
theorem keyed_rolls_back : ∃ pool' e,
    let s := poolRun keyedAllocator 1024 0 [.acquire [⟨0, 64⟩, ⟨1, 32⟩], .dropLease 0]
    acquire keyedAllocator s.pool [⟨0, 16⟩, ⟨2, 8⟩] = .error (pool', .error e) ∧
      (pool'.idle.map (·.id), pool'.idleBytes) = ([0], 64) ∧
      RolledBack s.pool pool' (acquireEvictions keyedAllocator s.pool [⟨0, 16⟩, ⟨2, 8⟩]) :=
  ⟨_, _, rfl, rfl, acquire_rolls_back keyedAllocator 1024 0
    [.acquire [⟨0, 64⟩, ⟨1, 32⟩], .dropLease 0] [⟨0, 16⟩, ⟨2, 8⟩] _ _ rfl⟩

end EffectTorch
