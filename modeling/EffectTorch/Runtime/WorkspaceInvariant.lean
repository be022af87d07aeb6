import EffectTorch.Runtime.Workspace
import EffectTorch.Lib.Handles
import Mathlib

/-!
# Accounting of the workspace pool

The pool's counters, over any sequence of acquisitions, drops and limit changes,
with any allocator.

Results:
1. `acquire_spec`: what an acquisition leaves behind.
2. `releaseLease_ok`: dropping a lease returns its segments and meets the limit.
3. `pool_accounting`: between operations the counters are the sums over the idle
   and leased segments, ids are distinct, and no operation panics.
-/

namespace EffectTorch
open List Lib WorkspacePoolInner

section Accounting

variable {K T E A : Type}

/-! ## Sums and ids -/

/-- Total capacity of some segments. -/
def totalCapacity (entries : List (IdleEntry K T)) : Nat := (entries.map (·.capacity)).sum

@[simp] theorem totalCapacity_nil : totalCapacity ([] : List (IdleEntry K T)) = 0 := rfl

@[simp] theorem totalCapacity_cons (e : IdleEntry K T) (l : List (IdleEntry K T)) :
    totalCapacity (e :: l) = e.capacity + totalCapacity l := by
  simp [totalCapacity]

@[simp] theorem totalCapacity_append (l l' : List (IdleEntry K T)) :
    totalCapacity (l ++ l') = totalCapacity l + totalCapacity l' := by
  simp [totalCapacity]

theorem totalCapacity_perm {l l' : List (IdleEntry K T)} (h : l.Perm l') :
    totalCapacity l = totalCapacity l' :=
  (h.map _).sum_eq

variable {α : Type} {held held' : List (IdleEntry K T)} {index : Nat} {entry : IdleEntry K T}
  {pool pool' : WorkspacePoolInner K T A} {done : List (WorkspaceRequest K)}
  {state : WorkspacePoolInner K T A × List (PendingEntry K T)} {pending : List (PendingEntry K T)}

theorem minByKey_mem {key : α → Nat × Nat} {l : List α} {a : α} (h : minByKey key l = some a) : a ∈ l := by
  induction l generalizing a with
  | nil => cases h
  | cons b l ih =>
    unfold minByKey at h
    split at h
    · cases h
      exact mem_cons_self
    · next c hc =>
      split at h
      · cases h
        exact mem_cons_self
      · cases h
        exact mem_cons_of_mem _ (ih hc)

theorem minByKey_none {key : α → Nat × Nat} {l : List α} (h : minByKey key l = none) : l = [] := by
  cases l with
  | nil => rfl
  | cons a l =>
    unfold minByKey at h
    split at h
    · cases h
    · split at h
      · cases h
      · cases h

theorem checkedSum_some {l : List Nat} {n : Nat} (h : checkedSum l = some n) : n = l.sum := by
  have hfold : ∀ (l : List Nat) (start n : Nat), l.foldlM checkedAdd start = some n →
      n = start + l.sum := by
    intro l
    induction l with
    | nil =>
      intro start n h
      cases h
      rfl
    | cons a l ih =>
      intro start n h
      rw [foldlM_cons] at h
      obtain ⟨next, hnext, h⟩ := Option.bind_eq_some_iff.mp h
      rw [ih next n h, (checkedAdd_some.mp hnext).2, sum_cons, Nat.add_assoc]
  rw [hfold l 0 n h, Nat.zero_add]

/-! ## What the pool keeps track of -/

/-- The idle bytes are counted, and the ids of idle segments and of the segments
`held` elsewhere are distinct and have been given out. -/
structure Accounts (pool : WorkspacePoolInner K T A) (held : List (IdleEntry K T)) : Prop where
  idle_bytes : pool.idleBytes = totalCapacity pool.idle
  nodup : ((pool.idle ++ held).map (·.id)).Nodup
  ids_lt : ∀ e ∈ pool.idle ++ held, e.id < pool.nextId
  next_le : pool.nextId ≤ u64Max

/-- Operations on the idle list leave everything else alone. -/
structure SameCounters (pool pool' : WorkspacePoolInner K T A) : Prop where
  leased_bytes : pool'.leasedBytes = pool.leasedBytes
  leased_segments : pool'.leasedSegments = pool.leasedSegments
  next_id : pool'.nextId = pool.nextId
  max_idle : pool'.maxIdleBytes = pool.maxIdleBytes

theorem SameCounters.refl (pool : WorkspacePoolInner K T A) : SameCounters pool pool :=
  ⟨rfl, rfl, rfl, rfl⟩

theorem SameCounters.trans {p q r : WorkspacePoolInner K T A} (h : SameCounters p q)
    (h' : SameCounters q r) : SameCounters p r :=
  ⟨h'.leased_bytes.trans h.leased_bytes, h'.leased_segments.trans h.leased_segments,
    h'.next_id.trans h.next_id, h'.max_idle.trans h.max_idle⟩

/-- The accounts depend on the entries only up to order. -/
theorem Accounts.perm (h : Accounts pool held) (hp : held.Perm held') : Accounts pool held' where
  idle_bytes := h.idle_bytes
  nodup := (((hp.append_left pool.idle).map _).nodup_iff).mp h.nodup
  ids_lt e he := h.ids_lt e ((hp.append_left pool.idle).mem_iff.mpr he)
  next_le := h.next_le

/-- Segments may leave the pool for good. -/
theorem Accounts.forget (h : Accounts pool (held ++ held')) : Accounts pool held' where
  idle_bytes := h.idle_bytes
  nodup := h.nodup.sublist (((sublist_append_right held held').append_left pool.idle).map _)
  ids_lt e he := h.ids_lt e (by
    rcases mem_append.mp he with he | he
    · exact mem_append_left _ he
    · exact mem_append_right _ (mem_append_right _ he))
  next_le := h.next_le

theorem Accounts.count_le (h : Accounts pool held) : (pool.idle ++ held).length ≤ u64Max := by
  have hlen : ((pool.idle ++ held).map (·.id)).length ≤ (List.range pool.nextId).length := by
    refine (h.nodup.subperm fun id hid => ?_).length_le
    obtain ⟨e, he, rfl⟩ := mem_map.mp hid
    exact mem_range.mpr (h.ids_lt e he)
  rw [length_map, length_range] at hlen
  exact Nat.le_trans hlen h.next_le

/-- Takes an idle segment. -/
theorem Accounts.take (h : Accounts pool held) (he : pool.idle[index]? = some entry) :
    entry.capacity ≤ pool.idleBytes ∧
      Accounts { pool with
          idle := pool.idle.eraseIdx index
          idleBytes := pool.idleBytes - entry.capacity } (entry :: held) ∧
      totalCapacity (pool.idle.eraseIdx index) + entry.capacity = totalCapacity pool.idle := by
  have hp := perm_eraseIdx he
  have hsum := totalCapacity_perm hp
  rw [totalCapacity_cons] at hsum
  have hbytes := h.idle_bytes
  have hmove : (pool.idle ++ held).Perm (pool.idle.eraseIdx index ++ entry :: held) :=
    (hp.append_right held).trans List.perm_middle.symm
  refine ⟨by omega, ⟨?_, ?_, ?_, h.next_le⟩, by omega⟩
  · show pool.idleBytes - entry.capacity = totalCapacity (pool.idle.eraseIdx index)
    omega
  · exact ((hmove.map _).nodup_iff).mp h.nodup
  · exact fun e hm => h.ids_lt e (hmove.mem_iff.mpr hm)

/-- Returns a segment to the idle list. -/
theorem Accounts.give (h : Accounts pool (entry :: held)) :
    Accounts { pool with
      idle := pool.idle ++ [entry]
      idleBytes := pool.idleBytes + entry.capacity } held := by
  have hmove : (pool.idle ++ entry :: held).Perm ((pool.idle ++ [entry]) ++ held) := by
    rw [append_assoc]
    rfl
  refine ⟨?_, ((hmove.map _).nodup_iff).mp h.nodup, fun e hm => h.ids_lt e (hmove.mem_iff.mpr hm),
    h.next_le⟩
  show pool.idleBytes + entry.capacity = totalCapacity (pool.idle ++ [entry])
  rw [h.idle_bytes, totalCapacity_append, totalCapacity_cons, totalCapacity_nil, Nat.add_zero]

/-- What the accounts see of a segment. -/
def stamp (e : IdleEntry K T) : Nat × Nat := (e.id, e.capacity)

/-- The accounts do not see keys, ticks and contents. -/
theorem Accounts.relabel (h : Accounts pool held) (hidle : pool'.idle.map stamp = pool.idle.map stamp)
    (hheld : held'.map stamp = held.map stamp) (hbytes : pool'.idleBytes = pool.idleBytes)
    (hnext : pool'.nextId = pool.nextId) :
    Accounts pool' held' ∧ totalCapacity pool'.idle = totalCapacity pool.idle := by
  have hid : (pool'.idle ++ held').map (·.id) = (pool.idle ++ held).map (·.id) := by
    have := congrArg (List.map Prod.fst) (show (pool'.idle ++ held').map stamp =
      (pool.idle ++ held).map stamp by rw [map_append, map_append, hidle, hheld])
    rwa [map_map, map_map] at this
  have hcapacity : totalCapacity pool'.idle = totalCapacity pool.idle := by
    have := congrArg (List.map Prod.snd) hidle
    rw [map_map, map_map] at this
    exact congrArg List.sum this
  refine ⟨⟨by rw [hbytes, h.idle_bytes, hcapacity], by rw [hid]; exact h.nodup, ?_, ?_⟩, hcapacity⟩
  · intro e he
    have hmem : e.id ∈ (pool.idle ++ held).map (·.id) := hid ▸ mem_map_of_mem he
    obtain ⟨e', he', hsame⟩ := mem_map.mp hmem
    have := h.ids_lt e' he'
    rw [hnext]
    omega
  · rw [hnext]
    exact h.next_le

theorem Accounts.setAllocator (h : Accounts pool held) (allocator : A) : Accounts { pool with allocator } held :=
  ⟨h.idle_bytes, h.nodup, h.ids_lt, h.next_le⟩

theorem Accounts.evictAllIdle (h : Accounts pool held) : Accounts pool.evictAllIdle held where
  idle_bytes := rfl
  nodup := h.nodup.sublist ((sublist_append_right pool.idle held).map _)
  ids_lt e he := h.ids_lt e (mem_append_right _ he)
  next_le := h.next_le

/-! ## Acquisition -/

/-- The entries of an acquisition that came from the idle list. -/
def reusedOf (pending : List (PendingEntry K T)) : List (IdleEntry K T) :=
  (pending.filter (·.reused)).map (·.entry)

theorem reusedOf_cons (p : PendingEntry K T) (rest : List (PendingEntry K T)) :
    reusedOf (p :: rest) = if p.reused then p.entry :: reusedOf rest else reusedOf rest := by
  unfold reusedOf
  rw [filter_cons]
  split
  · rfl
  · rfl

theorem reusedOf_append (l l' : List (PendingEntry K T)) :
    reusedOf (l ++ l') = reusedOf l ++ reusedOf l' := by
  simp [reusedOf]

/-- A rollback returns every reused segment. -/
theorem rollback_ok :
    ∀ {pending : List (PendingEntry K T)} {pool : WorkspacePoolInner K T A},
      Accounts pool (reusedOf pending ++ held) →
      totalCapacity pool.idle + totalCapacity (reusedOf pending) ≤ usizeMax →
      ∃ pool', (rollback pool pending : PoolResult K T E A _) = .ok pool' ∧ Accounts pool' held ∧
        SameCounters pool pool' ∧
        totalCapacity pool'.idle = totalCapacity pool.idle + totalCapacity (reusedOf pending) := by
  intro pending
  induction pending with
  | nil => exact fun h _ => ⟨_, rfl, h, .refl _, rfl⟩
  | cons p rest ih =>
    intro pool h hfit
    rw [reusedOf_cons] at h hfit ⊢
    cases hp : p.reused with
    | false =>
      rw [hp] at h hfit
      obtain ⟨pool', hroll, h'⟩ := ih h hfit
      refine ⟨pool', ?_, h'⟩
      rw [rollback, foldlM_cons, restore, hp]
      exact hroll
    | true =>
      rw [hp, if_pos rfl] at h hfit
      rw [totalCapacity_cons] at hfit
      have hbytes : pool.idleBytes + p.entry.capacity ≤ usizeMax := by
        have := h.idle_bytes
        omega
      have hgive := h.give
      obtain ⟨pool', hroll, haccounts, hcounters, htotal⟩ := ih hgive (by
        rw [totalCapacity_append, totalCapacity_cons, totalCapacity_nil]
        omega)
      refine ⟨pool', ?_, haccounts, ⟨hcounters.leased_bytes, hcounters.leased_segments,
        hcounters.next_id, hcounters.max_idle⟩, ?_⟩
      · rw [rollback, foldlM_cons, restore, hp, checkedAdd_of_le hbytes]
        exact hroll
      · rw [htotal, totalCapacity_append, if_pos rfl, totalCapacity_cons, totalCapacity_cons,
          totalCapacity_nil]
        omega

/-- A failed acquisition leaves the accounts in order and does not panic by itself. -/
structure Failed (pool : WorkspacePoolInner K T A) (held : List (IdleEntry K T))
    (r : WorkspacePoolInner K T A × PoolFailure E) : Prop where
  accounts : Accounts r.1 held
  counters : SameCounters pool r.1
  idle_le : totalCapacity r.1.idle ≤ totalCapacity pool.idle
  no_panic : ∀ message, r.2 ≠ .panic message

/-- An entry that serves a request. -/
def Serves (request : WorkspaceRequest K) (entry : IdleEntry K T) (requestedBytes : Nat) : Prop :=
  entry.key = request.key ∧ request.bytes ≤ entry.capacity ∧ requestedBytes = request.bytes

/-- An acquisition that has handled the requests `done`. -/
structure Acquiring (pool : WorkspacePoolInner K T A) (held : List (IdleEntry K T))
    (done : List (WorkspaceRequest K)) (state : WorkspacePoolInner K T A × List (PendingEntry K T)) :
    Prop where
  accounts : Accounts state.1 (reusedOf state.2 ++ held)
  counters : SameCounters pool state.1
  bound : totalCapacity state.1.idle + totalCapacity (reusedOf state.2) ≤ totalCapacity pool.idle
  serves : List.Forall₂ (fun request p => Serves request p.entry p.requestedBytes) done state.2

theorem Acquiring.abandon (h : Acquiring pool held done state) (hfit : totalCapacity pool.idle ≤ usizeMax)
    (e : WorkspacePoolError E) :
    ∃ r, (EffectTorch.abandon state.1 state.2 e : PoolResult K T E A α) = .error r ∧
      Failed pool held r := by
  obtain ⟨pool', hroll, haccounts, hcounters, htotal⟩ :=
    rollback_ok (E := E) h.accounts (Nat.le_trans h.bound hfit)
  refine ⟨(pool', .error e), ?_, haccounts, h.counters.trans hcounters, ?_, nofun⟩
  · rw [EffectTorch.abandon, hroll]
    rfl
  · show totalCapacity pool'.idle ≤ _
    rw [htotal]
    exact h.bound

/-- The allocator's state is not accounted for. -/
theorem Acquiring.setAllocator (h : Acquiring pool held done (pool', pending)) (allocator : A) :
    Acquiring pool held done ({ pool' with allocator }, pending) :=
  ⟨h.accounts.setAllocator allocator, h.counters.trans ⟨rfl, rfl, rfl, rfl⟩, h.bound, h.serves⟩

theorem Acquiring.evictAllIdle (h : Acquiring pool held done (pool', pending)) :
    Acquiring pool held done (pool'.evictAllIdle, pending) := by
  refine ⟨h.accounts.evictAllIdle, h.counters.trans ⟨rfl, rfl, rfl, rfl⟩, ?_, h.serves⟩
  have hbound := h.bound
  show 0 + totalCapacity (reusedOf pending) ≤ totalCapacity pool.idle
  dsimp only at hbound
  omega

/-- A panic of the allocator drops the pending segments. -/
theorem Acquiring.allocatorPanic (h : Acquiring pool held done state) :
    Failed (E := E) pool held (state.1, .allocatorPanic) := by
  refine ⟨h.accounts.forget, h.counters, ?_, nofun⟩
  have := h.bound
  show totalCapacity state.1.idle ≤ _
  omega

/-- A fresh segment joins the pending entries. -/
theorem Acquiring.fresh (h : Acquiring pool held done (pool', pending)) {request : WorkspaceRequest K}
    (hs : Serves request entry request.bytes) :
    Acquiring pool held (done ++ [request])
      (pool', pending ++ [⟨entry, request.bytes, false⟩]) := by
  have hreused : reusedOf (pending ++ [⟨entry, request.bytes, false⟩]) = reusedOf pending := by
    rw [reusedOf_append]
    exact append_nil _
  refine ⟨?_, h.counters, ?_, rel_append h.serves (.cons hs .nil)⟩
  · rw [hreused]
    exact h.accounts
  · rw [hreused]
    exact h.bound

/-- An idle segment joins the pending entries. -/
theorem Acquiring.reuse (h : Acquiring pool held done (pool', pending)) {request : WorkspaceRequest K}
    (he : pool'.idle[index]? = some entry) (hs : Serves request entry request.bytes) :
    entry.capacity ≤ pool'.idleBytes ∧ Acquiring pool held (done ++ [request])
      ({ pool' with
          idle := pool'.idle.eraseIdx index
          idleBytes := pool'.idleBytes - entry.capacity },
        pending ++ [⟨entry, request.bytes, true⟩]) := by
  obtain ⟨hle, haccounts, htotal⟩ := h.accounts.take he
  have hreused : reusedOf (pending ++ [⟨entry, request.bytes, true⟩]) =
      reusedOf pending ++ [entry] := by
    rw [reusedOf_append]
    rfl
  refine ⟨hle, ?_, h.counters.trans ⟨rfl, rfl, rfl, rfl⟩, ?_, rel_append h.serves (.cons hs .nil)⟩
  · rw [hreused]
    refine haccounts.perm ?_
    rw [append_assoc]
    exact List.perm_middle.symm
  · have := h.bound
    rw [hreused, totalCapacity_append, totalCapacity_cons, totalCapacity_nil]
    dsimp only at this htotal ⊢
    omega

theorem allocateOrEvict_spec (allocate : WorkspaceAllocator K T E A)
    (h : Acquiring pool held done (pool', pending)) (hfit : totalCapacity pool.idle ≤ usizeMax)
    (request : WorkspaceRequest K) :
    (∃ pool'' allocation, allocateOrEvict allocate pool' pending request = .ok (pool'', allocation) ∧
      Acquiring pool held done (pool'', pending)) ∨
    ∃ r, allocateOrEvict allocate pool' pending request = .error r ∧ Failed pool held r := by
  unfold allocateOrEvict
  split
  · exact .inl ⟨_, _, rfl, h.setAllocator _⟩
  · exact .inr ⟨_, rfl, (h.setAllocator _).allocatorPanic⟩
  · dsimp only
    split
    · exact .inr ((h.setAllocator _).abandon hfit _)
    · split
      · exact .inl ⟨_, _, rfl, (h.setAllocator _).evictAllIdle.setAllocator _⟩
      · exact .inr ⟨_, rfl, ((h.setAllocator _).evictAllIdle.setAllocator _).allocatorPanic⟩
      · exact .inr (((h.setAllocator _).evictAllIdle.setAllocator _).abandon hfit _)

theorem bestFit_some [DecidableEq K] {key : K} {bytes : Nat} (h : bestFit pool key bytes = some index) :
    ∃ entry, pool.idle[index]? = some entry ∧ entry.key = key ∧ bytes ≤ entry.capacity := by
  obtain ⟨⟨entry, i⟩, hmin, rfl⟩ := Option.map_eq_some_iff.mp h
  obtain ⟨hmem, hfit⟩ := mem_filter.mp (minByKey_mem hmin)
  rw [Bool.and_eq_true, decide_eq_true_iff, decide_eq_true_iff] at hfit
  exact ⟨entry, mk_mem_zipIdx_iff_getElem?.mp hmem, hfit⟩

/-- One request is served, or the acquisition fails cleanly. -/
theorem acquireOne_spec [DecidableEq K] (allocate : WorkspaceAllocator K T E A)
    (h : Acquiring pool held done state) (hfit : totalCapacity pool.idle ≤ usizeMax)
    (request : WorkspaceRequest K) :
    (∃ state', acquireOne allocate state request = .ok state' ∧
      Acquiring pool held (done ++ [request]) state') ∨
    ∃ r, acquireOne allocate state request = .error r ∧ Failed pool held r := by
  obtain ⟨pool', pending⟩ := state
  unfold acquireOne
  dsimp only
  split
  · next index hbest =>
    obtain ⟨entry, he, hkey, hbytes⟩ := bestFit_some hbest
    obtain ⟨hle, hacquiring⟩ :=
      h.reuse he (show Serves request entry request.bytes from ⟨hkey, hbytes, rfl⟩)
    refine .inl ⟨_, ?_, hacquiring⟩
    rw [he, expectPool_some, ok_bind, checkedSub_of_le hle]
    rfl
  · rcases allocateOrEvict_spec allocate h hfit request with ⟨pool'', a, ha, h'⟩ | ⟨r, hr, hfailed⟩
    · rw [ha, ok_bind]
      dsimp only
      split
      · exact .inr (h'.abandon hfit _)
      · next hcapacity =>
        exact .inl ⟨_, rfl, h'.fresh ⟨rfl, Nat.le_of_not_lt hcapacity, rfl⟩⟩
    · rw [hr]
      exact .inr ⟨r, rfl, hfailed⟩

/-! ### Ids for fresh segments -/

theorem checkedAdd64_of_le {a b : Nat} (h : a + b ≤ u64Max) : checkedAdd64 a b = some (a + b) :=
  if_pos h

theorem checkedAdd64_some {a b c : Nat} :
    checkedAdd64 a b = some c ↔ a + b ≤ u64Max ∧ c = a + b := by
  unfold checkedAdd64
  split
  · next h => simp [h, eq_comm]
  · next h => simp [h]

theorem u64TryFrom_some {n m : Nat} : u64TryFrom n = some m ↔ n ≤ u64Max ∧ m = n := by
  unfold u64TryFrom
  split
  · next h => simp [h, eq_comm]
  · next h => simp [h]

/-- Everything of a pending entry but its id. -/
def PendingEntry.body (p : PendingEntry K T) : K × Nat × Nat :=
  (p.entry.key, p.entry.capacity, p.requestedBytes)

/-- Fresh entries get consecutive ids, and nothing else changes. -/
theorem assignIds_ok : ∀ {pending : List (PendingEntry K T)} {id : Nat},
    id + (pending.filter (!·.reused)).length ≤ u64Max →
    ∃ pending', assignIds id pending = some pending' ∧
      (pending'.map (·.entry.id)).Perm ((reusedOf pending).map (·.id) ++
        List.range' id (pending.filter (!·.reused)).length) ∧
      pending'.map PendingEntry.body = pending.map PendingEntry.body := by
  intro pending
  induction pending with
  | nil => exact fun _ => ⟨[], rfl, List.Perm.refl _, rfl⟩
  | cons p rest ih =>
    intro id h
    rw [filter_cons, reusedOf_cons, assignIds]
    rw [filter_cons] at h
    cases hp : p.reused with
    | true =>
      simp only [hp, Bool.not_true, Bool.false_eq_true, if_false, if_true] at h ⊢
      obtain ⟨pending', hids, hperm, hbody⟩ := ih h
      refine ⟨p :: pending', by rw [hids]; rfl, ?_, ?_⟩
      · rw [map_cons, map_cons, cons_append]
        exact hperm.cons _
      · rw [map_cons, map_cons, hbody]
    | false =>
      simp only [hp, Bool.not_false, Bool.false_eq_true, if_false, if_true, length_cons] at h ⊢
      obtain ⟨pending', hids, hperm, hbody⟩ := @ih (id + 1) (by omega)
      rw [checkedAdd64_of_le (by omega), Option.bind_some, hids, Option.map_some]
      refine ⟨_, rfl, ?_, ?_⟩
      · rw [map_cons, List.range'_succ]
        exact (hperm.cons _).trans List.perm_middle.symm
      · rw [map_cons, map_cons, hbody]
        rfl

/-- What a successful acquisition leaves behind. -/
structure Acquired (pool : WorkspacePoolInner K T A) (held : List (IdleEntry K T))
    (requests : List (WorkspaceRequest K)) (pool' : WorkspacePoolInner K T A)
    (lease : WorkspaceLease K T) : Prop where
  accounts : Accounts pool' (lease.segments.map (·.entry) ++ held)
  actual_bytes : lease.actualBytes = totalCapacity (lease.segments.map (·.entry))
  leased_bytes : pool'.leasedBytes = pool.leasedBytes + lease.actualBytes
  leased_segments : pool'.leasedSegments = pool.leasedSegments + lease.segments.length
  max_idle : pool'.maxIdleBytes = pool.maxIdleBytes
  idle_le : totalCapacity pool'.idle ≤ totalCapacity pool.idle
  serves : List.Forall₂ (fun request segment => Serves request segment.entry segment.requestedBytes)
    requests lease.segments

/-- What depends on the bodies of pending entries only. -/
theorem serves_body {requests : List (WorkspaceRequest K)} {pending' : List (PendingEntry K T)}
    (h : List.Forall₂ (fun request p => Serves request p.entry p.requestedBytes) requests pending)
    (hbody : pending'.map PendingEntry.body = pending.map PendingEntry.body) :
    List.Forall₂ (fun request p => Serves request p.entry p.requestedBytes) requests pending' := by
  induction h generalizing pending' with
  | nil =>
    rw [map_nil, map_eq_nil_iff] at hbody
    rw [hbody]
    exact .nil
  | @cons request p requests rest hs _ ih =>
    cases pending' with
    | nil => cases hbody
    | cons q rest' =>
      rw [map_cons, map_cons, List.cons.injEq] at hbody
      refine .cons ?_ (ih hbody.2)
      simp only [PendingEntry.body, Prod.mk.injEq] at hbody
      obtain ⟨⟨hkey, hcapacity, hbytes⟩, _⟩ := hbody
      unfold Serves at hs ⊢
      rw [hkey, hcapacity, hbytes]
      exact hs

/-- The segments of a lease get distinct ids, and the counters grow by them. -/
theorem Acquiring.commit {requests : List (WorkspaceRequest K)}
    (h : Acquiring pool held requests (pool', pending)) (requestedBytes : Nat) {actualBytes nextId : Nat}
    (hactual : actualBytes = totalCapacity (pending.map (·.entry)))
    (hnext : nextId = pool'.nextId + (pending.filter (!·.reused)).length) (hle : nextId ≤ u64Max) :
    ∃ pending', assignIds pool'.nextId pending = some pending' ∧
      Acquired pool held requests
        { pool' with
          nextId
          leasedBytes := pool'.leasedBytes + actualBytes
          leasedSegments := pool'.leasedSegments + pending.length }
        ⟨pending'.map fun p => ⟨p.entry, p.requestedBytes⟩, requestedBytes, actualBytes⟩ := by
  subst hnext
  obtain ⟨pending', hids, hperm, hbody⟩ := assignIds_ok hle
  have haccounts := h.accounts
  dsimp only at haccounts
  have hentries : (pending'.map fun p => (⟨p.entry, p.requestedBytes⟩ : LeasedWorkspace K T)).map
      (·.entry) = pending'.map (·.entry) := by
    rw [map_map]
    rfl
  have hcapacity : totalCapacity (pending'.map (·.entry)) = totalCapacity (pending.map (·.entry)) := by
    have := congrArg (List.map fun b : K × Nat × Nat => b.2.1) hbody
    rw [map_map, map_map] at this
    unfold totalCapacity
    rw [map_map, map_map]
    exact congrArg List.sum this
  have hlength : pending'.length = pending.length := by
    have := congrArg List.length hbody
    rwa [length_map, length_map] at this
  -- The ids after the assignment are those before and the next ones.
  have hall : ((pool'.idle ++ (pending'.map (·.entry) ++ held)).map (·.id)).Perm
      ((pool'.idle ++ (reusedOf pending ++ held)).map (·.id) ++
        List.range' pool'.nextId (pending.filter (!·.reused)).length) := by
    simp only [map_append, map_map, append_assoc]
    refine List.Perm.append_left _ ?_
    refine (hperm.append_right _).trans ?_
    rw [append_assoc]
    exact perm_append_comm.append_left _
  refine ⟨pending', hids, ?_, ?_, ?_, ?_, h.counters.max_idle, ?_, ?_⟩
  · rw [hentries]
    refine ⟨haccounts.idle_bytes, ?_, ?_, hle⟩
    · refine hall.nodup_iff.mpr (nodup_append.mpr ⟨haccounts.nodup, nodup_range', ?_⟩)
      intro id hid fresh hfresh
      obtain ⟨e, he, rfl⟩ := mem_map.mp hid
      have := haccounts.ids_lt e he
      have := (mem_range'_1.mp hfresh).1
      omega
    · intro e he
      have hid := hall.mem_iff.mp (mem_map_of_mem he)
      show e.id < pool'.nextId + _
      rcases mem_append.mp hid with hid | hid
      · obtain ⟨e', he', hsame⟩ := mem_map.mp hid
        have := haccounts.ids_lt e' he'
        omega
      · exact (mem_range'_1.mp hid).2
  · rw [hentries, hcapacity]
    exact hactual
  · show pool'.leasedBytes + _ = _
    rw [h.counters.leased_bytes]
  · show pool'.leasedSegments + _ = _
    rw [h.counters.leased_segments, length_map, hlength]
  · have := h.bound
    show totalCapacity pool'.idle ≤ _
    dsimp only at this
    omega
  · exact forall₂_map_right_iff.mpr (serves_body h.serves hbody)

theorem Acquiring.orAbandon (h : Acquiring pool held done state) (hfit : totalCapacity pool.idle ≤ usizeMax)
    (x : Option α) (e : WorkspacePoolError E) :
    (∃ a, x = some a) ∨ ∃ r, (EffectTorch.orAbandon state.1 state.2 x e : PoolResult K T E A α) =
      .error r ∧ Failed pool held r := by
  cases x with
  | some a => exact .inl ⟨a, rfl⟩
  | none => exact .inr (h.abandon hfit e)

theorem acquireLoop_spec [DecidableEq K] (allocate : WorkspaceAllocator K T E A) (h : Accounts pool held)
    (hfit : totalCapacity pool.idle ≤ usizeMax) (requests : List (WorkspaceRequest K)) :
    (∃ state, requests.foldlM (acquireOne allocate) (pool, []) = .ok state ∧
      Acquiring pool held requests state) ∨
    ∃ r, requests.foldlM (acquireOne allocate) (pool, []) = .error r ∧ Failed pool held r := by
  have hinit : Acquiring pool held [] (pool, []) := ⟨h, .refl _, Nat.le_refl _, .nil⟩
  have hstep : ∀ done request rest s s', requests = done ++ request :: rest →
      Acquiring pool held done s → acquireOne allocate s request = .ok s' →
      Acquiring pool held (done ++ [request]) s' := by
    intro done request rest s s' _ hs hok
    rcases acquireOne_spec allocate hs hfit request with ⟨s'', hok', h'⟩ | ⟨r, hr, _⟩
    · rw [hok] at hok'
      cases hok'
      exact h'
    · rw [hok] at hr
      cases hr
  cases hloop : requests.foldlM (acquireOne allocate) (pool, []) with
  | ok state => exact .inl ⟨state, rfl, foldlM_invariant (Acquiring pool held) requests hstep hinit hloop⟩
  | error r =>
    obtain ⟨done, request, rest, s, _, hs, hfault⟩ :=
      foldlM_fault (Acquiring pool held) requests hstep hinit hloop
    rcases acquireOne_spec allocate hs hfit request with ⟨s', hok, _⟩ | ⟨r', hr, hfailed⟩
    · rw [hfault] at hok
      cases hok
    · rw [hfault] at hr
      cases hr
      exact .inr ⟨r, rfl, hfailed⟩

/-- An acquisition serves every request, or fails and leaves the accounts in order. -/
theorem acquire_spec [DecidableEq K] (allocate : WorkspaceAllocator K T E A) (h : Accounts pool held)
    (hfit : totalCapacity pool.idle ≤ usizeMax) (requests : List (WorkspaceRequest K)) :
    (∃ pool' lease, acquire allocate pool requests = .ok (pool', lease) ∧
      Acquired pool held requests pool' lease) ∨
    ∃ r, acquire allocate pool requests = .error r ∧ Failed pool held r := by
  have hinit : Acquiring pool held [] (pool, []) := ⟨h, .refl _, Nat.le_refl _, .nil⟩
  unfold acquire
  rcases hinit.orAbandon (E := E) hfit (checkedSum (requests.map (·.bytes))) .byteSizeOverflow with
    ⟨requestedBytes, hr⟩ | ⟨r, hr, hf⟩
  case inr => exact .inr ⟨r, by rw [hr]; rfl, hf⟩
  rw [hr, orAbandon_some, ok_bind]
  rcases acquireLoop_spec allocate h hfit requests with ⟨⟨pool', pending⟩, hl, hs⟩ | ⟨r, hl, hf⟩
  case inr => exact .inr ⟨r, by rw [hl]; rfl, hf⟩
  rw [hl, ok_bind]
  dsimp only
  rcases hs.orAbandon (E := E) hfit (checkedSum (pending.map (·.entry.capacity)))
    .byteSizeOverflow with ⟨actualBytes, ha⟩ | ⟨r, ha, hf⟩
  case inr => exact .inr ⟨r, by rw [ha]; rfl, hf⟩
  rw [ha, orAbandon_some, ok_bind]
  rcases hs.orAbandon (E := E) hfit (checkedAdd pool'.leasedBytes actualBytes)
    .byteSizeOverflow with ⟨leasedBytes, hb⟩ | ⟨r, hb, hf⟩
  case inr => exact .inr ⟨r, by rw [hb]; rfl, hf⟩
  rw [hb, orAbandon_some, ok_bind]
  rcases hs.orAbandon (E := E) hfit (checkedAdd pool'.leasedSegments pending.length)
    .byteSizeOverflow with ⟨leasedSegments, hg⟩ | ⟨r, hg, hf⟩
  case inr => exact .inr ⟨r, by rw [hg]; rfl, hf⟩
  rw [hg, orAbandon_some, ok_bind]
  rcases hs.orAbandon (E := E) hfit (u64TryFrom (pending.filter (!·.reused)).length)
    .identifierOverflow with ⟨newCount, hc⟩ | ⟨r, hc, hf⟩
  case inr => exact .inr ⟨r, by rw [hc]; rfl, hf⟩
  rw [hc, orAbandon_some, ok_bind]
  rcases hs.orAbandon (E := E) hfit (checkedAdd64 pool'.nextId newCount)
    .identifierOverflow with ⟨nextId, hn⟩ | ⟨r, hn, hf⟩
  case inr => exact .inr ⟨r, by rw [hn]; rfl, hf⟩
  rw [hn, orAbandon_some, ok_bind]
  obtain ⟨hle, rfl⟩ := checkedAdd64_some.mp hn
  obtain ⟨_, rfl⟩ := u64TryFrom_some.mp hc
  have hactual : actualBytes = totalCapacity (pending.map (·.entry)) := by
    rw [checkedSum_some ha]
    unfold totalCapacity
    rw [map_map]
    rfl
  obtain ⟨pending', hids, hacquired⟩ := hs.commit requestedBytes hactual rfl hle
  rw [← (checkedAdd_some.mp hb).2, ← (checkedAdd_some.mp hg).2] at hacquired
  rw [hids, expectPool_some, ok_bind]
  exact .inl ⟨_, _, rfl, hacquired⟩

/-! ## Release -/

theorem map_stamp_modify (idle : List (IdleEntry K T)) (index tick : Nat) :
    (idle.modify index fun e => { e with lastUsed := tick }).map stamp = idle.map stamp := by
  refine ext_getElem? fun i => ?_
  rw [List.getElem?_map, List.getElem?_modify, List.getElem?_map]
  cases idle[i]? with
  | none => simp
  | some e =>
    simp only [Option.map_eq_map, Option.map_some]
    split
    · rfl
    · rfl

/-- Two pools that differ in ticks, clock and allocator only. -/
structure SameStamps (pool pool' : WorkspacePoolInner K T A) : Prop where
  idle : pool'.idle.map stamp = pool.idle.map stamp
  idle_bytes : pool'.idleBytes = pool.idleBytes
  counters : SameCounters pool pool'

/-- The clock always has a next tick. -/
theorem nextLruTick_ok (h : Accounts pool held) : ∃ pool' tick,
      (nextLruTick pool : PoolResult K T E A _) = .ok (pool', tick) ∧ SameStamps pool pool' := by
  have hcount : pool.idle.length ≤ u64Max :=
    Nat.le_trans (by rw [length_append]; exact Nat.le_add_right _ _) h.count_le
  unfold nextLruTick
  split
  · exact ⟨_, _, rfl, rfl, rfl, rfl, rfl, rfl, rfl⟩
  · -- The ranks and the compacted clock fit, since ids are distinct.
    let order := (List.range pool.idle.length).mergeSort (tickLe pool.idle)
    have horder : order.length = pool.idle.length := by
      rw [length_mergeSort, length_range]
    obtain ⟨pool', hloop, hstamps⟩ := foldlM_total (φ := WorkspacePoolInner K T A × PoolFailure E)
      (f := setRank) (fun _ pool' => SameStamps pool pool') order.zipIdx (by
        rintro done ⟨index, rank⟩ rest p hl hp
        have hmem : (index, rank) ∈ order.zipIdx := by rw [hl]; simp
        have hlt := (List.getElem?_eq_some_iff.mp (mk_mem_zipIdx_iff_getElem?.mp hmem)).1
        refine ⟨{ p with idle := p.idle.modify index fun e => { e with lastUsed := rank } }, ?_,
          (map_stamp_modify p.idle index rank).trans hp.idle, hp.idle_bytes,
          hp.counters.trans ⟨rfl, rfl, rfl, rfl⟩⟩
        rw [setRank, u64TryFrom_some.mpr ⟨by omega, rfl⟩]
        rfl) pool ⟨rfl, rfl, .refl _⟩
    have hlen : pool'.idle.length = pool.idle.length := by
      have := congrArg List.length hstamps.idle
      rwa [length_map, length_map] at this
    have hclock : u64TryFrom (pool'.idle.length - 1) = some (pool'.idle.length - 1) :=
      u64TryFrom_some.mpr ⟨by omega, rfl⟩
    have hnext : checkedAdd64 (pool'.idle.length - 1) 1 = some (pool'.idle.length - 1 + 1) := by
      refine checkedAdd64_of_le ?_
      have : 1 ≤ u64Max := by decide
      omega
    refine ⟨{ pool' with clock := pool'.idle.length - 1 + 1 }, pool'.idle.length - 1 + 1, ?_,
      hstamps.idle, hstamps.idle_bytes, hstamps.counters.trans ⟨rfl, rfl, rfl, rfl⟩⟩
    show (order.zipIdx.foldlM setRank pool >>= _) = _
    rw [hloop, ok_bind, hclock, expectPool_some, ok_bind]
    dsimp only
    rw [hnext]
    rfl

/-- Every segment of a lease returns to the idle list. -/
theorem releaseAll_ok :
    ∀ {segments : List (LeasedWorkspace K T)} {pool : WorkspacePoolInner K T A},
      Accounts pool (segments.map (·.entry) ++ held) →
      totalCapacity pool.idle + totalCapacity (segments.map (·.entry)) ≤ usizeMax →
      ∃ pool', (segments.foldlM releaseOne pool : PoolResult K T E A _) = .ok pool' ∧
        Accounts pool' held ∧ SameCounters pool pool' := by
  intro segments
  induction segments with
  | nil => exact fun h _ => ⟨_, rfl, h, .refl _⟩
  | cons segment rest ih =>
    intro pool h hfit
    rw [map_cons, cons_append] at h
    rw [map_cons, totalCapacity_cons] at hfit
    obtain ⟨pool₁, tick, htick, hstamps⟩ := nextLruTick_ok (E := E) h
    have hheld : ({ segment.entry with lastUsed := tick } :: (rest.map (·.entry) ++ held)).map stamp =
        (segment.entry :: (rest.map (·.entry) ++ held)).map stamp := rfl
    obtain ⟨haccounts, htotal⟩ :=
      h.relabel hstamps.idle hheld hstamps.idle_bytes hstamps.counters.next_id
    have hbytes : pool₁.idleBytes + segment.entry.capacity ≤ usizeMax := by
      have := haccounts.idle_bytes
      omega
    obtain ⟨pool', hloop, h', hcounters⟩ := ih haccounts.give (by
      rw [totalCapacity_append, totalCapacity_cons, totalCapacity_nil, htotal]
      dsimp only
      omega)
    refine ⟨pool', ?_, h', hstamps.counters.trans ⟨hcounters.leased_bytes,
      hcounters.leased_segments, hcounters.next_id, hcounters.max_idle⟩⟩
    rw [foldlM_cons, releaseOne, htick, ok_bind]
    dsimp only
    rw [checkedAdd_of_le hbytes]
    exact hloop

/-- Eviction stops at the limit. -/
theorem evictLoop_ok :
    ∀ {fuel : Nat} {pool : WorkspacePoolInner K T A}, Accounts pool held →
      pool.idle.length ≤ fuel →
      ∃ pool', (evictLoop fuel pool : PoolResult K T E A _) = .ok pool' ∧ Accounts pool' held ∧
        SameCounters pool pool' ∧ pool'.idleBytes ≤ pool'.maxIdleBytes := by
  intro fuel
  induction fuel with
  | zero =>
    intro pool h hlen
    refine ⟨pool, rfl, h, .refl _, ?_⟩
    rw [h.idle_bytes, length_eq_zero_iff.mp (Nat.le_zero.mp hlen)]
    exact Nat.zero_le _
  | succ fuel ih =>
    intro pool h hlen
    unfold evictLoop
    split
    · split
      · next hnone =>
        have hempty : pool.idle = [] := zipIdx_eq_nil_iff.mp (minByKey_none hnone)
        refine ⟨pool, rfl, h, .refl _, ?_⟩
        rw [h.idle_bytes, hempty]
        exact Nat.zero_le _
      · next entry index hmin =>
        have he := mk_mem_zipIdx_iff_getElem?.mp (minByKey_mem hmin)
        obtain ⟨hle, htake, _⟩ := h.take he
        have hlt := (List.getElem?_eq_some_iff.mp he).1
        obtain ⟨pool', hloop, h', hcounters, hlimit⟩ := ih
          (show Accounts _ ([entry] ++ held) from htake).forget (by
            show (pool.idle.eraseIdx index).length ≤ fuel
            rw [length_eraseIdx_of_lt hlt]
            omega)
        refine ⟨pool', ?_, h', ⟨hcounters.leased_bytes, hcounters.leased_segments,
          hcounters.next_id, hcounters.max_idle⟩, hlimit⟩
        dsimp only
        rw [checkedSub_of_le hle]
        exact hloop
    · next hle => exact ⟨pool, rfl, h, .refl _, Nat.le_of_not_lt hle⟩

/-- Dropping a lease returns its segments and meets the limit. -/
theorem releaseLease_ok {lease : WorkspaceLease K T}
    (h : Accounts pool (lease.segments.map (·.entry) ++ held))
    (hfit : totalCapacity pool.idle + totalCapacity (lease.segments.map (·.entry)) ≤ usizeMax)
    (hbytes : lease.actualBytes ≤ pool.leasedBytes)
    (hsegments : lease.segments.length ≤ pool.leasedSegments) :
    ∃ pool', (releaseLease pool lease : PoolResult K T E A _) = .ok pool' ∧ Accounts pool' held ∧
      pool'.leasedBytes = pool.leasedBytes - lease.actualBytes ∧
      pool'.leasedSegments = pool.leasedSegments - lease.segments.length ∧
      pool'.idleBytes ≤ pool'.maxIdleBytes := by
  let pool₀ : WorkspacePoolInner K T A := { pool with
    leasedBytes := pool.leasedBytes - lease.actualBytes
    leasedSegments := pool.leasedSegments - lease.segments.length }
  have h₀ : Accounts pool₀ (lease.segments.map (·.entry) ++ held) :=
    ⟨h.idle_bytes, h.nodup, h.ids_lt, h.next_le⟩
  obtain ⟨pool₁, hloop, h₁, hc₁⟩ := releaseAll_ok (E := E) h₀ hfit
  obtain ⟨pool₂, hevict, h₂, hc₂, hlimit⟩ := evictLoop_ok (E := E) h₁ (Nat.le_refl _)
  refine ⟨pool₂, ?_, h₂, (hc₁.trans hc₂).leased_bytes, (hc₁.trans hc₂).leased_segments, hlimit⟩
  unfold releaseLease
  rw [checkedSub_of_le hbytes, expectPool_some, ok_bind]
  dsimp only
  rw [checkedSub_of_le hsegments, expectPool_some, ok_bind, hloop, ok_bind]
  exact hevict

/-! ## Runs -/

/-- A live lease and the requests that it serves. -/
structure HeldLease (K T : Type) where
  lease : WorkspaceLease K T
  requests : List (WorkspaceRequest K)

/-- The pool and its live leases. -/
structure PoolState (K T A : Type) where
  pool : WorkspacePoolInner K T A
  leases : List (HeldLease K T)

inductive PoolOp (K : Type) where
  | acquire (requests : List (WorkspaceRequest K))
  | dropLease (index : Nat)
  | setMaxIdleBytes (maxIdleBytes : Nat)

/-- One operation, and how it stopped short if it did. -/
def poolStep [DecidableEq K] (allocate : WorkspaceAllocator K T E A) (s : PoolState K T A) :
    PoolOp K → PoolState K T A × Option (PoolFailure E)
  | .acquire requests =>
    match acquire allocate s.pool requests with
    | .ok (pool, lease) => (⟨pool, s.leases ++ [⟨lease, requests⟩]⟩, none)
    | .error (pool, failure) => (⟨pool, s.leases⟩, some failure)
  | .dropLease index =>
    match s.leases[index]? with
    | none => (s, none)
    | some held =>
      match (releaseLease s.pool held.lease : PoolResult K T E A _) with
      | .ok pool => (⟨pool, s.leases.eraseIdx index⟩, none)
      | .error (pool, failure) => (⟨pool, s.leases.eraseIdx index⟩, some failure)
  | .setMaxIdleBytes maxIdleBytes =>
    match (setMaxIdleBytes s.pool maxIdleBytes : PoolResult K T E A _) with
    | .ok pool => (⟨pool, s.leases⟩, none)
    | .error (pool, failure) => (⟨pool, s.leases⟩, some failure)

/-- The segments of the live leases. -/
def leasedEntries (leases : List (HeldLease K T)) : List (IdleEntry K T) :=
  leases.flatMap fun held => held.lease.segments.map (·.entry)

/-- All idle and leased capacity fits `usize`. -/
def CapacityFits (s : PoolState K T A) : Prop :=
  totalCapacity s.pool.idle + totalCapacity (leasedEntries s.leases) ≤ usizeMax

/-- Runs of the pool from a new one, as long as the capacity fits. -/
def poolSystem [DecidableEq K] (allocate : WorkspaceAllocator K T E A) (maxIdleBytes : Nat)
    (allocator : A) : System (PoolState K T A) where
  init s := s = ⟨.new maxIdleBytes allocator, []⟩
  step s s' := CapacityFits s ∧ ∃ op, s' = (poolStep allocate s op).1

/-- A live lease serves its requests, in order. -/
def ServesRequests (held : HeldLease K T) : Prop :=
  List.Forall₂ (fun request segment => Serves request segment.entry segment.requestedBytes)
    held.requests held.lease.segments

/-- What holds of the pool between operations. -/
structure PoolAccounting (s : PoolState K T A) : Prop where
  idle_bytes : s.pool.idleBytes = totalCapacity s.pool.idle
  idle_limit : s.pool.idleBytes ≤ s.pool.maxIdleBytes
  leased_bytes : s.pool.leasedBytes = totalCapacity (leasedEntries s.leases)
  leased_segments : s.pool.leasedSegments = (leasedEntries s.leases).length
  ids_distinct : ((s.pool.idle ++ leasedEntries s.leases).map (·.id)).Nodup
  served : ∀ held ∈ s.leases, ServesRequests held

/-- The invariant of the runs. -/
structure PoolInv (s : PoolState K T A) : Prop where
  accounting : PoolAccounting s
  ids_lt : ∀ e ∈ s.pool.idle ++ leasedEntries s.leases, e.id < s.pool.nextId
  next_le : s.pool.nextId ≤ u64Max
  actual_bytes : ∀ held ∈ s.leases,
    held.lease.actualBytes = totalCapacity (held.lease.segments.map (·.entry))

variable {s : PoolState K T A}

theorem PoolInv.accounts (h : PoolInv s) : Accounts s.pool (leasedEntries s.leases) :=
  ⟨h.accounting.idle_bytes, h.accounting.ids_distinct, h.ids_lt, h.next_le⟩

theorem PoolInv.of_accounts {leases : List (HeldLease K T)} (h : Accounts pool (leasedEntries leases))
    (hlimit : pool.idleBytes ≤ pool.maxIdleBytes)
    (hbytes : pool.leasedBytes = totalCapacity (leasedEntries leases))
    (hsegments : pool.leasedSegments = (leasedEntries leases).length)
    (hserved : ∀ held ∈ leases, ServesRequests held)
    (hactual : ∀ held ∈ leases, held.lease.actualBytes = totalCapacity (held.lease.segments.map (·.entry))) :
    PoolInv ⟨pool, leases⟩ :=
  ⟨⟨h.idle_bytes, hlimit, hbytes, hsegments, h.nodup, hserved⟩, h.ids_lt, h.next_le, hactual⟩

theorem leasedEntries_perm {leases : List (HeldLease K T)} {held : HeldLease K T}
    (h : leases[index]? = some held) : (leasedEntries leases).Perm
      (held.lease.segments.map (·.entry) ++ leasedEntries (leases.eraseIdx index)) :=
  (perm_eraseIdx h).flatMap_right _

theorem poolStep_acquire [DecidableEq K] (allocate : WorkspaceAllocator K T E A) (h : PoolInv s)
    (hfit : CapacityFits s) (requests : List (WorkspaceRequest K)) :
    PoolInv (poolStep allocate s (.acquire requests)).1 ∧
      ∀ message, (poolStep allocate s (.acquire requests)).2 ≠ some (.panic message) := by
  have hidle : totalCapacity s.pool.idle ≤ usizeMax := Nat.le_trans (Nat.le_add_right _ _) hfit
  have hlimit := h.accounting.idle_limit
  rw [h.accounting.idle_bytes] at hlimit
  unfold poolStep
  dsimp only
  rcases acquire_spec allocate h.accounts hidle requests with
    ⟨pool', lease, hok, hacquired⟩ | ⟨⟨pool', failure⟩, herr, hfailed⟩
  · rw [hok]
    have hentries : leasedEntries (s.leases ++ [⟨lease, requests⟩]) =
        leasedEntries s.leases ++ lease.segments.map (·.entry) := by
      simp [leasedEntries]
    refine ⟨.of_accounts ?_ ?_ ?_ ?_ ?_ ?_, nofun⟩
    · rw [hentries]
      exact hacquired.accounts.perm perm_append_comm
    · rw [hacquired.accounts.idle_bytes, hacquired.max_idle]
      exact Nat.le_trans hacquired.idle_le hlimit
    · rw [hentries, totalCapacity_append, hacquired.leased_bytes, hacquired.actual_bytes,
        h.accounting.leased_bytes]
    · rw [hentries, length_append, length_map, hacquired.leased_segments,
        h.accounting.leased_segments]
    · exact forall_mem_append.mpr
        ⟨h.accounting.served, forall_mem_singleton.mpr hacquired.serves⟩
    · exact forall_mem_append.mpr
        ⟨h.actual_bytes, forall_mem_singleton.mpr hacquired.actual_bytes⟩
  · rw [herr]
    refine ⟨.of_accounts hfailed.accounts ?_ ?_ ?_ h.accounting.served h.actual_bytes, ?_⟩
    · rw [hfailed.accounts.idle_bytes, hfailed.counters.max_idle]
      exact Nat.le_trans hfailed.idle_le hlimit
    · exact hfailed.counters.leased_bytes.trans h.accounting.leased_bytes
    · exact hfailed.counters.leased_segments.trans h.accounting.leased_segments
    · intro message hpanic
      exact hfailed.no_panic message (Option.some.inj hpanic)

theorem poolStep_dropLease [DecidableEq K] (allocate : WorkspaceAllocator K T E A) (h : PoolInv s)
    (hfit : CapacityFits s) (index : Nat) :
    PoolInv (poolStep allocate s (.dropLease index)).1 ∧
      (poolStep allocate s (.dropLease index)).2 = none := by
  unfold poolStep
  dsimp only
  split
  · exact ⟨h, rfl⟩
  · next held hheld =>
    have hperm := leasedEntries_perm hheld
    have hmem := mem_of_getElem? hheld
    have hactual := h.actual_bytes held hmem
    have htotal := totalCapacity_perm hperm
    have hlength := hperm.length_eq
    have hbytes := h.accounting.leased_bytes
    have hsegments := h.accounting.leased_segments
    rw [totalCapacity_append] at htotal
    rw [length_append, length_map] at hlength
    have hfit' : totalCapacity s.pool.idle +
        totalCapacity (held.lease.segments.map (·.entry)) ≤ usizeMax := by
      have hfit : totalCapacity s.pool.idle + totalCapacity (leasedEntries s.leases) ≤ usizeMax := hfit
      omega
    obtain ⟨pool', hrelease, haccounts, hb, hs, hlimit⟩ := releaseLease_ok (E := E)
      (h.accounts.perm hperm) hfit' (by omega) (by omega)
    have hsub : ∀ other ∈ s.leases.eraseIdx index, other ∈ s.leases :=
      fun other ho => (eraseIdx_sublist _ _).subset ho
    rw [hrelease]
    refine ⟨.of_accounts haccounts hlimit (by omega) (by omega)
      (fun other ho => h.accounting.served other (hsub other ho))
      (fun other ho => h.actual_bytes other (hsub other ho)), rfl⟩

theorem poolStep_setMaxIdleBytes [DecidableEq K] (allocate : WorkspaceAllocator K T E A) (h : PoolInv s)
    (maxIdleBytes : Nat) :
    PoolInv (poolStep allocate s (.setMaxIdleBytes maxIdleBytes)).1 ∧
      (poolStep allocate s (.setMaxIdleBytes maxIdleBytes)).2 = none := by
  have h₀ : Accounts { s.pool with maxIdleBytes } (leasedEntries s.leases) :=
    ⟨h.accounts.idle_bytes, h.accounts.nodup, h.accounts.ids_lt, h.accounts.next_le⟩
  obtain ⟨pool', hevict, haccounts, hcounters, hlimit⟩ := evictLoop_ok (E := E) h₀ (Nat.le_refl _)
  unfold poolStep setMaxIdleBytes evictToLimit
  dsimp only
  rw [hevict]
  exact ⟨.of_accounts haccounts hlimit (hcounters.leased_bytes.trans h.accounting.leased_bytes)
    (hcounters.leased_segments.trans h.accounting.leased_segments) h.accounting.served
    h.actual_bytes, rfl⟩

/-- Every operation keeps the invariant and does not panic by itself. -/
theorem poolStep_inv [DecidableEq K] (allocate : WorkspaceAllocator K T E A) (h : PoolInv s)
    (hfit : CapacityFits s) (op : PoolOp K) :
    PoolInv (poolStep allocate s op).1 ∧
      ∀ message, (poolStep allocate s op).2 ≠ some (.panic message) := by
  cases op with
  | acquire requests => exact poolStep_acquire allocate h hfit requests
  | dropLease index =>
    obtain ⟨hinv, hnone⟩ := poolStep_dropLease allocate h hfit index
    exact ⟨hinv, fun message => by rw [hnone]; exact nofun⟩
  | setMaxIdleBytes maxIdleBytes =>
    obtain ⟨hinv, hnone⟩ := poolStep_setMaxIdleBytes allocate h maxIdleBytes
    exact ⟨hinv, fun message => by rw [hnone]; exact nofun⟩

theorem poolSystem_inv [DecidableEq K] {allocate : WorkspaceAllocator K T E A} {maxIdleBytes : Nat}
    {allocator : A} (h : (poolSystem allocate maxIdleBytes allocator).Reachable s) : PoolInv s := by
  refine System.invariant (fun s hs => ?_) (fun s s' hs hstep => ?_) h
  · rw [show s = _ from hs]
    exact .of_accounts ⟨rfl, nodup_nil, nofun, Nat.zero_le _⟩ (Nat.zero_le _) rfl rfl nofun nofun
  · obtain ⟨hfit, op, rfl⟩ := hstep
    exact (poolStep_inv allocate hs hfit op).1

/-- Between operations the counters are the sums over the idle and leased segments,
the limit holds, ids are distinct and every lease serves its requests; and while
the capacity fits, no operation panics by itself. -/
theorem pool_accounting [DecidableEq K] {allocate : WorkspaceAllocator K T E A} {maxIdleBytes : Nat}
    {allocator : A} {s : PoolState K T A}
    (h : (poolSystem allocate maxIdleBytes allocator).Reachable s) :
    PoolAccounting s ∧ (CapacityFits s → ∀ op message,
      (poolStep allocate s op).2 ≠ some (.panic message)) :=
  ⟨(poolSystem_inv h).accounting, fun hfit op => (poolStep_inv allocate (poolSystem_inv h) hfit op).2⟩

end Accounting

/-! ## A run with reuse and a retry -/

/-- An allocator that gives exactly what is asked until it runs dry, and then
fails every other time. -/
def fickleAllocator : WorkspaceAllocator String Unit String Nat := fun calls _ bytes =>
  if calls % 3 = 2 then (.error "injected failure", calls + 1)
  else (.ok ⟨(), bytes⟩, calls + 1)

def fickleStep (s : PoolState String Unit Nat) (op : PoolOp String) : PoolState String Unit Nat :=
  (poolStep fickleAllocator s op).1

/-- Two segments are leased and returned, one is reused, and a request for another
key evicts the other one before its retry. -/
theorem fickle_run_accounting :
    let s := [.acquire [⟨"a", 64⟩, ⟨"a", 128⟩], .dropLease 0, .acquire [⟨"a", 100⟩, ⟨"b", 32⟩],
      .setMaxIdleBytes 0].foldl fickleStep ⟨.new 256 0, []⟩
    (s.pool.leasedBytes, s.pool.idleBytes, s.pool.nextId) = (160, 0, 3) ∧ PoolAccounting s := by
  refine ⟨by decide +kernel, ?_⟩
  have hstep : ∀ {s : PoolState String Unit Nat} (op : PoolOp String),
      (poolSystem fickleAllocator 256 0).Reachable s → CapacityFits s →
      (poolSystem fickleAllocator 256 0).Reachable (fickleStep s op) :=
    fun op hs hfit => .step hs ⟨hfit, op, rfl⟩
  refine (pool_accounting (hstep _ (hstep _ (hstep _ (hstep _ (.init rfl) ?_) ?_) ?_) ?_)).1
  · show _ ≤ _
    decide +kernel
  · show _ ≤ _
    decide +kernel
  · show _ ≤ _
    decide +kernel
  · show _ ≤ _
    decide +kernel

end EffectTorch
