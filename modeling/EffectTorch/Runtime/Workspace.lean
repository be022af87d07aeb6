import EffectTorch.Runtime.Memory
import EffectTorch.Lib.Transition
import Mathlib

/-!
# The workspace pool

`runtime/src/workspace.rs`: transient allocations that leases return to an idle
list. One mutex guards the pool, so a run is a sequence of whole operations. The
allocator is a parameter: it may give a workspace of any capacity, return an error
or panic. A failed operation keeps what it changed, so failures carry the pool.
-/

namespace EffectTorch
open Lib

/-- `u64::MAX`. -/
def u64Max : Nat := 2 ^ 64 - 1

/-- `u64::checked_add`. -/
def checkedAdd64 (a b : Nat) : Option Nat :=
  if a + b ≤ u64Max then some (a + b) else none

/-- `u64::try_from`. -/
def u64TryFrom (n : Nat) : Option Nat :=
  if n ≤ u64Max then some n else none

/-! ## Data -/

structure IdleEntry (K T : Type) where
  id : Nat
  key : K
  capacity : Nat
  workspace : T
  lastUsed : Nat

structure PendingEntry (K T : Type) where
  entry : IdleEntry K T
  requestedBytes : Nat
  reused : Bool

structure LeasedWorkspace (K T : Type) where
  entry : IdleEntry K T
  requestedBytes : Nat

structure WorkspaceRequest (K : Type) where
  key : K
  bytes : Nat

structure WorkspaceAllocation (T : Type) where
  workspace : T
  capacity : Nat

/-- What a call of the allocator does. -/
inductive Allocated (T E : Type) where
  | ok (allocation : WorkspaceAllocation T)
  | error (e : E)
  | panic

/-- `WorkspaceAllocator::allocate` over the allocator's own state. -/
abbrev WorkspaceAllocator (K T E A : Type) := A → K → Nat → Allocated T E × A

/-- Why an acquisition failed. -/
inductive WorkspacePoolError (E : Type) where
  | allocation (e : E)
  | insufficientCapacity (requested actual : Nat)
  | byteSizeOverflow
  | identifierOverflow

/-- How an operation stops short: with an error, by a panic of the allocator, or
by a panic of the pool itself. -/
inductive PoolFailure (E : Type) where
  | error (e : WorkspacePoolError E)
  | allocatorPanic
  | panic (message : String)

structure WorkspacePoolInner (K T A : Type) where
  allocator : A
  maxIdleBytes : Nat
  idle : List (IdleEntry K T)
  idleBytes : Nat
  leasedSegments : Nat
  leasedBytes : Nat
  clock : Nat
  nextId : Nat

structure WorkspaceLease (K T : Type) where
  segments : List (LeasedWorkspace K T)
  requestedBytes : Nat
  actualBytes : Nat

/-- An operation under the pool's lock. -/
abbrev PoolResult (K T E A α : Type) := Except (WorkspacePoolInner K T A × PoolFailure E) α

section Operations

variable {K T E A : Type}

/-- `Option::expect(message)` with the pool as it is. -/
def expectPool {α : Type} (pool : WorkspacePoolInner K T A) (x : Option α) (message : String) :
    PoolResult K T E A α :=
  match x with
  | some a => .ok a
  | none => .error (pool, .panic message)

@[simp] theorem expectPool_some {α : Type} (pool : WorkspacePoolInner K T A) (a : α)
    (message : String) : (expectPool pool (some a) message : PoolResult K T E A α) = .ok a := rfl

/-- `Iterator::min_by_key`: the first entry of the least key. -/
def minByKey {α : Type} (key : α → Nat × Nat) : List α → Option α
  | [] => none
  | a :: l =>
    match minByKey key l with
    | none => some a
    | some b =>
      if (key a).1 < (key b).1 ∨ (key a).1 = (key b).1 ∧ (key a).2 ≤ (key b).2 then some a
      else some b

/-- `iter().try_fold(0, checked_add)`. -/
def checkedSum (l : List Nat) : Option Nat :=
  l.foldlM checkedAdd 0

namespace WorkspacePoolInner

/-- `WorkspacePool::new`. -/
def new (maxIdleBytes : Nat) (allocator : A) : WorkspacePoolInner K T A :=
  ⟨allocator, maxIdleBytes, [], 0, 0, 0, 0, 0⟩

/-- `best_fit`: the index of the smallest sufficient segment, then of the lowest
id. -/
def bestFit [DecidableEq K] (pool : WorkspacePoolInner K T A) (key : K) (bytes : Nat) :
    Option Nat :=
  (minByKey (fun e => (e.1.capacity, e.1.id))
    (pool.idle.zipIdx.filter fun e => decide (e.1.key = key) && decide (bytes ≤ e.1.capacity))).map
    (·.2)

/-- One turn of `rollback`. -/
def restore (pool : WorkspacePoolInner K T A) (pending : PendingEntry K T) :
    PoolResult K T E A (WorkspacePoolInner K T A) :=
  if pending.reused then do
    let idleBytes ← expectPool pool (checkedAdd pool.idleBytes pending.entry.capacity)
      "workspace pool rollback byte accounting overflow"
    .ok { pool with idleBytes, idle := pool.idle ++ [pending.entry] }
  else .ok pool

/-- `rollback`. -/
def rollback (pool : WorkspacePoolInner K T A) (pending : List (PendingEntry K T)) :
    PoolResult K T E A (WorkspacePoolInner K T A) :=
  pending.foldlM restore pool

/-- The loop of `evict_to_limit`, for at most `fuel` turns. -/
def evictLoop : Nat → WorkspacePoolInner K T A → PoolResult K T E A (WorkspacePoolInner K T A)
  | 0, pool => .ok pool
  | fuel + 1, pool =>
    if pool.maxIdleBytes < pool.idleBytes then
      match minByKey (fun e => (e.1.lastUsed, e.1.id)) pool.idle.zipIdx with
      | none => .ok pool
      | some (entry, index) => do
        let pool := { pool with idle := pool.idle.eraseIdx index }
        let idleBytes ← expectPool pool (checkedSub pool.idleBytes entry.capacity)
          "workspace pool eviction byte accounting underflow"
        evictLoop fuel { pool with idleBytes }
    else .ok pool

/-- `evict_to_limit`: every turn removes one entry. -/
def evictToLimit (pool : WorkspacePoolInner K T A) :
    PoolResult K T E A (WorkspacePoolInner K T A) :=
  evictLoop pool.idle.length pool

/-- `evict_all_idle`. -/
def evictAllIdle (pool : WorkspacePoolInner K T A) : WorkspacePoolInner K T A :=
  { pool with idle := [], idleBytes := 0 }

/-- Gives one idle entry its rank as its tick. -/
def setRank (pool : WorkspacePoolInner K T A) (entry : Nat × Nat) :
    PoolResult K T E A (WorkspacePoolInner K T A) := do
  let rank ← expectPool pool (u64TryFrom entry.2) "workspace count exceeded the identifier range"
  .ok { pool with idle := pool.idle.modify entry.1 fun e => { e with lastUsed := rank } }

/-- The order of two indices under `sort_by_key`. -/
def tickLe (idle : List (IdleEntry K T)) (i j : Nat) : Bool :=
  match idle[i]?, idle[j]? with
  | some a, some b => decide (a.lastUsed < b.lastUsed) ||
      (decide (a.lastUsed = b.lastUsed) && decide (a.id ≤ b.id))
  | _, _ => true

/-- `next_lru_tick`: before the clock wraps, the idle ticks become `0..n` in the
same order. -/
def nextLruTick (pool : WorkspacePoolInner K T A) :
    PoolResult K T E A (WorkspacePoolInner K T A × Nat) :=
  match checkedAdd64 pool.clock 1 with
  | some next => .ok ({ pool with clock := next }, next)
  | none => do
    let order := (List.range pool.idle.length).mergeSort (tickLe pool.idle)
    let pool ← order.zipIdx.foldlM setRank pool
    let clock ← expectPool pool (u64TryFrom (pool.idle.length - 1))
      "workspace count exceeded the identifier range"
    let pool := { pool with clock }
    let clock ← expectPool pool (checkedAdd64 pool.clock 1)
      "workspace LRU counter exhausted after compaction"
    .ok ({ pool with clock }, clock)

end WorkspacePoolInner

open WorkspacePoolInner

/-! ## Acquisition -/

/-- Rolls back and returns an error. -/
def abandon {α : Type} (pool : WorkspacePoolInner K T A) (pending : List (PendingEntry K T))
    (e : WorkspacePoolError E) : PoolResult K T E A α := do
  let pool ← rollback pool pending
  .error (pool, .error e)

/-- `match x { Some(a) => a, None => { rollback; return Err(e) } }`. -/
def orAbandon {α : Type} (pool : WorkspacePoolInner K T A) (pending : List (PendingEntry K T))
    (x : Option α) (e : WorkspacePoolError E) : PoolResult K T E A α :=
  match x with
  | some a => .ok a
  | none => abandon pool pending e

@[simp] theorem orAbandon_some {α : Type} (pool : WorkspacePoolInner K T A)
    (pending : List (PendingEntry K T)) (a : α) (e : WorkspacePoolError E) :
    orAbandon pool pending (some a) e = .ok a := rfl

/-- Allocates, and if that fails while segments are idle, evicts them and tries
once more. -/
def allocateOrEvict (allocate : WorkspaceAllocator K T E A) (pool : WorkspacePoolInner K T A)
    (pending : List (PendingEntry K T)) (request : WorkspaceRequest K) :
    PoolResult K T E A (WorkspacePoolInner K T A × WorkspaceAllocation T) :=
  match allocate pool.allocator request.key request.bytes with
  | (.ok allocation, allocator) => .ok ({ pool with allocator }, allocation)
  | (.panic, allocator) => .error ({ pool with allocator }, .allocatorPanic)
  | (.error e, allocator) =>
    let pool := { pool with allocator }
    if pool.idle.isEmpty then abandon pool pending (.allocation e)
    else
      let pool := evictAllIdle pool
      match allocate pool.allocator request.key request.bytes with
      | (.ok allocation, allocator) => .ok ({ pool with allocator }, allocation)
      | (.panic, allocator) => .error ({ pool with allocator }, .allocatorPanic)
      | (.error e, allocator) => abandon { pool with allocator } pending (.allocation e)

/-- One turn of the loop over the requests. -/
def acquireOne [DecidableEq K] (allocate : WorkspaceAllocator K T E A)
    (state : WorkspacePoolInner K T A × List (PendingEntry K T)) (request : WorkspaceRequest K) :
    PoolResult K T E A (WorkspacePoolInner K T A × List (PendingEntry K T)) :=
  let (pool, pending) := state
  match bestFit pool request.key request.bytes with
  | some index => do
    let entry ← expectPool pool pool.idle[index]? "removal index out of bounds"
    let pool := { pool with idle := pool.idle.eraseIdx index }
    let idleBytes ← expectPool pool (checkedSub pool.idleBytes entry.capacity)
      "workspace pool idle byte accounting underflow"
    .ok ({ pool with idleBytes }, pending ++ [⟨entry, request.bytes, true⟩])
  | none => do
    let (pool, allocation) ← allocateOrEvict allocate pool pending request
    if allocation.capacity < request.bytes then
      abandon pool pending (.insufficientCapacity request.bytes allocation.capacity)
    else
      .ok (pool, pending ++
        [⟨⟨0, request.key, allocation.capacity, allocation.workspace, 0⟩, request.bytes, false⟩])

/-- Gives the fresh entries their ids. -/
def assignIds : Nat → List (PendingEntry K T) → Option (List (PendingEntry K T))
  | _, [] => some []
  | id, pending :: rest =>
    if pending.reused then (assignIds id rest).map (pending :: ·)
    else
      (checkedAdd64 id 1).bind fun next =>
        (assignIds next rest).map ({ pending with entry := { pending.entry with id } } :: ·)

/-- `WorkspacePool::acquire`. -/
def acquire [DecidableEq K] (allocate : WorkspaceAllocator K T E A)
    (pool : WorkspacePoolInner K T A) (requests : List (WorkspaceRequest K)) :
    PoolResult K T E A (WorkspacePoolInner K T A × WorkspaceLease K T) := do
  let requestedBytes ← orAbandon pool [] (checkedSum (requests.map (·.bytes))) .byteSizeOverflow
  let (pool, pending) ← requests.foldlM (acquireOne allocate) (pool, [])
  let actualBytes ← orAbandon pool pending (checkedSum (pending.map (·.entry.capacity)))
    .byteSizeOverflow
  let leasedBytes ← orAbandon pool pending (checkedAdd pool.leasedBytes actualBytes)
    .byteSizeOverflow
  let leasedSegments ← orAbandon pool pending (checkedAdd pool.leasedSegments pending.length)
    .byteSizeOverflow
  let newCount ← orAbandon pool pending (u64TryFrom (pending.filter (!·.reused)).length)
    .identifierOverflow
  let nextId ← orAbandon pool pending (checkedAdd64 pool.nextId newCount) .identifierOverflow
  let pending ← expectPool pool (assignIds pool.nextId pending)
    "workspace identifier was checked before assignment"
  .ok ({ pool with nextId, leasedBytes, leasedSegments },
    ⟨pending.map fun p => ⟨p.entry, p.requestedBytes⟩, requestedBytes, actualBytes⟩)

/-! ## Release and limits -/

/-- Returns one segment of a lease. -/
def releaseOne (pool : WorkspacePoolInner K T A) (segment : LeasedWorkspace K T) :
    PoolResult K T E A (WorkspacePoolInner K T A) := do
  let (pool, lastUsed) ← nextLruTick pool
  let entry := { segment.entry with lastUsed }
  let idleBytes ← expectPool pool (checkedAdd pool.idleBytes entry.capacity)
    "workspace pool idle byte accounting overflow"
  .ok { pool with idleBytes, idle := pool.idle ++ [entry] }

/-- `Drop` of a lease. -/
def releaseLease (pool : WorkspacePoolInner K T A) (lease : WorkspaceLease K T) :
    PoolResult K T E A (WorkspacePoolInner K T A) := do
  let leasedBytes ← expectPool pool (checkedSub pool.leasedBytes lease.actualBytes)
    "workspace pool leased byte accounting underflow"
  let pool := { pool with leasedBytes }
  let leasedSegments ← expectPool pool (checkedSub pool.leasedSegments lease.segments.length)
    "workspace pool leased segment accounting underflow"
  let pool ← lease.segments.foldlM releaseOne { pool with leasedSegments }
  evictToLimit pool

/-- `WorkspacePool::set_max_idle_bytes`. -/
def setMaxIdleBytes (pool : WorkspacePoolInner K T A) (maxIdleBytes : Nat) :
    PoolResult K T E A (WorkspacePoolInner K T A) :=
  evictToLimit { pool with maxIdleBytes }

end Operations

end EffectTorch
