import EffectTorch.Lib.Transition
import Mathlib.Logic.Function.Basic

/-!
# The prefix pool of the decision engine

`make` of `packages/serve/src/DecisionEngine.ts`: `acquire`, `release`, `dispose`, the idle
timers, the prefill workers and the finalizer, under any interleaving of their fibers.

An operation that holds the mutex waits only inside `dispose`: for the worker of the entry,
and for the finalizers of its resources. The state tells who holds the mutex by where that
`dispose` stands and by what follows it. All other operations are one step.

Interruption is not a step of its own. A question can leave at every point where its fiber
is interruptible, a prefill can fail at any time, and a worker whose fiber has not run yet
can end without a trace once something interrupts it.
-/

namespace EffectTorch

namespace DecisionEngine
open Function

/-! ## The pool -/

structure Options where
  maxActiveQuestions : Nat
  maxCachedPrefixes : Nat

/-- `Array.from(ids)`. `JSON.stringify` tells any two of them apart. -/
abbrev Key := List UInt32

inductive PrefillState where
  | loading
  | ready
  | failed
deriving DecidableEq, Repr

/-- The fiber of `entry.worker`: not yet run, in `runtime.prefill`, closing what a failed
prefill has acquired. -/
inductive Worker where
  | forked
  | running
  | closing
  | ended
deriving DecidableEq, Repr

/-- `closes` is history: how often the finalizers of `resources` were run. -/
structure Entry where
  key : Key
  leases : Int
  state : PrefillState
  worker : Worker
  timer : Option Nat
  closes : Nat
deriving DecidableEq, Repr

/-- `Scope.close(entry.resources, …)`. A closed scope has no finalizers left. -/
def Entry.close (entry : Entry) : Entry :=
  if entry.closes = 0 then { entry with closes := 1 } else entry

/-- `entry.timer = …`. -/
def Entry.setTimer (timer : Option Nat) (entry : Entry) : Entry := { entry with timer }

/-- `entry.leases += delta`. -/
def Entry.lease (delta : Int) (entry : Entry) : Entry :=
  { entry with leases := entry.leases + delta }

inductive TimerState where
  | sleeping
  | waiting
  | disposing
  | ended
deriving DecidableEq, Repr

/-- The fiber of an idle timer, and the entry it closes over. -/
structure Timer where
  entry : Nat
  state : TimerState
deriving DecidableEq, Repr

/-- Where the fiber of a question stands. `acquiring` and `releasing` are inside the
`dispose` of the operation; a `settled` question has its result, or the error of `acquire`,
and still holds its slot. -/
inductive Question where
  | queued
  | slot
  | acquiring
  | leased (entry : Nat)
  | releasing
  | settled (error : Option String)
  | done
deriving DecidableEq, Repr

def Question.inSlot : Question → Bool
  | queued | done => false
  | _ => true

/-- What `dispose` waits for. -/
inductive Phase where
  | worker
  | resources
  | removal
deriving DecidableEq, Repr

/-- What follows `dispose` in the operation that holds the mutex. -/
inductive After where
  | insert (question : Nat) (key : Key)
  | released (question : Nat)
  | expired (timer : Nat)
  | drain (rest : List Nat)
deriving DecidableEq, Repr

structure Disposal where
  entry : Nat
  phase : Phase
  after : After
deriving DecidableEq, Repr

/-- How far the finalizer is: `closed` is set, it closes `calls`, it closes `background`, it
disposes of the pool, it has ended. -/
inductive Stage where
  | running
  | closed
  | calls
  | background
  | pool
  | gone
deriving DecidableEq, Repr

/-- The finalizer has awaited the fibers of the calls. -/
def Stage.drained : Stage → Bool
  | running | closed | calls => false
  | background | pool | gone => true

/-- Entries and timers are known by the order of their creation. `entries` is the map in its
insertion order. -/
structure Pool where
  heap : Nat → Entry
  fresh : Nat
  entries : List Nat
  timers : Nat → Timer
  nextTimer : Nat
  questions : List Question
  slots : Nat
  mutex : Option Disposal
  stage : Stage
  prefills : Nat
  livePrefixes : Int

def Pool.empty (options : Options) : Pool where
  heap _ := ⟨[], 0, .loading, .ended, none, 0⟩
  fresh := 0
  entries := []
  timers _ := ⟨0, .ended⟩
  nextTimer := 0
  questions := []
  slots := options.maxActiveQuestions
  mutex := none
  stage := .running
  prefills := 0
  livePrefixes := 0

namespace Pool

/-- The flag `closed`. -/
def closed (s : Pool) : Bool := s.stage ≠ .running

def get (s : Pool) (key : Key) : Option Nat := s.entries.find? fun e => (s.heap e).key = key

def delete (s : Pool) (key : Key) : List Nat := s.entries.filter fun e => (s.heap e).key ≠ key

def modify (s : Pool) (e : Nat) (f : Entry → Entry) : Pool :=
  { s with heap := update s.heap e (f (s.heap e)) }

def setQuestion (s : Pool) (i : Nat) (question : Question) : Pool :=
  { s with questions := s.questions.set i question }

/-- `entries.delete(key)` and `entries.set(key, entry)`. -/
def touch (s : Pool) (e : Nat) : Pool := { s with entries := s.delete (s.heap e).key ++ [e] }

/-! ## The operations -/

/-- The timer sleeps or waits for the mutex, so that its interruption ends it. -/
def cancelTimer (s : Pool) (e : Nat) : Pool :=
  match (s.heap e).timer with
  | none => s
  | some t => { s.modify e (.setTimer none) with
    timers := update s.timers t { s.timers t with state := .ended } }

/-- `dispose` up to where it waits for the worker. -/
def dispose (s : Pool) (e : Nat) (after : After) : Pool :=
  { s.cancelTimer e with mutex := some ⟨e, .worker, after⟩ }

/-- The end of `acquire` on a miss. -/
def insert (s : Pool) (i : Nat) (key : Key) : Pool :=
  { s with
    heap := update s.heap s.fresh ⟨key, 1, .loading, .forked, none, 0⟩
    fresh := s.fresh + 1
    entries := s.entries ++ [s.fresh]
    questions := s.questions.set i (.leased s.fresh) }

def acquire (options : Options) (s : Pool) (i : Nat) (key : Key) : Pool :=
  if s.closed then s.setQuestion i (.settled (some "Engine scope is closed"))
  else match s.get key with
    | some e =>
      (((s.cancelTimer e).modify e (.lease 1)).touch e).setQuestion i (.leased e)
    | none =>
      if s.entries.length = options.maxCachedPrefixes then
        match s.entries.find? fun e => (s.heap e).leases = 0 with
        | none => s.setQuestion i (.settled (some "No idle prefix cache slot"))
        | some idle => (s.setQuestion i .acquiring).dispose idle (.insert i key)
      else s.insert i key

/-- The timer of an entry that has become idle. -/
def arm (s : Pool) (e : Nat) : Pool :=
  { s.modify e (.setTimer (some s.nextTimer)) with
    timers := update s.timers s.nextTimer ⟨e, .sleeping⟩
    nextTimer := s.nextTimer + 1 }

def release (s : Pool) (i e : Nat) : Pool :=
  let lowered := s.modify e (.lease (-1))
  if (lowered.heap e).leases ≠ 0 then lowered.setQuestion i (.settled none)
  else if s.closed then lowered.setQuestion i (.settled none)
  else if (lowered.heap e).state ≠ .ready then
    (lowered.setQuestion i .releasing).dispose e (.released i)
  else ((lowered.setQuestion i (.settled none)).touch e).arm e

/-- The end of `dispose`. -/
def remove (s : Pool) (e : Nat) : Pool :=
  { s with
    entries := s.delete (s.heap e).key
    livePrefixes := if (s.heap e).state = .ready then s.livePrefixes - 1 else s.livePrefixes
    mutex := none }

/-- The loop of the finalizer over the entries of the pool. -/
def drain (s : Pool) : List Nat → Pool
  | [] => { s with stage := .gone }
  | e :: rest => s.dispose e (.drain rest)

/-- What the operation does behind its `dispose`, up to where it gives the mutex back or
disposes of the next entry. -/
def resume (s : Pool) : After → Pool
  | .insert i key => s.insert i key
  | .released i => s.setQuestion i (.settled none)
  | .expired t => { s with timers := update s.timers t { s.timers t with state := .ended } }
  | .drain rest => s.drain rest

/-- `dispose` goes on. -/
def advance (s : Pool) (d : Disposal) : Option Pool :=
  match d.phase with
  | .worker =>
    if (s.heap d.entry).worker = .ended then some { s with mutex := some { d with phase := .resources } }
    else none
  | .resources =>
    some { s.modify d.entry Entry.close with mutex := some { d with phase := .removal } }
  | .removal => some ((s.remove d.entry).resume d.after)

/-- The finalizer goes on. -/
def shutdown (s : Pool) : Option Pool :=
  match s.stage with
  | .running => some { s with stage := .closed }
  | .closed => some { s with stage := .calls }
  | .calls => if s.questions.all (· = .done) then some { s with stage := .background } else none
  | .background =>
    if (List.range s.fresh).all (fun e => (s.heap e).worker = .ended) ∧
        (List.range s.nextTimer).all (fun t => (s.timers t).state = .ended) then
      some { s with stage := .pool }
    else none
  | .pool => if s.mutex = none then some (s.drain s.entries) else none
  | .gone => none

end Pool

/-! ## Steps -/

inductive Event where
  /-- A call forks the fiber of a question. -/
  | ask
  /-- A question takes a slot, acquires, releases, and gives the slot back. -/
  | enter (i : Nat)
  | acquire (i : Nat) (key : Key)
  | release (i : Nat)
  | leave (i : Nat)
  /-- The worker of an entry starts, and its prefill ends. -/
  | start (e : Nat)
  | succeed (e : Nat)
  | fail (e : Nat)
  | failed (e : Nat)
  /-- A worker that has not started is interrupted. -/
  | abandon (e : Nat)
  /-- A timer wakes up, takes the mutex, or is interrupted. -/
  | wake (t : Nat)
  | expire (t : Nat)
  | interrupt (t : Nat)
  /-- `dispose` goes on, the finalizer goes on. -/
  | advance
  | shutdown
deriving DecidableEq, Repr

namespace Pool

/-- Who interrupts a worker: the `dispose` of its entry, or the end of `background`. -/
def interrupts (s : Pool) (e : Nat) : Bool :=
  s.stage = .background ∨ s.mutex.any fun d => d.entry = e ∧ d.phase = .worker

/-- The step of the worker of `e` where it stands at `worker`. -/
def work (s : Pool) (e : Nat) (worker : Worker) (f : Entry → Entry) : Option Pool :=
  if (s.heap e).worker = worker then some (s.modify e f) else none

def wake (s : Pool) (t : Nat) (state : TimerState) : Pool :=
  { s with timers := update s.timers t { s.timers t with state } }

/-- One event; `none` where it cannot happen. A run tests `closed` before it forks a
question, so that the question may appear after the flag is set, but not in a closed scope. -/
def perform (options : Options) (s : Pool) : Event → Option Pool
  | .ask =>
    if s.stage = .running ∨ s.stage = .closed then
      some { s with questions := s.questions ++ [.queued] }
    else none
  | .enter i =>
    if s.questions[i]? = some .queued ∧ 0 < s.slots then
      some { s.setQuestion i .slot with slots := s.slots - 1 }
    else none
  | .acquire i key =>
    if s.questions[i]? = some .slot ∧ s.mutex = none then some (s.acquire options i key) else none
  | .release i =>
    match s.questions[i]? with
    | some (.leased e) => if s.mutex = none then some (s.release i e) else none
    | _ => none
  | .leave i =>
    match s.questions[i]? with
    | some .queued => some (s.setQuestion i .done)
    | some .slot | some (.settled _) => some { s.setQuestion i .done with slots := s.slots + 1 }
    | _ => none
  | .start e => s.work e .forked fun entry => { entry with worker := .running }
  | .succeed e =>
    (s.work e .running fun entry => { entry with state := .ready, worker := .ended }).map fun s =>
      { s with prefills := s.prefills + 1, livePrefixes := s.livePrefixes + 1 }
  | .fail e => s.work e .running fun entry => { entry.close with worker := .closing }
  | .failed e => s.work e .closing fun entry => { entry with state := .failed, worker := .ended }
  | .abandon e =>
    if s.interrupts e then s.work e .forked fun entry => { entry with worker := .ended } else none
  | .wake t => if (s.timers t).state = .sleeping then some (s.wake t .waiting) else none
  | .expire t =>
    if (s.timers t).state = .waiting ∧ s.mutex = none then
      some (((s.wake t .disposing).modify (s.timers t).entry (.setTimer none)).dispose
        (s.timers t).entry (.expired t))
    else none
  | .interrupt t =>
    if s.stage = .background ∧ ((s.timers t).state = .sleeping ∨ (s.timers t).state = .waiting) then
      some (s.wake t .ended)
    else none
  | .advance => s.mutex.bind s.advance
  | .shutdown => s.shutdown

end Pool

/-- The runs of an engine. -/
def system (options : Options) : Lib.System Pool where
  init s := s = .empty options
  step s s' := ∃ event, s.perform options event = some s'

end DecisionEngine

end EffectTorch
