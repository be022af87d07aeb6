import EffectTorch.Lib.Transition
import EffectTorch.Lib.Fault

/-!
# Loops with bounded concurrency

A loop that runs at most `limit` tasks at a time: it starts them in order, they end in any order,
and the first failure to end stops the loop. A task is its outcome.

Results:
1. `Finishes.eq_map`: a loop that finishes returns the results in the order of the tasks.
2. `Finishes.mem`: a loop that stops, stops with the failure of a task.
3. `rank_lt`, `exists_finishes`: every run is finite, and one can always go on.
-/

namespace Lib
open List

variable {ε α : Type}

/-- A loop that goes on: the tasks from `next` on are to be started. -/
structure Progress (α : Type) where
  next : Nat
  running : List Nat
  results : List (Option α)

inductive ForEach (ε α : Type) where
  | active (progress : Progress α)
  | stopped (failure : ε)

inductive ForEachStep (tasks : List (Except ε α)) (limit : Nat) : ForEach ε α → ForEach ε α → Prop
  | start {p : Progress α} : p.running.length < limit → p.next < tasks.length →
      ForEachStep tasks limit (.active p) (.active { p with next := p.next + 1, running := p.next :: p.running })
  | succeed {p : Progress α} {i : Nat} {a : α} : i ∈ p.running → tasks[i]? = some (.ok a) →
      ForEachStep tasks limit (.active p)
        (.active { p with running := p.running.erase i, results := p.results.set i (some a) })
  | fail {p : Progress α} {i : Nat} {e : ε} : i ∈ p.running → tasks[i]? = some (.error e) →
      ForEachStep tasks limit (.active p) (.stopped e)

def forEachSystem (tasks : List (Except ε α)) (limit : Nat) : System (ForEach ε α) where
  init s := s = .active ⟨0, [], List.replicate tasks.length none⟩
  step := ForEachStep tasks limit

/-- The loop ends: every task has ended, or one of them has failed. -/
inductive Finishes (tasks : List (Except ε α)) (limit : Nat) : Except ε (List α) → Prop
  | ok {p : Progress α} {r : List α} : (forEachSystem tasks limit).Reachable (.active p) →
      p.next = tasks.length → p.running = [] → p.results = r.map some → Finishes tasks limit (.ok r)
  | error {e : ε} : (forEachSystem tasks limit).Reachable (.stopped e) → Finishes tasks limit (.error e)

/-- What holds in every state: the tasks that have ended have left their results. -/
def ForEach.Valid (tasks : List (Except ε α)) : ForEach ε α → Prop
  | .active p => p.running.Nodup ∧ p.results.length = tasks.length ∧ p.next ≤ tasks.length ∧
      (∀ i ∈ p.running, i < p.next) ∧
      ∀ i < p.next, i ∉ p.running → ∃ a, tasks[i]? = some (.ok a) ∧ p.results[i]? = some (some a)
  | .stopped e => .error e ∈ tasks

section Runs

variable {tasks : List (Except ε α)} {limit : Nat}

theorem ForEachStep.valid {s s' : ForEach ε α} (h : s.Valid tasks) (hstep : ForEachStep tasks limit s s') :
    s'.Valid tasks := by
  cases hstep with
  | @start p _ hnext =>
    obtain ⟨hnodup, hlen, _, hrunning, hended⟩ := h
    refine ⟨nodup_cons.mpr ⟨fun hmem => Nat.lt_irrefl _ (hrunning _ hmem), hnodup⟩, hlen, hnext, ?_, ?_⟩
    · intro i hi
      rcases mem_cons.mp hi with rfl | hi
      · exact Nat.lt_succ_self _
      · exact Nat.lt_succ_of_lt (hrunning i hi)
    · intro i hi hout
      obtain ⟨hne, hout⟩ := not_or.mp fun h => hout (mem_cons.mpr h)
      exact hended i (Nat.lt_of_le_of_ne (Nat.le_of_lt_succ hi) hne) hout
  | @succeed p i a hi htask =>
    obtain ⟨hnodup, hlen, hnext, hrunning, hended⟩ := h
    have hlt : i < p.results.length := hlen ▸ (List.getElem?_eq_some_iff.mp htask).1
    refine ⟨hnodup.erase i, by rw [length_set, hlen], hnext,
      fun j hj => hrunning j (mem_of_mem_erase hj), fun j hj hout => ?_⟩
    by_cases heq : i = j
    · subst heq
      exact ⟨a, htask, List.getElem?_set_self hlt⟩
    · obtain ⟨b, hb, hres⟩ := hended j hj fun hmem => hout ((mem_erase_of_ne (Ne.symm heq)).mpr hmem)
      exact ⟨b, hb, (List.getElem?_set_ne heq).trans hres⟩
  | fail _ htask => exact mem_of_getElem? htask

theorem forEach_valid {s : ForEach ε α} (h : (forEachSystem tasks limit).Reachable s) : s.Valid tasks := by
  refine System.invariant (fun s hs => ?_) (fun s s' hvalid (hstep : ForEachStep tasks limit s s') =>
    hstep.valid hvalid) h
  subst hs
  exact ⟨nodup_nil, length_replicate, Nat.zero_le _, fun _ h => absurd h not_mem_nil,
    fun i hi => absurd hi (Nat.not_lt_zero i)⟩

/-- The results stand in the order of the tasks, in whatever order these ended. -/
theorem Finishes.eq_map {r : List α} (h : Finishes tasks limit (.ok r)) : tasks = r.map .ok := by
  cases h with
  | @ok p _ hreach hnext hrunning hresults =>
    obtain ⟨_, hlen, _, _, hended⟩ := forEach_valid hreach
    rw [hresults, length_map] at hlen
    refine ext_getElem? fun i => ?_
    by_cases hi : i < tasks.length
    · obtain ⟨a, htask, hres⟩ := hended i (hnext ▸ hi) (by rw [hrunning]; exact not_mem_nil)
      rw [hresults, List.getElem?_map, Option.map_eq_some_iff] at hres
      obtain ⟨b, hb, heq⟩ := hres
      cases heq
      rw [htask, List.getElem?_map, hb]
      rfl
    · rw [List.getElem?_eq_none (Nat.not_lt.mp hi),
        List.getElem?_eq_none (by rw [length_map, hlen]; exact Nat.not_lt.mp hi)]

theorem Finishes.mem {e : ε} (h : Finishes tasks limit (.error e)) : .error e ∈ tasks := by
  cases h with
  | error hreach => exact forEach_valid hreach

/-- A loop whose tasks all succeed returns their results. -/
theorem Finishes.eq_ok {r : List α} {outcome : Except ε (List α)} (h : Finishes tasks limit outcome)
    (htasks : tasks = r.map .ok) : outcome = .ok r := by
  cases outcome with
  | error e =>
    obtain ⟨a, _, ha⟩ := mem_map.mp (htasks ▸ h.mem)
    cases ha
  | ok r' =>
    have hmap : r'.map (@Except.ok ε α) = r.map .ok := h.eq_map.symm.trans htasks
    rw [map_injective_iff.mpr (fun _ _ => Except.ok.inj) hmap]

/-- How many steps a run can still take. -/
def ForEach.rank (tasks : List (Except ε α)) : ForEach ε α → Nat
  | .active p => 2 * (tasks.length - p.next) + p.running.length + 1
  | .stopped _ => 0

/-- Every step brings a run closer to its end. -/
theorem rank_lt {s s' : ForEach ε α} (hstep : ForEachStep tasks limit s s') : s'.rank tasks < s.rank tasks := by
  cases hstep with
  | start _ hnext =>
    simp only [ForEach.rank, length_cons]
    omega
  | succeed hi _ =>
    have hpos := length_pos_of_mem hi
    simp only [ForEach.rank, length_erase_of_mem hi]
    omega
  | fail _ _ => exact Nat.succ_pos _

/-- A loop with room for a task ends. -/
theorem exists_finishes (hlimit : 0 < limit) : ∃ outcome, Finishes tasks limit outcome := by
  suffices h : ∀ n, ∀ s : ForEach ε α, (forEachSystem tasks limit).Reachable s → s.rank tasks ≤ n →
      ∃ outcome, Finishes tasks limit outcome from h _ _ (.init rfl) (Nat.le_refl _)
  intro n
  induction n with
  | zero =>
    intro s hreach hrank
    cases s with
    | active p => exact absurd hrank (Nat.not_succ_le_zero _)
    | stopped e => exact ⟨_, .error hreach⟩
  | succ n ih =>
    intro s hreach hrank
    have hgo : ∀ s', ForEachStep tasks limit s s' → ∃ outcome, Finishes tasks limit outcome := fun s' hstep =>
      ih s' (.step hreach hstep) (Nat.le_of_lt_succ (Nat.lt_of_lt_of_le (rank_lt hstep) hrank))
    cases s with
    | stopped e => exact ⟨_, .error hreach⟩
    | active p =>
      obtain ⟨_, hlen, hnext, hrunning, hended⟩ := forEach_valid hreach
      cases hrun : p.running with
      | cons i rest =>
        have hi : i ∈ p.running := hrun ▸ mem_cons_self
        cases htask : tasks[i]? with
        | none =>
          have hlt := Nat.lt_of_lt_of_le (hrunning i hi) hnext
          exact absurd htask (by rw [List.getElem?_eq_getElem hlt]; exact nofun)
        | some task =>
          cases task with
          | ok a => exact hgo _ (.succeed hi htask)
          | error e => exact hgo _ (.fail hi htask)
      | nil =>
        rcases Nat.lt_or_eq_of_le hnext with hlt | heq
        · exact hgo _ (.start (by rw [hrun]; exact hlimit) hlt)
        · have hsome : ∀ x ∈ p.results, ∃ a, x = some a := by
            intro x hx
            obtain ⟨i, hi⟩ := mem_iff_getElem?.mp hx
            have hlt : i < p.next := by
              rw [heq, ← hlen]
              exact (List.getElem?_eq_some_iff.mp hi).1
            obtain ⟨a, _, hres⟩ := hended i hlt (by rw [hrun]; exact not_mem_nil)
            exact ⟨a, Option.some.inj (hi.symm.trans hres)⟩
          obtain ⟨r, hr⟩ := exists_forall₂ hsome
          have hresults : p.results = r.map some := by
            rw [map_eq_of_forall₂ hr fun _ _ h => h.symm, map_id']
          exact ⟨.ok r, .ok hreach heq hrun hresults⟩

end Runs

end Lib
