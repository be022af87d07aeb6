import Mathlib.Data.List.Induction
import Mathlib.Data.Set.Basic
import Mathlib.Logic.Function.Basic

/-!
# Actions on a memory

An action reads some cells of a memory and then writes some. Cells are named by
variables, and an address map says which cell of the memory a variable names, so
that one program can run in different memories.

Results:
1. `Action.exec_eq`: an action changes only the cells that it writes.
2. `Action.emit_eq`: what it writes depends only on the cells that it reads.
3. `execAll_append`: a run of two programs is the run of the second after the
   first.
-/

namespace Lib
open List Function

/-- An action over variables `V` with contents `β`: the writes that it makes in a
given memory, in order, and the variables that it reads to find them. -/
structure Action (V β : Type) where
  emit : (V → β) → List (V × β)
  reads : (V → β) → Set V
  emit_local : ∀ m m', (∀ x ∈ reads m, m x = m' x) → emit m = emit m'

variable {V A β : Type}

variable {a : Action V β} {addr : V → A} {memory : A → β} {x : A}

/-- What an action writes depends only on the cells that it reads. -/
theorem Action.emit_eq {B : Type} {addr' : V → B} {memory' : B → β}
    (h : ∀ x ∈ a.reads (memory ∘ addr), memory (addr x) = memory' (addr' x)) :
    a.emit (memory ∘ addr) = a.emit (memory' ∘ addr') :=
  a.emit_local _ _ h

variable [DecidableEq A]

/-- Performs writes in order. -/
def store (addr : V → A) (memory : A → β) (writes : List (V × β)) : A → β :=
  writes.foldl (fun memory w => Function.update memory (addr w.1) w.2) memory

/-- One action at the given addresses. -/
def Action.exec (a : Action V β) (addr : V → A) (memory : A → β) : A → β :=
  store addr memory (a.emit (memory ∘ addr))

/-- A sequence of actions. -/
def execAll (addr : V → A) (actions : List (Action V β)) (memory : A → β) : A → β :=
  actions.foldl (fun memory a => a.exec addr memory) memory

/-! ## Stores -/

@[simp] theorem store_nil (addr : V → A) (memory : A → β) : store addr memory [] = memory := rfl

theorem store_snoc (addr : V → A) (memory : A → β) (writes : List (V × β)) (w : V × β) :
    store addr memory (writes ++ [w]) =
      Function.update (store addr memory writes) (addr w.1) w.2 := by
  simp [store, foldl_append]

/-- A store keeps the cells that it does not name. -/
theorem store_of_not_mem :
    ∀ {writes : List (V × β)}, (∀ w ∈ writes, addr w.1 ≠ x) → store addr memory writes x = memory x := by
  intro writes
  induction writes using List.reverseRecOn with
  | nil => exact fun _ => rfl
  | append_singleton writes w ih =>
    intro h
    rw [store_snoc, update_of_ne (Ne.symm (h w (by simp)))]
    exact ih fun w' hw' => h w' (by simp [hw'])

/-- A store of the same writes leaves related cells equal, if the cells were equal
before and the addresses of the writes tell the related cells apart. -/
theorem store_congr {B : Type} [DecidableEq B] {addr' : V → B} {memory' : B → β} {y : B} :
    ∀ {writes : List (V × β)}, (∀ w ∈ writes, addr w.1 = x ↔ addr' w.1 = y) →
      ((∃ w ∈ writes, addr w.1 = x) ∨ memory x = memory' y) →
      store addr memory writes x = store addr' memory' writes y := by
  intro writes
  induction writes using List.reverseRecOn with
  | nil =>
    intro _ h
    exact h.resolve_left (by simp)
  | append_singleton writes w ih =>
    intro hiff h
    rw [store_snoc, store_snoc]
    by_cases hw : addr w.1 = x
    · rw [← hw, ← (hiff w (by simp)).mp hw, update_self, update_self]
    · have hw' : addr' w.1 ≠ y := fun hy => hw ((hiff w (by simp)).mpr hy)
      rw [update_of_ne (Ne.symm hw), update_of_ne (Ne.symm hw')]
      refine ih (fun w' hm => hiff w' (by simp [hm])) ?_
      rcases h with ⟨w', hm, hx⟩ | h
      · rcases mem_append.mp hm with hm | hm
        · exact .inl ⟨w', hm, hx⟩
        · rw [mem_singleton.mp hm] at hx
          exact absurd hx hw
      · exact .inr h

/-! ## Runs -/

/-- An action changes only the cells that it writes. -/
theorem Action.exec_eq (h : ∀ w ∈ a.emit (memory ∘ addr), addr w.1 ≠ x) : a.exec addr memory x = memory x :=
  store_of_not_mem h

/-- An action does not depend on the addresses of variables that it does not use. -/
theorem Action.exec_congr {addr' : V → A} (hr : ∀ x ∈ a.reads (memory ∘ addr), addr x = addr' x)
    (hw : ∀ w ∈ a.emit (memory ∘ addr), addr w.1 = addr' w.1) : a.exec addr memory = a.exec addr' memory := by
  have hemit : a.emit (memory ∘ addr) = a.emit (memory ∘ addr') :=
    Action.emit_eq fun x hx => by rw [hr x hx]
  funext x
  unfold Action.exec
  rw [← hemit]
  exact store_congr (fun w hm => by rw [hw w hm]) (.inr rfl)

@[simp] theorem execAll_nil (addr : V → A) (memory : A → β) :
    execAll addr ([] : List (Action V β)) memory = memory := rfl

@[simp] theorem execAll_cons (addr : V → A) (a : Action V β) (actions : List (Action V β))
    (memory : A → β) :
    execAll addr (a :: actions) memory = execAll addr actions (a.exec addr memory) := rfl

theorem execAll_append (addr : V → A) (first second : List (Action V β)) (memory : A → β) :
    execAll addr (first ++ second) memory = execAll addr second (execAll addr first memory) :=
  foldl_append

theorem execAll_snoc (addr : V → A) (actions : List (Action V β)) (a : Action V β)
    (memory : A → β) :
    execAll addr (actions ++ [a]) memory = a.exec addr (execAll addr actions memory) := by
  rw [execAll_append]
  rfl

/-- A run does not depend on the addresses of variables that its actions do not
use. -/
theorem execAll_congr {addr' : V → A} : ∀ {actions : List (Action V β)} {memory : A → β},
    (∀ a ∈ actions, ∀ m, (∀ x ∈ a.reads m, addr x = addr' x) ∧
      ∀ w ∈ a.emit m, addr w.1 = addr' w.1) →
    execAll addr actions memory = execAll addr' actions memory := by
  intro actions
  induction actions with
  | nil => exact fun _ => rfl
  | cons a actions ih =>
    intro memory h
    obtain ⟨hr, hw⟩ := h a mem_cons_self (memory ∘ addr)
    rw [execAll_cons, execAll_cons, Action.exec_congr hr hw]
    exact ih fun b hb => h b (mem_cons_of_mem _ hb)

end Lib
