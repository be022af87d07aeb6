import EffectTorch.Lib.Actions

/-!
# Relocation

A program runs in a memory where every storage cell has an address of its own,
and in a smaller memory where cells share addresses. If cells of one address are
never alive together, and every read of the first run sees a cell that has been
written, both runs leave the same contents in every cell that is still alive.

Result: `relocation`.
-/

namespace Lib
open List

variable {V L A β : Type}

/-- Lifetimes of cells: `[start, stop)` in positions of the run. -/
structure Lifetimes (addr : V → L) (bound : Set L) (actions : List (Action V β))
    (start stop : L → Nat) : Prop where
  bound_start : ∀ x ∈ bound, start x = 0
  reads : ∀ (k : Nat) a, actions[k]? = some a → ∀ m, ∀ x ∈ a.reads m,
    start (addr x) ≤ k ∧ k < stop (addr x)
  writes : ∀ (k : Nat) a, actions[k]? = some a → ∀ m, ∀ w ∈ a.emit m,
    start (addr w.1) ≤ k ∧ k < stop (addr w.1)

variable {addr : V → L} {bound : Set L} {start stop : L → Nat} {memory : L → β}

theorem Lifetimes.initial {first second : List (Action V β)}
    (h : Lifetimes addr bound (first ++ second) start stop) : Lifetimes addr bound first start stop := by
  have hget : ∀ (k : Nat) a, first[k]? = some a → (first ++ second)[k]? = some a := by
    intro k a hk
    rw [List.getElem?_append_left (List.getElem?_eq_some_iff.mp hk).1, hk]
  exact ⟨h.bound_start, fun k a hk => h.reads k a (hget k a hk),
    fun k a hk => h.writes k a (hget k a hk)⟩

variable [DecidableEq L] [DecidableEq A]

/-- Cell `x` holds a bound content, or one that an action of the run has written. -/
def Written (addr : V → L) (bound : Set L) (memory : L → β) (actions : List (Action V β))
    (x : L) : Prop :=
  x ∈ bound ∨ ∃ before a after, actions = before ++ a :: after ∧
    ∃ w ∈ a.emit (execAll addr before memory ∘ addr), addr w.1 = x

/-- Every action of the run reads only written cells. -/
def ReadsWritten (addr : V → L) (bound : Set L) (memory : L → β) (actions : List (Action V β)) :
    Prop :=
  ∀ before a after, actions = before ++ a :: after →
    ∀ x ∈ a.reads (execAll addr before memory ∘ addr), Written addr bound memory before (addr x)

theorem written_snoc {actions : List (Action V β)} {a : Action V β} {x : L}
    (h : Written addr bound memory (actions ++ [a]) x) :
    Written addr bound memory actions x ∨
      ∃ w ∈ a.emit (execAll addr actions memory ∘ addr), addr w.1 = x := by
  rcases h with h | ⟨before, b, after, hl, hw⟩
  · exact .inl (.inl h)
  · rcases eq_nil_or_concat after with rfl | ⟨after, c, rfl⟩
    · obtain ⟨rfl, hb⟩ := append_inj' hl rfl
      cases hb
      exact .inr hw
    · have hl' : actions ++ [a] = (before ++ b :: after) ++ [c] := by rw [hl]; simp
      obtain ⟨rfl, _⟩ := append_inj' hl' rfl
      exact .inl (.inr ⟨before, b, after, rfl, hw⟩)

theorem ReadsWritten.initial {first second : List (Action V β)}
    (h : ReadsWritten addr bound memory (first ++ second)) : ReadsWritten addr bound memory first := by
  intro before a after hl
  exact h before a (after ++ second) (by rw [hl]; simp)

/-- A cell that has been written was born before. -/
theorem Lifetimes.start_le {actions : List (Action V β)} (h : Lifetimes addr bound actions start stop)
    {x : L} (hx : Written addr bound memory actions x) : start x ≤ actions.length := by
  rcases hx with hx | ⟨before, a, after, rfl, w, hw, rfl⟩
  · rw [h.bound_start x hx]
    exact Nat.zero_le _
  · have := (h.writes before.length a (by simp) _ w hw).1
    simp only [length_append, length_cons]
    omega

/-- Running at shared addresses leaves the same contents in every written cell
that is still alive. -/
theorem relocation {place : L → A} {shared : A → β}
    (hshare : ∀ x y, x ≠ y → place x = place y → ¬ (start x < stop y ∧ start y < stop x))
    (hbound : ∀ x ∈ bound, shared (place x) = memory x) :
    ∀ actions : List (Action V β), Lifetimes addr bound actions start stop →
      ReadsWritten addr bound memory actions →
      ∀ x, Written addr bound memory actions x → actions.length ≤ stop x →
        execAll (place ∘ addr) actions shared (place x) = execAll addr actions memory x := by
  intro actions
  induction actions using List.reverseRecOn with
  | nil =>
    rintro _ _ x (hx | ⟨before, a, after, hl, _⟩) _
    · exact hbound x hx
    · simp at hl
  | append_singleton actions a ih =>
    intro hlife hreads x hx hstop
    have hlife' := hlife.initial
    have ih := ih hlife' hreads.initial
    have hlast : (actions ++ [a])[actions.length]? = some a := by simp
    rw [length_append, length_singleton] at hstop
    -- Both runs emit the same writes, since the cells read are written and alive.
    have hemit : a.emit (execAll addr actions memory ∘ addr) =
        a.emit (execAll (place ∘ addr) actions shared ∘ (place ∘ addr)) := by
      refine Action.emit_eq fun v hv => ?_
      have hw := hreads actions a [] rfl v hv
      have halive := (hlife.reads _ a hlast _ v hv).2
      exact (ih (addr v) hw (Nat.le_of_lt halive)).symm
    rw [execAll_snoc, execAll_snoc]
    unfold Action.exec
    rw [← hemit]
    have hwrites := hlife.writes _ a hlast (execAll addr actions memory ∘ addr)
    refine store_congr (fun w hw => ?_) ?_
    · constructor
      · intro hplace
        by_contra hne
        have halive := hwrites w hw
        refine hshare _ _ hne hplace ⟨by omega, ?_⟩
        have hborn : start x ≤ actions.length := by
          rcases written_snoc hx with hx | ⟨w', hw', rfl⟩
          · exact hlife'.start_le hx
          · exact (hwrites w' hw').1
        omega
      · intro h
        rw [Function.comp_apply, h]
    · rcases written_snoc hx with hx | ⟨w, hw, rfl⟩
      · exact .inr (ih x hx (by omega))
      · exact .inl ⟨w, hw, rfl⟩

end Lib
