import EffectTorch.Lib.Handles

/-!
# Scopes of finalizers

`Scopes φ` is what a runtime promises about a parent scope and its children: a child is
forked empty, a finalizer is added to one child, closing a child runs the finalizers it
holds, and closing the parent runs those of all children that are still open. `φ` are the
finalizers.

Results:
1. `Scopes.held_all`: what an open child holds is run when the parent closes.
2. `listScopes`: the promises can be kept.
-/

namespace Lib

structure Scopes (φ : Type) where
  State : Type
  Id : Type
  /-- The parent when it is opened. -/
  opened : State
  /-- Opens a child. -/
  fork : State → Id × State
  addFinalizer : State → Id → φ → State
  /-- Closes a child: the finalizers that run, in their order. -/
  close : State → Id → List φ × State
  /-- Closes the parent: the finalizers that run, in their order. -/
  closeAll : State → List φ
  /-- The finalizers of a child that have not run. -/
  held : State → Id → List φ
  IsOpen : State → Id → Prop
  opened_all : closeAll opened = []
  fork_open (s : State) : IsOpen (fork s).2 (fork s).1
  fork_new (s : State) : ¬ IsOpen s (fork s).1
  fork_held (s : State) : held (fork s).2 (fork s).1 = []
  fork_keeps {s : State} {id : Id} : IsOpen s id →
    IsOpen (fork s).2 id ∧ held (fork s).2 id = held s id
  fork_all (s : State) : (closeAll (fork s).2).Perm (closeAll s)
  add_open {s : State} {id id' : Id} {f : φ} : IsOpen s id → IsOpen s id' →
    IsOpen (addFinalizer s id f) id'
  add_held {s : State} {id : Id} {f : φ} : IsOpen s id →
    (held (addFinalizer s id f) id).Perm (f :: held s id)
  add_keeps {s : State} {id id' : Id} {f : φ} : IsOpen s id → id' ≠ id →
    held (addFinalizer s id f) id' = held s id'
  add_all {s : State} {id : Id} {f : φ} : IsOpen s id →
    (closeAll (addFinalizer s id f)).Perm (f :: closeAll s)
  close_runs {s : State} {id : Id} : IsOpen s id → (close s id).1.Perm (held s id)
  close_open {s : State} {id id' : Id} : IsOpen s id → IsOpen s id' → id' ≠ id →
    IsOpen (close s id).2 id'
  close_keeps {s : State} {id id' : Id} : IsOpen s id → id' ≠ id →
    held (close s id).2 id' = held s id'
  close_all {s : State} {id : Id} : IsOpen s id →
    (closeAll s).Perm (held s id ++ closeAll (close s id).2)

variable {φ : Type}

/-- What an open child holds is run when the parent closes. -/
theorem Scopes.held_all (scopes : Scopes φ) {s : scopes.State} {id : scopes.Id}
    (h : scopes.IsOpen s id) {f : φ} (hf : f ∈ scopes.held s id) : f ∈ scopes.closeAll s :=
  (scopes.close_all h).symm.subset (List.mem_append_left _ hf)

/-! ## Scopes as a list -/

/-- The children in the order they were forked, each with its finalizers, the newest
first. A closed child is `none`. -/
abbrev ScopeList (φ : Type) := List (Option (List φ))

namespace ScopeList

def held (s : ScopeList φ) (id : Nat) : List φ := (s[id]?.join).getD []

def closeAll (s : ScopeList φ) : List φ := s.flatMap fun child => child.getD []

def IsOpen (s : ScopeList φ) (id : Nat) : Prop := ∃ child, s[id]? = some (some child)

variable {s : ScopeList φ} {id id' : Nat}

theorem IsOpen.lt (h : s.IsOpen id) : id < s.length := by
  obtain ⟨_, h⟩ := h
  exact (List.getElem?_eq_some_iff.mp h).1

theorem IsOpen.set (h' : s.IsOpen id') (hne : id' ≠ id) (child : Option (List φ)) :
    IsOpen (s.set id child) id' := by
  obtain ⟨held, hget⟩ := h'
  exact ⟨held, by rw [List.getElem?_set_ne (Ne.symm hne), hget]⟩

theorem held_set_ne (hne : id' ≠ id) (child : Option (List φ)) :
    held (s.set id child) id' = held s id' := by
  rw [held, held, List.getElem?_set_ne (Ne.symm hne)]

theorem held_set (h : s.IsOpen id) (child : Option (List φ)) :
    held (s.set id child) id = child.getD [] := by
  rw [held, List.getElem?_set_self h.lt]
  rfl

theorem closeAll_split (h : s.IsOpen id) :
    s.closeAll.Perm (s.held id ++ closeAll (s.eraseIdx id)) := by
  obtain ⟨child, hget⟩ := h
  have hheld : s.held id = child := by rw [held, hget]; rfl
  rw [hheld]
  exact flatMap_perm (fun child => child.getD []) hget

theorem closeAll_set (h : s.IsOpen id) (child : Option (List φ)) :
    (closeAll (s.set id child)).Perm (child.getD [] ++ closeAll (s.eraseIdx id)) :=
  flatMap_set_perm (fun child : Option (List φ) => child.getD []) child h.lt

end ScopeList

/-- Scopes kept in a list. -/
def listScopes (φ : Type) : Scopes φ where
  State := ScopeList φ
  Id := Nat
  opened := []
  fork s := (s.length, s ++ [some []])
  addFinalizer s id f := s.set id (some (f :: s.held id))
  close s id := (s.held id, s.set id none)
  closeAll := ScopeList.closeAll
  held := ScopeList.held
  IsOpen := ScopeList.IsOpen
  opened_all := rfl
  fork_open s := ⟨[], List.getElem?_concat_length⟩
  fork_new s := fun h => absurd h.lt (Nat.lt_irrefl _)
  fork_held s := by
    rw [ScopeList.held, List.getElem?_concat_length]
    rfl
  fork_keeps {s id} h := by
    have hget : (s ++ [some []])[id]? = s[id]? := List.getElem?_append_left h.lt
    obtain ⟨child, hchild⟩ := h
    exact ⟨⟨child, hget.trans hchild⟩, by rw [ScopeList.held, ScopeList.held, hget]⟩
  fork_all s := by
    rw [ScopeList.closeAll, List.flatMap_append]
    exact List.Perm.of_eq (List.append_nil _)
  add_open {s id id' f} h h' := by
    rcases eq_or_ne id' id with rfl | hne
    · exact ⟨_, List.getElem?_set_self h.lt⟩
    · exact h'.set hne _
  add_held h := List.Perm.of_eq (ScopeList.held_set h _)
  add_keeps _ hne := ScopeList.held_set_ne hne _
  add_all h := (ScopeList.closeAll_set h _).trans ((ScopeList.closeAll_split h).symm.cons _)
  close_runs _ := List.Perm.refl _
  close_open _ h' hne := h'.set hne _
  close_keeps _ hne := ScopeList.held_set_ne hne _
  close_all h := (ScopeList.closeAll_split h).trans
    ((ScopeList.closeAll_set h none).symm.append_left _)

end Lib
