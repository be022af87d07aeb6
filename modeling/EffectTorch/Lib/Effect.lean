/-!
# Effects

A program over worlds ends with a value or with the cause of a failure, and it leaves a
world either way. `wp program post fails w` says that from the world `w` the program ends
with a value and a world in `post`, or fails with a cause and a world in `fails`.

Results:
1. `wp_bind`, `wp_onExit`: sequencing, and what runs whatever the exit.
2. `wp_mono`: weakening.
-/

namespace Lib

/-- A program over the worlds `W`. -/
abbrev Effect (W ε α : Type) := ExceptT ε (StateM W) α

variable {W ε α β : Type}

namespace Effect

/-- The exit of the program and the world it leaves. -/
def exec (program : Effect W ε α) (w : W) : Except ε α × W := program w

def fail (cause : ε) : Effect W ε α := fun w => (.error cause, w)

/-- A step of the world, with its exit. -/
def step (f : W → Except ε α × W) : Effect W ε α := f

/-- `Effect.onExit`: the cleanup runs whatever the exit of the program is. -/
def onExit (program : Effect W ε α) (cleanup : Effect W ε Unit) : Effect W ε α := fun w =>
  match program.exec w with
  | (.error cause, w) => (.error cause, (cleanup.exec w).2)
  | (.ok a, w) =>
    match cleanup.exec w with
    | (.error cause, w) => (.error cause, w)
    | (.ok _, w) => (.ok a, w)

def wp (program : Effect W ε α) (post : α → W → Prop) (fails : ε → W → Prop) (w : W) : Prop :=
  match program.exec w with
  | (.ok a, w') => post a w'
  | (.error cause, w') => fails cause w'

variable {post : β → W → Prop} {fails : ε → W → Prop} {w : W}

theorem wp_step {f : W → Except ε β × W} :
    wp (step f) post fails w ↔
      (∀ a w', f w = (.ok a, w') → post a w') ∧ ∀ cause w', f w = (.error cause, w') → fails cause w' := by
  unfold wp step exec
  rcases f w with ⟨_ | _, w'⟩
  · simp
  · simp

theorem wp_mono {program : Effect W ε β} {post' : β → W → Prop} {fails' : ε → W → Prop}
    (h : wp program post' fails' w) (hpost : ∀ a w', post' a w' → post a w')
    (hfails : ∀ cause w', fails' cause w' → fails cause w') : wp program post fails w := by
  unfold wp at h ⊢
  generalize program.exec w = exit at h ⊢
  rcases exit with ⟨_ | _, w'⟩
  · exact hfails _ _ h
  · exact hpost _ _ h

theorem wp_bind {program : Effect W ε α} {next : α → Effect W ε β}
    (h : wp program (fun a w' => wp (next a) post fails w') fails w) :
    wp (program >>= next) post fails w := by
  have hexec : (program >>= next).exec w = match program.exec w with
      | (.ok a, w') => (next a).exec w'
      | (.error cause, w') => (.error cause, w') := by
    change (match program.exec w with
      | (exit, w') => ExceptT.bindCont next exit w') = _
    rcases program.exec w with ⟨_ | _, w'⟩ <;> rfl
  unfold wp at h ⊢
  rw [hexec]
  generalize program.exec w = exit at h ⊢
  rcases exit with ⟨_ | _, w'⟩
  · exact h
  · exact h

theorem wp_onExit {program : Effect W ε β} {cleanup : Effect W ε Unit}
    (h : wp program (fun a w' => wp cleanup (fun _ => post a) fails w')
      (fun cause w' => wp cleanup (fun _ => fails cause) (fun _ => fails cause) w') w) :
    wp (program.onExit cleanup) post fails w := by
  have hexec : (program.onExit cleanup).exec w = match program.exec w with
      | (.error cause, w) => (.error cause, (cleanup.exec w).2)
      | (.ok a, w) => match cleanup.exec w with
        | (.error cause, w) => (.error cause, w)
        | (.ok _, w) => (.ok a, w) := rfl
  unfold wp at h ⊢
  rw [hexec]
  generalize program.exec w = exit at h ⊢
  rcases exit with ⟨_ | _, w'⟩
  · dsimp only at h ⊢
    generalize cleanup.exec w' = closed at h ⊢
    rcases closed with ⟨_ | _, w''⟩
    · exact h
    · exact h
  · dsimp only at h ⊢
    generalize cleanup.exec w' = closed at h ⊢
    rcases closed with ⟨_ | _, w''⟩
    · exact h
    · exact h

end Effect

end Lib
