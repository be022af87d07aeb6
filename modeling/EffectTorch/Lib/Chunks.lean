import EffectTorch.Lib.Fault

/-!
# Loops over chunks

A loop that goes over rows chunk by chunk; the last chunk may be short.

Results:
1. `rangeLoop_total`, `chunkLoop_total`: what every row preserves, the loop establishes.
2. `chunkLoop_visits`: the loop goes over every row once, in order.
-/

namespace Lib

variable {φ σ : Type}

/-- What every turn preserves, a loop over a range establishes. `P i` holds before turn `i`. -/
theorem rangeLoop_total {turn : σ → Nat → Except φ σ} (P : Nat → σ → Prop) {n : Nat}
    (hturn : ∀ i < n, ∀ s, P i s → ∃ s', turn s i = .ok s' ∧ P (i + 1) s') {s : σ} (hs : P 0 s) :
    ∃ s', (List.range n).foldlM turn s = .ok s' ∧ P n s' := by
  induction n with
  | zero => exact ⟨s, rfl, hs⟩
  | succ n ih =>
    obtain ⟨s₁, hrun, hP⟩ := ih fun i hi => hturn i (Nat.lt_succ_of_lt hi)
    obtain ⟨s₂, hstep, hP'⟩ := hturn n (Nat.lt_succ_self n) s₁ hP
    refine ⟨s₂, ?_, hP'⟩
    rw [List.range_succ, List.foldlM_append, hrun, ok_bind]
    exact bind_ok.mpr ⟨s₂, hstep, rfl⟩

/-- `while offset < rows`, with a loop over the rows of a chunk inside. -/
def chunkLoop (rows chunkLen : Nat) (hpos : 0 < chunkLen) (turn : Nat → Nat → σ → Except φ σ) (offset : Nat)
    (s : σ) : Except φ σ :=
  if offset < rows then do
    let length := min chunkLen (rows - offset)
    let s ← (List.range length).foldlM (fun s localRow => turn offset localRow s) s
    chunkLoop rows chunkLen hpos turn (offset + length) s
  else .ok s
termination_by rows - offset

section Chunks

variable {rows chunkLen : Nat} {hpos : 0 < chunkLen} {turn : Nat → Nat → σ → Except φ σ}

/-- What every row preserves, the loop establishes. `P row` holds before the turn of `row`. -/
theorem chunkLoop_total (P : Nat → σ → Prop)
    (hturn : ∀ offset localRow s, offset + localRow < rows → localRow < chunkLen → P (offset + localRow) s →
      ∃ s', turn offset localRow s = .ok s' ∧ P (offset + localRow + 1) s')
    {offset : Nat} {s : σ} (hle : offset ≤ rows) (hs : P offset s) :
    ∃ s', chunkLoop rows chunkLen hpos turn offset s = .ok s' ∧ P rows s' := by
  induction hleft : rows - offset using Nat.strongRecOn generalizing offset s with
  | ind left ih =>
    rw [chunkLoop]
    split
    · next hlt =>
      have hlength : min chunkLen (rows - offset) ≤ rows - offset := Nat.min_le_right ..
      obtain ⟨s₁, hrun, hP⟩ : ∃ s', (List.range (min chunkLen (rows - offset))).foldlM
          (fun s localRow => turn offset localRow s) s = .ok s' ∧ P (offset + min chunkLen (rows - offset)) s' := by
        refine rangeLoop_total (fun n s => P (offset + n) s) (fun n hn s hs => ?_) hs
        have hn' := Nat.lt_min.mp hn
        exact hturn offset n s (Nat.add_lt_of_lt_sub' hn'.2) hn'.1 hs
      have hpositive : 0 < min chunkLen (rows - offset) := Nat.lt_min.mpr ⟨hpos, Nat.sub_pos_of_lt hlt⟩
      obtain ⟨s₂, hrest, hP'⟩ := ih (rows - (offset + min chunkLen (rows - offset))) (by omega) (by omega) hP rfl
      exact ⟨s₂, bind_ok.mpr ⟨s₁, hrun, hrest⟩, hP'⟩
    · next hge =>
      obtain rfl : offset = rows := Nat.le_antisymm hle (Nat.not_lt.mp hge)
      exact ⟨s, rfl, hs⟩

/-- The loop goes over every row once, in order. -/
theorem chunkLoop_visits (rows : Nat) (hpos : 0 < chunkLen) :
    chunkLoop (φ := φ) rows chunkLen hpos (fun offset localRow visited => .ok (visited ++ [offset + localRow])) 0 [] =
      .ok (List.range rows) := by
  obtain ⟨visited, hrun, rfl⟩ : ∃ visited, chunkLoop (φ := φ) rows chunkLen hpos
      (fun offset localRow visited => .ok (visited ++ [offset + localRow])) 0 [] = .ok visited ∧ visited = List.range rows :=
    chunkLoop_total (fun row visited => visited = List.range row)
      (fun offset localRow visited _ _ hvisited => ⟨_, rfl, by rw [hvisited, List.range_succ]⟩) (Nat.zero_le rows) rfl
  exact hrun

end Chunks

end Lib
