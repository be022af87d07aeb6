import EffectTorch.Runtime.SampleLogits

/-!
# Sampling follows the reported distribution

Each path of `sample_logits` draws from a list of candidates with weights; the
probabilities that `effective_probabilities` reports are the shares of the same weights,
whatever the order in which the path visits them.

Results:
1. `retain_ok`: top-p keeps the shortest prefix that reaches its threshold.
2. `sampleFiltered_ok`, `sampleUnfiltered_ok`: what each
   function returns on a row of finite logits.
3. `sampleLogits_interval`: the draws that return a token make up an interval as long as
   the probability reported for it.
-/

namespace EffectTorch.Sampling
open List Lib

variable {K : Type}

/-- The polls of a caller that does not cancel. -/
def neverAborted (_ : Poll) : Bool := false

@[simp] theorem pollTurn_never (index : Nat) (poll : Poll) :
    pollTurn (K := K) neverAborted index poll = .ok () :=
  rejectIf_ok.mpr fun h => Bool.noConfusion h.2

theorem rejectIf_never (poll : Poll) :
    rejectIf (neverAborted poll = true) (SamplingError.aborted (K := K)) = .ok () :=
  rejectIf_ok.mpr Bool.false_ne_true

/-! ## Scans -/

section Scans

variable {σ : Type} {g : σ → K × Nat → σ} {values : List K} {logits : List (Option K)}

@[simp] theorem scanLogit_some (value : K) (token : Nat) :
    scanLogit neverAborted (some value, token) = .ok value := by
  rw [scanLogit, pollTurn_never, ok_bind, okOr_some]

@[simp] theorem scanLogit_none (token : Nat) :
    scanLogit (K := K) neverAborted (none, token) = .error (.error (.notFinite token)) := by
  rw [scanLogit, pollTurn_never, ok_bind, okOr_none]
  rfl

/-- A scan of finite logits visits their values. -/
theorem foldlM_scan_finite (first : Nat) (s : σ) :
    ((values.map some).zipIdx first).foldlM (fun s entry => do
      let value ← scanLogit neverAborted entry
      return g s (value, entry.2)) s = .ok ((values.zipIdx first).foldl g s) := by
  induction values generalizing first s with
  | nil => rfl
  | cons v values ih =>
    rw [map_cons, zipIdx_cons, foldlM_cons, scanLogit_some, ok_bind]
    exact ih (first + 1) (g s (v, first))

/-- A scan stops at the first logit that is not finite. -/
theorem foldlM_scan_notFinite {token : Nat} (hnone : logits[token]? = some none)
    (hfirst : ∀ earlier < token, logits[earlier]? ≠ some none) (first : Nat) (s : σ) :
    (logits.zipIdx first).foldlM (fun s entry => do
      let value ← scanLogit neverAborted entry
      return g s (value, entry.2)) s = .error (.error (.notFinite (first + token))) := by
  induction logits generalizing token first s with
  | nil => cases hnone
  | cons logit logits ih =>
    rw [zipIdx_cons, foldlM_cons]
    cases token with
    | zero =>
      obtain rfl : logit = none := Option.some.inj hnone
      rw [scanLogit_none]
      rfl
    | succ token =>
      cases logit with
      | none => exact absurd rfl (hfirst 0 (Nat.succ_pos token))
      | some v =>
        rw [scanLogit_some, ok_bind]
        have hrest : ∀ earlier < token, logits[earlier]? ≠ some none := fun earlier h =>
          hfirst (earlier + 1) (Nat.succ_lt_succ h)
        refine (ih hnone hrest (first + 1) (g s (v, first))).trans ?_
        rw [Nat.succ_add_eq_add_succ]

end Scans

section Greedy

variable [LinearOrder K] {values : List K}

theorem foldl_greedy_lt {n : Nat} (entries : List (K × Nat)) (hbelow : ∀ e ∈ entries, e.2 < n)
    (state : Nat × Option K) (hstate : state.1 < n) :
    (entries.foldl (fun state entry =>
      if exceeds entry.1 state.2 then (entry.2, some entry.1) else state) state).1 < n := by
  induction entries generalizing state with
  | nil => exact hstate
  | cons e entries ih =>
    obtain ⟨he, hrest⟩ := forall_mem_cons.mp hbelow
    refine ih hrest _ ?_
    dsimp only
    split
    · exact he
    · exact hstate

/-- The greedy path returns a token of the vocabulary. -/
theorem sampleGreedy_ok (hne : values ≠ []) :
    ∃ token < values.length, sampleGreedy neverAborted (values.map some) = .ok token := by
  refine ⟨_, foldl_greedy_lt values.zipIdx (fun e he => ?_) (0, none)
    (length_pos_of_ne_nil hne), ?_⟩
  · have h := mk_mem_zipIdx_iff_getElem?.mp he
    exact (List.getElem?_eq_some_iff.mp h).1
  · exact bind_ok.mpr ⟨_, foldlM_scan_finite (g := fun (state : Nat × Option K) entry =>
      if exceeds entry.1 state.2 then (entry.2, some entry.1) else state) 0 (0, none), rfl⟩

/-- The larger of what was found so far and the next logit. -/
def betterLogit (best : Option K) (entry : K × Nat) : Option K :=
  match best with
  | none => some entry.1
  | some best => some (max best entry.1)

/-- The scan for the maximum finds it. -/
theorem maxLogit_ok (hne : values ≠ []) :
    ∃ best ∈ values, (∀ v ∈ values, v ≤ best) ∧
      maxLogit neverAborted (values.map some) = .ok (some best) := by
  have hfold : ∀ (values : List K) (first : Nat) (best : K), ∃ best' ∈ best :: values,
      (∀ v ∈ best :: values, v ≤ best') ∧
      (values.zipIdx first).foldl betterLogit (some best) = some best' := by
    intro values
    induction values with
    | nil => exact fun _ best => ⟨best, mem_cons_self, by simp, rfl⟩
    | cons v values ih =>
      intro first best
      obtain ⟨best', hmem, hmax, hfold⟩ := ih (first + 1) (max best v)
      obtain ⟨hnew, hrest⟩ := forall_mem_cons.mp hmax
      refine ⟨best', ?_, ?_, hfold⟩
      · rcases mem_cons.mp hmem with rfl | hmem
        · rcases max_choice best v with h | h
          · rw [h]
            exact mem_cons_self
          · rw [h]
            exact mem_cons_of_mem _ mem_cons_self
        · exact mem_cons_of_mem _ (mem_cons_of_mem _ hmem)
      · refine forall_mem_cons.mpr ⟨le_trans (le_max_left _ _) hnew,
          forall_mem_cons.mpr ⟨le_trans (le_max_right _ _) hnew, hrest⟩⟩
  cases values with
  | nil => exact absurd rfl hne
  | cons v values =>
    obtain ⟨best, hmem, hmax, hbest⟩ := hfold values 1 v
    refine ⟨best, hmem, hmax, ?_⟩
    rw [← hbest]
    exact foldlM_scan_finite (g := betterLogit) 0 none

end Greedy

/-! ## Candidates -/

section Candidates

variable {values : List K}

/-- The candidates of a row of finite logits. -/
def candidates (values : List K) : List (Candidate K) :=
  values.zipIdx.map fun entry => ⟨entry.2, entry.1⟩

theorem scanCandidates_ok :
    scanCandidates neverAborted (values.map some) = .ok (candidates values) := by
  have hfold : ∀ (entries : List (K × Nat)) (done : List (Candidate K)),
      entries.foldl (fun done entry => done ++ [⟨entry.2, entry.1⟩]) done =
        done ++ entries.map fun entry => (⟨entry.2, entry.1⟩ : Candidate K) := by
    intro entries
    induction entries with
    | nil => simp
    | cons e entries ih => simp [ih]
  refine (foldlM_scan_finite (g := fun (done : List (Candidate K)) (entry : K × Nat) =>
    done ++ [⟨entry.2, entry.1⟩]) 0 []).trans ?_
  rw [hfold, nil_append, candidates]

theorem getElem?_candidates {i : Nat} :
    (candidates values)[i]? = values[i]?.map fun v => ⟨i, v⟩ := by
  simp [candidates, List.getElem?_zipIdx, Function.comp_def]

theorem mem_candidates {c : Candidate K} : c ∈ candidates values ↔ values[c.token]? = some c.value := by
  rw [mem_iff_getElem?]
  simp only [getElem?_candidates, Option.map_eq_some_iff]
  constructor
  · rintro ⟨i, v, hv, rfl⟩
    exact hv
  · exact fun h => ⟨c.token, c.value, h, rfl⟩

/-- Every token has one candidate. -/
theorem tokens_candidates : (candidates values).map (·.token) = List.range values.length := by
  rw [candidates, map_map]
  exact ext_getElem (by simp) (by simp)

end Candidates

/-! ## Weights -/

section Weights

variable [Field K] {exp : K → K} {temperature : K}

/-- The weight of a value below the largest one. -/
def weightOf (exp : K → K) (temperature best : K) (c : Candidate K) : Candidate K :=
  ⟨c.token, exp ((c.value - best) / temperature)⟩

/-- The sum of the values of a list of candidates. -/
def mass (kept : List (Candidate K)) : K :=
  (kept.map (·.value)).sum

@[simp] theorem mass_cons (c : Candidate K) (kept : List (Candidate K)) :
    mass (c :: kept) = c.value + mass kept := rfl

theorem weigh_ok {first : Candidate K} {rest : List (Candidate K)} :
    weigh exp neverAborted temperature (first :: rest) =
      .ok ((first :: rest).map (weightOf exp temperature first.value),
        mass ((first :: rest).map (weightOf exp temperature first.value))) := by
  have hfold : ∀ (l : List (Candidate K)) (i : Nat) (done : List (Candidate K)) (total : K),
      (l.zipIdx i).foldlM (fun (state : List (Candidate K) × K) entry => do
        pollTurn neverAborted entry.2 (.weigh entry.2)
        let value := exp ((entry.1.value - first.value) / temperature)
        return (state.1 ++ [⟨entry.1.token, value⟩], state.2 + value)) (done, total) =
      (.ok (done ++ l.map (weightOf exp temperature first.value),
        total + mass (l.map (weightOf exp temperature first.value))) :
        Fallible (SamplingError K) _) := by
    intro l
    induction l with
    | nil =>
      intro i done total
      simp only [zipIdx_nil, foldlM_nil, map_nil, append_nil, mass,
        sum_nil, add_zero]
      rfl
    | cons c l ih =>
      intro i done total
      rw [zipIdx_cons, foldlM_cons, pollTurn_never, ok_bind]
      refine (ih (i + 1) _ _).trans ?_
      rw [map_cons, mass_cons, append_assoc, ← add_assoc]
      rfl
  refine (hfold (first :: rest) 0 [] 0).trans ?_
  rw [nil_append, zero_add]

variable [LinearOrder K]

/-- The draws of the code are those of `pick`. -/
theorem drawLoop_ok (weights : List K) (index : Nat) (draw : K) :
    drawLoop neverAborted weights index draw = .ok ((pick weights draw).map (index + ·)) := by
  induction weights generalizing index draw with
  | nil => rfl
  | cons w weights ih =>
    rw [drawLoop, pollTurn_never, ok_bind, pick]
    split
    · rfl
    · rw [ih, Option.map_map]
      refine congrArg _ (congrFun (congrArg _ (funext fun i => ?_)) _)
      exact Nat.succ_add_eq_add_succ index i

/-- The prefix that the loop over the running total stops at is the first one that
reaches the threshold. -/
theorem crossing_ok {threshold : K} (l : List (Candidate K)) (index : Nat) (cumulative : K) :
    (∃ r, 0 < r ∧ r ≤ l.length ∧ threshold ≤ cumulative + mass (l.take r) ∧
      (∀ r' < r, 0 < r' → cumulative + mass (l.take r') < threshold) ∧
      crossing neverAborted threshold l index cumulative =
        .ok (some (index + r, cumulative + mass (l.take r)))) ∨
    ((∀ r, 0 < r → r ≤ l.length → cumulative + mass (l.take r) < threshold) ∧
      crossing neverAborted threshold l index cumulative = .ok none) := by
  induction l generalizing index cumulative with
  | nil => exact .inr ⟨fun r hr hle => absurd hle (Nat.not_le_of_gt hr), rfl⟩
  | cons c l ih =>
    have hstep : ∀ r, cumulative + mass ((c :: l).take (r + 1)) =
        cumulative + c.value + mass (l.take r) := fun r => by
      rw [take_succ_cons, mass_cons, add_assoc]
    rw [crossing, pollTurn_never, ok_bind]
    split
    · next hreached =>
      refine .inl ⟨1, Nat.one_pos, Nat.succ_le_succ (Nat.zero_le _), ?_, ?_, ?_⟩
      · rw [hstep 0, take_zero, mass, map_nil, sum_nil, add_zero]
        exact hreached
      · exact fun r' hlt hpos => absurd hpos (Nat.not_lt_of_le (Nat.le_of_lt_succ hlt))
      · rw [hstep 0, take_zero, mass, map_nil, sum_nil, add_zero]
        rfl
    · next hbelow =>
      have hone : cumulative + mass ((c :: l).take 1) < threshold := by
        rw [hstep 0, take_zero, mass, map_nil, sum_nil, add_zero]
        exact not_le.mp hbelow
      rcases ih (index + 1) (cumulative + c.value) with ⟨r, hpos, hle, hreach, hmin, heq⟩ | ⟨hnone, heq⟩
      · refine .inl ⟨r + 1, Nat.succ_pos r, Nat.succ_le_succ hle, ?_, fun r' hlt hpos' => ?_, ?_⟩
        · rw [hstep]
          exact hreach
        · rcases Nat.exists_eq_add_of_lt hpos' with ⟨k, rfl⟩
          rw [Nat.zero_add]
          rcases Nat.eq_zero_or_pos k with rfl | hk
          · exact hone
          · rw [hstep]
            exact hmin k (by simpa using hlt) hk
        · rw [heq, hstep, Nat.succ_add_eq_add_succ]
      · refine .inr ⟨fun r hpos hle => ?_, heq⟩
        rcases Nat.exists_eq_add_of_lt hpos with ⟨k, rfl⟩
        rw [Nat.zero_add]
        rcases Nat.eq_zero_or_pos k with rfl | hk
        · exact hone
        · rw [hstep]
          exact hnone k hk (by simpa using hle)

variable [IsStrictOrderedRing K]

/-- Top-p keeps the shortest prefix that reaches its share of the mass. -/
theorem retain_ok {topP : K} {l : List (Candidate K)} (hne : l ≠ []) (hmass : 0 ≤ mass l) :
    ∃ r, 0 < r ∧ r ≤ l.length ∧
      retain neverAborted topP l (mass l) = .ok (r, mass (l.take r)) ∧
      (topP < 1 → topP * mass l ≤ mass (l.take r) ∧
        ∀ r' < r, 0 < r' → mass (l.take r') < topP * mass l) ∧
      (¬ topP < 1 → r = l.length) := by
  have hlen : 0 < l.length := length_pos_of_ne_nil hne
  unfold retain
  by_cases htop : topP < 1
  · have hreached : topP * mass l ≤ mass l := mul_le_of_le_one_left hmass htop.le
    rw [if_pos htop]
    have hcrossing := @crossing_ok K _ _ (topP * mass l) l 0 0
    rcases hcrossing with ⟨r, hpos, hle, hreach, hmin, heq⟩ | ⟨hnone, _⟩
    · simp only [zero_add] at hreach hmin
      refine ⟨r, hpos, hle, ?_, fun _ => ⟨hreach, hmin⟩, absurd htop⟩
      rw [heq, ok_bind, Nat.zero_add, zero_add]
      rfl
    · have hall := hnone l.length hlen (Nat.le_refl _)
      rw [take_length, zero_add] at hall
      exact absurd hreached (not_le_of_gt hall)
  · rw [if_neg htop]
    exact ⟨l.length, hlen, Nat.le_refl _, by rw [take_length]; rfl, fun h => absurd h htop,
      fun _ => rfl⟩

end Weights

/-! ## Shares -/

section Shares

variable {kept : List (Candidate K)}

theorem find?_token (hnodup : (kept.map (·.token)).Nodup) {c : Candidate K} (hc : c ∈ kept) :
    (kept.find? fun c' => c'.token = c.token) = some c := by
  induction kept with
  | nil => exact absurd hc not_mem_nil
  | cons head kept ih =>
    rw [map_cons, nodup_cons] at hnodup
    rcases mem_cons.mp hc with rfl | hc
    · simp
    · have hne : head.token ≠ c.token := fun h =>
        hnodup.1 (h ▸ mem_map_of_mem (f := fun c => c.token) hc)
      rw [List.find?_cons_of_neg (by simpa using hne)]
      exact ih hnodup.2 hc

variable [Field K]

/-- The weight of a token, zero for a token that is not kept. -/
def massOf (kept : List (Candidate K)) (token : Nat) : K :=
  ((kept.find? fun c => c.token = token).map (·.value)).getD 0

theorem massOf_mem (hnodup : (kept.map (·.token)).Nodup) {c : Candidate K} (hc : c ∈ kept) :
    massOf kept c.token = c.value := by
  rw [massOf, find?_token hnodup hc]
  rfl

theorem massOf_absent {token : Nat} (h : ∀ c ∈ kept, c.token ≠ token) : massOf kept token = 0 := by
  rw [massOf, List.find?_eq_none.mpr fun c hc => by simpa using h c hc]
  rfl

/-- The shares do not depend on the order of the candidates. -/
theorem massOf_perm {kept' : List (Candidate K)} (h : kept.Perm kept')
    (hnodup : (kept.map (·.token)).Nodup) (token : Nat) :
    massOf kept token = massOf kept' token := by
  by_cases hmem : ∃ c ∈ kept, c.token = token
  · obtain ⟨c, hc, rfl⟩ := hmem
    rw [massOf_mem hnodup hc, massOf_mem ((h.map _).nodup_iff.mp hnodup) (h.mem_iff.mp hc)]
  · have habsent : ∀ c ∈ kept, c.token ≠ token := fun c hc heq => hmem ⟨c, hc, heq⟩
    rw [massOf_absent habsent, massOf_absent fun c hc => habsent c (h.mem_iff.mpr hc)]

theorem mass_perm {kept' : List (Candidate K)} (h : kept.Perm kept') : mass kept = mass kept' :=
  (h.map _).sum_eq

/-- The row that gives each kept token its share. -/
def spread (length : Nat) (kept : List (Candidate K)) (total : K) : List K :=
  kept.foldl (fun (probabilities : List K) candidate =>
    probabilities.set candidate.token (candidate.value / total)) (List.replicate length 0)

theorem foldl_set_getElem? (hnodup : (kept.map (·.token)).Nodup) (total : K) (row : List K)
    (token : Nat) :
    (kept.foldl (fun (probabilities : List K) candidate =>
      probabilities.set candidate.token (candidate.value / total)) row)[token]? =
    row[token]?.map fun old =>
      ((kept.find? fun c => c.token = token).map fun c => c.value / total).getD old := by
  induction kept generalizing row with
  | nil => simp
  | cons head kept ih =>
    rw [map_cons, nodup_cons] at hnodup
    rw [foldl_cons, ih hnodup.2]
    by_cases htoken : head.token = token
    · have habsent : (kept.find? fun c => c.token = token) = none :=
        List.find?_eq_none.mpr fun c hc => by
          rw [decide_eq_true_eq]
          exact fun h => hnodup.1 (htoken.trans h.symm ▸ mem_map_of_mem (f := fun c => c.token) hc)
      rw [habsent, List.find?_cons_of_pos (by simpa using htoken), ← htoken, List.getElem?_set]
      by_cases hlt : head.token < row.length
      · simp [hlt]
      · simp [hlt]
    · rw [List.find?_cons_of_neg (by simpa using htoken), List.getElem?_set_ne htoken]

theorem spread_getElem? (hnodup : (kept.map (·.token)).Nodup) {length token : Nat} {total p : K}
    (h : (spread length kept total)[token]? = some p) :
    token < length ∧ p = massOf kept token / total := by
  rw [spread, foldl_set_getElem? hnodup, Option.map_eq_some_iff] at h
  obtain ⟨old, hold, rfl⟩ := h
  obtain ⟨hlt, rfl⟩ := List.getElem?_eq_some_iff.mp hold
  rw [length_replicate] at hlt
  refine ⟨hlt, ?_⟩
  rw [getElem_replicate, massOf]
  cases kept.find? fun c => c.token = token with
  | none => simp
  | some c => rfl

theorem getElem?_spread (hnodup : (kept.map (·.token)).Nodup) {length token : Nat} {total : K}
    (hlt : token < length) :
    (spread length kept total)[token]? = some (massOf kept token / total) := by
  have hget : ∃ p, (spread length kept total)[token]? = some p := by
    rw [spread, foldl_set_getElem? hnodup]
    simp [hlt]
  obtain ⟨p, hp⟩ := hget
  rw [hp, (spread_getElem? hnodup hp).2]

end Shares

/-! ## The draws that return a token -/

section Draws

variable [Field K] [LinearOrder K]

/-- A list of weighted candidates to draw from: positive weights, a token at most once. -/
structure Kept (length : Nat) (kept : List (Candidate K)) : Prop where
  nonempty : kept ≠ []
  positive : ∀ c ∈ kept, 0 < c.value
  nodup : (kept.map (·.token)).Nodup
  below : ∀ c ∈ kept, c.token < length

/-- Every draw of the sampler picks a candidate of the list by its share of the mass. -/
def DrawsFrom (kept : List (Candidate K)) (sample : K → Fallible (SamplingError K) Nat) : Prop :=
  ∀ u, 0 ≤ u → u < 1 → ∃ i c, pick (kept.map (·.value)) (u * mass kept) = some i ∧
    kept[i]? = some c ∧ sample u = .ok c.token

variable {length : Nat} {kept : List (Candidate K)} {sample : K → Fallible (SamplingError K) Nat}

theorem Kept.nonneg (h : Kept length kept) : ∀ w ∈ kept.map (·.value), 0 ≤ w := by
  intro w hw
  obtain ⟨c, hc, rfl⟩ := mem_map.mp hw
  exact (h.positive c hc).le

variable [IsStrictOrderedRing K]

theorem Kept.mass_pos (h : Kept length kept) : 0 < mass kept := by
  refine List.sum_pos _ (fun w hw => ?_) (by simpa using h.nonempty)
  obtain ⟨c, hc, rfl⟩ := mem_map.mp hw
  exact h.positive c hc

/-- A draw in the unit interval picks a candidate. -/
theorem Kept.pick (h : Kept length kept) {u : K} (hu : 0 ≤ u) (hlt : u < 1) :
    ∃ i c, Lib.pick (kept.map (·.value)) (u * mass kept) = some i ∧ kept[i]? = some c := by
  obtain ⟨i, w, hpick, hw, _⟩ := pick_returns h.nonneg (mul_nonneg hu h.mass_pos.le)
    (mul_lt_of_lt_one_left h.mass_pos hlt)
  rw [List.getElem?_map, Option.map_eq_some_iff] at hw
  obtain ⟨c, hc, _⟩ := hw
  exact ⟨i, c, hpick, hc⟩

/-- The draws that return a token make up an interval as long as its share. -/
theorem DrawsFrom.interval (h : DrawsFrom kept sample) (hkept : Kept length kept) (token : Nat) :
    ∃ a, 0 ≤ a ∧ a + massOf kept token / mass kept ≤ 1 ∧ ∀ u, 0 ≤ u → u < 1 →
      (sample u = .ok token ↔ a ≤ u ∧ u < a + massOf kept token / mass kept) := by
  by_cases hmem : ∃ c ∈ kept, c.token = token
  · obtain ⟨c, hc, rfl⟩ := hmem
    obtain ⟨i, hi⟩ := mem_iff_getElem?.mp hc
    have hweight : (kept.map (·.value))[i]? = some c.value := by
      rw [List.getElem?_map, hi]
      rfl
    rw [massOf_mem hkept.nodup hc]
    refine ⟨massBefore (kept.map (·.value)) i / mass kept,
      div_nonneg (massBefore_nonneg hkept.nonneg i) hkept.mass_pos.le, ?_, fun u hu hlt => ?_⟩
    · rw [← add_div, div_le_one hkept.mass_pos]
      exact massBefore_add_le hkept.nonneg hweight
    · refine Iff.trans ?_ (pick_unit hkept.nonneg hkept.mass_pos hweight hu)
      obtain ⟨j, c', hpick, hj, hsample⟩ := h u hu hlt
      change _ ↔ pick (kept.map (·.value)) (u * mass kept) = some i
      rw [hsample, hpick, Except.ok.injEq, Option.some_inj]
      constructor
      · -- a token stands at one place
        intro htoken
        have hji : (kept.map (·.token))[j]? = (kept.map (·.token))[i]? := by
          rw [List.getElem?_map, List.getElem?_map, hi, hj]
          exact congrArg some htoken
        have hlt : j < (kept.map (·.token)).length := by
          rw [length_map]
          exact (List.getElem?_eq_some_iff.mp hj).1
        exact (List.getElem?_inj hlt hkept.nodup).mp hji
      · rintro rfl
        rw [Option.some.inj (hj.symm.trans hi)]
  · have habsent : ∀ c ∈ kept, c.token ≠ token := fun c hc heq => hmem ⟨c, hc, heq⟩
    rw [massOf_absent habsent, zero_div]
    refine ⟨0, le_refl _, by rw [add_zero]; exact zero_le_one, fun u hu hlt => ?_⟩
    rw [add_zero]
    refine iff_of_false (fun hsample => ?_) fun ⟨hge, hlt'⟩ => absurd hge (not_le_of_gt hlt')
    obtain ⟨i, c, _, hc, hreturn⟩ := h u hu hlt
    exact habsent c (mem_of_getElem? hc) (Except.ok.inj (hreturn.symm.trans hsample))

/-- No draw returns a token of share zero. -/
theorem DrawsFrom.positive (h : DrawsFrom kept sample) (hkept : Kept length kept) {u : K}
    (hu : 0 ≤ u) (hlt : u < 1) :
    ∃ token < length, sample u = .ok token ∧ 0 < massOf kept token / mass kept := by
  obtain ⟨i, c, _, hc, hreturn⟩ := h u hu hlt
  have hmem := mem_of_getElem? hc
  refine ⟨c.token, hkept.below c hmem, hreturn, ?_⟩
  rw [massOf_mem hkept.nodup hmem]
  exact div_pos (hkept.positive c hmem) hkept.mass_pos

end Draws

/-! ## Ranking -/

section Ranking

variable [LinearOrder K]

theorem descending_total (c c' : Candidate K) : (descending c c' || descending c' c) = true := by
  simp only [descending, Bool.or_eq_true, decide_eq_true_eq]
  rcases lt_trichotomy c.value c'.value with h | h | h
  · exact .inr (.inl h)
  · rcases Nat.le_total c.token c'.token with ht | ht
    · exact .inl (.inr ⟨h, ht⟩)
    · exact .inr (.inr ⟨h.symm, ht⟩)
  · exact .inl (.inl h)

theorem descending_trans (c c' c'' : Candidate K) (h : descending c c' = true)
    (h' : descending c' c'' = true) : descending c c'' = true := by
  simp only [descending, decide_eq_true_eq] at *
  rcases h with h | ⟨heq, hle⟩
  · rcases h' with h' | ⟨heq', _⟩
    · exact .inl (lt_trans h' h)
    · exact .inl (heq' ▸ h)
  · rcases h' with h' | ⟨heq', hle'⟩
    · exact .inl (heq ▸ h')
    · exact .inr ⟨heq.trans heq', Nat.le_trans hle hle'⟩

/-- The candidates that top-k leaves, in descending order. -/
def ranked (topK : Option Nat) (values : List K) : List (Candidate K) :=
  (truncateTopK topK (candidates values)).mergeSort descending

variable {values : List K} {topK : Option Nat}

theorem mem_ranked {c : Candidate K} (hc : c ∈ ranked topK values) : c ∈ candidates values := by
  rw [ranked, mem_mergeSort] at hc
  cases topK with
  | none => exact hc
  | some k => exact mem_mergeSort.mp (mem_of_mem_take hc)

theorem nodup_ranked : ((ranked topK values).map (·.token)).Nodup := by
  have hall : ((candidates values).map (·.token)).Nodup := by
    rw [tokens_candidates]
    exact nodup_range
  refine ((mergeSort_perm _ _).map _).nodup_iff.mpr ?_
  cases topK with
  | none => exact hall
  | some k =>
    have hsorted := ((mergeSort_perm (candidates values) descending).map (·.token)).nodup_iff.mpr hall
    exact hsorted.sublist ((take_sublist k _).map _)

theorem ranked_ne_nil (hne : values ≠ []) (hk : ∀ k ∈ topK, 0 < k) : ranked topK values ≠ [] := by
  have hlen : 0 < (candidates values).length := by
    simpa [candidates] using length_pos_of_ne_nil hne
  refine ne_nil_of_length_pos ?_
  rw [ranked, length_mergeSort]
  cases topK with
  | none => exact hlen
  | some k =>
    rw [truncateTopK, length_take, length_mergeSort]
    exact Nat.lt_min.mpr ⟨hk k rfl, hlen⟩

/-- The first ranked candidate has the largest value. -/
theorem head_ranked {first : Candidate K} {rest : List (Candidate K)}
    (h : ranked none values = first :: rest) : first.value ∈ values ∧ ∀ v ∈ values, v ≤ first.value := by
  have hsorted : (ranked none values).Pairwise fun c c' => descending c c' = true :=
    pairwise_mergeSort descending_trans descending_total _
  have hfirst : first ∈ candidates values := mem_ranked (h ▸ mem_cons_self)
  refine ⟨mem_of_getElem? (mem_candidates.mp hfirst), fun v hv => ?_⟩
  obtain ⟨i, hi⟩ := mem_iff_getElem?.mp hv
  have hc : (⟨i, v⟩ : Candidate K) ∈ first :: rest := by
    rw [← h, ranked, mem_mergeSort]
    exact mem_candidates.mpr hi
  rw [h, pairwise_cons] at hsorted
  rcases mem_cons.mp hc with rfl | hc
  · exact le_refl _
  · have hbefore := hsorted.1 _ hc
    simp only [descending, decide_eq_true_eq] at hbefore
    rcases hbefore with hlt | ⟨heq, _⟩
    · exact hlt.le
    · exact heq.ge

/-- A prefix of the ranked candidates with their weights can be drawn from. -/
theorem kept_ranked [Field K] {exp : K → K} (hexp : ∀ x, 0 < exp x) {temperature best : K} {r : Nat}
    (hr : 0 < r) (hne : ranked topK values ≠ []) :
    Kept values.length
      (((ranked topK values).map (weightOf exp temperature best)).take r) := by
  refine ⟨?_, fun c hc => ?_, ?_, fun c hc => ?_⟩
  · refine ne_nil_of_length_pos ?_
    rw [length_take, length_map]
    exact Nat.lt_min.mpr ⟨hr, length_pos_of_ne_nil hne⟩
  · obtain ⟨c', _, rfl⟩ := mem_map.mp (mem_of_mem_take hc)
    exact hexp _
  · rw [← map_take, map_map]
    exact nodup_ranked.sublist ((take_sublist r _).map _)
  · obtain ⟨c', hc', rfl⟩ := mem_map.mp (mem_of_mem_take hc)
    exact (List.getElem?_eq_some_iff.mp (mem_candidates.mp (mem_ranked hc'))).1

end Ranking

/-! ## The paths -/

section Paths

variable [Field K] [LinearOrder K] {exp : K → K} {values : List K} {options : SamplingOptions K}

theorem Kept.perm {length : Nat} {kept kept' : List (Candidate K)} (h : Kept length kept)
    (hperm : kept.Perm kept') : Kept length kept' :=
  ⟨fun hnil => h.nonempty (perm_nil.mp (hnil ▸ hperm)),
    fun c hc => h.positive c (hperm.mem_iff.mpr hc), (hperm.map _).nodup_iff.mp h.nodup,
    fun c hc => h.below c (hperm.mem_iff.mpr hc)⟩

theorem validate_ok {length : Nat} (h : options.validate length = .ok ()) :
    length ≠ 0 ∧ ∀ topK ∈ options.topK, topK ≠ 0 := by
  obtain ⟨_, hlength, h⟩ := bind_ok.mp h
  obtain ⟨_, _, h⟩ := bind_ok.mp h
  obtain ⟨_, _, h⟩ := bind_ok.mp h
  obtain ⟨_, _, h⟩ := bind_ok.mp h
  obtain ⟨_, _, h⟩ := bind_ok.mp h
  refine ⟨rejectIf_ok.mp hlength, fun topK htop => ?_⟩
  rw [Option.mem_def] at htop
  rw [htop] at h
  exact (not_or.mp (rejectIf_ok.mp h)).1

/-- A row with a logit that is not finite is rejected for the first of them. -/
theorem sampleLogits_notFinite {logits : List (Option K)} {token : Nat}
    (hvalid : options.validate logits.length = .ok ()) (hnone : logits[token]? = some none)
    (hfirst : ∀ earlier < token, logits[earlier]? ≠ some none) :
    sampleLogits exp neverAborted logits options = .error (.error (.notFinite token)) ∧
    effectiveProbabilities exp neverAborted logits options =
      .error (.error (.notFinite token)) := by
  have hgreedy : sampleGreedy neverAborted logits = .error (.error (.notFinite token)) := by
    have hscan := foldlM_scan_notFinite (g := fun (state : Nat × Option K) (entry : K × Nat) =>
      if exceeds entry.1 state.2 then (entry.2, some entry.1) else state) hnone hfirst 0 (0, none)
    rw [Nat.zero_add] at hscan
    exact bind_error.mpr (.inl hscan)
  have hmax : maxLogit neverAborted logits = .error (.error (.notFinite token)) := by
    have hscan := foldlM_scan_notFinite (g := betterLogit) hnone hfirst 0 none
    rw [Nat.zero_add] at hscan
    exact hscan
  have hcandidates : scanCandidates neverAborted logits = .error (.error (.notFinite token)) := by
    have hscan := foldlM_scan_notFinite (g := fun (done : List (Candidate K)) (entry : K × Nat) =>
      done ++ [⟨entry.2, entry.1⟩]) hnone hfirst 0 []
    rw [Nat.zero_add] at hscan
    exact hscan
  have hsample : sampleLogits exp neverAborted logits options =
      .error (.error (.notFinite token)) := by
    refine bind_error.mpr (.inr ⟨(), hvalid, ?_⟩)
    split
    · exact hgreedy
    · split
      · exact bind_error.mpr (.inl hmax)
      · exact bind_error.mpr (.inl hcandidates)
  refine ⟨hsample, bind_error.mpr (.inr ⟨(), hvalid, ?_⟩)⟩
  split
  · exact bind_error.mpr (.inl hsample)
  · exact bind_error.mpr (.inl hcandidates)

variable [IsStrictOrderedRing K]

/-- What the filtered path draws from, and what is reported, on a row of finite logits: the
ranked candidates up to the shortest prefix that reaches the threshold of top-p. -/
theorem sampleFiltered_ok (hexp : ∀ x, 0 < exp x) (htemperature : options.temperature ≠ 0)
    (hvalid : options.validate (values.map some).length = .ok ())
    {first : Candidate K} {rest : List (Candidate K)}
    (hranked : ranked (options.activeTopK (values.map some).length) values = first :: rest) :
    ∃ r kept, kept = ((first :: rest).map (weightOf exp options.temperature first.value)).take r ∧
      Kept values.length kept ∧
      (options.topP < 1 →
        options.topP * mass ((first :: rest).map
          (weightOf exp options.temperature first.value)) ≤ mass kept ∧
        ∀ r' < r, 0 < r' → mass (((first :: rest).map
          (weightOf exp options.temperature first.value)).take r') <
            options.topP * mass ((first :: rest).map
              (weightOf exp options.temperature first.value))) ∧
      (¬ options.topP < 1 → r = ((first :: rest).map
        (weightOf exp options.temperature first.value)).length) ∧
      (∀ u, effectiveProbabilities exp neverAborted (values.map some)
        { options with unitDraw := u } =
          .ok (spread (values.map some).length kept (mass kept))) ∧
      DrawsFrom kept fun u =>
        sampleFiltered exp neverAborted (values.map some) { options with unitDraw := u } := by
  have hpositive : ∀ w ∈ ((first :: rest).map
      (weightOf exp options.temperature first.value)).map (·.value), 0 ≤ w := by
    intro w hw
    obtain ⟨_, hc, rfl⟩ := mem_map.mp hw
    obtain ⟨c, _, rfl⟩ := mem_map.mp hc
    exact (hexp _).le
  obtain ⟨r, hr, _, hretain, hmin, hall⟩ := @retain_ok K _ _ _ options.topP
    ((first :: rest).map (weightOf exp options.temperature first.value))
    (cons_ne_nil _ _) (sum_nonneg hpositive)
  have hweigh : weigh exp neverAborted options.temperature
      (ranked (options.activeTopK (values.map some).length) values) =
        .ok ((first :: rest).map (weightOf exp options.temperature first.value),
          mass ((first :: rest).map (weightOf exp options.temperature first.value))) := by
    rw [hranked]
    exact weigh_ok
  have hkept : Kept values.length
      (((first :: rest).map (weightOf exp options.temperature first.value)).take r) := by
    rw [← hranked]
    exact kept_ranked hexp hr (by rw [hranked]; exact cons_ne_nil _ _)
  refine ⟨r, _, rfl, hkept, hmin, hall, fun u => ?_, fun u hu hlt => ?_⟩
  · refine bind_ok.mpr ⟨(), hvalid, ?_⟩
    rw [if_neg htemperature]
    exact bind_ok.mpr ⟨_, scanCandidates_ok, bind_ok.mpr ⟨(), rejectIf_never _,
      bind_ok.mpr ⟨(), rejectIf_never _, bind_ok.mpr ⟨_, hweigh, bind_ok.mpr ⟨_, hretain, rfl⟩⟩⟩⟩⟩
  · obtain ⟨i, c, hpick, hc⟩ := hkept.pick hu hlt
    refine ⟨i, c, hpick, hc, ?_⟩
    refine bind_ok.mpr ⟨_, scanCandidates_ok, bind_ok.mpr ⟨(), rejectIf_never _,
      bind_ok.mpr ⟨(), rejectIf_never _, bind_ok.mpr ⟨(), rejectIf_never _,
      bind_ok.mpr ⟨_, hweigh, bind_ok.mpr ⟨_, hretain, bind_ok.mpr ⟨_, drawLoop_ok _ _ _,
      bind_ok.mpr ⟨c, ?_, rfl⟩⟩⟩⟩⟩⟩⟩⟩
    rw [hpick, Option.map_some, Option.getD_some, Nat.zero_add]
    exact expect_ok.mpr hc

/-- What the path without filters draws from: the candidates in token order. -/
theorem sampleUnfiltered_ok (hexp : ∀ x, 0 < exp x) (hne : values ≠ []) {best : K}
    (hbest : maxLogit neverAborted (values.map some) = .ok (some best)) :
    Kept values.length ((candidates values).map (weightOf exp options.temperature best)) ∧
    DrawsFrom ((candidates values).map (weightOf exp options.temperature best)) fun u =>
      sampleUnfiltered exp neverAborted (values.map some) { options with unitDraw := u } := by
  have hkept : Kept values.length
      ((candidates values).map (weightOf exp options.temperature best)) := by
    refine ⟨?_, fun c hc => ?_, ?_, fun c hc => ?_⟩
    · simpa [candidates] using hne
    · obtain ⟨c', _, rfl⟩ := mem_map.mp hc
      exact hexp _
    · rw [map_map]
      change ((candidates values).map (·.token)).Nodup
      rw [tokens_candidates]
      exact nodup_range
    · obtain ⟨c', hc', rfl⟩ := mem_map.mp hc
      exact (List.getElem?_eq_some_iff.mp (mem_candidates.mp hc')).1
  have hweights : ((candidates values).map (weightOf exp options.temperature best)).map (·.value) =
      values.map fun v => exp ((v - best) / options.temperature) := by
    rw [candidates, map_map, map_map]
    exact ext_getElem (by simp) (by simp [weightOf])
  refine ⟨hkept, fun u hu hlt => ?_⟩
  obtain ⟨i, c, hpick, hc⟩ := hkept.pick hu hlt
  refine ⟨i, c, hpick, hc, ?_⟩
  have htoken : c.token = i := by
    rw [List.getElem?_map, getElem?_candidates] at hc
    obtain ⟨_, h, rfl⟩ := Option.map_eq_some_iff.mp hc
    obtain ⟨v, _, rfl⟩ := Option.map_eq_some_iff.mp h
    rfl
  have htotal : ∀ (l : List K) (first : Nat) (total : K),
      ((l.map some).zipIdx first).foldlM (fun (total : K) (entry : Option K × Nat) => do
        pollTurn neverAborted entry.2 (.weigh entry.2)
        return total + exp ((entry.1.getD 0 - best) / options.temperature)) total =
      (.ok (total + (l.map fun v => exp ((v - best) / options.temperature)).sum) :
        Fallible (SamplingError K) K) := by
    intro l
    induction l with
    | nil => exact fun _ total => congrArg Except.ok (add_zero total).symm
    | cons v l ih =>
      intro first total
      rw [map_cons, zipIdx_cons, foldlM_cons, pollTurn_never, ok_bind]
      refine (ih (first + 1) _).trans ?_
      rw [map_cons, sum_cons, ← add_assoc]
      rfl
  refine bind_ok.mpr ⟨_, hbest, bind_ok.mpr ⟨_, htotal values 0 0, bind_ok.mpr
    ⟨_, drawLoop_ok _ _ _, ?_⟩⟩⟩
  have hpick' : pick ((values.map some).map fun value : Option K =>
      exp ((value.getD 0 - (some best).getD 0) / options.temperature))
      (u * (0 + (values.map fun v => exp ((v - best) / options.temperature)).sum)) = some i := by
    rw [zero_add, map_map, ← hweights]
    rw [mass, hweights] at hpick
    rw [hweights]
    exact hpick
  rw [hpick', htoken, Option.map_some, Option.getD_some, Nat.zero_add]
  rfl

/-- The list that the sampler draws from is the reported one in some order. -/
theorem sampleLogits_draws (hexp : ∀ x, 0 < exp x)
    (hvalid : options.validate (values.map some).length = .ok ()) :
    ∃ kept drawn, Kept values.length kept ∧ kept.Perm drawn ∧
      (∀ u, effectiveProbabilities exp neverAborted (values.map some)
        { options with unitDraw := u } =
          .ok (spread (values.map some).length kept (mass kept))) ∧
      DrawsFrom drawn fun u =>
        sampleLogits exp neverAborted (values.map some) { options with unitDraw := u } := by
  obtain ⟨hlength, htopK⟩ := validate_ok hvalid
  have hne : values ≠ [] := fun hnil => hlength (by rw [hnil]; rfl)
  have hsample : ∀ u, sampleLogits exp neverAborted (values.map some)
      { options with unitDraw := u } =
      if options.temperature = 0 then sampleGreedy neverAborted (values.map some)
      else if (options.activeTopK (values.map some).length).isSome = false ∧ ¬ options.topP < 1 then
        sampleUnfiltered exp neverAborted (values.map some) { options with unitDraw := u }
      else sampleFiltered exp neverAborted (values.map some) { options with unitDraw := u } := by
    intro u
    have hvalid' : ({ options with unitDraw := u } : SamplingOptions K).validate
        (values.map some).length = .ok () := hvalid
    rw [sampleLogits, hvalid', ok_bind]
    rfl
  by_cases htemperature : options.temperature = 0
  · -- one token, with all of the mass
    obtain ⟨token, htoken, hgreedy⟩ := sampleGreedy_ok hne
    have hreturn : ∀ u, sampleLogits exp neverAborted (values.map some)
        { options with unitDraw := u } = .ok token := fun u => by
      rw [hsample, if_pos htemperature, hgreedy]
    refine ⟨[⟨token, 1⟩], [⟨token, 1⟩], ⟨by simp, by simp, by simp, by simpa using htoken⟩,
      .refl _, fun u => ?_, fun u hu hlt => ⟨0, ⟨token, 1⟩, ?_, rfl, hreturn u⟩⟩
    · have hvalid' : ({ options with unitDraw := u } : SamplingOptions K).validate
          (values.map some).length = .ok () := hvalid
      refine bind_ok.mpr ⟨(), hvalid', ?_⟩
      rw [if_pos htemperature]
      refine bind_ok.mpr ⟨token, hreturn u, ?_⟩
      simp [spread, mass, pure, Except.pure]
    · simp [Lib.pick, mass, hlt]
  · have hactive : ∀ k ∈ options.activeTopK (values.map some).length, 0 < k := fun k hk =>
      Nat.pos_of_ne_zero (htopK k (Option.filter_eq_some_iff.mp hk).1)
    obtain ⟨first, rest, hranked⟩ := exists_cons_of_ne_nil (ranked_ne_nil hne hactive)
    obtain ⟨r, kept, hkept, hkeeps, _, hall, heffective, hdraws⟩ :=
      sampleFiltered_ok hexp htemperature hvalid hranked
    by_cases hfilter : (options.activeTopK (values.map some).length).isSome = false ∧
        ¬ options.topP < 1
    · -- all candidates are kept, and their order does not matter
      have hnone : options.activeTopK (values.map some).length = none :=
        Option.not_isSome_iff_eq_none.mp (Bool.eq_false_iff.mp hfilter.1)
      rw [hnone] at hranked
      obtain ⟨best, hmem, hmax, hbest⟩ := maxLogit_ok hne
      obtain ⟨hfirst, hlargest⟩ := head_ranked hranked
      obtain rfl : best = first.value := le_antisymm (hlargest best hmem) (hmax _ hfirst)
      have hperm : kept.Perm
          ((candidates values).map (weightOf exp options.temperature first.value)) := by
        rw [hkept, hall hfilter.2, take_length, ← hranked]
        exact (mergeSort_perm _ _).map _
      refine ⟨kept, _, hkeeps, hperm, heffective, fun u hu hlt => ?_⟩
      obtain ⟨i, c, hpick, hc, hreturn⟩ :=
        (@sampleUnfiltered_ok K _ _ _ _ options _ hexp hne _ hbest).2 u hu hlt
      refine ⟨i, c, hpick, hc, ?_⟩
      refine (hsample u).trans ?_
      rw [if_neg htemperature, if_pos hfilter]
      exact hreturn
    · refine ⟨kept, kept, hkeeps, .refl _, heffective, fun u hu hlt => ?_⟩
      obtain ⟨i, c, hpick, hc, hreturn⟩ := hdraws u hu hlt
      refine ⟨i, c, hpick, hc, ?_⟩
      refine (hsample u).trans ?_
      rw [if_neg htemperature, if_neg hfilter]
      exact hreturn

end Paths

/-- The draws on which a row of finite logits gives a token make up an interval as long as
the probability reported for it, and no draw gives a token of probability zero. A row
with another logit is rejected by both functions. -/
theorem sampleLogits_interval [Field K] [LinearOrder K] [IsStrictOrderedRing K] (exp : K → K)
    (hexp : ∀ x, 0 < exp x) (logits : List (Option K)) (options : SamplingOptions K)
    (hvalid : options.validate logits.length = .ok ()) :
    ((∀ token : Nat, logits[token]? ≠ some none) → ∃ probabilities,
      (∀ u, effectiveProbabilities exp neverAborted logits { options with unitDraw := u } =
        .ok probabilities) ∧
      (∀ u, 0 ≤ u → u < 1 → ∃ token p,
        sampleLogits exp neverAborted logits { options with unitDraw := u } = .ok token ∧
        probabilities[token]? = some p ∧ 0 < p) ∧
      ∀ token p, probabilities[token]? = some p → ∃ a, 0 ≤ a ∧ a + p ≤ 1 ∧
        ∀ u, 0 ≤ u → u < 1 →
          (sampleLogits exp neverAborted logits { options with unitDraw := u } = .ok token ↔
            a ≤ u ∧ u < a + p)) ∧
    ∀ token : Nat, logits[token]? = some none → (∀ earlier < token, logits[earlier]? ≠ some none) →
      ∀ u, sampleLogits exp neverAborted logits { options with unitDraw := u } =
          .error (.error (.notFinite token)) ∧
        effectiveProbabilities exp neverAborted logits { options with unitDraw := u } =
          .error (.error (.notFinite token)) := by
  refine ⟨fun hfinite => ?_, fun token hnone hfirst u =>
    sampleLogits_notFinite hvalid hnone hfirst⟩
  obtain ⟨values, rfl⟩ : ∃ values : List K, logits = values.map some := by
    refine ⟨logits.map (·.getD 0), ext_getElem? fun i => ?_⟩
    rw [map_map, List.getElem?_map]
    match hi : logits[i]? with
    | none => rfl
    | some none => exact absurd hi (hfinite i)
    | some (some v) => rfl
  obtain ⟨kept, drawn, hkept, hperm, heffective, hdraws⟩ :=
    @sampleLogits_draws K _ _ _ _ options _ hexp hvalid
  have hdrawn : Kept values.length drawn := hkept.perm hperm
  have hshare : ∀ token, massOf drawn token / mass drawn = massOf kept token / mass kept :=
    fun token => by rw [massOf_perm hperm hkept.nodup, mass_perm hperm]
  refine ⟨_, heffective, fun u hu hlt => ?_, fun token p hp => ?_⟩
  · obtain ⟨token, htoken, hreturn, hpos⟩ := hdraws.positive hdrawn hu hlt
    rw [hshare] at hpos
    refine ⟨token, _, hreturn, getElem?_spread hkept.nodup ?_, hpos⟩
    rw [length_map]
    exact htoken
  · obtain ⟨_, rfl⟩ := spread_getElem? hkept.nodup hp
    rw [← hshare]
    exact hdraws.interval hdrawn token

/-- Two equal logits under top-k of one: the exponential is read at zero only. -/
theorem sampleLogits_tie :
    ∃ probabilities : List ℚ,
      (∀ u : ℚ, effectiveProbabilities (fun _ => 1) neverAborted [some 3, some 3] ⟨1, some 1, 1, u⟩ =
        .ok probabilities) ∧
      ∀ u : ℚ, 0 ≤ u → u < 1 → ∃ token p,
        sampleLogits (fun _ => 1) neverAborted [some 3, some 3] ⟨1, some 1, 1, u⟩ = .ok token ∧
        probabilities[token]? = some p ∧ 0 < p := by
  have hfinite : ∀ token : Nat, ([some 3, some 3] : List (Option ℚ))[token]? ≠ some none := by
    intro token h
    simpa using mem_of_getElem? h
  obtain ⟨probabilities, heffective, hreturns, _⟩ :=
    (sampleLogits_interval (fun _ : ℚ => 1) (fun _ => one_pos) [some 3, some 3]
      ⟨1, some 1, 1, 0⟩ rfl).1 hfinite
  exact ⟨probabilities, heffective, hreturns⟩

/-- One finite logit is not enough: the row is rejected, and nothing is reported. -/
theorem sampleLogits_masked :
    sampleLogits (fun _ : ℚ => 1) neverAborted [some 0, none] ⟨1, none, 1, 1 / 2⟩ =
        .error (.error (.notFinite 1)) ∧
      effectiveProbabilities (fun _ : ℚ => 1) neverAborted [some 0, none] ⟨1, none, 1, 1 / 2⟩ =
        .error (.error (.notFinite 1)) := by
  refine sampleLogits_notFinite rfl rfl fun earlier hlt => ?_
  obtain rfl := Nat.lt_one_iff.mp hlt
  nofun

end EffectTorch.Sampling
