import EffectTorch.Core.Decision
import Mathlib.Data.List.GetD

/-!
# Decisions are averages of their own reads

Scoring in batches, under any concurrency, gives every row of every decision the mean of the
restricted softmax of its reads.

Results:
1. `prepare_ok`, `scoreBatch_eq`: the batches of a request, and what a batch returns.
2. `collect_eq`: the rows of the results go to the reads of their decision, in order.
3. `scoreIndependently_ok_iff`: what a request returns, whatever the batches and the order in which
   they complete.
-/

namespace EffectTorch.Decision
open List Lib Chat

variable {N ε Input : Type} {A : Arithmetic N} {scorer : Scorer N ε Input}
  {lane : Input → Selection → List (List N)}

/-- The lanes of a scorer are independent: each input has scores of its own, and a batch returns
those of its inputs. -/
structure Scorer.Independent (scorer : Scorer N ε Input) (lane : Input → Selection → List (List N)) : Prop where
  rows : ∀ input selection, (lane input selection).length = selection.rows.length
  labels : ∀ input selection, ∀ row ∈ lane input selection, row.length = selection.labels.length
  scores : ∀ inputs selection, inputs ≠ [] → ∃ logits, scorer.score inputs selection = .ok logits ∧
    logits.shape = [inputs.length, selection.rows.length, selection.labels.length] ∧ logits.dtype.isFloat ∧
    scorer.toNumberArray logits = .ok (inputs.flatMap (lane · selection)).flatten

/-- What the checks of a request ask of a decision. -/
structure AcceptedRead (read : IndependentReads Input) : Prop where
  rows : read.selection.rows ≠ [] ∧ ∀ value ∈ read.selection.rows, ¬ Outside value
  labels : read.selection.labels ≠ [] ∧ ∀ value ∈ read.selection.labels, ¬ Outside value
  inputs : read.inputs ≠ []

/-! ## Batches -/

section Batches

theorem validateValues_ok {name : String} {values : List Number}
    (h : values ≠ [] ∧ ∀ value ∈ values, ¬ Outside value) : validateValues (ε := ε) name values = .ok () := by
  rw [validateValues, if_neg h.1, if_neg fun ⟨value, hmem, hout⟩ => h.2 value hmem hout]

/-- The batches of a request that is accepted. -/
theorem prepare_ok {decisions : List (IndependentReads Input)} (batchSize : Nat)
    (h : ∀ read ∈ decisions, AcceptedRead read) :
    prepare (ε := ε) batchSize decisions =
      .ok (decisions.zipIdx.flatMap fun entry => batchesOf batchSize entry.1 entry.2) := by
  suffices hloop : ∀ (l : List (IndependentReads Input × Nat)) (done : List (Batch Input)),
      (∀ entry ∈ l, AcceptedRead entry.1) → l.foldlM (prepareTurn (ε := ε) batchSize) done =
        .ok (done ++ l.flatMap fun entry => batchesOf batchSize entry.1 entry.2) from
    hloop decisions.zipIdx [] fun entry hentry => h entry.1 (fst_mem_of_mem_zipIdx hentry)
  intro l
  induction l with
  | nil =>
    intro done _
    rw [flatMap_nil, append_nil]
    rfl
  | cons entry l ih =>
    intro done hl
    obtain ⟨hentry, hrest⟩ := forall_mem_cons.mp hl
    have hturn : prepareTurn (ε := ε) batchSize done entry = .ok (done ++ batchesOf batchSize entry.1 entry.2) := by
      rw [prepareTurn, validateSelection, validateValues_ok hentry.rows, ok_bind, validateValues_ok hentry.labels, ok_bind,
        if_neg hentry.inputs]
    rw [foldlM_cons, hturn, ok_bind, ih _ hrest, flatMap_cons, ← append_assoc]

/-- A batch returns the restricted softmax of the rows of its inputs. -/
theorem scoreBatch_eq (h : scorer.Independent lane) {batch : Batch Input} (hne : batch.inputs ≠ []) :
    scoreBatch A scorer batch = (batch.inputs.flatMap (lane · batch.selection)).mapM fun row =>
      restrictedSoftmax A row batch.selection.labels.length := by
  obtain ⟨logits, hscore, hshape, hfloat, hread⟩ := h.scores batch.inputs batch.selection hne
  have hlen : (batch.inputs.flatMap (lane · batch.selection)).length =
      batch.inputs.length * batch.selection.rows.length := by
    have hrows : ∀ rows ∈ batch.inputs.map (lane · batch.selection), rows.length = batch.selection.rows.length := by
      intro rows hrows
      obtain ⟨input, _, rfl⟩ := mem_map.mp hrows
      exact h.rows input batch.selection
    exact (length_flatten_rows hrows).trans (by rw [length_map])
  have hlabels : ∀ row ∈ batch.inputs.flatMap (lane · batch.selection), row.length = batch.selection.labels.length := by
    intro row hrow
    obtain ⟨input, _, hmem⟩ := mem_flatMap.mp hrow
    exact h.labels input batch.selection row hmem
  generalize batch.inputs.flatMap (lane · batch.selection) = rows at hlen hlabels hread ⊢
  have hslices : rows = (List.range rows.length).map fun row =>
      slice rows.flatten (row * batch.selection.labels.length) ((row + 1) * batch.selection.labels.length) := by
    refine ext_getElem (by rw [length_map, length_range]) fun i hi hi' => ?_
    rw [getElem_map, getElem_range, slice, Nat.succ_mul, Nat.add_sub_cancel_left]
    exact (take_drop_flatten hlabels (List.getElem?_eq_getElem hi)).symm
  have hmapM : (rows.mapM fun row => restrictedSoftmax (ε := ε) A row batch.selection.labels.length) =
      (List.range rows.length).mapM fun row => restrictedSoftmax A (slice rows.flatten
        (row * batch.selection.labels.length) ((row + 1) * batch.selection.labels.length))
          batch.selection.labels.length := by
    conv_lhs => rw [hslices]
    rw [mapM_map]
    rfl
  rw [hmapM, scoreBatch, hscore, hlen]
  show (if logits.shape ≠ _ then _ else if ¬ logits.dtype.isFloat then _ else
    (scorer.toNumberArray logits).mapError Failure.scorer >>= _) = _
  rw [if_neg (not_not_intro hshape), if_neg (not_not_intro hfloat), hread]
  rfl

theorem mem_batches {batchSize : Nat} (hsize : 0 < batchSize) {decisions : List (IndependentReads Input)}
    {batch : Batch Input} (h : batch ∈ decisions.zipIdx.flatMap fun entry => batchesOf batchSize entry.1 entry.2) :
    batch.inputs ≠ [] ∧ ∃ read ∈ decisions, batch.selection = read.selection ∧ ∀ input ∈ batch.inputs, input ∈ read.inputs := by
  obtain ⟨entry, hentry, hbatch⟩ := mem_flatMap.mp h
  obtain ⟨inputs, hinputs, rfl⟩ := mem_map.mp hbatch
  refine ⟨ne_nil_of_mem_slices hsize hinputs, entry.1, fst_mem_of_mem_zipIdx hentry, rfl, fun input hinput => ?_⟩
  rw [← flatten_slices hsize entry.1.inputs]
  exact mem_flatten_of_mem hinputs hinput

/-- Every read of a decision is in one of its batches. -/
theorem exists_batch {batchSize : Nat} (hsize : 0 < batchSize) {decisions : List (IndependentReads Input)}
    {read : IndependentReads Input} (hread : read ∈ decisions) {input : Input} (hinput : input ∈ read.inputs) :
    ∃ batch ∈ decisions.zipIdx.flatMap fun entry => batchesOf batchSize entry.1 entry.2,
      batch.selection = read.selection ∧ input ∈ batch.inputs := by
  obtain ⟨i, hi⟩ := mem_iff_getElem?.mp hread
  rw [← flatten_slices hsize read.inputs] at hinput
  obtain ⟨inputs, hinputs, hmem⟩ := mem_flatten.mp hinput
  exact ⟨⟨i, inputs, read.selection⟩, mem_flatMap.mpr ⟨(read, i), mem_zipIdx_iff_getElem?.mpr hi,
    mem_map_of_mem hinputs⟩, rfl, hmem⟩

end Batches

/-! ## Rows -/

section Rows

/-- What the restricted softmax of a row returns, when it returns. -/
def softValue (ε : Type) (A : Arithmetic N) (count : Nat) (row : List N) : List N :=
  (restrictedSoftmax (ε := ε) A row count).toOption.getD []

theorem softValue_eq {count : Nat} {row p : List N} (h : restrictedSoftmax (ε := ε) A row count = .ok p) :
    softValue ε A count row = p := by
  rw [softValue, h]
  rfl

/-- Every row of every read has a restricted softmax. -/
def Readable (ε : Type) (A : Arithmetic N) (lane : Input → Selection → List (List N))
    (decisions : List (IndependentReads Input)) : Prop :=
  ∀ read ∈ decisions, ∀ input ∈ read.inputs, ∀ row ∈ lane input read.selection,
    ∃ p, restrictedSoftmax (ε := ε) A row read.selection.labels.length = .ok p

theorem mapM_softValue {count : Nat} {rows : List (List N)} :
    (∀ row ∈ rows, ∃ p, restrictedSoftmax (ε := ε) A row count = .ok p) →
      (rows.mapM fun row => restrictedSoftmax (ε := ε) A row count) = .ok (rows.map (softValue ε A count)) := by
  intro h
  refine mapM_forall₂.mpr ?_
  rw [forall₂_map_right_iff, forall₂_same]
  intro row hrow
  obtain ⟨p, hp⟩ := h row hrow
  rw [softValue_eq hp, hp]

/-- The pushes of a batch: the decision, the row and the value. -/
def pushesOf (softened : Batch Input → List (List N)) (batch : Batch Input) : List (Nat × Nat × List N) :=
  (softened batch).zipIdx.map fun p => (batch.decision, p.2 % batch.selection.rows.length, p.1)

theorem collect_pushes (softened : Batch Input → List (List N)) (batches : List (Batch Input))
    (reads : List (List (List (List N)))) : collect reads batches (batches.map softened) =
      (batches.flatMap (pushesOf softened)).foldl (fun reads p => pushBucket reads p.1 p.2.1 p.2.2) reads := by
  rw [collect, foldl_flatMap]
  induction batches generalizing reads with
  | nil => rfl
  | cons batch batches ih =>
    rw [map_cons, zip_cons_cons, foldl_cons, foldl_cons, ih, pushesOf, foldl_map]

variable {batchSize : Nat} {decisions : List (IndependentReads Input)}

/-- What a batch returns for its rows. -/
def softened (ε : Type) (A : Arithmetic N) (lane : Input → Selection → List (List N)) (batch : Batch Input) : List (List N) :=
  (batch.inputs.flatMap (lane · batch.selection)).map (softValue ε A batch.selection.labels.length)

/-- What a batch pushes to row `j` of its decision: one value for each of its inputs. -/
theorem pushesOf_row (hrows : ∀ input selection, (lane input selection).length = selection.rows.length)
    {batch : Batch Input} {j : Nat} (hj : j < batch.selection.rows.length) :
    ((pushesOf (softened ε A lane) batch).filter (·.2.1 = j)).map (·.2.2) = batch.inputs.map fun input =>
      softValue ε A batch.selection.labels.length ((lane input batch.selection).getD j []) := by
  have hrow : ∀ row ∈ batch.inputs.map fun input =>
      (lane input batch.selection).map (softValue ε A batch.selection.labels.length),
      row.length = batch.selection.rows.length := by
    intro row hrow
    obtain ⟨input, _, rfl⟩ := mem_map.mp hrow
    rw [length_map, hrows]
  have hcolumn := filter_mod_flatten hrow hj (softValue ε A batch.selection.labels.length []) 0
  rw [Nat.zero_mul, map_map] at hcolumn
  have hsoftened : softened ε A lane batch = (batch.inputs.map fun input =>
      (lane input batch.selection).map (softValue ε A batch.selection.labels.length)).flatten := by
    rw [softened, map_flatMap, flatMap_def]
  rw [pushesOf, filter_map, map_map, hsoftened]
  refine hcolumn.trans (map_congr_left fun input _ => ?_)
  exact getD_map ..

/-- What a decision pushes to row `j` of decision `i`: one value for each of its reads, or nothing. -/
theorem pushesOf_decision (hsize : 0 < batchSize) (hrows : ∀ input selection, (lane input selection).length = selection.rows.length)
    {read : IndependentReads Input} {d i j : Nat} (hj : d = i → j < read.selection.rows.length) :
    (((batchesOf batchSize read d).flatMap (pushesOf (softened ε A lane))).filter fun p => p.1 = i ∧ p.2.1 = j).map (·.2.2) =
      if d = i then read.inputs.map fun input =>
        softValue ε A read.selection.labels.length ((lane input read.selection).getD j []) else [] := by
  rw [filter_flatMap, map_flatMap, batchesOf, flatMap_map]
  by_cases hd : d = i
  · subst hd
    rw [if_pos rfl]
    conv_rhs => rw [← flatten_slices hsize read.inputs, map_flatten, ← flatMap_def]
    refine flatMap_congr fun inputs _ => ?_
    have hrow : j < (⟨d, inputs, read.selection⟩ : Batch Input).selection.rows.length := hj rfl
    refine Eq.trans ?_ (pushesOf_row hrows hrow)
    refine congrArg (List.map _) (filter_congr fun p hp => ?_)
    obtain ⟨q, _, rfl⟩ := mem_map.mp hp
    simp
  · rw [if_neg hd]
    refine flatMap_eq_nil_iff.mpr fun inputs _ => ?_
    rw [map_eq_nil_iff, filter_eq_nil_iff]
    intro p hp
    obtain ⟨q, _, rfl⟩ := mem_map.mp hp
    simp [hd]

/-- The rows of the results go to the reads of their decision, in order. -/
theorem collect_eq (hsize : 0 < batchSize) (hrows : ∀ input selection, (lane input selection).length = selection.rows.length)
    (decisions : List (IndependentReads Input)) :
    let batches := decisions.zipIdx.flatMap fun entry => batchesOf batchSize entry.1 entry.2
    collect (emptyReads decisions) batches (batches.map (softened ε A lane)) =
      decisions.map fun read => (List.range read.selection.rows.length).map fun row =>
        read.inputs.map fun input => softValue ε A read.selection.labels.length ((lane input read.selection).getD row []) := by
  intro batches
  rw [collect_pushes]
  refine eq_of_bucketAt ?_ fun i j => ?_
  · rw [map_length_pushAll, emptyReads, map_map, map_map]
    exact map_congr_left fun read _ => by simp
  · rw [bucketAt_pushAll, bucketAt, bucketAt, emptyReads, List.getElem?_map, List.getElem?_map]
    cases hread : decisions[i]? with
    | none => rfl
    | some read =>
      simp only [Option.map_some, Option.bind_some, List.getElem?_map]
      rcases Nat.lt_or_ge j read.selection.rows.length with hj | hj
      · rw [List.getElem?_eq_getElem hj, List.getElem?_range hj]
        refine congrArg some ?_
        show [] ++ List.map _ (List.filter _ _) = read.inputs.map _
        rw [nil_append, flatMap_assoc, filter_flatMap, map_flatMap,
          flatMap_congr fun entry hentry => pushesOf_decision (i := i) (j := j) hsize hrows fun hd => ?_,
          flatMap_zipIdx_eq decisions (fun read => read.inputs.map fun input =>
            softValue ε A read.selection.labels.length ((lane input read.selection).getD j [])) i, hread]
        · exact flatMap_singleton ..
        · have hget := mem_zipIdx_iff_getElem?.mp hentry
          rw [hd, hread] at hget
          exact Option.some.inj hget ▸ hj
      · rw [List.getElem?_eq_none hj, List.getElem?_eq_none (by rwa [length_range])]
        rfl

end Rows

/-! ## Outcomes -/

section Outcomes

theorem mapM_congr {φ α β : Type} {f g : α → Except φ β} {l : List α} (h : ∀ a ∈ l, f a = g a) :
    l.mapM f = l.mapM g := by
  induction l with
  | nil => rfl
  | cons a l ih =>
    obtain ⟨ha, hl⟩ := forall_mem_cons.mp h
    rw [mapM_cons, mapM_cons, ha, ih hl]

theorem positiveInteger_pos {value : Number} {n : Nat} (h : positiveInteger value = some n) : 0 < n := by
  rw [positiveInteger] at h
  split at h
  · split at h
    · cases h
    · next hpos =>
      cases h
      exact Nat.not_lt.mp hpos
  · cases h

variable {batchSize concurrency : Nat} {decisions : List (IndependentReads Input)}

/-- The average over the reads of each decision, for each of its rows. -/
def averages (A : Arithmetic N) (lane : Input → Selection → List (List N)) (decisions : List (IndependentReads Input)) :
    Except (Failure ε) (List (List (List N))) :=
  decisions.mapM fun read => (List.range read.selection.rows.length).mapM fun row =>
    independentProbabilities A (read.inputs.map fun input => (lane input read.selection).getD row [])
      read.selection.labels.length

theorem Readable.scoreBatch (h : scorer.Independent lane) (hsize : 0 < batchSize) (hreadable : Readable ε A lane decisions)
    {batch : Batch Input} (hbatch : batch ∈ decisions.zipIdx.flatMap fun entry => batchesOf batchSize entry.1 entry.2) :
    scoreBatch A scorer batch = .ok (softened ε A lane batch) := by
  obtain ⟨hne, read, hread, hselection, hinputs⟩ := mem_batches hsize hbatch
  rw [scoreBatch_eq h hne, mapM_softValue, softened]
  intro row hrow
  obtain ⟨input, hinput, hrow⟩ := mem_flatMap.mp hrow
  rw [hselection] at hrow ⊢
  exact hreadable read hread input (hinputs input hinput) row hrow

/-- The batches of a request finish with the restricted softmax of their rows, or do not finish. -/
theorem finishes_ok (h : scorer.Independent lane) (hsize : 0 < batchSize) {results : List (List (List N))}
    (hresults : Finishes ((decisions.zipIdx.flatMap fun entry => batchesOf batchSize entry.1 entry.2).map
      (scoreBatch A scorer)) concurrency (.ok results)) : Readable ε A lane decisions ∧
    results = (decisions.zipIdx.flatMap fun entry => batchesOf batchSize entry.1 entry.2).map (softened ε A lane) := by
  have hscored := hresults.eq_map
  have hbatch : ∀ batch ∈ decisions.zipIdx.flatMap fun entry => batchesOf batchSize entry.1 entry.2,
      ∃ result, scoreBatch A scorer batch = .ok result := by
    intro batch hbatch
    have hmem := mem_map_of_mem (f := scoreBatch A scorer) hbatch
    rw [hscored] at hmem
    obtain ⟨result, _, heq⟩ := mem_map.mp hmem
    exact ⟨result, heq.symm⟩
  have hreadable : Readable ε A lane decisions := by
    intro read hread input hinput row hrow
    obtain ⟨batch, hmem, hselection, hinput⟩ := exists_batch hsize hread hinput
    obtain ⟨result, hresult⟩ := hbatch batch hmem
    rw [scoreBatch_eq h (mem_batches hsize hmem).1] at hresult
    obtain ⟨p, _, hp⟩ := mapM_mem_left hresult (mem_flatMap.mpr ⟨input, hinput, hselection ▸ hrow⟩)
    exact ⟨p, hselection ▸ hp⟩
  refine ⟨hreadable, map_injective_iff.mpr (fun _ _ => Except.ok.inj) (hscored.symm.trans ?_)⟩
  rw [map_map]
  exact map_congr_left fun batch hmem => hreadable.scoreBatch h hsize hmem

theorem finishes_error (h : scorer.Independent lane) (hsize : 0 < batchSize) {e : Failure ε}
    (herror : Finishes ((decisions.zipIdx.flatMap fun entry => batchesOf batchSize entry.1 entry.2).map
      (scoreBatch A scorer)) concurrency (.error e)) : ¬ Readable ε A lane decisions := by
  intro hreadable
  obtain ⟨batch, hbatch, heq⟩ := mem_map.mp herror.mem
  rw [hreadable.scoreBatch h hsize hbatch] at heq
  cases heq

theorem readout_map (reads : IndependentReads Input → List (List (List N))) (decisions : List (IndependentReads Input)) :
    readout (ε := ε) A decisions (decisions.map reads) = decisions.mapM fun read =>
      (reads read).mapM fun row => meanProbabilities A row read.selection.labels.length := by
  have hzip : decisions.zip (decisions.map reads) = decisions.map fun read => (read, reads read) := by
    conv_lhs => rw [← map_id decisions, map_map, zip_map']
    rfl
  rw [readout, hzip, mapM_map]
  rfl

/-- The average over reads whose rows have a restricted softmax. -/
theorem Readable.averages_eq (hrows : ∀ input selection, (lane input selection).length = selection.rows.length)
    (haccepted : ∀ read ∈ decisions, AcceptedRead read) (hreadable : Readable ε A lane decisions) :
    averages A lane decisions = decisions.mapM fun read => (List.range read.selection.rows.length).mapM fun row =>
      meanProbabilities (ε := ε) A (read.inputs.map fun input =>
        softValue ε A read.selection.labels.length ((lane input read.selection).getD row []))
          read.selection.labels.length := by
  refine mapM_congr fun read hread => mapM_congr fun row hrow => ?_
  rw [independentProbabilities, if_neg (mt map_eq_nil_iff.mp (haccepted read hread).inputs), mapM_softValue,
    ok_bind, map_map]
  · rfl
  · intro logits hlogits
    obtain ⟨input, hinput, rfl⟩ := mem_map.mp hlogits
    have hlt : row < (lane input read.selection).length := hrows input read.selection ▸ mem_range.mp hrow
    rw [getD_eq_getElem _ _ hlt]
    exact hreadable read hread input hinput _ (getElem_mem hlt)

/-- Averages that are defined are averages of rows that have a restricted softmax. -/
theorem readable_of_averages (hrows : ∀ input selection, (lane input selection).length = selection.rows.length)
    {r : List (List (List N))} (h : averages (ε := ε) A lane decisions = .ok r) : Readable ε A lane decisions := by
  intro read hread input hinput row hrow
  obtain ⟨j, hj⟩ := mem_iff_getElem?.mp hrow
  have hlt : j < read.selection.rows.length := hrows input read.selection ▸ (List.getElem?_eq_some_iff.mp hj).1
  obtain ⟨values, _, hvalues⟩ := mapM_mem_left h hread
  obtain ⟨value, _, hvalue⟩ := mapM_mem_left hvalues (mem_range.mpr hlt)
  rw [independentProbabilities] at hvalue
  split at hvalue
  · cases hvalue
  · obtain ⟨softs, hsofts, _⟩ := bind_ok.mp hvalue
    obtain ⟨p, _, hp⟩ := mapM_mem_left hsofts (mem_map_of_mem hinput)
    rw [getD_eq_getElem?_getD, hj] at hp
    exact ⟨p, hp⟩

/-- What a request returns is the average of its reads, whatever the batches and the order in which
they complete. -/
theorem scoreIndependently_ok_iff (h : scorer.Independent lane) (haccepted : ∀ read ∈ decisions, AcceptedRead read)
    {options : ScoringOptions} (hbatchSize : positiveInteger options.batchSize = some batchSize)
    (hconcurrency : positiveInteger options.concurrency = some concurrency)
    {outcome : Except (Failure ε) (List (List (List N)))} (houtcome : ScoreIndependently A scorer decisions options outcome)
    (r : List (List (List N))) : outcome = .ok r ↔ averages (ε := ε) A lane decisions = .ok r := by
  have hoptions : validateOptions (ε := ε) options = .ok (batchSize, concurrency) := by
    rw [validateOptions, hbatchSize, hconcurrency]
  have hsize : 0 < batchSize := positiveInteger_pos hbatchSize
  cases houtcome with
  | options herror =>
    rw [hoptions] at herror
    cases herror
  | prepare _ herror =>
    rw [prepare_ok _ haccepted] at herror
    cases herror
  | @scored size _ batches results hok hprepare hfinishes =>
    cases hoptions.symm.trans hok
    cases (prepare_ok batchSize haccepted).symm.trans hprepare
    cases results with
    | error e => exact ⟨nofun, fun hr => absurd (readable_of_averages h.rows hr) (finishes_error h hsize hfinishes)⟩
    | ok results =>
      obtain ⟨hreadable, rfl⟩ := finishes_ok h hsize hfinishes
      rw [ok_bind, collect_eq hsize h.rows, readout_map, hreadable.averages_eq h.rows haccepted]
      simp only [mapM_map]
      rfl

end Outcomes

end EffectTorch.Decision
