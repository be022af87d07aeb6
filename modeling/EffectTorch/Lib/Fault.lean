import Mathlib.Data.List.Forall2

/-!
# Fallible loops

A Rust function stops short of a value in two ways: it returns an error, or it
panics. `Fault` keeps the two apart, so that "returns `Ok`" also says "does not
panic". A `for` loop whose body may stop is `List.foldlM` over `Except (Fault ε)`.

Results:
1. `foldlM_invariant`: what a body preserves holds of the accumulator after the
   loop, if the loop finishes.
2. `foldlM_total`: a body that never stops under the invariant gives a loop that
   finishes with the invariant.
3. `foldlM_fault`: a loop that stops, stops in some turn reached under the
   invariant.
4. `mapM_ok`: a fallible map returns what each turn returns.
-/

namespace Lib
open List

/-- How a fallible function stops short of a value. -/
inductive Fault (ε : Type) where
  | error (e : ε)
  | panic (message : String)
deriving DecidableEq, Repr

/-- A fallible computation. -/
abbrev Fallible (ε α : Type) := Except (Fault ε) α

variable {ε α σ : Type}

/-- `return Err(e)`. -/
def fail (e : ε) : Fallible ε α := .error (.error e)

/-- `Option::ok_or(e)?`. -/
def okOr (x : Option α) (e : ε) : Fallible ε α :=
  match x with
  | some a => .ok a
  | none => fail e

/-- `Option::expect(message)`. -/
def expect (x : Option α) (message : String) : Fallible ε α :=
  match x with
  | some a => .ok a
  | none => .error (.panic message)

/-- `if b { return Err(e) }`. -/
def rejectIf (b : Prop) [Decidable b] (e : ε) : Fallible ε Unit :=
  if b then fail e else .ok ()

/-- `Result::map_err(f)?`. -/
def mapErr {ε' : Type} (f : ε → ε') : Fallible ε α → Fallible ε' α
  | .ok a => .ok a
  | .error (.error e) => fail (f e)
  | .error (.panic message) => .error (.panic message)

@[simp] theorem okOr_some (a : α) (e : ε) : okOr (some a) e = .ok a := rfl

@[simp] theorem okOr_none (e : ε) : okOr (none : Option α) e = fail e := rfl

@[simp] theorem expect_some (a : α) (message : String) :
    (expect (some a) message : Fallible ε α) = .ok a := rfl

@[simp] theorem expect_none (message : String) :
    (expect (none : Option α) message : Fallible ε α) = .error (.panic message) := rfl

@[simp] theorem fail_ne_ok (e : ε) (a : α) : (fail e : Fallible ε α) ≠ .ok a :=
  nofun

variable {e : ε} {a : α} {φ β : Type} {x : Except φ α}

theorem okOr_ok {x : Option α} : okOr x e = .ok a ↔ x = some a := by
  cases x with
  | none => simp
  | some b => simp

theorem expect_ok {x : Option α} {message : String} :
    (expect x message : Fallible ε α) = .ok a ↔ x = some a := by
  cases x with
  | none => simp
  | some b => simp

theorem rejectIf_ok {b : Prop} [Decidable b] {u : Unit} : rejectIf b e = .ok u ↔ ¬ b := by
  unfold rejectIf
  split
  · next h => simp [h]
  · next h => simp [h]

theorem mapErr_ok {ε' : Type} {f : ε → ε'} {x : Fallible ε α} : mapErr f x = .ok a ↔ x = .ok a := by
  match x with
  | .ok b => simp [mapErr]
  | .error (.error e) => simp [mapErr]
  | .error (.panic message) => simp [mapErr]

/-- Peels one `?` off a computation that returned `Ok`. -/
theorem bind_ok {f : α → Except φ β} {b : β} : (x >>= f) = .ok b ↔ ∃ a, x = .ok a ∧ f a = .ok b := by
  cases x with
  | error e => simp [bind, Except.bind]
  | ok a => simp [bind, Except.bind]

theorem map_ok {f : α → β} {b : β} : x.map f = .ok b ↔ ∃ a, x = .ok a ∧ f a = b := by
  cases x with
  | error e => exact ⟨nofun, fun ⟨_, h, _⟩ => nomatch h⟩
  | ok a => simp [Except.map]

/-- A computation stops in its first part or in what follows it. -/
theorem bind_error {f : α → Except φ β} {e : φ} :
    (x >>= f) = .error e ↔ x = .error e ∨ ∃ a, x = .ok a ∧ f a = .error e := by
  cases x with
  | error e => simp [bind, Except.bind]
  | ok a => simp [bind, Except.bind]

theorem mapError_error {ψ : Type} {f : φ → ψ} {e : ψ} :
    x.mapError f = .error e ↔ ∃ e', x = .error e' ∧ f e' = e := by
  cases x with
  | error e => simp [Except.mapError]
  | ok b => exact ⟨nofun, fun ⟨_, h, _⟩ => nomatch h⟩

theorem rejectIf_error {b : Prop} [Decidable b] {fault : Fault ε} (h : rejectIf b e = .error fault) :
    fault = .error e := by
  unfold rejectIf at h
  split at h
  · exact (Except.error.inj h).symm
  · cases h

theorem mapError_ok {ψ : Type} {f : φ → ψ} : x.mapError f = .ok a ↔ x = .ok a := by
  cases x with
  | error e => exact ⟨nofun, nofun⟩
  | ok b => simp [Except.mapError]

@[simp] theorem ok_bind (a : α) (f : α → Except φ β) : (.ok a >>= f) = f a := rfl

/-! ## Loop rules -/

section Loops

variable {φ : Type} {f : σ → α → Except φ σ}

variable {s s' : σ} {l : List α} {β : Type} {R : α → β → Prop} {l' r : List β}

/-- What the body preserves, the loop preserves. `P done s` speaks of the items
already visited and of the accumulator. -/
theorem foldlM_invariant (P : List α → σ → Prop) (l : List α)
    (hstep : ∀ done a rest s s', l = done ++ a :: rest → P done s → f s a = .ok s' → P (done ++ [a]) s')
    (h0 : P [] s) (h : l.foldlM f s = .ok s') : P l s' := by
  suffices H : ∀ (rest done : List α) (s : σ), l = done ++ rest → P done s →
      rest.foldlM f s = .ok s' → P l s' from H l [] s rfl h0 h
  intro rest
  induction rest with
  | nil =>
    intro done s hl hP h
    cases h
    simpa [hl] using hP
  | cons a rest ih =>
    intro done s hl hP h
    rw [foldlM_cons] at h
    obtain ⟨s1, h1, h2⟩ := bind_ok.mp h
    exact ih (done ++ [a]) s1 (by simpa using hl) (hstep done a rest s s1 hl hP h1) h2

/-- In a loop over a range, the item is the number of items done. -/
theorem range_eq_length {n k : Nat} {done rest : List Nat} (h : List.range n = done ++ k :: rest) :
    k = done.length ∧ k < n := by
  have hget : (List.range n)[done.length]? = some k := by
    rw [h, List.getElem?_append_right (Nat.le_refl _), Nat.sub_self]
    rfl
  obtain ⟨hlt, hk⟩ := List.getElem?_eq_some_iff.mp hget
  rw [getElem_range] at hk
  rw [length_range] at hlt
  exact ⟨hk.symm, hk ▸ hlt⟩

/-- A body that never stops under the invariant gives a loop that finishes. -/
theorem foldlM_total (P : List α → σ → Prop) (l : List α)
    (hstep : ∀ done a rest s, l = done ++ a :: rest → P done s →
      ∃ s', f s a = .ok s' ∧ P (done ++ [a]) s')
    (s : σ) (h0 : P [] s) : ∃ s', l.foldlM f s = .ok s' ∧ P l s' := by
  suffices H : ∀ (rest done : List α) (s : σ), l = done ++ rest → P done s →
      ∃ s', rest.foldlM f s = .ok s' ∧ P l s' from H l [] s rfl h0
  intro rest
  induction rest with
  | nil =>
    intro done s hl hP
    exact ⟨s, rfl, by simpa [hl] using hP⟩
  | cons a rest ih =>
    intro done s hl hP
    obtain ⟨s1, h1, hP1⟩ := hstep done a rest s hl hP
    obtain ⟨s2, h2, hP2⟩ := ih (done ++ [a]) s1 (by simpa using hl) hP1
    exact ⟨s2, by rw [foldlM_cons, h1]; exact h2, hP2⟩

/-- A loop that stops, stops in some turn that is reached under the invariant. -/
theorem foldlM_fault (P : List α → σ → Prop) (l : List α)
    (hstep : ∀ done a rest s s', l = done ++ a :: rest → P done s → f s a = .ok s' → P (done ++ [a]) s')
    {e : φ} (h0 : P [] s) (h : l.foldlM f s = .error e) :
    ∃ done a rest s', l = done ++ a :: rest ∧ P done s' ∧ f s' a = .error e := by
  suffices H : ∀ (rest done : List α) (s : σ), l = done ++ rest → P done s →
      rest.foldlM f s = .error e →
      ∃ done a rest s', l = done ++ a :: rest ∧ P done s' ∧ f s' a = .error e from
    H l [] s rfl h0 h
  intro rest
  induction rest with
  | nil =>
    intro done s _ _ h
    cases h
  | cons a rest ih =>
    intro done s hl hP h
    rw [foldlM_cons] at h
    cases h1 : f s a with
    | error e' =>
      rw [h1] at h
      cases h
      exact ⟨done, a, rest, s, hl, hP, h1⟩
    | ok s1 =>
      rw [h1] at h
      exact ih (done ++ [a]) s1 (by simpa using hl) (hstep done a rest s s1 hl hP h1) h

/-- What one turn checks of its item, the whole loop checks of every item. -/
theorem foldlM_forall {C : α → Prop} (hstep : ∀ s a s', f s a = .ok s' → C a) (h : l.foldlM f s = .ok s') :
    ∀ a ∈ l, C a := by
  refine foldlM_invariant (fun done _ => ∀ a ∈ done, C a) l ?_ (by simp) h
  intro done a rest s s' _ hdone hs b hb
  rcases mem_append.mp hb with hb | hb
  · exact hdone b hb
  · rw [mem_singleton.mp hb]
    exact hstep s a s' hs

/-- A loop none of whose turns stops finishes. -/
theorem foldlM_returns (hstep : ∀ s, ∀ a ∈ l, ∃ s', f s a = .ok s') (s : σ) : ∃ s', l.foldlM f s = .ok s' := by
  obtain ⟨s', h, _⟩ := foldlM_total (fun _ _ => True) l (f := f) (fun done a rest s hl _ => by
    obtain ⟨s', hs⟩ := hstep s a (by rw [hl]; simp)
    exact ⟨s', hs, trivial⟩) s trivial
  exact ⟨s', h⟩

theorem mapM_total {f : α → Except φ β} :
    ∀ {l : List α}, (∀ a ∈ l, ∃ b, f a = .ok b) → ∃ r, l.mapM f = .ok r := by
  intro l
  induction l with
  | nil => exact fun _ => ⟨[], rfl⟩
  | cons x l ih =>
    intro h
    obtain ⟨b, hb⟩ := h x mem_cons_self
    obtain ⟨r, hr⟩ := ih fun a ha => h a (mem_cons_of_mem _ ha)
    exact ⟨b :: r, by simp [mapM_cons, hb, hr, bind, Except.bind, pure, Except.pure]⟩

theorem mapM_ok {f : α → Except φ β} :
    ∀ {l : List α} {r : List β}, l.mapM f = .ok r ↔
      l.length = r.length ∧ ∀ (i : Nat) a, l[i]? = some a → ∃ b, r[i]? = some b ∧ f a = .ok b := by
  intro l
  induction l with
  | nil =>
    intro r
    cases r <;> simp [pure, Except.pure]
  | cons x l ih =>
    intro r
    simp only [mapM_cons, bind_ok, pure, Except.pure, Except.ok.injEq]
    constructor
    · rintro ⟨b, hb, r', hr, rfl⟩
      obtain ⟨hlen, hget⟩ := ih.mp hr
      refine ⟨by simp [hlen], fun i a ha => ?_⟩
      cases i with
      | zero =>
        cases ha
        exact ⟨b, rfl, hb⟩
      | succ i => exact hget i a ha
    · rintro ⟨hlen, hget⟩
      cases r with
      | nil => cases hlen
      | cons b r =>
        obtain ⟨b', hb, hf⟩ := hget 0 x rfl
        cases hb
        exact ⟨b, hf, r, ih.mpr ⟨by simpa using hlen, fun i a ha => hget (i + 1) a ha⟩, rfl⟩

/-- A loop that only checks its items finishes when every check passes. -/
theorem foldlM_check {f : α → Except φ Unit} {u : Unit} :
    l.foldlM (fun _ a => f a) () = .ok u ↔ ∀ a ∈ l, f a = .ok () := by
  induction l with
  | nil => simp [pure, Except.pure]
  | cons a l ih =>
    rw [foldlM_cons, bind_ok, forall_mem_cons]
    constructor
    · rintro ⟨_, h1, h2⟩
      exact ⟨h1, ih.mp h2⟩
    · rintro ⟨h1, h2⟩
      exact ⟨(), h1, ih.mpr h2⟩

theorem mem_of_forall₂_right (h : List.Forall₂ R l l') {b : β} (hb : b ∈ l') : ∃ a ∈ l, R a b := by
  induction h with
  | nil => exact absurd hb not_mem_nil
  | cons hab _ ih =>
    rcases mem_cons.mp hb with rfl | hb
    · exact ⟨_, mem_cons_self, hab⟩
    · obtain ⟨a, ha, hr⟩ := ih hb
      exact ⟨a, mem_cons_of_mem _ ha, hr⟩

theorem getElem?_of_forall₂ (h : List.Forall₂ R l l') {i : Nat} {a : α} (ha : l[i]? = some a) :
    ∃ b, l'[i]? = some b ∧ R a b := by
  induction h generalizing i with
  | nil => cases ha
  | cons hab _ ih =>
    cases i with
    | zero =>
      cases ha
      exact ⟨_, rfl, hab⟩
    | succ i => exact ih ha

theorem exists_forall₂ (h : ∀ a ∈ l, ∃ b, R a b) : ∃ l', List.Forall₂ R l l' := by
  induction l with
  | nil => exact ⟨[], .nil⟩
  | cons a l ih =>
    obtain ⟨b, hb⟩ := h a mem_cons_self
    obtain ⟨l', hl⟩ := ih fun a' ha => h a' (mem_cons_of_mem _ ha)
    exact ⟨b :: l', .cons hb hl⟩

theorem map_eq_of_forall₂ {γ : Type} {f : α → γ} {g : β → γ} (h : List.Forall₂ R l l')
    (hR : ∀ a b, R a b → g b = f a) : l'.map g = l.map f := by
  induction h with
  | nil => rfl
  | cons hab _ ih => rw [map_cons, map_cons, hR _ _ hab, ih]

/-- A fallible map relates each item to what its turn returns. -/
theorem mapM_forall₂ {f : α → Except φ β} : l.mapM f = .ok r ↔ List.Forall₂ (fun a b => f a = .ok b) l r := by
  induction l generalizing r with
  | nil => simp [pure, Except.pure, eq_comm]
  | cons a l ih =>
    simp only [mapM_cons, bind_ok, forall₂_cons_left_iff, ih, pure, Except.pure,
      Except.ok.injEq]
    constructor
    · rintro ⟨b, hb, r', hr, rfl⟩
      exact ⟨b, r', hb, hr, rfl⟩
    · rintro ⟨b, r', hb, hr, rfl⟩
      exact ⟨b, hb, r', hr, rfl⟩

/-- A loop that first computes something of its item computes it of every item, and loops
over the results. -/
theorem foldlM_bind_ok {g : α → Except φ β} {h : σ → β → Except φ σ} :
    l.foldlM (fun s a => g a >>= h s) s = .ok s' ↔
      ∃ r, List.Forall₂ (fun a b => g a = .ok b) l r ∧ r.foldlM h s = .ok s' := by
  induction l generalizing s with
  | nil => simp
  | cons a l ih =>
    simp only [foldlM_cons, bind_ok, ih, forall₂_cons_left_iff]
    constructor
    · rintro ⟨s1, ⟨b, hb, h1⟩, r, hr, h2⟩
      exact ⟨b :: r, ⟨b, r, hb, hr, rfl⟩, bind_ok.mpr ⟨s1, h1, h2⟩⟩
    · rintro ⟨_, ⟨b, r, hb, hr, rfl⟩, h2⟩
      obtain ⟨s1, h1, h2⟩ := bind_ok.mp h2
      exact ⟨s1, ⟨b, hb, h1⟩, r, hr, h2⟩

/-- A fallible map that stops, stops at some item. -/
theorem mapM_error {f : α → Except φ β} {e : φ} (h : l.mapM f = .error e) : ∃ a ∈ l, f a = .error e := by
  induction l with
  | nil => cases h
  | cons x l ih =>
    rw [mapM_cons] at h
    rcases bind_error.mp h with hx | ⟨b, _, h⟩
    · exact ⟨x, mem_cons_self, hx⟩
    · rcases bind_error.mp h with hl | ⟨r, _, h⟩
      · obtain ⟨a, ha, hf⟩ := ih hl
        exact ⟨a, mem_cons_of_mem _ ha, hf⟩
      · cases h

theorem mapM_mem_left {f : α → Except φ β} (h : l.mapM f = .ok r) {a : α} (ha : a ∈ l) : ∃ b ∈ r, f a = .ok b := by
  obtain ⟨i, hi⟩ := mem_iff_getElem?.mp ha
  obtain ⟨b, hb, hf⟩ := (mapM_ok.mp h).2 i a hi
  exact ⟨b, mem_of_getElem? hb, hf⟩

theorem mapM_mem_right {f : α → Except φ β} (h : l.mapM f = .ok r) {b : β} (hb : b ∈ r) : ∃ a ∈ l, f a = .ok b := by
  obtain ⟨i, hi⟩ := mem_iff_getElem?.mp hb
  obtain ⟨hlen, hget⟩ := mapM_ok.mp h
  have hlt : i < l.length := hlen ▸ (List.getElem?_eq_some_iff.mp hi).1
  obtain ⟨b', hb', hf⟩ := hget i l[i] (List.getElem?_eq_getElem hlt)
  obtain rfl := Option.some.inj (hi.symm.trans hb')
  exact ⟨l[i], getElem_mem hlt, hf⟩

end Loops

end Lib
