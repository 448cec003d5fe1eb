import AnnotatedLogic.Until
import Mathlib.Data.List.Forall2
/-!
# What folds that may stop go through

* `foldUntil_invariant_mem`: what the steps over the members of a list keep, the fold keeps.
* `foldUntil_reason`: so does what holds of every reason to stop.
* `foldUntil_trans`: a transitive relation between the states of every step relates start and end.
* `foldUntil_idle`: a fold whose steps change nothing changes nothing.
* `foldUntil_related`: two folds whose steps keep a relation between their states and stop for the same
  reasons do so themselves.
* `logUntil`: what the steps of a fold log, up to the one that stops it. `exists_mem_logUntil` finds the
  reason to stop in it, `foldUntil_invariant_log` what has broken an invariant, and
  `forall_mem_logUntil` says what holds of all of it. `foldUntil_iff_log` reads from the log whether a fold
  that does not stop has kept something.
-/

namespace AnnotatedLogic

variable {σ α β ε : Type}

/-- What every step over a member of the list keeps, the fold keeps, whether it stops or not. -/
theorem foldUntil_invariant_mem {step : σ → α → σ × Option ε} {P : σ → Prop}
    {xs : List α} (hstep : ∀ x ∈ xs, ∀ s, P s → P (step s x).1) {s : σ} (hs : P s) :
    P (foldUntil step s xs).1 := by
  induction xs generalizing s with
  | nil => exact hs
  | cons x xs ih =>
    have hx := hstep x (by simp) s hs
    rw [foldUntil]
    split
    · next h => rw [h] at hx; exact hx
    · next h =>
      rw [h] at hx
      exact ih (fun y hy => hstep y (by simp [hy])) hx

/-- What every step keeps, and what holds of every reason to stop, holds of the fold. -/
theorem foldUntil_reason {step : σ → α → σ × Option ε} {P : σ → Prop} {Q : ε → Prop} {xs : List α}
    (hstep : ∀ x ∈ xs, ∀ s, P s → P (step s x).1 ∧ ∀ reason ∈ (step s x).2, Q reason) {s : σ}
    (hs : P s) : P (foldUntil step s xs).1 ∧ ∀ reason ∈ (foldUntil step s xs).2, Q reason := by
  induction xs generalizing s with
  | nil => exact ⟨hs, by simp⟩
  | cons x xs ih =>
    have hx := hstep x (by simp) s hs
    rw [foldUntil]
    split
    · next heq => rw [heq] at hx; exact hx
    · next heq =>
      rw [heq] at hx
      exact ih (fun y hy => hstep y (by simp [hy])) hx.1

/-- A relation that every step establishes holds between the start and the end. -/
theorem foldUntil_trans {step : σ → α → σ × Option ε} {R : σ → σ → Prop} (hrefl : ∀ s, R s s)
    (htrans : ∀ {s u v}, R s u → R u v → R s v) (hstep : ∀ s x, R s (step s x).1) (s : σ)
    (xs : List α) : R s (foldUntil step s xs).1 :=
  foldUntil_invariant (P := R s) (fun u x h => htrans h (hstep u x)) (hrefl s) xs

/-- A fold whose steps change nothing changes nothing. -/
theorem foldUntil_idle {step : σ → α → σ × Option ε} {s : σ} {xs : List α}
    (h : ∀ x ∈ xs, step s x = (s, none)) : foldUntil step s xs = (s, none) := by
  induction xs with
  | nil => rfl
  | cons x xs ih =>
    rw [foldUntil, h x (by simp)]
    exact ih fun y hy => h y (by simp [hy])

/-- Steps that keep a relation between the states of two folds, and stop for the same reasons, make folds
that do. -/
theorem foldUntil_related {τ : Type} {R : σ → τ → Prop} {S : α → β → Prop} {f : σ → α → σ × Option ε}
    {g : τ → β → τ × Option ε}
    (hstep : ∀ s u x y, R s u → S x y → R (f s x).1 (g u y).1 ∧ (f s x).2 = (g u y).2) {s : σ} {u : τ}
    (hs : R s u) {xs : List α} {ys : List β} (h : List.Forall₂ S xs ys) :
    R (foldUntil f s xs).1 (foldUntil g u ys).1 ∧ (foldUntil f s xs).2 = (foldUntil g u ys).2 := by
  induction h generalizing s u with
  | nil => exact ⟨hs, rfl⟩
  | @cons x y xs ys hxy _ ih =>
    obtain ⟨hstates, hreasons⟩ := hstep s u x y hs hxy
    rw [foldUntil, foldUntil]
    rcases hf : f s x with ⟨s', _ | reason⟩ <;> rcases hg : g u y with ⟨u', _ | other⟩ <;>
      rw [hf, hg] at hstates hreasons
    · exact ih hstates
    · cases hreasons
    · cases hreasons
    · exact ⟨hstates, hreasons⟩

/-! ## Logs -/

/-- What the steps of a fold log, up to the one that stops it. -/
def logUntil (step : σ → α → σ × Option ε) (log : σ → α → List β) (s : σ) : List α → List β
  | [] => []
  | x :: xs =>
    log s x ++
      match step s x with
      | (_, some _) => []
      | (u, none) => logUntil step log u xs

theorem logUntil_append (step : σ → α → σ × Option ε) (log : σ → α → List β) (s : σ) (xs ys : List α) :
    logUntil step log s (xs ++ ys) =
      logUntil step log s xs ++
        match foldUntil step s xs with
        | (_, some _) => []
        | (u, none) => logUntil step log u ys := by
  induction xs generalizing s with
  | nil => rfl
  | cons x xs ih =>
    rw [List.cons_append, logUntil, logUntil, foldUntil]
    rcases step s x with ⟨u, _ | reason⟩
    · dsimp only
      rw [ih, List.append_assoc]
    · simp

/-- The reason to stop is in the log if every step logs its reason. -/
theorem exists_mem_logUntil {step : σ → α → σ × Option ε} {log : σ → α → List β}
    {R : β → ε → Prop} (hstep : ∀ s x reason, (step s x).2 = some reason → ∃ b ∈ log s x, R b reason)
    {s : σ} {xs : List α} {reason : ε} (h : (foldUntil step s xs).2 = some reason) :
    ∃ b ∈ logUntil step log s xs, R b reason := by
  induction xs generalizing s with
  | nil => cases h
  | cons x xs ih =>
    have hx := hstep s x
    rw [foldUntil] at h
    rw [logUntil]
    rcases hs : step s x with ⟨u, _ | stop⟩ <;> rw [hs] at h hx
    · obtain ⟨b, hb, hR⟩ := ih h
      exact ⟨b, List.mem_append_right _ hb, hR⟩
    · obtain ⟨b, hb, hR⟩ := hx reason h
      exact ⟨b, List.mem_append_left _ hb, hR⟩

/-- What holds of all that a step logs in a state with `P`, which the steps keep, holds of the log. -/
theorem forall_mem_logUntil {step : σ → α → σ × Option ε} {log : σ → α → List β} {P : σ → Prop}
    {Q : β → Prop} {xs : List α}
    (hstep : ∀ x ∈ xs, ∀ s, P s → P (step s x).1 ∧ ∀ b ∈ log s x, Q b) {s : σ} (hs : P s) :
    ∀ b ∈ logUntil step log s xs, Q b := by
  induction xs generalizing s with
  | nil => simp [logUntil]
  | cons x xs ih =>
    obtain ⟨hafter, hlog⟩ := hstep x (by simp) s hs
    intro b hb
    rw [logUntil] at hb
    rcases List.mem_append.1 hb with hb | hb
    · exact hlog b hb
    · split at hb
      · cases hb
      · next heq =>
        rw [heq] at hafter
        exact ih (fun y hy => hstep y (by simp [hy])) hafter b hb

/-- What every step keeps unless it logs something bad, the fold keeps unless something bad is in its
log. -/
theorem foldUntil_invariant_log {step : σ → α → σ × Option ε} {log : σ → α → List β} {P : σ → Prop}
    {Bad : β → Prop} {xs : List α}
    (hstep : ∀ x ∈ xs, ∀ s, P s → P (step s x).1 ∨ ∃ b ∈ log s x, Bad b) {s : σ} (hs : P s) :
    P (foldUntil step s xs).1 ∨ ∃ b ∈ logUntil step log s xs, Bad b := by
  induction xs generalizing s with
  | nil => exact .inl hs
  | cons x xs ih =>
    rw [foldUntil, logUntil]
    rcases hstep x (by simp) s hs with hx | ⟨b, hb, hbad⟩
    · rcases hu : step s x with ⟨u, _ | stop⟩ <;> rw [hu] at hx
      · rcases ih (fun y hy => hstep y (by simp [hy])) hx with h | ⟨b, hb, hbad⟩
        · exact .inl h
        · exact .inr ⟨b, List.mem_append_right _ hb, hbad⟩
      · exact .inl hx
    · exact .inr ⟨b, List.mem_append_left _ hb, hbad⟩

/-- If a step that does not stop keeps `P` exactly where all that it logs is good, then so does a fold that
does not stop. -/
theorem foldUntil_iff_log {step : σ → α → σ × Option ε} {log : σ → α → List β} {I P : σ → Prop}
    {G : β → Prop} {xs : List α}
    (hstep : ∀ x ∈ xs, ∀ s u, I s → step s x = (u, none) →
      I u ∧ (P u ↔ P s ∧ ∀ b ∈ log s x, G b)) {s u : σ} (hs : I s)
    (h : foldUntil step s xs = (u, none)) :
    I u ∧ (P u ↔ P s ∧ ∀ b ∈ logUntil step log s xs, G b) := by
  induction xs generalizing s with
  | nil =>
    cases h
    exact ⟨hs, by simp [logUntil]⟩
  | cons x xs ih =>
    rw [foldUntil] at h
    rw [logUntil]
    rcases hx : step s x with ⟨v, _ | reason⟩ <;> rw [hx] at h
    · obtain ⟨hv, hfirst⟩ := hstep x (by simp) s v hs hx
      obtain ⟨hu, hrest⟩ := ih (fun y hy => hstep y (by simp [hy])) hv h
      exact ⟨hu, by rw [hrest, hfirst, and_assoc, List.forall_mem_append]⟩
    · cases h

/-- What some step establishes and the later ones keep, the fold establishes unless something bad is in
its log. -/
theorem foldUntil_establish {step : σ → α → σ × Option ε} {log : σ → α → List β} {P Q : σ → Prop}
    {Bad : β → Prop} {x : α} {xs : List α} (hx : x ∈ xs) (hfirst : ∀ s y, P s → P (step s y).1)
    (hstep : ∀ s, P s → (step s x).2 = none → Q (step s x).1 ∨ ∃ b ∈ log s x, Bad b)
    (hrest : ∀ s y, Q s → Q (step s y).1 ∨ ∃ b ∈ log s y, Bad b) {s u : σ} (hs : P s)
    (h : foldUntil step s xs = (u, none)) : Q u ∨ ∃ b ∈ logUntil step log s xs, Bad b := by
  induction xs generalizing s with
  | nil => cases hx
  | cons y ys ih =>
    have hafter := hfirst s y hs
    have hfact := hstep s hs
    rw [foldUntil] at h
    rw [logUntil]
    rcases hy : step s y with ⟨v, _ | stop⟩ <;> rw [hy] at h hafter
    · rcases List.mem_cons.1 hx with rfl | hx
      · rw [hy] at hfact
        rcases hfact rfl with hQ | ⟨b, hb, hbad⟩
        · have hkept : Q (foldUntil step v ys).1 ∨ ∃ b ∈ logUntil step log v ys, Bad b :=
            foldUntil_invariant_log (fun z _ w hw => hrest w z hw) hQ
          rcases hkept with hu | ⟨b, hb, hbad⟩
          · rw [show foldUntil step v ys = (u, none) from h] at hu
            exact .inl hu
          · exact .inr ⟨b, List.mem_append_right _ hb, hbad⟩
        · exact .inr ⟨b, List.mem_append_left _ hb, hbad⟩
      · rcases ih hx hafter h with hQ | ⟨b, hb, hbad⟩
        · exact .inl hQ
        · exact .inr ⟨b, List.mem_append_right _ hb, hbad⟩
    · cases h

end AnnotatedLogic
