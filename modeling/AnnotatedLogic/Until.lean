/-!
# Folds that may stop

`foldUntil step s xs` goes through `xs` from the left, like a fold, until a step gives a reason to
stop. The state at that point is kept together with the reason.

* `foldUntil_append`: going through two lists is going through the first and, unless that stopped,
  through the second.
* `foldUntil_invariant`: what every step keeps, the fold keeps, whether it stops or not.
-/

namespace AnnotatedLogic

variable {σ α ε : Type}

/-- A fold that stops as soon as a step gives a reason to. -/
def foldUntil (step : σ → α → σ × Option ε) (s : σ) : List α → σ × Option ε
  | [] => (s, none)
  | x :: xs =>
    match step s x with
    | (s, some reason) => (s, some reason)
    | (s, none) => foldUntil step s xs

@[simp] theorem foldUntil_nil (step : σ → α → σ × Option ε) (s : σ) :
    foldUntil step s [] = (s, none) := rfl

theorem foldUntil_append (step : σ → α → σ × Option ε) (s : σ) (xs ys : List α) :
    foldUntil step s (xs ++ ys) =
      match foldUntil step s xs with
      | (s, some reason) => (s, some reason)
      | (s, none) => foldUntil step s ys := by
  induction xs generalizing s with
  | nil => rfl
  | cons x xs ih =>
    rw [List.cons_append, foldUntil, foldUntil]
    split
    · rfl
    · exact ih _

theorem foldUntil_invariant {step : σ → α → σ × Option ε} {P : σ → Prop}
    (hstep : ∀ s x, P s → P (step s x).1) {s : σ} (hs : P s) (xs : List α) :
    P (foldUntil step s xs).1 := by
  induction xs generalizing s with
  | nil => exact hs
  | cons x xs ih =>
    have hx := hstep s x hs
    rw [foldUntil]
    split
    · next h => rw [h] at hx; exact hx
    · next h => rw [h] at hx; exact ih hx

end AnnotatedLogic
