import AnnotatedLogic.Degree
/-!
# Thresholds

A threshold says how many members of a clause's population have to qualify: a number of them or a
fraction, of all members or only of those that are available.

* `Comparison.holds`: how a count or fraction is compared. Equality allows for rounding.
* `Threshold.isSatisfied`: a fraction of an empty population satisfies no threshold.
-/

namespace AnnotatedLogic

/-- How the measured side of a threshold is compared with its value. -/
inductive Comparison where
  | greaterEqual
  | greater
  | lessEqual
  | less
  | equal
deriving DecidableEq, Inhabited

/-- What a threshold measures. -/
inductive Quantifier where
  /-- How many members qualify. -/
  | number
  /-- Which fraction of the population qualifies, from `0` to `1`. -/
  | percent
deriving DecidableEq, Inhabited

/-- Which members make up a clause's population. -/
inductive Subset where
  /-- All of them. -/
  | total
  /-- Those whose atom for the clause's label was changed since the last reset. -/
  | available
deriving DecidableEq, Inhabited

/-- Whether the comparison holds of two numbers. Two numbers are equal when they are closer than
the spacing of doubles above `1`, so a fraction that was rounded still meets its value. -/
def Comparison.holds (c : Comparison) (x y : Degree) : Bool :=
  match c with
  | greaterEqual => decide (y ≤ x)
  | greater => decide (y < x)
  | lessEqual => decide (x ≤ y)
  | less => decide (x < y)
  | equal => decide (x.distance y < Degree.tolerance)

/-- A condition such as "at least half of the available members". -/
structure Threshold where
  comparison : Comparison
  quantifier : Quantifier
  subset : Subset
  value : Float
deriving DecidableEq

namespace Threshold

/-- At least `n` members of the whole population. -/
def atLeast (n : Nat) : Threshold := ⟨.greaterEqual, .number, .total, Float.ofNat n⟩

/-- A clause without a threshold of its own asks for one member. -/
instance : Inhabited Threshold := ⟨atLeast 1⟩

/-- Whether the threshold is met when `qualified` members of a population qualify. -/
def isSatisfied (t : Threshold) (population qualified : Nat) : Bool :=
  match t.quantifier with
  | .number => t.comparison.holds (Float.ofNat qualified) t.value
  | .percent =>
    population != 0 &&
      t.comparison.holds (Float.ofNat qualified / Float.ofNat population) t.value

/-- Whether the value is one that the quantifier can measure: a count is not negative and a
fraction lies in `[0, 1]`. -/
def inRange (t : Threshold) : Bool :=
  match t.quantifier with
  | .number => decide (0 ≤ t.value)
  | .percent => Degree.inUnit t.value

end Threshold

end AnnotatedLogic
