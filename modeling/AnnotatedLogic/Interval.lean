import AnnotatedLogic.Degree
import AnnotatedLogic.Decimal.Layout
/-!
# Truth intervals

The truth value of a ground atom is an interval of degrees, `[lower, upper]` within `[0, 1]`. To
learn is to narrow the interval; `[0, 1]` says nothing and `[1, 1]` says true. An interval also
keeps the bounds from before the last reset, and whether resets pass it by.

* `closed?` accepts `0 ≤ lower ≤ upper ≤ 1` and nothing else; `clamped` makes an interval of any
  two numbers.
* `Contains`, `Disjoint`: the order of intervals and when two have no degree in common.
* `meet`: what two intervals say together. An empty meet says nothing: it is `[0, 1]`.
* `complement`: the interval of the opposite property, `[1 - upper, 1 - lower]`.
* `reset`: back to `[0, 1]`, with the bounds so far kept as the previous ones.
-/

namespace AnnotatedLogic

/-- The truth value of a ground atom. -/
structure Interval where
  lower : Degree
  upper : Degree
  /-- The lower bound before the last reset. -/
  prevLower : Degree
  /-- The upper bound before the last reset. -/
  prevUpper : Degree
  /-- Whether the value outlives timesteps. -/
  isStatic : Bool
deriving DecidableEq

namespace Interval

/-- An interval with these bounds now and before. The bounds are taken as they are. -/
def fresh (lower upper : Degree) : Interval :=
  ⟨lower, upper, lower, upper, false⟩

/-- Nothing is known: `[0, 1]`. -/
def unknown : Interval := fresh 0 1

/-- Certainly true: `[1, 1]`. -/
def certain : Interval := fresh 1 1

/-- Certainly false: `[0, 0]`. -/
def impossible : Interval := fresh 0 0

instance : Inhabited Interval := ⟨unknown⟩

/-- The bounds of a truth value: `0 ≤ lower ≤ upper ≤ 1`. -/
def Proper (lower upper : Degree) : Prop :=
  lower.inUnit = true ∧ upper.inUnit = true ∧ ¬ upper < lower

instance (lower upper : Degree) : Decidable (Proper lower upper) :=
  inferInstanceAs (Decidable (_ ∧ _ ∧ _))

/-- The interval with these bounds, if they are those of a truth value. -/
def closed? (lower upper : Degree) : Option Interval :=
  if Proper lower upper then some (fresh lower upper) else none

/-- The interval with these bounds, each moved into `[0, 1]` and the smaller one put first. -/
def clamped (lower upper : Degree) : Interval :=
  let l := lower.clamp
  let u := upper.clamp
  if l ≤ u then fresh l u else fresh u l

/-- The bounds from before the last reset, as an interval. -/
def previous (i : Interval) : Interval := fresh i.prevLower i.prevUpper

/-- Other bounds for the same atom: the previous ones stay, and so does its being static. -/
def withBounds (i : Interval) (lower upper : Degree) : Interval :=
  { i with lower := lower, upper := upper }

/-- The same value, outliving timesteps or not. -/
def withStatic (i : Interval) (isStatic : Bool) : Interval :=
  { i with isStatic := isStatic }

/-- Whether the interval says nothing. -/
def isUnknown (i : Interval) : Bool := i.lower == 0 && i.upper == 1

/-- Whether two intervals have the same bounds. What else they carry is bookkeeping. -/
def same (i j : Interval) : Bool := i.lower == j.lower && i.upper == j.upper

/-- Start of a timestep: a value that is not static becomes unknown and remembers its bounds. -/
def reset (i : Interval) : Interval :=
  if i.isStatic then i
  else { i with prevLower := i.lower, prevUpper := i.upper, lower := 0, upper := 1 }

/-- `outer` allows every degree that `inner` allows. -/
def Contains (outer inner : Interval) : Prop :=
  outer.lower ≤ inner.lower ∧ inner.upper ≤ outer.upper

instance (outer inner : Interval) : Decidable (Contains outer inner) :=
  inferInstanceAs (Decidable (_ ∧ _))

/-- No degree is in both intervals. -/
def Disjoint (i j : Interval) : Prop :=
  j.upper < i.lower ∨ i.upper < j.lower

instance (i j : Interval) : Decidable (Disjoint i j) :=
  inferInstanceAs (Decidable (_ ∨ _))

/-- What two intervals say together. It is a value of the first one's atom, so it keeps that one's
previous bounds. An empty meet widens to `[0, 1]`, which is not static; who has to tell it from a
meet that says nothing asks `Disjoint` first. -/
def meet (i j : Interval) : Interval :=
  let lower := i.lower.larger j.lower
  let upper := i.upper.smaller j.upper
  if upper < lower then { i with lower := 0, upper := 1, isStatic := false }
  else { i with lower := lower, upper := upper }

/-- What an interval says of the opposite property. -/
def complement (i : Interval) : Interval := fresh (1 - i.upper) (1 - i.lower)

/-- The larger of the movements of the two bounds. -/
def distance (i j : Interval) : Degree :=
  (i.lower.distance j.lower).larger (i.upper.distance j.upper)

/-- How far the bounds have moved since the last reset. -/
def movement (i : Interval) : Degree := i.distance i.previous

/-- An interval in messages. -/
def text (i : Interval) : String :=
  "[" ++ Decimal.plain i.lower ++ "," ++ Decimal.plain i.upper ++ "]"

end Interval

end AnnotatedLogic
