import AnnotatedLogic.Error
import AnnotatedLogic.Interval
import AnnotatedLogic.Text.Blank
/-!
# Annotation functions

A rule may compute the bound it asserts from the intervals that its clauses matched. The functions
form a closed set and are known by name.

* `AnnotationFunction.named`: the function of a name, whatever its case and the blanks around it.
* `AnnotationFunction.apply`: the bound. Where nothing was matched the bound is unknown, except
  that a weighted sum of nothing is its bias.
-/

namespace AnnotatedLogic

/-- What a clause found: the intervals of the members that qualify, out of a population. -/
structure Matched where
  intervals : List Interval
  population : Nat
deriving DecidableEq

namespace Matched

/-- How many members qualify. -/
def qualified (m : Matched) : Nat := m.intervals.length

/-- Which part of the population qualifies; none of an empty one. -/
def fraction (m : Matched) : Float :=
  if m.population = 0 then 0 else Float.ofNat m.qualified / Float.ofNat m.population

end Matched

/-- How a rule computes the bound it asserts. -/
inductive AnnotationFunction where
  /-- The means of the lower bounds and of the upper bounds. -/
  | average
  /-- The mean of the lower bounds and the largest upper bound. -/
  | averageLower
  /-- The largest lower bound and the largest upper bound. -/
  | maximum
  /-- The smallest lower bound and the smallest upper bound. -/
  | minimum
  /-- The bias plus, for each clause, its weight times its fraction times its means. -/
  | weightedSum
deriving DecidableEq, Inhabited

namespace AnnotationFunction

/-- The name of a function. -/
def name : AnnotationFunction → String
  | average => "average"
  | averageLower => "average_lower"
  | maximum => "maximum"
  | minimum => "minimum"
  | weightedSum => "weighted_sum"

/-- All functions. -/
def all : List AnnotationFunction := [average, averageLower, maximum, minimum, weightedSum]

/-- The function of a name. The names are ASCII and no letter beyond ASCII has a letter of theirs
as its lower case, so folding the case of ASCII is enough. -/
def named (s : String) : Except Error AnnotationFunction :=
  let wanted := (Text.trim s).map Char.toLower
  match all.find? fun f => f.name == wanted with
  | some f => .ok f
  | none => .error (.unknownFunction s)

/-- Sums of the lower and of the upper bounds, added up from the left. -/
def sums (intervals : List Interval) : Float × Float :=
  intervals.foldl (fun (l, u) i => (l + i.lower, u + i.upper)) (0, 0)

/-- Means of the lower and of the upper bounds, if there is an interval. -/
def means? (intervals : List Interval) : Option (Float × Float) :=
  if intervals.isEmpty then none
  else
    let n := Float.ofNat intervals.length
    let (l, u) := sums intervals
    some (l / n, u / n)

/-- The bounds picked pairwise from the left. -/
def picked (pick : Degree → Degree → Degree) : List Interval → Interval
  | [] => .unknown
  | first :: rest =>
    let (l, u) := rest.foldl (fun (l, u) i => (pick l i.lower, pick u i.upper))
      (first.lower, first.upper)
    .clamped l u

/-- The terms of a weighted sum added to the two bounds so far. A clause that no weight is given
for weighs `1`. -/
def weigh : List Float → List Matched → Float × Float → Float × Float
  | _, [], acc => acc
  | weights, m :: ms, (l, u) =>
    let w := weights.headD 1
    let acc := match means? m.intervals with
      | some (ml, mu) => (l + w * m.fraction * ml, u + w * m.fraction * mu)
      | none => (l, u)
    weigh weights.tail ms acc

/-- The bound that a rule asserts, from what each clause found. -/
def apply (f : AnnotationFunction) (matched : List Matched) (weights : List Float) (bias : Float) :
    Interval :=
  let intervals := matched.flatMap (·.intervals)
  match f with
  | average =>
    match means? intervals with
    | some (l, u) => .clamped l u
    | none => .unknown
  | averageLower =>
    match means? intervals with
    | some (l, _) => .clamped l ((intervals.map (·.upper)).foldl Degree.larger 0)
    | none => .unknown
  | maximum => picked Degree.larger intervals
  | minimum => picked Degree.smaller intervals
  | weightedSum =>
    let (l, u) := weigh weights matched (bias, bias)
    .clamped l u

end AnnotationFunction

end AnnotatedLogic
