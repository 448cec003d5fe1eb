import AnnotatedLogic.Label
/-!
# Opposite labels

A pairing lists labels that say opposite things of a component. When one of a pair learns
something, the other one learns the complement.

* `add` keeps pairs apart: a label with itself, or two labels already paired, add nothing. A list
  read from a document is taken as it is.
* `partners`: the labels opposite to one, in the order of the pairs.
-/

namespace AnnotatedLogic

/-- Pairs of opposite labels. The order within a pair does not matter. -/
structure Pairing where
  pairs : List (Label × Label) := []
deriving DecidableEq, Inhabited

namespace Pairing

/-- Whether two labels are paired, in either order. -/
def contains (p : Pairing) (a b : Label) : Bool :=
  p.pairs.any fun (x, y) => decide (x = a ∧ y = b) || decide (x = b ∧ y = a)

/-- Pairs two labels, unless they are the same or already paired. -/
def add (p : Pairing) (a b : Label) : Pairing :=
  if a = b ∨ p.contains a b then p else ⟨p.pairs ++ [(a, b)]⟩

/-- The label that a pair puts opposite to one, if the pair has it. -/
def opposite? (label : Label) (pair : Label × Label) : Option Label :=
  if pair.1 = label then some pair.2 else if pair.2 = label then some pair.1 else none

/-- The labels opposite to one, in the order of the pairs. -/
def partners (p : Pairing) (label : Label) : List Label :=
  p.pairs.filterMap (opposite? label)

end Pairing

end AnnotatedLogic
