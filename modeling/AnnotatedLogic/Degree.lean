/-!
# Degrees of truth

A degree is a double; `0` is false and `1` is true. Rules compute degrees by plain arithmetic, so a
result may leave `[0, 1]` or be no number at all.

* `larger`, `smaller`: the bounds of a meet. A value that is no number gives way to the other one.
* `clamp`: the nearest degree in `[0, 1]`; what is no number counts as false.
* `rank`: an integer that orders all doubles, negative zero below zero.
-/

namespace AnnotatedLogic

/-- A degree of truth: `0` is false, `1` is true. -/
abbrev Degree := Float

namespace Degree

/-- The larger of two degrees. What is no number gives way to the other argument, and of two equal
degrees, such as the two zeros, the second is taken. -/
def larger (x y : Degree) : Degree :=
  if y.isNaN then x else if y < x then x else y

/-- The smaller of two degrees. What is no number gives way to the other argument, and of two equal
degrees, such as the two zeros, the second is taken. -/
def smaller (x y : Degree) : Degree :=
  if y.isNaN then x else if x < y then x else y

/-- Membership in `[0, 1]`. What is no number fails both comparisons, so it is outside. -/
def inUnit (x : Degree) : Bool :=
  decide (0 ≤ x) && decide (x ≤ 1)

/-- The nearest degree in `[0, 1]`; what is no number counts as `0`. -/
def clamp (x : Degree) : Degree :=
  if x.isNaN then 0 else if x < 0 then 0 else if 1 < x then 1 else x

/-- How far apart two degrees are. -/
def distance (x y : Degree) : Degree :=
  (x - y).abs

/-- The spacing of doubles just above `1`: two numbers closer than this count as equal. -/
def tolerance : Degree := Float.ofBits 0x3CB0000000000000

/-- The bit that is set in a negative double. -/
def signBit : Nat := Nat.pow 2 63

/-- The place of a double in the total order of all doubles. The bits of a nonnegative double grow
with its value; those of a negative one grow the other way, so they are counted down from `-1`. -/
def rank (x : Degree) : Int :=
  let bits := x.toBits.toNat
  if bits < signBit then bits else (signBit : Int) - bits - 1

end Degree

end AnnotatedLogic
