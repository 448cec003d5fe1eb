import AnnotatedLogic.Pairing
import AnnotatedLogic.Trace
import AnnotatedLogic.World
/-!
# Changes of a world

One assertion may change several labels of a world: the label it names, and the labels opposite to
it, which get the complement. Here are the three ways to do so; each returns the changes it made.

* `learnAll`: the label learns a bound, and its opposites learn the complement of what it then
  holds. Static opposites are left alone.
* `forceAll`: the bound and its complement are written as they are. Static opposites are left alone.
* `forgetAll`: the label and its opposites become unknown, static or not.
* `firstOpposed?` tells which opposite label would contradict the complement.
-/

namespace AnnotatedLogic

/-- The change of one label of a world. -/
structure Change where
  label : Label
  old : Interval
  new : Interval
  cause : Cause
  /-- Whether the change is not part of the resolution of a contradiction. -/
  consistent : Bool
deriving DecidableEq

namespace World

/-- Changes a world label by label and collects the changes. -/
def changeEach (f : World → Label → World × List Change) (w : World) :
    List Label → World × List Change
  | [] => (w, [])
  | label :: labels =>
    let (w, first) := f w label
    let (w, others) := changeEach f w labels
    (w, first ++ others)

/-- A label learns a bound, for a cause. -/
def learnFor (cause : Cause) (bound : Interval) (w : World) (label : Label) :
    World × List Change :=
  match w.learn label bound with
  | (w, .changed old new) => (w, [⟨label, old, new, cause, true⟩])
  | (w, _) => (w, [])

/-- An opposite label learns the complement, unless it is static. It is there afterwards. -/
def learnOpposite (complement : Interval) (w : World) (label : Label) : World × List Change :=
  if w.isStatic label then (w, [])
  else (w.addLabel label).learnFor .pairing complement label

/-- A label learns a bound and its opposites learn the complement. -/
def learnAll (w : World) (label : Label) (bound : Interval) (opposites : List Label)
    (cause : Cause) : World × List Change :=
  let (w, first) := w.learnFor cause bound label
  let (w, others) := changeEach (learnOpposite bound.complement) w opposites
  (w, first ++ others)

/-- A bound is written whatever the label holds. It is a change if the bounds differ. -/
def forceFor (cause : Cause) (bound : Interval) (w : World) (label : Label) :
    World × List Change :=
  let old := w.bound label
  let w := w.overwrite label bound
  let new := w.bound label
  (w, if old.same new then [] else [⟨label, old, new, cause, true⟩])

/-- The complement is written onto an opposite label, unless the label is static. The label that
was written first is written again if it is paired with itself. -/
def forceOpposite (written : Label) (complement : Interval) (w : World) (label : Label) :
    World × List Change :=
  if label ≠ written ∧ w.isStatic label = true then (w, [])
  else w.forceFor .pairing complement label

/-- A bound is written onto a label and its complement onto the opposites. -/
def forceAll (w : World) (label : Label) (bound : Interval) (opposites : List Label)
    (cause : Cause) : World × List Change :=
  let (w, first) := w.forceFor cause bound label
  let (w, others) := changeEach (forceOpposite label bound.complement) w opposites
  (w, first ++ others)

/-- A label becomes unknown and no longer outlives timesteps. It counts as changed in any case. -/
def forget (cause : Cause) (w : World) (label : Label) : World × List Change :=
  let old := w.bound label
  ((w.overwrite label .unknown).setStatic label false, [⟨label, old, .unknown, cause, false⟩])

/-- A label and its opposites become unknown. -/
def forgetAll (w : World) (label : Label) (opposites : List Label) (cause : Cause) :
    World × List Change :=
  changeEach (forget cause) w (label :: opposites)

/-- The first opposite label whose interval has no degree in common with the complement. -/
def firstOpposed? (w : World) (complement : Interval) (opposites : List Label) : Option Label :=
  opposites.find? fun label => decide ((w.bound label).Disjoint complement)

/-- The largest movement since the last reset among the labels that changed. -/
def movement (w : World) (changes : List Change) : Degree :=
  (changes.map fun c => (w.bound c.label).movement).foldl Degree.larger 0

end World

end AnnotatedLogic
