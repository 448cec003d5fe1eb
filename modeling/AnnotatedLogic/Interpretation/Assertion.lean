import AnnotatedLogic.Config
import AnnotatedLogic.Interpretation.Basic
import AnnotatedLogic.Interpretation.Change
/-!
# Assertions

An assertion is the only way for a bound to enter an interpretation. It narrows the atom it names,
hands the complement to the opposite labels, and follows the policy where the bound contradicts
what is known. It says what changed, for the trace and for the test whether a fixed point is
reached.

* A static atom is frozen: an assertion about it changes nothing.
* `World.judge`: what an assertion would do: nothing new, a narrower interval, or a contradiction
  with the label itself or with the first opposite label that clashes.
* `Interpretation.assert`: the assertion carried out.
-/

namespace AnnotatedLogic

/-- Where a bound comes from. -/
inductive Source where
  | fact
  /-- An attribute of the graph; its changes are traced only on request. -/
  | graphAttribute
  | rule
deriving DecidableEq, Inhabited

/-- The cause that a change by this source has. -/
def Source.cause : Source → Cause
  | rule => .rule
  | fact | graphAttribute => .fact

/-- What an assertion about a component that does not exist amounts to. -/
inductive Missing where
  /-- Nothing changes. -/
  | ignore
  /-- It is an error. -/
  | error
deriving DecidableEq, Inhabited

/-- A bound asserted of an atom. -/
structure Assertion where
  component : Component
  label : Label
  bound : Interval
  time : Nat
  /-- The iteration within the timestep; `0` for facts and delayed rules. -/
  iteration : Nat
  source : Source
  /-- The name of the fact or rule. -/
  name : String
  /-- Whether the value outlives timesteps from now on. -/
  isStatic : Bool
  /-- Whether the bound replaces the stored one instead of narrowing it. -/
  replaces : Bool
  missing : Missing
  support : List Support
deriving DecidableEq

/-- A bound that cannot hold together with what is known. -/
structure Conflict where
  component : Component
  /-- The label of the assertion. -/
  label : Label
  /-- The label whose interval clashes: the same or one opposite to it. -/
  clashing : Label
  existing : Interval
  incoming : Interval
  /-- Whether the policy dealt with the conflict; otherwise nothing was written. -/
  resolved : Bool
deriving DecidableEq

/-- A conflict in messages. -/
def Conflict.text (c : Conflict) : String :=
  "inconsistency on " ++ c.component.text ++ ": " ++ c.label.name ++ " " ++ c.incoming.text
    ++ " cannot hold with " ++ c.clashing.name ++ " " ++ c.existing.text

/-- The message of the trace entries that resolve a conflict. -/
def Conflict.resolution (c : Conflict) : String :=
  c.text ++ "; " ++ c.label.name ++ " and its IPL partners reset to [0,1]"

/-- What an assertion has done. -/
structure Outcome where
  /-- How many atoms changed. -/
  changedAtoms : Nat
  /-- The largest movement since the last reset among them. -/
  movement : Degree
  conflict : Option Conflict
deriving DecidableEq

namespace Outcome

/-- Nothing changed. -/
def nothing : Outcome := ⟨0, 0, none⟩

instance : Inhabited Outcome := ⟨nothing⟩

/-- Whether an atom changed. -/
def changed (o : Outcome) : Bool := o.changedAtoms != 0

/-- The conflict because of which nothing was written. -/
def refusal? (o : Outcome) : Option Conflict := o.conflict.filter fun c => !c.resolved

/-- The change as a convergence criterion measures it. -/
def delta (o : Outcome) : Convergence → Degree
  | .perfect => 0
  | .deltaInterpretation _ => Float.ofNat o.changedAtoms
  | .deltaBound _ => o.movement

end Outcome

/-- The interpretation after an assertion, and what the assertion did. -/
structure Response where
  interpretation : Interpretation
  outcome : Outcome
  entries : List TraceEntry
deriving DecidableEq

/-- What an assertion would do to a world. -/
inductive Verdict where
  /-- The bound says nothing new. -/
  | nothingNew
  /-- The interval of the label narrows to this one. -/
  | narrows (narrowed : Interval)
  /-- The interval of a label clashes with the bound meant for it. -/
  | clashes (label : Label) (existing incoming : Interval)
deriving DecidableEq

/-- What an assertion would do to a world. The label itself is looked at before its opposites, and
an opposite label that is static can clash as well. -/
def World.judge (w : World) (label : Label) (bound : Interval) (opposites : List Label) :
    Verdict :=
  match w.preview label bound with
  | .unchanged => .nothingNew
  | .contradiction existing incoming => .clashes label existing incoming
  | .changed _ new =>
    match w.firstOpposed? new.complement opposites with
    | some opposite => .clashes opposite (w.bound opposite) new.complement
    | none => .narrows new

/-- Whether the changes of an assertion are traced. -/
def Config.traces (config : Config) (source : Source) : Bool :=
  config.atomTrace && (decide (source ≠ .graphAttribute) || config.attributeTrace)

/-- The trace entry of a change. The opposite labels do not repeat the support of the assertion. -/
def Assertion.entry (a : Assertion) (message : String) (c : Change) : TraceEntry where
  time := a.time
  iteration := a.iteration
  component := a.component
  label := c.label
  old := c.old
  new := c.new
  consistent := c.consistent
  cause := c.cause
  name := a.name
  message := message
  support := if c.cause = .pairing then [] else a.support

/-- Marks the label of an assertion as static if the assertion asks for it. -/
def Assertion.freeze (a : Assertion) (w : World) : World :=
  if a.isStatic then w.setStatic a.label true else w

namespace Interpretation

/-- The world of a component after some changes, which are logged and traced. Changes that resolve
a contradiction are not logged: the atom is unknown again. -/
def commit (i : Interpretation) (config : Config) (a : Assertion) (w : World)
    (changes : List Change) (message : String) (conflict : Option Conflict) : Response where
  interpretation :=
    (changes.filter (·.consistent)).foldl (fun i c => i.log a.component c.label)
      (i.putWorld a.component w)
  outcome := ⟨changes.length, w.movement changes, conflict⟩
  entries := if config.traces a.source then changes.map (a.entry message) else []

/-- Carries out an assertion on the world of its component. -/
def assertOn (i : Interpretation) (config : Config) (pairing : Pairing) (a : Assertion)
    (w : World) : Response :=
  let opposites := pairing.partners a.label
  let cause := a.source.cause
  let force (conflict : Option Conflict) : Response :=
    let (w, changes) := w.forceAll a.label a.bound opposites cause
    i.commit config a (a.freeze w) changes "" conflict
  if w.isStatic a.label then ⟨i, .nothing, []⟩
  else if a.replaces then force none
  else
    match w.judge a.label a.bound opposites with
    | .nothingNew => ⟨i.putWorld a.component (a.freeze (w.addLabel a.label)), .nothing, []⟩
    | .narrows narrowed =>
      let (w, changes) := w.learnAll a.label narrowed opposites cause
      i.commit config a (a.freeze w) changes "" none
    | .clashes clashing existing incoming =>
      let conflict : Conflict := ⟨a.component, a.label, clashing, existing, incoming, false⟩
      match config.policy with
      | .abort => ⟨i, { Outcome.nothing with conflict := some conflict }, []⟩
      | .override => force (some { conflict with resolved := true })
      | .resolve =>
        let (w, changes) := w.forgetAll a.label opposites cause
        i.commit config a w changes conflict.resolution
          (some { conflict with resolved := true })

/-- Carries out an assertion. -/
def assert (i : Interpretation) (config : Config) (pairing : Pairing) (a : Assertion) :
    Except Error Response :=
  match i.world? a.component with
  | some w => .ok (i.assertOn config pairing a w)
  | none =>
    match a.missing with
    | .ignore => .ok ⟨i, .nothing, []⟩
    | .error => .error (.unknownComponent a.component)

end Interpretation

end AnnotatedLogic
