import AnnotatedLogic.Proofs.Degree.Distance
import AnnotatedLogic.Proofs.Lattice
import AnnotatedLogic.Proofs.Recording
/-!
# How far bounds have moved

The previous bounds of an interval are those from before the last reset. Nothing else touches them, so
until the next reset the movement of a bound is measured from where the last one found it.

* `Interpretation.bound`: the interval of an atom; one that is not there says nothing.
* `Interpretation.Recalls`: the previous bounds of all atoms are the same in two interpretations.
  `Work.perform_recalls`: no effect changes them, whether it meets, overwrites, resets or creates atoms.
* `Interpretation.altered`: the labels that an assertion changes. `assert_movement` says how many they are
  and how the largest movement among them is measured.
* `Interval.movement_le_zero_iff`: the bounds have not moved if they are the previous ones, and only then.
-/

namespace AnnotatedLogic

/-! ## Intervals -/

namespace Interval

theorem previous_meet (i j : Interval) : (i.meet j).previous = i.previous := by
  obtain ⟨hlower, hupper⟩ := meet_previous i j
  unfold previous
  rw [hlower, hupper]

theorem previous_withBounds (i : Interval) (lower upper : Degree) :
    (i.withBounds lower upper).previous = i.previous := rfl

theorem previous_reset {i : Interval} (h : i.isStatic = false) :
    i.reset.previous = fresh i.lower i.upper := by
  unfold reset
  rw [h]
  rfl

theorem InLattice.proper_of_previous {i : Interval} (hi : i.InLattice) {lower upper : Degree}
    (h : i.previous = fresh lower upper) : Proper lower upper := by
  obtain ⟨rfl, rfl, -⟩ := Interval.mk.inj h
  exact hi.2

theorem inUnit_distance {i j : Interval} (hi : i.IsProper) (hj : j.IsProper) :
    (i.distance j).inUnit = true :=
  Degree.inUnit_larger (Degree.inUnit_distance hi.1 hj.1) (Degree.inUnit_distance hi.2.1 hj.2.1)

/-- The bounds of two intervals are nowhere apart if they are the same, and only then. -/
theorem distance_le_zero_iff {i j : Interval} (hi : i.IsProper) (hj : j.IsProper) :
    i.distance j ≤ 0 ↔ i.same j = true := by
  have hlower := Degree.isNumber_of_inUnit (Degree.inUnit_distance hi.1 hj.1)
  have hupper := Degree.isNumber_of_inUnit (Degree.inUnit_distance hi.2.1 hj.2.1)
  unfold distance same
  rw [Degree.larger_le_iff hlower hupper, Degree.distance_le_zero_iff hi.1 hj.1,
    Degree.distance_le_zero_iff hi.2.1 hj.2.1, Bool.and_eq_true]

theorem movement_le_zero_iff {i : Interval} (hi : i.InLattice) :
    i.movement ≤ 0 ↔ i.same i.previous = true :=
  distance_le_zero_iff hi.1 hi.2

end Interval

/-! ## Worlds -/

namespace World

theorem bound_put (w : World) (label other : Label) (value : Interval) :
    (w.put label value).bound other = if other = label then value else w.bound other := by
  unfold bound
  rw [get?_put]
  split <;> rfl

/-- A reset leaves a label that is not there as it is: nothing is known of it, now or before. -/
theorem bound_reset (w : World) (label : Label) : w.reset.bound label = (w.bound label).reset := by
  unfold bound
  rw [get?_reset]
  cases w.get? label with
  | none => decide +kernel
  | some i => rfl

theorem bound_ofLabels (labels : List Label) (label : Label) :
    (ofLabels labels).bound label = .unknown := by
  unfold bound
  rw [get?_ofLabels]
  split <;> rfl

theorem previous_put {w : World} {label : Label} {i : Interval}
    (h : i.previous = (w.bound label).previous) (other : Label) :
    ((w.put label i).bound other).previous = (w.bound other).previous := by
  rw [bound_put]
  split
  · next heq => rw [heq, h]
  · rfl

/-- No edit changes the previous bounds. -/
theorem Edits.previous {P : Interval → Prop} {w v : World} {changes : List Change}
    (h : Edits P w changes v) (label : Label) :
    (v.bound label).previous = (w.bound label).previous := by
  induction h with
  | refl => rfl
  | @addLabel _ v _ other ih =>
    rw [← ih]
    unfold World.addLabel
    split
    · rfl
    · next hnew =>
      have hnone : v.get? other = none := by simpa [World.contains] using hnew
      exact previous_put (by rw [bound_of_get?_eq_none hnone]) label
  | @setStatic _ v _ other isStatic ih =>
    rw [← ih]
    unfold World.setStatic
    cases hi : v.get? other with
    | none => rfl
    | some i => exact previous_put (by rw [bound_of_get? hi]; rfl) label
  | learn _ _ hnew _ ih =>
    obtain ⟨-, rfl, -, -⟩ := preview_changed hnew
    rw [← ih]
    exact previous_put (Interval.previous_meet ..) label
  | rewrite _ _ _ ih | overwrite _ _ _ _ _ ih =>
    rw [← ih]
    unfold World.overwrite
    exact previous_put (Interval.previous_withBounds ..) label

end World

/-! ## Interpretations -/

namespace Interpretation

/-- The interval of an atom; one that is not there says nothing. -/
def bound (i : Interpretation) (c : Component) (label : Label) : Interval :=
  (i.bound? c label).getD .unknown

theorem bound_of_bound? {i : Interpretation} {c : Component} {label : Label} {b : Interval}
    (h : i.bound? c label = some b) : i.bound c label = b := by
  unfold bound
  rw [h]
  rfl

theorem bound_of_world? {i : Interpretation} {c : Component} {w : World} (h : i.world? c = some w)
    (label : Label) : i.bound c label = w.bound label := by
  unfold bound World.bound
  rw [bound?_of_world? h]

theorem bound_of_world?_eq_none {i : Interpretation} {c : Component} (h : i.world? c = none)
    (label : Label) : i.bound c label = .unknown := by
  unfold bound bound?
  rw [h]
  rfl

theorem All.bound {P : Interval → Prop} {i : Interpretation} (h : i.All P) (hP : Interval.Closed P)
    (c : Component) (label : Label) : P (i.bound c label) := by
  unfold Interpretation.bound
  cases hb : i.bound? c label with
  | none => exact hP.unknown
  | some b => exact h.bound? hb

theorem bound_reset (i : Interpretation) (c : Component) (label : Label) :
    i.reset.bound c label = (i.bound c label).reset := by
  have hreset := i.world?_reset c
  cases h : i.world? c with
  | none =>
    rw [h] at hreset
    rw [bound_of_world?_eq_none hreset, bound_of_world?_eq_none h]
    decide +kernel
  | some w =>
    rw [h] at hreset
    rw [bound_of_world? hreset, bound_of_world? h, w.bound_reset]

/-- The previous bounds of all atoms are the same. -/
def Recalls (i j : Interpretation) : Prop :=
  ∀ c label, (j.bound c label).previous = (i.bound c label).previous

theorem Recalls.trans {i j k : Interpretation} (h : i.Recalls j) (h' : j.Recalls k) : i.Recalls k :=
  fun c label => (h' c label).trans (h c label)

/-- Another world for a component leaves the previous bounds alone if it does so in this world. -/
theorem recalls_putWorld {i : Interpretation} {c : Component} {v : World}
    (h : ∀ label, (v.bound label).previous = (i.bound c label).previous) :
    i.Recalls (i.putWorld c v) := by
  intro d label
  have hworld := i.world?_putWorld c d v
  split at hworld
  · next hd =>
    subst hd
    rw [bound_of_world? hworld, h]
  · unfold bound bound?
    rw [hworld]

theorem recalls_addEdge {i j : Interpretation} {e : Edge} (hfits : i.Fits) (h : i.addEdge e = .ok j) :
    i.Recalls j := by
  rcases addEdge_cases h with ⟨-, rfl⟩ | ⟨he, g, -, -, rfl⟩
  · exact fun _ _ => rfl
  · have hnew : i.world? (.edge e) = none := hfits.world?_new he
    refine recalls_putWorld (i := { i with graph := g }) fun label => ?_
    rw [World.bound_ofLabels, bound_of_world?_eq_none (i := { i with graph := g }) hnew]

theorem recalls_assertOn (config : Config) (pairing : Pairing) {i : Interpretation} {a : Assertion}
    {w : World} (hi : i.world? a.component = some w) :
    i.Recalls (i.assertOn config pairing a w).interpretation := by
  obtain ⟨v, changes, message, hedits, hafter, -⟩ := assertOn_edits (P := fun _ => True)
    Interval.closed_true config pairing hi (fun _ _ _ => trivial) trivial
  rw [hafter, foldl_log]
  refine recalls_putWorld fun label => ?_
  rw [hedits.previous, bound_of_world? hi]

end Interpretation

/-- No effect changes the previous bounds. -/
theorem Work.perform_recalls (config : Config) (pairing : Pairing) {w : Work}
    (hfits : w.interpretation.Fits) (e : Effect) :
    w.interpretation.Recalls (w.perform config pairing e).1.interpretation := by
  rcases w.perform_cases config pairing e with
    ⟨edge, j, -, hadd, hi, -⟩ | ⟨a, v, -, hv, hi, -⟩ | ⟨hi, -⟩ <;> rw [hi]
  · exact Interpretation.recalls_addEdge hfits hadd
  · exact Interpretation.recalls_assertOn config pairing hv
  · exact fun _ _ => rfl

/-- An assertion that is carried out leaves what it leads to, whether it stops the work or not. -/
theorem Work.interpretation_perform {config : Config} {pairing : Pairing} {w : Work} {a : Assertion}
    {response : Response} (h : w.interpretation.assert config pairing a = .ok response) :
    (w.perform config pairing (.assert a)).1.interpretation = response.interpretation := by
  unfold Work.perform
  simp only [h]
  cases response.outcome.refusal? <;> rfl

/-! ## What an assertion changes -/

/-- The same configuration, under which every change is traced. -/
def Config.tracingAll (config : Config) : Config :=
  { config with atomTrace := true, attributeTrace := true }

theorem Config.traces_tracingAll (config : Config) (source : Source) :
    config.tracingAll.traces source = true := by
  unfold Config.traces Config.tracingAll
  simp

namespace Interpretation

/-- The labels that an assertion changes: those of the entries that it adds to a trace of everything. -/
def altered (i : Interpretation) (config : Config) (pairing : Pairing) (a : Assertion) : List Label :=
  match i.assert config.tracingAll pairing a with
  | .ok response => response.entries.map (·.label)
  | .error _ => []

/-- What is traced has no influence on what an assertion does. -/
theorem assertOn_tracingAll (i : Interpretation) (config : Config) (pairing : Pairing) (a : Assertion)
    (w : World) :
    (i.assertOn config.tracingAll pairing a w).interpretation
        = (i.assertOn config pairing a w).interpretation ∧
      (i.assertOn config.tracingAll pairing a w).outcome = (i.assertOn config pairing a w).outcome := by
  have hmatches := i.assertOn_matches (c := config)
    (a := ⟨config.atomTrace, config.attributeTrace, config.retainHistory⟩)
    (b := ⟨true, true, config.retainHistory⟩) pairing (.refl a) w
  exact ⟨hmatches.interpretation.symm, hmatches.outcome.symm⟩

theorem altered_of_world? {i : Interpretation} {a : Assertion} {w : World}
    (hi : i.world? a.component = some w) (config : Config) (pairing : Pairing) :
    i.altered config pairing a
      = (i.assertOn config.tracingAll pairing a w).entries.map (·.label) := by
  unfold altered Interpretation.assert
  rw [hi]

theorem altered_of_world?_eq_none {i : Interpretation} {a : Assertion}
    (hi : i.world? a.component = none) (config : Config) (pairing : Pairing) :
    i.altered config pairing a = [] := by
  unfold altered Interpretation.assert
  simp only [hi]
  cases a.missing <;> rfl

/-- An assertion counts the labels that it changes, and measures how far each of them has moved by then
since the last reset. -/
theorem assert_movement {i : Interpretation} {config : Config} {pairing : Pairing} {a : Assertion}
    {response : Response} (h : i.assert config pairing a = .ok response) :
    response.outcome.changedAtoms = (i.altered config pairing a).length ∧
      response.outcome.movement = ((i.altered config pairing a).map fun label =>
        (response.interpretation.bound a.component label).movement).foldl Degree.larger 0 := by
  unfold Interpretation.assert at h
  cases hi : i.world? a.component with
  | none =>
    rw [hi] at h
    cases hm : a.missing with
    | error =>
      rw [hm] at h
      cases h
    | ignore =>
      rw [hm] at h
      cases h
      rw [altered_of_world?_eq_none hi]
      exact ⟨rfl, rfl⟩
  | some w =>
    rw [hi] at h
    cases h
    obtain ⟨hsame, houtcome⟩ := i.assertOn_tracingAll config pairing a w
    obtain ⟨v, changes, message, -, hafter, hcount, hmovement, hentries⟩ := assertOn_edits
      (P := fun _ => True) Interval.closed_true config.tracingAll pairing hi (fun _ _ _ => trivial)
      trivial
    have htraces := config.traces_tracingAll a.source
    have haltered : i.altered config pairing a = changes.map (·.label) := by
      rw [altered_of_world? hi, hentries, if_pos htraces, List.map_map]
      rfl
    rw [hsame, foldl_log] at hafter
    rw [houtcome] at hcount hmovement
    have hbound (label : Label) :
        (i.assertOn config pairing a w).interpretation.bound a.component label = v.bound label := by
      rw [hafter]
      exact bound_of_world? ((i.world?_putWorld a.component a.component v).trans (if_pos rfl)) label
    refine ⟨by rw [hcount, haltered, List.length_map], ?_⟩
    rw [hmovement, haltered, List.map_map]
    simp only [hbound]
    rfl

end Interpretation

end AnnotatedLogic
