import AnnotatedLogic.Grounding
/-!
# What groundings read

Grounding a rule looks at the bounds of truth values. What an interval carries beside its bounds
does not matter, except that a static target keeps a rule away.

* `Interval.bare`: an interval with nothing but its bounds.
* `Interpretation.Alike`: interpretations with the same graph, the same log and the same bounds.
* `headBound_bare`: a head is computed from bare intervals.
* `evaluateAll_alike`, `groundAt_alike`: clauses find the same in interpretations that are alike,
  and a rule has the same grounding where it is admitted in both.
-/

namespace AnnotatedLogic

/-- The interval with nothing but its bounds. -/
def Interval.bare (i : Interval) : Interval := .fresh i.lower i.upper

/-- What a clause found, with nothing but the bounds of the intervals. -/
def Matched.bare (m : Matched) : Matched := ⟨m.intervals.map Interval.bare, m.population⟩

/-- What a clause found, with nothing but the bounds of the intervals. -/
def Finding.bare (f : Finding) : Finding := ⟨f.matched.bare, f.support⟩

/-! ## Heads -/

namespace AnnotationFunction

theorem means?_bare (intervals : List Interval) :
    means? (intervals.map Interval.bare) = means? intervals := by
  have hsums : sums (intervals.map Interval.bare) = sums intervals := by
    unfold sums
    rw [List.foldl_map]
    rfl
  unfold means?
  rw [hsums, List.isEmpty_map, List.length_map]

theorem picked_bare (pick : Degree → Degree → Degree) (intervals : List Interval) :
    picked pick (intervals.map Interval.bare) = picked pick intervals := by
  cases intervals with
  | nil => rfl
  | cons first rest =>
    rw [List.map_cons, picked, picked, List.foldl_map]
    rfl

theorem weigh_bare (weights : List Float) (matched : List Matched) (acc : Float × Float) :
    weigh weights (matched.map Matched.bare) acc = weigh weights matched acc := by
  induction matched generalizing weights acc with
  | nil => rfl
  | cons m ms ih =>
    have hfraction : m.bare.fraction = m.fraction := by
      unfold Matched.fraction Matched.qualified Matched.bare
      rw [List.length_map]
    have hmeans : means? m.bare.intervals = means? m.intervals := means?_bare m.intervals
    rw [List.map_cons]
    unfold weigh
    rw [hfraction, hmeans, ih]

/-- A bound is computed from bare intervals. -/
theorem apply_bare (f : AnnotationFunction) (matched : List Matched) (weights : List Float)
    (bias : Float) :
    f.apply (matched.map Matched.bare) weights bias = f.apply matched weights bias := by
  have hintervals : (matched.map Matched.bare).flatMap (·.intervals)
      = (matched.flatMap (·.intervals)).map Interval.bare := by
    rw [List.flatMap_map, List.map_flatMap]
    rfl
  have huppers (intervals : List Interval) :
      (intervals.map Interval.bare).map (·.upper) = intervals.map (·.upper) := by
    rw [List.map_map]
    rfl
  unfold apply
  rw [hintervals]
  dsimp only
  rw [means?_bare, picked_bare, picked_bare, weigh_bare, huppers]

end AnnotationFunction

theorem Rule.headBound_bare (r : Rule) (findings : List Finding) :
    r.headBound (findings.map Finding.bare) = r.headBound findings := by
  have hmatched : (findings.map Finding.bare).map (·.matched)
      = (findings.map (·.matched)).map Matched.bare := by
    rw [List.map_map, List.map_map]
    rfl
  unfold headBound
  rw [hmatched]
  simp only [AnnotationFunction.apply_bare]

/-- The edges that a rule adds depend on the members that qualify, not on their intervals. -/
theorem EdgeInference.edges_bare (inference : EdgeInference) (n : Node) (findings : List Finding) :
    inference.edges n (findings.map Finding.bare) = inference.edges n findings := by
  have hnodes (e : Endpoint) : e.nodes n (findings.map Finding.bare) = e.nodes n findings := by
    cases e with
    | target => rfl
    | clause index =>
      rw [Endpoint.nodes, Endpoint.nodes, List.getElem?_map]
      cases findings[index]? <;> rfl
  unfold edges
  rw [hnodes, hnodes]

theorem Rule.groundingOf_bare (r : Rule) (atomTrace : Bool) (c : Component)
    (findings : List Finding) :
    r.groundingOf atomTrace c (findings.map Finding.bare) = r.groundingOf atomTrace c findings := by
  have hinferred : r.inferred? c (findings.map Finding.bare) = r.inferred? c findings := by
    unfold inferred?
    simp only [EdgeInference.edges_bare]
  have hsupport : (findings.map Finding.bare).map (·.support) = findings.map (·.support) := by
    rw [List.map_map]
    rfl
  unfold groundingOf
  rw [hinferred, hsupport, Rule.headBound_bare]

/-! ## Interpretations that are alike -/

/-- The same labels with the same bounds. -/
def World.Alike (w v : World) : Prop :=
  ∀ label, (w.get? label).map Interval.bare = (v.get? label).map Interval.bare

theorem World.Alike.satisfies {w v : World} (h : w.Alike v) (label : Label) (b : Interval) :
    w.satisfies label b = v.satisfies label b := by
  have hl := h label
  unfold World.satisfies
  cases hw : w.get? label with
  | none =>
    cases hv : v.get? label with
    | none => rfl
    | some j =>
      rw [hw, hv] at hl
      cases hl
  | some i =>
    cases hv : v.get? label with
    | none =>
      rw [hw, hv] at hl
      cases hl
    | some j =>
      rw [hw, hv] at hl
      have hbare : i.bare = j.bare := Option.some.inj hl
      have hcontains : b.Contains i = b.Contains j := by
        show b.Contains i.bare = b.Contains j.bare
        rw [hbare]
      simp only [hcontains]

theorem Rule.meetsCriteria_alike {w v : World} (h : w.Alike v) (r : Rule) :
    r.meetsCriteria w = r.meetsCriteria v := by
  unfold meetsCriteria
  simp only [h.satisfies]

namespace Interpretation

/-- The same graph, the same log and, where one has a world, worlds that are alike. -/
structure Alike (i j : Interpretation) : Prop where
  graph : i.graph = j.graph
  predicates : i.predicates = j.predicates
  worlds : ∀ c, Option.Rel World.Alike (i.world? c) (j.world? c)

variable {i j : Interpretation}

theorem Alike.bound? (h : i.Alike j) (c : Component) (label : Label) :
    (i.bound? c label).map Interval.bare = (j.bound? c label).map Interval.bare := by
  have hc := h.worlds c
  unfold Interpretation.bound?
  generalize i.world? c = w at hc
  generalize j.world? c = v at hc
  cases hc with
  | none => rfl
  | some hworlds => exact hworlds label

end Interpretation

namespace Clause

variable {i j : Interpretation}

/-- A member qualifies in both interpretations or in none, with the same bounds. -/
theorem qualifying?_alike (h : i.Alike j) (c : Clause) (member : Component) :
    (c.qualifying? i member).map Interval.bare = (c.qualifying? j member).map Interval.bare := by
  have hfilter (o : Option Interval) :
      (o.filter fun v => decide (c.bound.Contains v)).map Interval.bare
        = (o.map Interval.bare).filter fun v => decide (c.bound.Contains v) := by
    cases o with
    | none => rfl
    | some v =>
      by_cases hv : c.bound.Contains v
      · have hbare : c.bound.Contains v.bare := hv
        simp [Option.filter, hv, hbare]
      · have hbare : ¬ c.bound.Contains v.bare := hv
        simp [Option.filter, hv, hbare]
  unfold qualifying?
  rw [hfilter, hfilter, h.bound?]

theorem population_alike (h : i.Alike j) {α : Type} (c : Clause) (component : α → Component)
    (members : List α) : c.population i component members = c.population j component members := by
  unfold population Interpretation.isAvailable
  rw [h.predicates]

/-- What a clause selects, with nothing but the bounds of the intervals. -/
theorem select_alike (h : i.Alike j) {α : Type} (c : Clause) (component : α → Component)
    (members : List α) :
    (c.select i component members).map (fun s => (s.1, s.2.bare))
      = (c.select j component members).map (fun s => (s.1, s.2.bare)) := by
  have hpair (o : Option Interval) (m : α) :
      (o.map (m, ·)).map (fun e => (e.1, e.2.bare)) = (o.map Interval.bare).map (m, ·) := by
    cases o <;> rfl
  have hfirst (found : List (α × Interval)) :
      found.map (·.1) = (found.map fun e => (e.1, e.2.bare)).map (·.1) := by
    rw [List.map_map]
    rfl
  have hsecond (found : List (α × Interval)) :
      (found.map (·.2)).map Interval.bare = (found.map fun e => (e.1, e.2.bare)).map (·.2) := by
    rw [List.map_map, List.map_map]
    rfl
  unfold select
  dsimp only
  rw [c.population_alike h]
  generalize c.population j component members = population
  have hfound : (population.filterMap fun m => (c.qualifying? i (component m)).map (m, ·)).map
        (fun e => (e.1, e.2.bare))
      = (population.filterMap fun m => (c.qualifying? j (component m)).map (m, ·)).map
        (fun e => (e.1, e.2.bare)) := by
    rw [List.map_filterMap, List.map_filterMap]
    congr 1
    funext m
    rw [hpair, hpair, c.qualifying?_alike h]
  generalize (population.filterMap fun m => (c.qualifying? i (component m)).map (m, ·)) = found
    at hfound
  generalize (population.filterMap fun m => (c.qualifying? j (component m)).map (m, ·)) = others
    at hfound
  have hlength : found.length = others.length := by
    have hlen := congrArg List.length hfound
    rwa [List.length_map, List.length_map] at hlen
  rw [hlength]
  have hmembers : found.map (·.1) = others.map (·.1) := by rw [hfirst, hfound, ← hfirst]
  have hbare (n : Nat) : Matched.bare ⟨found.map (·.2), n⟩ = Matched.bare ⟨others.map (·.2), n⟩ := by
    unfold Matched.bare
    rw [hsecond, hfound, ← hsecond]
  split
  · show some (_, Matched.bare _) = some (_, Matched.bare _)
    rw [hmembers, hbare]
  · rfl

theorem evaluate_alike (h : i.Alike j) (c : Clause) (s : Surroundings) :
    (c.evaluate i s).map Finding.bare = (c.evaluate j s).map Finding.bare := by
  have hbare {α : Type} (f : List α × Matched → Finding)
      (hf : ∀ members m, (f (members, m)).bare = f (members, m.bare))
      (o : Option (List α × Matched)) :
      (o.map f).map Finding.bare = (o.map fun s => (s.1, s.2.bare)).map f := by
    cases o with
    | none => rfl
    | some s => exact congrArg some (hf s.1 s.2)
  unfold evaluate
  cases c.kind with
  | node =>
    dsimp only
    rw [hbare _ fun _ _ => rfl, c.select_alike h, ← hbare _ fun _ _ => rfl]
  | edge =>
    dsimp only
    rw [hbare _ fun _ _ => rfl, c.select_alike h, ← hbare _ fun _ _ => rfl]

end Clause

theorem evaluateAll_alike {i j : Interpretation} (h : i.Alike j) (s : Surroundings)
    (clauses : List Clause) :
    (evaluateAll i s clauses).map (List.map Finding.bare)
      = (evaluateAll j s clauses).map (List.map Finding.bare) := by
  have hall (k : Interpretation) (c : Clause) (cs : List Clause) :
      (evaluateAll k s (c :: cs)).map (List.map Finding.bare)
        = ((c.evaluate k s).map Finding.bare).bind fun finding =>
            ((evaluateAll k s cs).map (List.map Finding.bare)).map (finding :: ·) := by
    rw [evaluateAll]
    cases c.evaluate k s with
    | none => rfl
    | some finding => cases evaluateAll k s cs <;> rfl
  induction clauses with
  | nil => rfl
  | cons c cs ih => rw [hall, hall, c.evaluate_alike h, ih]

/-- A rule that both interpretations admit at a component has the same grounding there. -/
theorem Rule.groundAt_alike {i j : Interpretation} (h : i.Alike j) {r : Rule} {atomTrace : Bool}
    {c : Component} {w v : World} (hw : i.world? c = some w) (hv : j.world? c = some v)
    (hadmits : r.admits c w = r.admits c v) :
    r.groundAt i atomTrace c = r.groundAt j atomTrace c := by
  have hfindings := evaluateAll_alike h (i.graph.surroundings c) r.clauses
  have hbind (o : Option (List Finding)) : o.bind (r.groundingOf atomTrace c)
      = (o.map (List.map Finding.bare)).bind (r.groundingOf atomTrace c) := by
    cases o with
    | none => rfl
    | some findings => exact (r.groundingOf_bare atomTrace c findings).symm
  unfold groundAt
  rw [hw, hv]
  dsimp only
  rw [hadmits, hbind, hfindings, ← hbind, h.graph]

end AnnotatedLogic
