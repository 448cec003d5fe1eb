import AnnotatedLogic.Proofs.Execution
import AnnotatedLogic.Proofs.Horizon
/-!
# What is recorded does not matter

A configuration says whether changes are traced, whether those by attributes of the graph are, and
whether the state after each timestep is retained. All of it is written and nothing is read.

* `Recording`: the part of a configuration that says what is recorded.
* `Recording.Agree`: equal but for the members that support a grounding. Groundings, effects and firings
  under two recordings agree.
* `Work.Matches`, `Reasoner.Matches`: states of two runs that differ only in what they have recorded. If
  one recording is within the other, so is its trace.
* `Work.Matches.perform`, `Reasoner.Matches.timestep`, `runFrom`, `call`: each keeps that, and both ends
  are the same.
* `calls_recording`: so whatever is asked under two recordings is answered alike.
-/

namespace AnnotatedLogic

/-- What is recorded of a run. -/
structure Recording where
  atomTrace : Bool
  attributeTrace : Bool
  retainHistory : Bool

/-- The same configuration with other records. -/
def Config.withRecording (c : Config) (a : Recording) : Config :=
  { c with
    atomTrace := a.atomTrace
    attributeTrace := a.attributeTrace
    retainHistory := a.retainHistory }

namespace Recording

/-- Whatever is traced under the first recording is traced under the second. -/
structure Within (a b : Recording) : Prop where
  atomTrace : a.atomTrace = true → b.atomTrace = true
  attributeTrace : a.attributeTrace = true → b.attributeTrace = true

theorem Within.traces {a b : Recording} (h : a.Within b) {c : Config} {source : Source}
    (ha : (c.withRecording a).traces source = true) : (c.withRecording b).traces source = true := by
  unfold Config.traces Config.withRecording at *
  dsimp only at *
  rw [Bool.and_eq_true, Bool.or_eq_true] at *
  exact ⟨h.atomTrace ha.1, ha.2.imp_right h.attributeTrace⟩

/-- The same without what `bare` takes away, and altogether the same if both recordings trace changes or
neither does. -/
structure Agree {α : Type} (a b : Recording) (bare : α → α) (x y : α) : Prop where
  bare : bare x = bare y
  exact : a.atomTrace = b.atomTrace → x = y

variable {α β : Type} {a b : Recording}

theorem Agree.refl {bare : α → α} (x : α) : Agree a b bare x x := ⟨rfl, fun _ => rfl⟩

/-- Lists that agree do so item by item. -/
theorem Agree.forall₂ {bare : α → α} {xs ys : List α} (h : Agree a b (List.map bare) xs ys) :
    List.Forall₂ (Agree a b bare) xs ys := by
  by_cases htrace : a.atomTrace = b.atomTrace
  · rw [h.exact htrace]
    exact List.forall₂_same.2 fun y _ => .refl y
  · have hbare : List.Forall₂ Eq (xs.map bare) (ys.map bare) := by
      rw [List.forall₂_eq_eq_eq]
      exact h.bare
    rw [List.forall₂_map_left_iff, List.forall₂_map_right_iff] at hbare
    exact hbare.imp fun x y hxy => ⟨hxy, fun heq => absurd heq htrace⟩

/-- What is read off lists that agree agrees, if it is read off the bare items up to bare results. -/
theorem Agree.flatMap {bareA : α → α} {bareB : β → β} {f : α → List β}
    (hf : ∀ x, (f x).map bareB = (f (bareA x)).map bareB) {xs ys : List α}
    (h : Agree a b (List.map bareA) xs ys) :
    Agree a b (List.map bareB) (xs.flatMap f) (ys.flatMap f) := by
  have hbare (zs : List α) :
      (zs.flatMap f).map bareB = (zs.map bareA).flatMap fun x => (f x).map bareB := by
    rw [List.map_flatMap, List.flatMap_map]
    exact List.flatMap_congr fun x _ => hf x
  exact ⟨by rw [hbare, hbare, h.bare], fun htrace => by rw [h.exact htrace]⟩

/-- What two functions read off the same list agrees if it does item by item. -/
theorem Agree.flatMap_same {bare : β → β} {f g : α → List β} {xs : List α}
    (h : ∀ x, Agree a b (List.map bare) (f x) (g x)) :
    Agree a b (List.map bare) (xs.flatMap f) (xs.flatMap g) := by
  refine ⟨?_, fun htrace => List.flatMap_congr fun x _ => (h x).exact htrace⟩
  rw [List.map_flatMap, List.map_flatMap]
  exact List.flatMap_congr fun x _ => (h x).bare

theorem Agree.map {bareA : α → α} {bareB : β → β} {f : α → β} (hf : ∀ x, bareB (f x) = f (bareA x))
    {xs ys : List α} (h : Agree a b (List.map bareA) xs ys) :
    Agree a b (List.map bareB) (xs.map f) (ys.map f) := by
  have hbare (zs : List α) : (zs.map f).map bareB = (zs.map bareA).map f := by
    rw [List.map_map, List.map_map]
    exact List.map_congr_left fun x _ => hf x
  exact ⟨by rw [hbare, hbare, h.bare], fun htrace => by rw [h.exact htrace]⟩

theorem Agree.filter {bare : α → α} {p : α → Bool} (hp : ∀ x, p (bare x) = p x) {xs ys : List α}
    (h : Agree a b (List.map bare) xs ys) :
    Agree a b (List.map bare) (xs.filter p) (ys.filter p) := by
  have hbare (zs : List α) : (zs.filter p).map bare = (zs.map bare).filter p := by
    rw [List.filter_map]
    exact congrArg (List.map bare) (List.filter_congr fun x _ => (hp x).symm)
  exact ⟨by rw [hbare, hbare, h.bare], fun htrace => by rw [h.exact htrace]⟩

theorem Agree.any {bare : α → α} {p : α → Bool} (hp : ∀ x, p (bare x) = p x) {xs ys : List α}
    (h : Agree a b (List.map bare) xs ys) : xs.any p = ys.any p := by
  have hbare (zs : List α) : (zs.map bare).any p = zs.any p := by
    rw [List.any_map]
    exact congrArg zs.any (funext hp)
  rw [← hbare, h.bare, hbare]

theorem Agree.append {bare : α → α} {xs ys us vs : List α} (h : Agree a b (List.map bare) xs ys)
    (h' : Agree a b (List.map bare) us vs) : Agree a b (List.map bare) (xs ++ us) (ys ++ vs) :=
  ⟨by rw [List.map_append, List.map_append, h.bare, h'.bare],
    fun htrace => by rw [h.exact htrace, h'.exact htrace]⟩

end Recording

/-! ## Without the support -/

/-- The grounding without the members that support it. -/
def Grounding.bare (g : Grounding) : Grounding := { g with support := [] }

/-- The assertion without the members that support it. -/
def Assertion.bare (a : Assertion) : Assertion := { a with support := [] }

/-- The effect without the members that support it. -/
def Effect.bare : Effect → Effect
  | link e => link e
  | assert a => assert a.bare

/-- The firing without the members that support it. -/
def Firing.bare (f : Firing) : Firing := { f with grounding := f.grounding.bare }

namespace Rule

/-- What a grounding does, it does without its support as well. -/
theorem effects_bare (r : Rule) (t iteration : Nat) (g : Grounding) :
    (r.effects t iteration g).map Effect.bare = (r.effects t iteration g.bare).map Effect.bare := by
  have hassertion (e : Edge) :
      (r.edgeAssertions g t iteration e).map Assertion.bare
        = (r.edgeAssertions g.bare t iteration e).map Assertion.bare := by
    unfold edgeAssertions
    cases r.inference.bind (·.label) <;> rfl
  have hassert (xs : List Assertion) :
      (xs.map Effect.assert).map Effect.bare = (xs.map Assertion.bare).map Effect.assert := by
    rw [List.map_map, List.map_map]
    rfl
  unfold effects
  rw [show g.bare.edges = g.edges from rfl]
  cases g.edges with
  | nil => rfl
  | cons e edges =>
    have hall : ((e :: edges).flatMap (r.edgeAssertions g t iteration)).map Assertion.bare
        = ((e :: edges).flatMap (r.edgeAssertions g.bare t iteration)).map Assertion.bare := by
      rw [List.map_flatMap, List.map_flatMap]
      exact List.flatMap_congr fun e _ => hassertion e
    dsimp only
    rw [List.map_append, List.map_append, hassert, hassert, hall]

theorem groundingOf_untraced (r : Rule) (atomTrace : Bool) (c : Component) (findings : List Finding) :
    (r.groundingOf atomTrace c findings).map Grounding.bare = r.groundingOf false c findings := by
  unfold groundingOf
  dsimp only
  rcases r.inferred? c findings with _ | _ | _ <;> rfl

/-- Without their support, the groundings of a rule are those that are found where nothing is traced. -/
theorem ground_untraced (r : Rule) (i : Interpretation) (c : Config) (a : Recording) :
    (r.ground i (c.withRecording a)).map Grounding.bare = r.ground i { c with atomTrace := false } := by
  rw [ground_eq, ground_eq, List.map_filterMap]
  congr 1
  funext candidate
  show (r.groundAt i a.atomTrace candidate).map Grounding.bare = r.groundAt i false candidate
  unfold groundAt
  cases i.world? candidate with
  | none => rfl
  | some w =>
    dsimp only
    split
    · cases evaluateAll i (i.graph.surroundings candidate) r.clauses with
      | none => rfl
      | some findings => exact r.groundingOf_untraced a.atomTrace candidate findings
    · rfl

end Rule

open Recording

section

variable {c : Config} {a b : Recording}

theorem Rule.ground_agree (r : Rule) (i : Interpretation) :
    Agree a b (List.map Grounding.bare) (r.ground i (c.withRecording a))
      (r.ground i (c.withRecording b)) := by
  refine ⟨by rw [r.ground_untraced, r.ground_untraced], fun htrace => ?_⟩
  rw [r.ground_eq, r.ground_eq]
  show List.filterMap (r.groundAt i a.atomTrace) _ = List.filterMap (r.groundAt i b.atomTrace) _
  rw [htrace]

theorem Rule.stage_agree (r : Rule) (t iteration : Nat) (i : Interpretation) :
    Agree a b (List.map Effect.bare) (r.stage (c.withRecording a) t iteration i)
      (r.stage (c.withRecording b) t iteration i) :=
  (r.ground_agree i).flatMap (r.effects_bare t iteration)

/-! ## Effects -/

/-- Two assertions have done the same, and what one has traced is part of what the other has. -/
structure Response.Matches (a b : Recording) (r s : Response) : Prop where
  interpretation : r.interpretation = s.interpretation
  outcome : r.outcome = s.outcome
  entries : a.Within b → r.entries.Sublist s.entries

namespace Interpretation

/-- Without the support an assertion is the same one, and it is traced with its support. -/
theorem commit_matches (i : Interpretation) {x : Assertion} {support : List Support}
    (hexact : a.atomTrace = b.atomTrace → x = { x with support := support }) (w : World)
    (changes : List Change) (message : String) (conflict : Option Conflict) :
    Response.Matches a b (i.commit (c.withRecording a) x w changes message conflict)
      (i.commit (c.withRecording b) { x with support := support } w changes message conflict) := by
  refine ⟨rfl, rfl, fun hwithin => ?_⟩
  unfold commit
  dsimp only
  split
  · next ha =>
    have hb := hwithin.traces ha
    have htrace : a.atomTrace = b.atomTrace :=
      (Bool.and_eq_true_iff.1 ha).1.trans (Bool.and_eq_true_iff.1 hb).1.symm
    rw [if_pos hb, ← hexact htrace]
  · exact List.nil_sublist _

theorem assertOn_matches (i : Interpretation) (pairing : Pairing) {x y : Assertion}
    (h : Agree a b Assertion.bare x y) (w : World) :
    Response.Matches a b (i.assertOn (c.withRecording a) pairing x w)
      (i.assertOn (c.withRecording b) pairing y w) := by
  obtain ⟨support, rfl⟩ : ∃ support, y = { x with support := support } := by
    refine ⟨y.support, ?_⟩
    have hbare := h.bare
    cases x
    cases y
    cases hbare
    rfl
  have hidle {r : Response} : Response.Matches a b r r := ⟨rfl, rfl, fun _ => List.Sublist.refl _⟩
  unfold assertOn
  dsimp only [Config.withRecording]
  split
  · exact hidle
  · split
    · exact i.commit_matches h.exact ..
    · split
      · exact hidle
      · exact i.commit_matches h.exact ..
      · split
        · exact hidle
        · exact i.commit_matches h.exact ..
        · exact i.commit_matches h.exact ..

end Interpretation

/-- Equal work but for what has been traced. If one recording is within the other, so is its trace. -/
structure Work.Matches (a b : Recording) (w v : Work) : Prop where
  interpretation : w.interpretation = v.interpretation
  progress : w.progress = v.progress
  trace : a.Within b → w.trace.toList.Sublist v.trace.toList

namespace Work

variable {pairing : Pairing} {w v : Work}

theorem Matches.perform (hw : Matches a b w v) {e f : Effect} (he : Agree a b Effect.bare e f) :
    Matches a b (w.perform (c.withRecording a) pairing e).1 (v.perform (c.withRecording b) pairing f).1 ∧
      (w.perform (c.withRecording a) pairing e).2 = (v.perform (c.withRecording b) pairing f).2 := by
  obtain ⟨i, trace, progress⟩ := w
  obtain ⟨j, other, _⟩ := v
  obtain ⟨rfl, rfl, htrace⟩ := hw
  dsimp only at htrace
  cases e with
  | link e =>
    cases f with
    | assert y => exact absurd he.bare Effect.noConfusion
    | link f =>
      obtain rfl : e = f := Effect.link.inj he.bare
      unfold Work.perform
      dsimp only
      cases i.addEdge e with
      | ok i => exact ⟨⟨rfl, rfl, htrace⟩, rfl⟩
      | error error => exact ⟨⟨rfl, rfl, htrace⟩, rfl⟩
  | assert x =>
    cases f with
    | link f => exact absurd he.bare Effect.noConfusion
    | assert y =>
      have hxy : Agree a b Assertion.bare x y :=
        ⟨Effect.assert.inj he.bare, fun heq => Effect.assert.inj (he.exact heq)⟩
      have hcomponent : x.component = y.component := congrArg (·.component) hxy.bare
      have hmissing : x.missing = y.missing := congrArg (·.missing) hxy.bare
      unfold Work.perform Interpretation.assert
      dsimp only
      rw [hcomponent, hmissing]
      cases i.world? y.component with
      | none =>
        cases y.missing with
        | ignore =>
          have hidle (h : a.Within b) :
              (trace ++ ([] : List TraceEntry)).toList.Sublist (other ++ ([] : List TraceEntry)).toList := by
            simpa using htrace h
          exact ⟨⟨rfl, rfl, hidle⟩, rfl⟩
        | error => exact ⟨⟨rfl, rfl, htrace⟩, rfl⟩
      | some u =>
        have hresponse := i.assertOn_matches (c := c) pairing hxy u
        dsimp only
        generalize i.assertOn (c.withRecording a) pairing x u = r at hresponse
        generalize i.assertOn (c.withRecording b) pairing y u = s at hresponse
        obtain ⟨k, outcome, entries⟩ := r
        obtain ⟨_, _, others⟩ := s
        obtain ⟨rfl, rfl, hentries⟩ := hresponse
        have hboth (h : a.Within b) : (trace ++ entries).toList.Sublist (other ++ others).toList := by
          simpa using (htrace h).append (hentries h)
        dsimp only
        cases outcome.refusal? with
        | none => exact ⟨⟨rfl, rfl, hboth⟩, rfl⟩
        | some conflict => exact ⟨⟨rfl, rfl, hboth⟩, rfl⟩

theorem Matches.performAll (hw : Matches a b w v) {es fs : List Effect}
    (h : Agree a b (List.map Effect.bare) es fs) :
    Matches a b (w.performAll (c.withRecording a) pairing es).1
        (v.performAll (c.withRecording b) pairing fs).1 ∧
      (w.performAll (c.withRecording a) pairing es).2
        = (v.performAll (c.withRecording b) pairing fs).2 :=
  foldUntil_related (R := Matches a b) (S := Agree a b Effect.bare)
    (fun _ _ _ _ hw he => hw.perform he) hw h.forall₂

/-- Work that ends in some way is matched by work that ends in the same way. -/
theorem Matches.ends {x y : Work × Option Halt} (h : Matches a b x.1 y.1 ∧ x.2 = y.2)
    {halt : Option Halt} (hx : x = (w, halt)) : ∃ v, y = (v, halt) ∧ Matches a b w v := by
  subst hx
  exact ⟨y.1, Prod.ext rfl h.2.symm, h.1⟩

end Work

/-! ## Timesteps -/

/-- Equal reasoners but for what is recorded, with the support of the firings to come. If one recording
is within the other, so is its trace; if both retain the history or neither does, it is the same. -/
structure Reasoner.Matches (c : Config) (a b : Recording) (r s : Reasoner) : Prop where
  config : r.config = c.withRecording a ∧ s.config = c.withRecording b
  interpretation : r.interpretation = s.interpretation
  rules : r.rules = s.rules
  facts : r.facts = s.facts
  pairing : r.pairing = s.pairing
  trace : a.Within b → r.trace.toList.Sublist s.trace.toList
  history : a.retainHistory = b.retainHistory → r.history = s.history
  atomCounts : r.atomCounts = s.atomCounts
  pending : Agree a b (List.map Firing.bare) r.pending s.pending
  nextTime : r.nextTime = s.nextTime

/-- Stages that ask for the same effects. -/
def Stage.Matches (a b : Recording) (p q : Stage) : Prop :=
  ∀ i, Agree a b (List.map Effect.bare) (p i) (q i)

namespace Reasoner.Matches

variable {r s : Reasoner}

theorem stages (h : Matches c a b r s) (t iteration : Nat) :
    List.Forall₂ (Stage.Matches a b) (r.stages t iteration) (s.stages t iteration) := by
  unfold Reasoner.stages
  rw [h.config.1, h.config.2, h.rules]
  refine List.rel_append ?_ (.cons (fun i => ?_) .nil)
  · rw [List.forall₂_map_left_iff, List.forall₂_map_right_iff, List.forall₂_same]
    exact fun rule _ i => rule.stage_agree t iteration i
  · exact .flatMap_same fun rule => rule.stage_agree t iteration i

theorem iterate (h : Matches c a b r s) (t iteration : Nat) {w v : Work}
    (hw : Work.Matches a b w v) :
    Work.Matches a b (r.iterate t iteration w).1 (s.iterate t iteration v).1 ∧
      (r.iterate t iteration w).2 = (s.iterate t iteration v).2 := by
  refine foldUntil_related (R := Work.Matches a b) (fun w v p q hw hpq => ?_) hw (h.stages t iteration)
  unfold Work.performStage
  rw [h.config.1, h.config.2, h.pairing, hw.interpretation]
  exact hw.performAll (hpq v.interpretation)

/-- A pass makes the same progress on both sides and ends in the same way. -/
theorem pass (h : Matches c a b r s) (t iteration : Nat) {w v : Work} (hw : Work.Matches a b w v) :
    Work.Matches a b ((r.pass t iteration w).total w) ((s.pass t iteration v).total v) ∧
      (r.pass t iteration w).halt = (s.pass t iteration v).halt ∧
      r.goesOn (r.pass t iteration w) = s.goesOn (s.pass t iteration v) := by
  obtain ⟨hafter, hhalt⟩ := h.iterate t iteration (w := { w with progress := .nothing })
    (v := { v with progress := .nothing }) ⟨hw.interpretation, rfl, hw.trace⟩
  refine ⟨⟨hafter.interpretation, congrArg₂ Progress.merge hw.progress hafter.progress, hafter.trace⟩,
    hhalt, ?_⟩
  unfold goesOn Reasoner.pass
  dsimp only
  rw [hhalt, hafter.progress, h.config.1, h.config.2]
  rfl

/-- The loops match pass by pass, and the criterion stops both after the same one. -/
theorem fixpoint (h : Matches c a b r s) (t more iteration : Nat) {w v : Work}
    (hw : Work.Matches a b w v) :
    Work.Matches a b (r.fixpoint t more iteration w).1 (s.fixpoint t more iteration v).1 ∧
      (r.fixpoint t more iteration w).2 = (s.fixpoint t more iteration v).2 := by
  obtain ⟨htotal, hhalt, hgoes⟩ := h.pass t iteration hw
  induction more generalizing iteration w v with
  | zero =>
    rw [fixpoint_zero, fixpoint_zero]
    exact ⟨htotal, hhalt⟩
  | succ more ih =>
    rw [fixpoint_succ, fixpoint_succ, hgoes]
    split
    · obtain ⟨hnext, hhaltNext, hgoesNext⟩ := h.pass t (iteration + 1) htotal
      exact ih (iteration + 1) htotal hnext hhaltNext hgoesNext
    · exact ⟨htotal, hhalt⟩

theorem factEffects (h : Matches c a b r s) (t : Nat) :
    Agree a b (List.map Effect.bare) (r.factEffects t) (s.factEffects t) := by
  have heq : r.factEffects t = s.factEffects t := by
    unfold Reasoner.factEffects activeFacts
    rw [h.config.1, h.config.2, h.facts]
    rfl
  exact heq ▸ .refl _

theorem dueEffects (h : Matches c a b r s) (t : Nat) :
    Agree a b (List.map Effect.bare) (r.dueEffects t) (s.dueEffects t) := by
  have hdue (f : Firing) : (f.bare.due == t) = (f.due == t) := rfl
  have heffects (f : Firing) : (f.rule.effects t 0 f.grounding).map Effect.bare
      = (f.bare.rule.effects t 0 f.bare.grounding).map Effect.bare :=
    f.rule.effects_bare t 0 f.grounding
  exact (h.pending.filter hdue).flatMap heffects

theorem delayedFirings (h : Matches c a b r s) (t : Nat) (i : Interpretation) :
    Agree a b (List.map Firing.bare) (r.delayedFirings t i) (s.delayedFirings t i) := by
  unfold Reasoner.delayedFirings
  rw [h.config.1, h.config.2, h.rules]
  exact .flatMap_same fun rule =>
    (rule.ground_agree i).map (f := (Firing.mk (t + rule.delay) rule ·)) fun _ => rfl

theorem startWork (h : Matches c a b r s) (t : Nat) :
    Work.Matches a b (r.startWork t) (s.startWork t) := by
  refine ⟨?_, rfl, h.trace⟩
  unfold Reasoner.startWork
  rw [h.config.1, h.config.2, h.interpretation]
  rfl

/-- Carried out on both sides, the effects of a timestep end alike. -/
theorem performAll (h : Matches c a b r s) {w v : Work} (hw : Work.Matches a b w v)
    {es fs : List Effect} (hes : Agree a b (List.map Effect.bare) es fs) :
    Work.Matches a b (w.performAll r.config r.pairing es).1 (v.performAll s.config s.pairing fs).1 ∧
      (w.performAll r.config r.pairing es).2 = (v.performAll s.config s.pairing fs).2 := by
  rw [h.config.1, h.config.2, h.pairing]
  exact hw.performAll hes

theorem spend (h : Matches c a b r s) (t : Nat) : Matches c a b (r.spend t) (s.spend t) := by
  have hdue (f : Firing) : (f.bare.due != t) = (f.due != t) := rfl
  exact { h with pending := h.pending.filter hdue }

theorem withWork (h : Matches c a b r s) {w v : Work} (hw : Work.Matches a b w v) :
    Matches c a b (r.withWork w) (s.withWork v) :=
  { h with interpretation := hw.interpretation, trace := hw.trace }

/-- Where one timestep ends, the other one ends as well, in the same way. -/
theorem timestep (h : Matches c a b r s) (t : Nat) :
    Matches c a b (r.timestep t).1 (s.timestep t).1 ∧ (r.timestep t).2 = (s.timestep t).2 := by
  have hfactsBoth := h.performAll (h.startWork t) (h.factEffects t)
  have hdueBoth {u u' : Work} (hu : Work.Matches a b u u') := h.performAll hu (h.dueEffects t)
  have hmax : r.config.maxIterations = s.config.maxIterations := by rw [h.config.1, h.config.2]; rfl
  have hloopBoth {v v' : Work} (hv : Work.Matches a b v v') :=
    h.fixpoint t (r.config.maxIterations - 1) 1 hv
  rw [hmax] at hloopBoth
  have hpassage := r.timestep_passage t
  generalize r.timestep t = result at hpassage
  cases hpassage with
  | facts hfacts =>
    obtain ⟨w', hfacts', hw⟩ := Work.Matches.ends hfactsBoth hfacts
    rw [(Passage.facts hfacts').eq]
    exact ⟨h.withWork hw, rfl⟩
  | due hfacts hdue =>
    obtain ⟨u', hfacts', hu⟩ := Work.Matches.ends hfactsBoth hfacts
    obtain ⟨w', hdue', hw⟩ := Work.Matches.ends (hdueBoth hu) hdue
    rw [(Passage.due hfacts' hdue').eq]
    exact ⟨(h.spend t).withWork hw, rfl⟩
  | loop hfacts hdue hloop =>
    obtain ⟨u', hfacts', hu⟩ := Work.Matches.ends hfactsBoth hfacts
    obtain ⟨v', hdue', hv⟩ := Work.Matches.ends (hdueBoth hu) hdue
    rw [hmax] at hloop
    obtain ⟨w', hloop', hw⟩ := Work.Matches.ends (hloopBoth hv) hloop
    rw [(Passage.loop hfacts' hdue' hloop').eq]
    exact ⟨(h.spend t).withWork hw, rfl⟩
  | completed hfacts hdue hloop =>
    obtain ⟨u', hfacts', hu⟩ := Work.Matches.ends hfactsBoth hfacts
    obtain ⟨v', hdue', hv⟩ := Work.Matches.ends (hdueBoth hu) hdue
    rw [hmax] at hloop
    obtain ⟨w', hloop', hw⟩ := Work.Matches.ends (hloopBoth hv) hloop
    have hscheduled := h.delayedFirings t w'.interpretation
    rw [(Passage.completed hfacts' hdue' hloop').eq, hw.interpretation]
    exact ⟨{ (h.spend t).withWork hw with pending := (h.spend t).pending.append hscheduled },
      congrArg Except.ok hw.progress⟩

theorem complete (h : Matches c a b r s) (t : Nat) : Matches c a b (r.complete t) (s.complete t) := by
  refine { h with history := fun heq => ?_, atomCounts := ?_, nextTime := rfl }
  · unfold Reasoner.complete
    dsimp only
    rw [h.history heq, h.config.1, h.config.2, h.interpretation]
    show (if a.retainHistory = true then _ else _) = if b.retainHistory = true then _ else _
    rw [heq]
  · unfold Reasoner.complete
    dsimp only
    rw [h.atomCounts, h.interpretation]

theorem hasPending (h : Matches c a b r s) (t horizon : Nat) :
    r.hasPending t horizon = s.hasPending t horizon := by
  have hdue (f : Firing) :
      decide (t < f.bare.due ∧ f.bare.due ≤ horizon) = decide (t < f.due ∧ f.due ≤ horizon) := rfl
  unfold Reasoner.hasPending
  rw [h.facts, h.pending.any hdue]

theorem runFrom (h : Matches c a b r s) (more t : Nat) :
    Matches c a b (r.runFrom more t).1 (s.runFrom more t).1 ∧
      (r.runFrom more t).2 = (s.runFrom more t).2 := by
  obtain ⟨hstates, hresults⟩ := h.timestep t
  induction more generalizing r s t with
  | zero =>
    rcases hr : r.timestep t with ⟨u, halt | progress⟩ <;>
      rcases hs : s.timestep t with ⟨v, halt' | progress'⟩ <;> rw [hr, hs] at hstates hresults
    · rw [runFrom_of_error hr, runFrom_of_error hs]
      exact ⟨hstates, congrArg Except.error (Except.error.inj hresults)⟩
    · cases hresults
    · cases hresults
    · rw [runFrom_zero hr, runFrom_zero hs]
      exact ⟨hstates.complete t, rfl⟩
  | succ more ih =>
    rcases hr : r.timestep t with ⟨u, halt | progress⟩ <;>
      rcases hs : s.timestep t with ⟨v, halt' | progress'⟩ <;> rw [hr, hs] at hstates hresults
    · rw [runFrom_of_error hr, runFrom_of_error hs]
      exact ⟨hstates, congrArg Except.error (Except.error.inj hresults)⟩
    · cases hresults
    · cases hresults
    · have hcomplete := hstates.complete t
      have hconvergence : (u.complete t).config.convergence = (v.complete t).config.convergence := by
        rw [hcomplete.config.1, hcomplete.config.2]
        rfl
      rw [runFrom_succ hr, runFrom_succ hs, hcomplete.hasPending, hconvergence,
        Except.ok.inj hresults]
      split
      · exact ⟨hcomplete, rfl⟩
      · obtain ⟨hnext, hnextResults⟩ := hcomplete.timestep (t + 1)
        exact ih hcomplete (t + 1) hnext hnextResults

end Reasoner.Matches

/-! ## Calls -/

/-- Equal reports but for what is recorded. -/
structure Report.Matches (a b : Recording) (r s : Report) : Prop where
  interpretation : r.interpretation = s.interpretation
  history : a.retainHistory = b.retainHistory → r.history = s.history
  trace : a.Within b → r.trace.toList.Sublist s.trace.toList
  atomCounts : r.atomCounts = s.atomCounts
  timesteps : r.timesteps = s.timesteps
  convergedEarly : r.convergedEarly = s.convergedEarly
  halted : r.halted = s.halted

/-- The same error, or answers that are related. -/
inductive Answers {α β : Type} (R : α → β → Prop) : Except Error α → Except Error β → Prop where
  | ok {x : α} {y : β} (h : R x y) : Answers R (.ok x) (.ok y)
  | error (e : Error) : Answers R (.error e) (.error e)

namespace Reasoner.Matches

variable {r s : Reasoner}

theorem report (h : Matches c a b r s) (early : Bool) (halted : Option Conflict) :
    Report.Matches a b (r.report early halted) (s.report early halted) :=
  ⟨h.interpretation, h.history, h.trace, h.atomCounts, congrArg Array.size h.atomCounts, rfl, rfl⟩

theorem run (h : Matches c a b r s) (more : Nat) :
    Matches c a b (r.run more).1 (s.run more).1 ∧
      Answers (Report.Matches a b) (r.run more).2 (s.run more).2 := by
  obtain ⟨hstates, hresults⟩ := h.runFrom more r.nextTime
  unfold Reasoner.run
  rw [← h.nextTime]
  generalize r.runFrom more r.nextTime = x at hstates hresults
  generalize s.runFrom more r.nextTime = y at hstates hresults
  obtain ⟨u, result⟩ := x
  obtain ⟨v, other⟩ := y
  obtain rfl : result = other := hresults
  rcases result with (conflict | error) | early
  · exact ⟨hstates, .ok (hstates.report false (some conflict))⟩
  · exact ⟨hstates, .error error⟩
  · exact ⟨hstates, .ok (hstates.report early none)⟩

theorem addFact (h : Matches c a b r s) (fact : Fact) :
    Answers (Matches c a b) (r.addFact fact) (s.addFact fact) := by
  unfold Reasoner.addFact
  cases fact.validate with
  | error error => exact .error error
  | ok => exact .ok { h with facts := congrArg (· ++ [fact]) h.facts }

theorem addFacts (h : Matches c a b r s) (facts : List Fact) :
    Matches c a b (r.addFacts facts).1 (s.addFacts facts).1 ∧
      (r.addFacts facts).2 = (s.addFacts facts).2 := by
  induction facts generalizing r s with
  | nil => exact ⟨h, rfl⟩
  | cons fact facts ih =>
    have hfact := h.addFact (fact.shift r.nextTime)
    unfold Reasoner.addFacts
    rw [← h.nextTime]
    generalize r.addFact (fact.shift r.nextTime) = x at hfact
    generalize s.addFact (fact.shift r.nextTime) = y at hfact
    cases hfact with
    | ok hadded => exact ih hadded
    | error error => exact ⟨h, rfl⟩

theorem reasonAgain (h : Matches c a b r s) (extra : Nat) (facts : List Fact) :
    Matches c a b (r.reasonAgain extra facts).1 (s.reasonAgain extra facts).1 ∧
      Answers (Report.Matches a b) (r.reasonAgain extra facts).2 (s.reasonAgain extra facts).2 := by
  obtain ⟨hstates, hresults⟩ := h.addFacts facts
  unfold Reasoner.reasonAgain
  generalize r.addFacts facts = x at hstates hresults
  generalize s.addFacts facts = y at hstates hresults
  obtain ⟨u, result⟩ := x
  obtain ⟨v, other⟩ := y
  obtain rfl : result = other := hresults
  cases result with
  | some error => exact ⟨hstates, .error error⟩
  | none =>
    cases extra with
    | zero => exact ⟨hstates, .ok (hstates.report false none)⟩
    | succ more => exact hstates.run more

theorem call (h : Matches c a b r s) (asked : Call) :
    Matches c a b (r.call asked).1 (s.call asked).1 ∧
      Answers (Option.Rel (Report.Matches a b)) (r.call asked).2 (s.call asked).2 := by
  have hsome {x y : Except Error Report} (hxy : Answers (Report.Matches a b) x y) :
      Answers (Option.Rel (Report.Matches a b)) (x.map some) (y.map some) := by
    cases hxy with
    | ok h => exact .ok (.some h)
    | error error => exact .error error
  cases asked with
  | reason =>
    have htimesteps : r.config.timesteps = s.config.timesteps := by
      rw [h.config.1, h.config.2]
      rfl
    have hrun := h.run s.config.timesteps
    unfold Reasoner.call reason
    rw [htimesteps]
    exact ⟨hrun.1, hsome hrun.2⟩
  | reasonAgain extra facts =>
    obtain ⟨hstates, hanswers⟩ := h.reasonAgain extra facts
    exact ⟨hstates, hsome hanswers⟩
  | addRule rule =>
    cases hv : rule.validate with
    | error error =>
      simp only [Reasoner.call, addRule, hv]
      exact ⟨h, .error error⟩
    | ok u =>
      simp only [Reasoner.call, addRule, hv]
      exact ⟨{ h with rules := congrArg (· ++ [rule]) h.rules }, .ok .none⟩
  | addFact fact =>
    have hfact := h.addFact fact
    unfold Reasoner.call
    dsimp only
    generalize r.addFact fact = x at hfact
    generalize s.addFact fact = y at hfact
    cases hfact with
    | ok hadded => exact ⟨hadded, .ok .none⟩
    | error error => exact ⟨h, .error error⟩
  | setPairing pairing => exact ⟨{ h with pairing := rfl }, .ok .none⟩

theorem calls (h : Matches c a b r s) (asked : List Call) :
    Matches c a b (r.calls asked).1 (s.calls asked).1 ∧
      List.Forall₂ (Answers (Option.Rel (Report.Matches a b))) (r.calls asked).2 (s.calls asked).2 := by
  induction asked generalizing r s with
  | nil => exact ⟨h, .nil⟩
  | cons first rest ih =>
    obtain ⟨hstates, hanswers⟩ := h.call first
    obtain ⟨hlast, hall⟩ := ih hstates
    exact ⟨hlast, .cons hanswers hall⟩

end Reasoner.Matches

end

namespace Reasoner

/-- The same reasoner with other records from now on. -/
def withRecording (r : Reasoner) (a : Recording) : Reasoner :=
  { r with config := r.config.withRecording a }

/-- What is recorded never decides what happens: whatever is asked of a reasoner under two recordings,
the states and answers match call by call. A recording that is within the other has a trace that is part
of the other's. -/
theorem calls_recording (r : Reasoner) (a b : Recording) (asked : List Call) :
    Matches r.config a b ((r.withRecording a).calls asked).1 ((r.withRecording b).calls asked).1 ∧
      List.Forall₂ (Answers (Option.Rel (Report.Matches a b))) ((r.withRecording a).calls asked).2
        ((r.withRecording b).calls asked).2 := by
  have hstart : Matches r.config a b (r.withRecording a) (r.withRecording b) :=
    ⟨⟨rfl, rfl⟩, rfl, rfl, rfl, rfl, fun _ => List.Sublist.refl _, fun _ => rfl, rfl, .refl _, rfl⟩
  exact hstart.calls asked

end Reasoner

end AnnotatedLogic
