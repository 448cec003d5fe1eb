import AnnotatedLogic.Proofs.Bounds
import AnnotatedLogic.Proofs.Rest
/-!
# Quiet work

Work reports how many atoms it has changed. If that is none, it may still have added an edge or a
label, and it may have made a value static. If it has added nothing either, then all of its effects
are at rest: carried out once more, they do nothing at all.

* `Interpretation.AddsNothing`, `Work.Quiet`: no edge and no label is new, and no change is
  reported. Nothing that work adds is taken away later, so every part of quiet work is quiet.
* `Work.perform_quiet`, `Work.performAll_quiet`: what is carried out quietly is at rest afterwards.
* `Work.perform_rests`: an effect at rest does nothing.
* `Work.foldUntil_quiet`: quiet work, one piece after the other.
-/

namespace AnnotatedLogic

namespace Interpretation

/-! ## Nothing is added -/

/-- No edge and no label is new. -/
structure AddsNothing (i j : Interpretation) : Prop where
  edges : j.graph.edges = i.graph.edges
  labels : ∀ c label, i.bound? c label = none → j.bound? c label = none

/-- No edge and no label is gone. The world that a new edge gets may have fewer labels than one that
was there without an edge. -/
structure Extends (i j : Interpretation) : Prop where
  edges : i.graph.edges <+: j.graph.edges
  labels : j.graph.edges = i.graph.edges →
    ∀ c label, j.bound? c label = none → i.bound? c label = none

namespace Extends

variable {i j k : Interpretation}

theorem refl (i : Interpretation) : i.Extends i := ⟨List.prefix_refl _, fun _ _ _ h => h⟩

/-- If nothing is gone and the ends have the same edges, so has everything between them. -/
theorem edges_between (hij : i.Extends j) (hjk : j.Extends k)
    (h : k.graph.edges = i.graph.edges) :
    j.graph.edges = i.graph.edges ∧ k.graph.edges = j.graph.edges := by
  have hlength : j.graph.edges.length ≤ i.graph.edges.length := h ▸ hjk.edges.length_le
  have hj := hij.edges.eq_of_length_le hlength
  exact ⟨hj.symm, h.trans hj⟩

theorem trans (hij : i.Extends j) (hjk : j.Extends k) : i.Extends k := by
  refine ⟨hij.edges.trans hjk.edges, fun hedges c label hk => ?_⟩
  obtain ⟨hj, hk'⟩ := edges_between hij hjk hedges
  exact hij.labels hj c label (hjk.labels hk' c label hk)

/-- If nothing is gone and nothing is added in all, nothing is added on the way. -/
theorem addsNothing_between (hij : i.Extends j) (hjk : j.Extends k) (h : i.AddsNothing k) :
    i.AddsNothing j ∧ j.AddsNothing k := by
  obtain ⟨hj, hk⟩ := edges_between hij hjk h.edges
  exact ⟨⟨hj, fun c label hi => hjk.labels hk c label (h.labels c label hi)⟩,
    ⟨hk, fun c label hnone => h.labels c label (hij.labels hj c label hnone)⟩⟩

end Extends

/-- An edge is added at the end. -/
theorem extends_addEdge {i j : Interpretation} {e : Edge} (h : i.addEdge e = .ok j) :
    i.Extends j := by
  rcases addEdge_cases h with ⟨-, rfl⟩ | ⟨-, g, -, hedges, rfl⟩
  · exact .refl _
  · have hnew : (({ i with graph := g } : Interpretation).putWorld (.edge e)
        (.ofLabels (i.labelling.forEdge e))).graph.edges = i.graph.edges ++ [e] := hedges
    refine ⟨?_, fun hsame => ?_⟩
    · rw [hnew]
      exact List.prefix_append ..
    · rw [hnew] at hsame
      simp at hsame

theorem extends_assertOn (config : Config) (pairing : Pairing) {i : Interpretation} {a : Assertion}
    {w : World} (hi : i.world? a.component = some w) :
    i.Extends (i.assertOn config pairing a w).interpretation := by
  obtain ⟨v, changes, message, hedits, hafter, -, -⟩ := assertOn_edits (P := fun _ => True)
    Interval.closed_true config pairing hi (fun _ _ _ => trivial) trivial
  rw [hafter, foldl_log]
  refine ⟨List.prefix_refl i.graph.edges, fun _ c label hnone => ?_⟩
  have hput : (i.putWorld a.component v).bound? c label = none := hnone
  rw [bound?_putWorld] at hput
  split at hput
  · next hc =>
    rw [hc, bound?_of_world? hi]
    exact hedits.get?_eq_none hput
  · exact hput

end Interpretation

/-! ## Quiet work -/

/-- An effect has nothing left to do. -/
def Effect.Rests (pairing : Pairing) (i : Interpretation) : Effect → Prop
  | .link e => e ∈ i.graph.edges
  | .assert a => ∃ w, i.world? a.component = some w ∧ a.Rests pairing w

/-- An effect like those of rules: it replaces nothing, insists on its component, and asserts a bound
whose ends are in order. -/
def Effect.Ruled : Effect → Prop
  | .link _ => True
  | .assert a => a.replaces = false ∧ a.missing = .error ∧ a.bound.Ordered

theorem Effect.Rests.freezes {pairing : Pairing} {i j : Interpretation} {e : Effect}
    (h : e.Rests pairing i) (hij : i.Freezes j) : e.Rests pairing j := by
  cases e with
  | link e =>
    unfold Effect.Rests at h ⊢
    rwa [hij.graph]
  | assert a =>
    obtain ⟨w, hw, hrests⟩ := h
    obtain ⟨u, hu, hfreezes⟩ := hij.exists_world? hw
    exact ⟨u, hu, hrests.freezes hfreezes⟩

namespace Work

/-- No change is reported, and no edge and no label is new. -/
structure Quiet (w v : Work) : Prop where
  changedAtoms : v.progress.changedAtoms = w.progress.changedAtoms
  addsNothing : w.interpretation.AddsNothing v.interpretation

/-- No change that was reported is taken back, and nothing is gone. -/
structure Grows (w v : Work) : Prop where
  changedAtoms : w.progress.changedAtoms ≤ v.progress.changedAtoms
  extends_ : w.interpretation.Extends v.interpretation

theorem Grows.refl (w : Work) : w.Grows w := ⟨Nat.le_refl _, .refl _⟩

theorem Grows.trans {w v u : Work} (hwv : w.Grows v) (hvu : v.Grows u) : w.Grows u :=
  ⟨hwv.changedAtoms.trans hvu.changedAtoms, hwv.extends_.trans hvu.extends_⟩

/-- The parts of quiet work are quiet. -/
theorem Grows.quiet_between {w v u : Work} (hwv : w.Grows v) (hvu : v.Grows u) (h : w.Quiet u) :
    w.Quiet v ∧ v.Quiet u := by
  obtain ⟨hadds, hadds'⟩ := hwv.extends_.addsNothing_between hvu.extends_ h.addsNothing
  have hle := hwv.changedAtoms
  have hle' := hvu.changedAtoms
  have hsame := h.changedAtoms
  exact ⟨⟨by omega, hadds⟩, ⟨by omega, hadds'⟩⟩

variable {config : Config} {pairing : Pairing}

theorem grows_perform (config : Config) (pairing : Pairing) (w : Work) (e : Effect) :
    w.Grows (w.perform config pairing e).1 := by
  constructor
  · obtain ⟨i, trace, progress⟩ := w
    cases e with
    | link e =>
      unfold perform
      dsimp only
      split <;> exact Nat.le_refl _
    | assert a =>
      unfold perform
      dsimp only
      split
      · exact Nat.le_refl _
      · split
        · exact Nat.le_refl _
        · exact Nat.le_add_right ..
  · rcases w.perform_cases config pairing e with
      ⟨edge, j, -, hadd, hi, -⟩ | ⟨a, v, -, hv, hi, -⟩ | ⟨hi, -⟩
    · rw [hi]
      exact Interpretation.extends_addEdge hadd
    · rw [hi]
      exact Interpretation.extends_assertOn config pairing hv
    · rw [hi]
      exact .refl _

/-- An effect that is carried out quietly does no more than to make a value static, and it is at
rest afterwards. -/
theorem perform_quiet {w v : Work} {e : Effect} (he : e.Ruled)
    (h : w.perform config pairing e = (v, none)) (hquiet : w.Quiet v) :
    w.interpretation.Freezes v.interpretation ∧ e.Rests pairing v.interpretation := by
  obtain ⟨i, trace, progress⟩ := w
  cases e with
  | link e =>
    unfold perform at h
    dsimp only at h
    cases hadd : i.addEdge e with
    | error error =>
      rw [hadd] at h
      cases h
    | ok j =>
      rw [hadd] at h
      cases h
      rcases Interpretation.addEdge_cases hadd with ⟨hmem, rfl⟩ | ⟨-, g, -, hedges, rfl⟩
      · exact ⟨.refl _, hmem⟩
      · have hsame : g.edges = i.graph.edges := hquiet.addsNothing.edges
        rw [hedges] at hsame
        simp at hsame
  | assert a =>
    obtain ⟨hreplaces, hmissing, hordered⟩ := he
    unfold perform Interpretation.assert at h
    dsimp only at h
    cases hw : i.world? a.component with
    | none =>
      rw [hw, hmissing] at h
      cases h
    | some u =>
      rw [hw] at h
      dsimp only at h
      cases hrefusal : (i.assertOn config pairing a u).outcome.refusal? with
      | some conflict =>
        rw [hrefusal] at h
        cases h
      | none =>
        rw [hrefusal] at h
        cases h
        have hchanged : (i.assertOn config pairing a u).outcome.changedAtoms = 0 := by
          have hsame : progress.changedAtoms + (i.assertOn config pairing a u).outcome.changedAtoms
              = progress.changedAtoms := hquiet.changedAtoms
          omega
        refine Interpretation.assertOn_quiet hw hreplaces hordered hchanged hrefusal ?_
        intro label hnone
        refine hquiet.addsNothing.labels a.component label ?_
        rw [Interpretation.bound?_of_world? hw]
        exact hnone

/-- An effect at rest does nothing. -/
theorem perform_rests {w : Work} {e : Effect} (he : e.Ruled) (h : e.Rests pairing w.interpretation)
    (hw : w.progress = .nothing) : w.perform config pairing e = (w, none) := by
  obtain ⟨i, trace, progress⟩ := w
  obtain rfl : progress = .nothing := hw
  cases e with
  | link e =>
    have hmem : i.graph.hasEdge e = true := decide_eq_true h
    unfold perform Interpretation.addEdge
    dsimp only
    rw [if_pos hmem]
  | assert a =>
    obtain ⟨u, hu, hrests⟩ := h
    have habsorb : Progress.nothing.absorb .nothing = .nothing := by decide
    unfold perform Interpretation.assert
    dsimp only at hu ⊢
    rw [hu]
    dsimp only
    rw [Interpretation.assertOn_rests hu he.1 hrests]
    have hnone : Outcome.nothing.refusal? = none := rfl
    dsimp only
    rw [hnone]
    dsimp only
    rw [Array.appendList_nil, habsorb]

/-- Quiet work, one piece after the other, does no more than to make values static, and every piece
is at rest afterwards. -/
theorem foldUntil_quiet {α ε : Type} {step : Work → α → Work × Option ε}
    {R : α → Interpretation → Prop} {xs : List α}
    (hgrows : ∀ (w : Work) x, w.Grows (step w x).1)
    (hfreezes : ∀ {x i j}, R x i → i.Freezes j → R x j)
    (hstep : ∀ x ∈ xs, ∀ {w v}, step w x = (v, none) → w.Quiet v →
      w.interpretation.Freezes v.interpretation ∧ R x v.interpretation)
    {w v : Work} (h : foldUntil step w xs = (v, none)) (hquiet : w.Quiet v) :
    w.interpretation.Freezes v.interpretation ∧ ∀ x ∈ xs, R x v.interpretation := by
  induction xs generalizing w with
  | nil =>
    cases h
    exact ⟨.refl _, by simp⟩
  | cons x xs ih =>
    have hfirst := hgrows w x
    rw [foldUntil] at h
    rcases hx : step w x with ⟨u, _ | reason⟩
    · rw [hx] at h hfirst
      dsimp only at h hfirst
      have hrest : u.Grows v := by
        have hfold := foldUntil_trans (R := Grows) Grows.refl Grows.trans hgrows u xs
        rwa [h] at hfold
      -- The first piece and all others together grow, so both are quiet.
      obtain ⟨hquiet', hquiet''⟩ := hfirst.quiet_between hrest hquiet
      obtain ⟨hkept, hrests⟩ := hstep x (by simp) hx hquiet'
      obtain ⟨hkept', hrests'⟩ := ih (fun y hy => hstep y (by simp [hy])) h hquiet''
      refine ⟨hkept.trans hkept', fun y hy => ?_⟩
      rcases List.mem_cons.1 hy with rfl | hy
      · exact hfreezes hrests hkept'
      · exact hrests' y hy
    · rw [hx] at h
      cases h

/-- Effects that are carried out quietly are at rest afterwards. -/
theorem performAll_quiet {w v : Work} {effects : List Effect} (he : ∀ e ∈ effects, e.Ruled)
    (h : w.performAll config pairing effects = (v, none)) (hquiet : w.Quiet v) :
    w.interpretation.Freezes v.interpretation ∧
      ∀ e ∈ effects, e.Rests pairing v.interpretation :=
  foldUntil_quiet (R := fun e i => e.Rests pairing i) (grows_perform config pairing)
    Effect.Rests.freezes (fun e hmem _ _ => perform_quiet (he e hmem)) h hquiet

theorem grows_performAll (config : Config) (pairing : Pairing) (w : Work) (effects : List Effect) :
    w.Grows (w.performAll config pairing effects).1 :=
  foldUntil_trans (R := Grows) Grows.refl Grows.trans (grows_perform config pairing) w effects

end Work

end AnnotatedLogic
