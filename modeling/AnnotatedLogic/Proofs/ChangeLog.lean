import AnnotatedLogic.Proofs.Bounds
import AnnotatedLogic.Proofs.PredicateMap
/-!
# The log of changes

An interpretation logs which atoms have changed since the last reset, and the trace lists every change of
a run. The two are written in different places, and the log also starts anew from what is static at a
reset. Where everything is traced they agree: the log is what was static at the reset, followed by the
changes in the trace that resolve no contradiction. The log itself is kept twice, as lists and as sets,
and these agree as well.

* `Interpretation.Restarted`: interpretations that are new or have just been reset.
  `changed_of_restarted` says what their logs list, `Restarted.inStep` that the sets have the same.
* `TraceEntry.logged`: the atoms that entries of a trace put into the log.
* `Operation`, `operateAll`: effects carried out one after the other, whatever comes of each.
  `operate_log` says what one of them adds to trace and log, `Logs` what several do.
* `inStep_operate`, `inStep_operateAll`: the lists and the sets of the log stay in step.
* `changed_eq_log`: what the log lists after any operations, and what is available.
-/

namespace AnnotatedLogic

/-! ## What is static -/

/-- The components of one kind, in their order. -/
def Graph.ofKind (g : Graph) : ComponentKind → List Component
  | .node => g.nodes.map .node
  | .edge => g.edges.map .edge

theorem Graph.filter_components (g : Graph) (kind : ComponentKind) :
    g.components.filter (fun c => decide (c.kind = kind)) = g.ofKind kind := by
  have hnodes : (g.nodes.map Component.node).filter (fun c => decide (c.kind = kind))
      = if kind = .node then g.nodes.map .node else [] := by
    cases kind <;> simp [List.filter_map, Function.comp_def, Component.kind]
  have hedges : (g.edges.map Component.edge).filter (fun c => decide (c.kind = kind))
      = if kind = .edge then g.edges.map .edge else [] := by
    cases kind <;> simp [List.filter_map, Function.comp_def, Component.kind]
  unfold components ofKind
  rw [List.filter_append, hnodes, hedges]
  cases kind <;> simp

/-- Entries have one for a label that they have, and none for another one. -/
theorem Entries.filter_label {entries : List (Label × Interval)} (h : Ascending entries)
    (label : Label) :
    entries.filter (fun e => decide (e.1 = label))
      = match find? label entries with
        | some i => [(label, i)]
        | none => [] := by
  induction entries with
  | nil => rfl
  | cons e rest ih =>
    obtain ⟨l, i⟩ := e
    obtain ⟨hfirst, hrest⟩ := List.pairwise_cons.1 h
    rw [List.filter_cons, find?]
    by_cases hl : l = label
    · subst hl
      have hnone : rest.filter (fun e => decide (e.1 = l)) = [] := by
        refine List.filter_eq_nil_iff.2 fun e he => ?_
        have hlt : l.name < e.1.name := hfirst e he
        rw [decide_eq_true_iff]
        rintro rfl
        exact String.lt_irrefl _ hlt
      rw [if_pos (by simp), if_pos rfl, hnone]
    · rw [if_neg (by simpa using hl), if_neg hl, ih hrest]

namespace Interpretation

/-- Whether an atom is there and outlives timesteps. -/
def isStatic (i : Interpretation) (c : Component) (label : Label) : Bool :=
  (i.bound? c label).any (·.isStatic)

/-- An interpretation that nothing has happened to since it was made or reset. -/
inductive Restarted : Interpretation → Prop where
  | new (graph : Graph) (labelling : Labelling) : Restarted (.ofGraph graph labelling)
  | reset (i : Interpretation) : Restarted i.reset

/-- What the static atoms of a component put into the log. -/
theorem changed_atomsOf (i : Interpretation) (c : Component) (kind : ComponentKind) (label : Label) :
    ((((i.atomsOf c).filter (·.bound.isStatic)).map fun a => (a.component, a.label)).filter
        fun e => decide (e.1.kind = kind ∧ e.2 = label)).map (·.1)
      = if i.isStatic c label && decide (c.kind = kind) then [c] else [] := by
  unfold atomsOf isStatic bound?
  cases i.world? c with
  | none => rfl
  | some w =>
    have hentries := Entries.filter_label w.ascending label
    have hstatic : (w.entries.map fun e => (⟨c, e.1, e.2⟩ : Atom)).filter (·.bound.isStatic)
        = (w.entries.filter (·.2.isStatic)).map fun e => ⟨c, e.1, e.2⟩ := List.filter_map
    dsimp only
    rw [hstatic, List.map_map, List.filter_map, List.map_map]
    show ((w.entries.filter (·.2.isStatic)).filter fun e => decide (c.kind = kind ∧ e.1 = label)).map
        (fun _ => c)
      = if (Entries.find? label w.entries).any (·.isStatic) && decide (c.kind = kind) then [c] else []
    by_cases hkind : c.kind = kind
    · have hlabel : (w.entries.filter (·.2.isStatic)).filter
            (fun e => decide (c.kind = kind ∧ e.1 = label))
          = (w.entries.filter fun e => decide (e.1 = label)).filter (·.2.isStatic) := by
        rw [List.filter_comm]
        simp only [hkind, true_and]
      rw [hlabel, hentries]
      cases Entries.find? label w.entries with
      | none => rfl
      | some b => cases hb : b.isStatic <;> simp [hb, hkind]
    · simp [hkind]

/-- After a reset, the log lists what is static. -/
theorem changed_reset (i : Interpretation) (kind : ComponentKind) (label : Label) :
    i.reset.changed kind label = (i.reset.graph.ofKind kind).filter (i.reset.isStatic · label) := by
  have hlog : i.reset.predicates = i.predicates.clear.pushAll (i.reset.graph.components.flatMap fun c =>
      ((i.reset.atomsOf c).filter (·.bound.isStatic)).map fun a => (a.component, a.label)) := by
    rw [← List.map_flatMap, ← List.filter_flatMap]
    rfl
  have hmember (c : Component) :
      (if i.reset.isStatic c label && decide (c.kind = kind) then [c] else [])
        = [c].filter fun c => i.reset.isStatic c label && decide (c.kind = kind) := by
    rw [List.filter_cons, List.filter_nil]
  unfold changed
  rw [hlog, PredicateMap.get_pushAll, PredicateMap.get_clear, List.nil_append, List.filter_flatMap,
    List.map_flatMap]
  simp only [changed_atomsOf, hmember]
  rw [← List.filter_flatMap, List.flatMap_singleton', ← List.filter_filter, Graph.filter_components]

/-- What the log of a new interpretation, or of one that has just been reset, lists. -/
theorem changed_of_restarted {i : Interpretation} (h : i.Restarted) (kind : ComponentKind)
    (label : Label) :
    i.changed kind label = (i.graph.ofKind kind).filter (i.isStatic · label) := by
  cases h with
  | new graph labelling =>
    have hnone : (ofGraph graph labelling).changed kind label = [] :=
      PredicateMap.get_clear .empty kind label
    rw [hnone]
    refine (List.filter_eq_nil_iff.2 fun c _ => ?_).symm
    unfold isStatic
    cases hb : (ofGraph graph labelling).bound? c label with
    | none => decide
    | some b =>
      rw [bound?_ofGraph hb]
      decide
  | reset i => exact i.changed_reset kind label

/-- A log that is empty, or has been written anew, says the same in its lists and in its sets. -/
theorem Restarted.inStep {i : Interpretation} (h : i.Restarted) : i.predicates.InStep := by
  cases h with
  | new graph labelling => exact PredicateMap.inStep_empty
  | reset i => exact i.predicates.inStep_clear.pushAll _

/-- Where lists and sets of the log say the same, what is available is what has changed. -/
theorem isAvailable_iff {i : Interpretation} (h : i.predicates.InStep) (c : Component) (label : Label) :
    i.isAvailable c label = true ↔ c ∈ i.changed c.kind label :=
  h.contains_iff c label

/-- A new edge is no change. -/
theorem predicates_addEdge {i j : Interpretation} {e : Edge} (h : i.addEdge e = .ok j) :
    j.predicates = i.predicates := by
  rcases addEdge_cases h with ⟨-, rfl⟩ | ⟨-, g, -, -, rfl⟩ <;> rfl

end Interpretation

/-! ## What effects log -/

/-- The atoms that entries of a trace put into the log, once for each entry. -/
def TraceEntry.logged (entries : List TraceEntry) : List (Component × Label) :=
  (entries.filter (·.consistent)).map fun e => (e.component, e.label)

/-- Every change is traced, whatever it comes from. -/
def Config.TracesAll (config : Config) : Prop :=
  config.atomTrace = true ∧ config.attributeTrace = true

theorem Config.TracesAll.traces {config : Config} (h : config.TracesAll) (source : Source) :
    config.traces source = true := by
  unfold Config.traces
  rw [h.1, h.2, Bool.or_true, Bool.and_true]

/-- An effect with the configuration and the opposite labels under which it is carried out. -/
structure Operation where
  config : Config
  pairing : Pairing
  effect : Effect

namespace Work

/-- Carries out an operation. One that is refused or fails does not keep others from following it. -/
def operate (w : Work) (o : Operation) : Work := (w.perform o.config o.pairing o.effect).1

/-- Carries out operations one after the other. -/
def operateAll (w : Work) (os : List Operation) : Work := os.foldl operate w

/-- The entries of changes put the changes into the log that resolve no contradiction. -/
theorem logged_entries (a : Assertion) (message : String) (changes : List Change) :
    TraceEntry.logged (changes.map (a.entry message))
      = (changes.filter (·.consistent)).map fun change => (a.component, change.label) := by
  unfold TraceEntry.logged
  rw [List.filter_map, List.map_map]
  rfl

/-- An operation goes on with the trace and with the log, and where everything is traced, the entries of the
one tell what goes into the other. -/
theorem operate_log (w : Work) (o : Operation) :
    ∃ (entries : List TraceEntry) (logged : List (Component × Label)),
      (w.operate o).trace = w.trace ++ entries ∧
      (w.operate o).interpretation.predicates = w.interpretation.predicates.pushAll logged ∧
      (o.config.TracesAll → logged = TraceEntry.logged entries) := by
  unfold operate
  rcases w.perform_cases o.config o.pairing o.effect with
    ⟨edge, j, -, hadd, hi, htrace⟩ | ⟨a, v, -, hv, hi, htrace⟩ | ⟨hi, htrace⟩
  · refine ⟨[], [], by rw [htrace]; simp, ?_, fun _ => rfl⟩
    rw [hi, Interpretation.predicates_addEdge hadd]
    rfl
  · obtain ⟨u, changes, message, -, hafter, -, -, hentries⟩ := Interpretation.assertOn_edits
      (P := fun _ => True) Interval.closed_true o.config o.pairing hv (fun _ _ _ => trivial) trivial
    refine ⟨_, (changes.filter (·.consistent)).map fun change => (a.component, change.label), htrace,
      ?_, fun ho => ?_⟩
    · rw [hi, hafter, Interpretation.foldl_log]
      rfl
    · rw [hentries, if_pos (ho.traces a.source), logged_entries]
  · exact ⟨[], [], by rw [htrace]; simp, by rw [hi]; rfl, fun _ => rfl⟩

/-- Whatever is traced, an operation keeps the lists and the sets of the log in step. -/
theorem inStep_operate (w : Work) (o : Operation) (hw : w.interpretation.predicates.InStep) :
    (w.operate o).interpretation.predicates.InStep := by
  obtain ⟨-, logged, -, hlog, -⟩ := w.operate_log o
  rw [hlog]
  exact hw.pushAll logged

theorem inStep_operateAll (w : Work) (os : List Operation) (hw : w.interpretation.predicates.InStep) :
    (w.operateAll os).interpretation.predicates.InStep := by
  induction os generalizing w with
  | nil => exact hw
  | cons o os ih => exact ih (w.operate o) (w.inStep_operate o hw)

/-- The entries that are new in the trace put into the log what is new there. -/
structure Logs (w : Work) (entries : List TraceEntry) (v : Work) : Prop where
  trace : v.trace = w.trace ++ entries
  predicates : v.interpretation.predicates
    = w.interpretation.predicates.pushAll (TraceEntry.logged entries)

theorem Logs.refl (w : Work) : w.Logs [] w := ⟨by simp, rfl⟩

theorem Logs.trans {w v u : Work} {entries others : List TraceEntry} (h : w.Logs entries v)
    (h' : v.Logs others u) : w.Logs (entries ++ others) u := by
  refine ⟨?_, ?_⟩
  · rw [h'.trace, h.trace]
    exact Array.toList_inj.1 (by simp)
  · rw [h'.predicates, h.predicates, ← PredicateMap.pushAll_append]
    simp [TraceEntry.logged]

/-- An operation logs what it traces. -/
theorem logs_operate (w : Work) {o : Operation} (ho : o.config.TracesAll) :
    ∃ entries, w.Logs entries (w.operate o) := by
  obtain ⟨entries, logged, htrace, hlog, hlogged⟩ := w.operate_log o
  exact ⟨entries, htrace, hlogged ho ▸ hlog⟩

/-- Operations log what they trace. -/
theorem logs_operateAll (w : Work) {os : List Operation} (hos : ∀ o ∈ os, o.config.TracesAll) :
    ∃ entries, w.Logs entries (w.operateAll os) := by
  induction os generalizing w with
  | nil => exact ⟨[], .refl w⟩
  | cons o os ih =>
    obtain ⟨entries, hfirst⟩ := w.logs_operate (hos o (by simp))
    obtain ⟨others, hrest⟩ := ih (w.operate o) fun o ho => hos o (by simp [ho])
    exact ⟨entries ++ others, hfirst.trans hrest⟩

/-! ## What the log lists -/

/-- The log lists in addition what the new entries put into it. -/
theorem Logs.changed {w v : Work} {entries : List TraceEntry} (h : w.Logs entries v)
    (kind : ComponentKind) (label : Label) :
    v.interpretation.changed kind label = w.interpretation.changed kind label ++
      (entries.filter fun e =>
        e.consistent && decide (e.component.kind = kind ∧ e.label = label)).map (·.component) := by
  unfold Interpretation.changed
  rw [h.predicates, PredicateMap.get_pushAll]
  unfold TraceEntry.logged
  rw [List.filter_map, List.map_map, List.filter_comm, List.filter_filter]
  rfl

/-- An interpretation is new or has just been reset, and then any effects are carried out, each under a
configuration that traces everything. For every label, the log lists the components whose atom was static
at the beginning, in the order of the graph, and then those of the changes traced since that resolve no
contradiction, change by change. What is available, which the sets of the log tell, is what its lists
have. -/
theorem changed_eq_log {w : Work} (hw : w.interpretation.Restarted) {os : List Operation}
    (hos : ∀ o ∈ os, o.config.TracesAll) :
    ∃ entries : List TraceEntry, (w.operateAll os).trace = w.trace ++ entries ∧
      (∀ kind label, (w.operateAll os).interpretation.changed kind label =
        (w.interpretation.graph.ofKind kind).filter (w.interpretation.isStatic · label)
          ++ (entries.filter fun e =>
            e.consistent && decide (e.component.kind = kind ∧ e.label = label)).map (·.component)) ∧
      ∀ c label, (w.operateAll os).interpretation.isAvailable c label = true ↔
        c ∈ (w.operateAll os).interpretation.changed c.kind label := by
  obtain ⟨entries, hlogs⟩ := w.logs_operateAll hos
  refine ⟨entries, hlogs.trace, fun kind label => ?_,
    Interpretation.isAvailable_iff (w.inStep_operateAll os hw.inStep)⟩
  rw [hlogs.changed, Interpretation.changed_of_restarted hw]

/-- At a reset `q` is static on `b`. Then an edge is added, `a` learns `p` twice, which its opposite label
follows, and a third bound contradicts the second. The last two of the six entries resolve the
contradiction; the log lists the others, and `b` for `q`. So `b` is available for `q` and not for `p`. -/
theorem changed_eq_log_contradiction :
    let a : Component := .node ⟨"a"⟩
    let assertion (bound : Interval) : Assertion :=
      ⟨a, ⟨"p"⟩, bound, 1, 1, .rule, "r", false, false, .error, []⟩
    let config : Config := { Config.standard with atomTrace := true, attributeTrace := true }
    let operation (e : Effect) : Operation := ⟨config, ⟨[(⟨"p"⟩, ⟨"n"⟩)]⟩, e⟩
    let static : Interpretation :=
      (((Interpretation.ofGraph (Graph.build [⟨"a"⟩, ⟨"b"⟩] [] true false) {}).putWorld (.node ⟨"b"⟩)
        ((World.empty.put ⟨"q"⟩ .certain).setStatic ⟨"q"⟩ true))).reset
    let os := [operation (.link ⟨⟨"a"⟩, ⟨"b"⟩⟩), operation (.assert (assertion (.fresh 0.5 1))),
      operation (.assert (assertion .certain)), operation (.assert (assertion .impossible))]
    let w : Work := ⟨static, #[], .nothing⟩
    let v := w.operateAll os
    (v.interpretation.changed .node ⟨"q"⟩ = [.node ⟨"b"⟩] ∧ v.interpretation.changed .node ⟨"p"⟩ = [a, a] ∧
      v.interpretation.changed .node ⟨"n"⟩ = [a, a]) ∧
      (v.interpretation.isAvailable (.node ⟨"b"⟩) ⟨"q"⟩ = true ∧
        v.interpretation.isAvailable (.node ⟨"b"⟩) ⟨"p"⟩ = false) ∧
      v.trace.toList.map (fun e => (e.label.name, e.consistent))
        = [("p", true), ("n", true), ("p", true), ("n", true), ("p", false), ("n", false)] ∧
      ∃ entries : List TraceEntry, v.trace = w.trace ++ entries ∧
        v.interpretation.changed .node ⟨"p"⟩ =
          (static.graph.ofKind .node).filter (static.isStatic · ⟨"p"⟩)
            ++ (entries.filter fun e =>
              e.consistent && decide (e.component.kind = .node ∧ e.label = ⟨"p"⟩)).map (·.component) := by
  intro a assertion config operation static os w v
  have htraces : ∀ o ∈ os, o.config.TracesAll := by
    simp [os, operation, config, Config.TracesAll]
  obtain ⟨entries, htrace, hchanged, havailable⟩ := changed_eq_log (w := w) (.reset _) htraces
  have hlists : v.interpretation.changed .node ⟨"q"⟩ = [.node ⟨"b"⟩] ∧
      v.interpretation.changed .node ⟨"p"⟩ = [a, a] ∧
      v.interpretation.changed .node ⟨"n"⟩ = [a, a] := by decide +kernel
  have hq : v.interpretation.isAvailable (.node ⟨"b"⟩) ⟨"q"⟩ = true := by
    rw [havailable, show Component.kind (.node ⟨"b"⟩) = .node from rfl, hlists.1]
    decide
  have hp : v.interpretation.isAvailable (.node ⟨"b"⟩) ⟨"p"⟩ = false := by
    rw [← Bool.not_eq_true, havailable, show Component.kind (.node ⟨"b"⟩) = .node from rfl, hlists.2.1]
    decide
  exact ⟨hlists, ⟨hq, hp⟩, by decide +kernel, entries, htrace, hchanged .node ⟨"p"⟩⟩

end Work

end AnnotatedLogic
