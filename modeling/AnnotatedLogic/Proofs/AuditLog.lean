import AnnotatedLogic.Proofs.Bounds
/-!
# The trace as an audit log

With all tracing on, the trace entries of a timestep account for every truth value: whoever starts
with the bounds at the beginning of the timestep and follows the entries of an atom arrives at its
bounds at the end, and each entry says rightly what it replaces.

* `Replays`: entries of one atom form a chain between two bounds. A bound that is not there says
  nothing, and an atom may come into being without an entry.
* `World.Edits.records`, `assertOn_records`, `perform_records`: what edits, assertions and effects
  record is such a chain for every atom.
* `Audited`: the entries of a timestep so far; every effect keeps it.
* `timestep_audited`: so the entries of a timestep, completed or stopped, are an audit log.
-/

namespace AnnotatedLogic

open AnnotatedLogic.Interval (IsNumeric same_refl same_trans closed_isNumeric)

/-- The changes, each from an old bound to a new one, lead from one bound to another. A bound that
is not there says nothing. -/
def Replays : Option Interval → List (Interval × Interval) → Option Interval → Prop
  | start, [], none => start = none
  | start, [], some stop => (start.getD .unknown).same stop = true
  | start, (old, new) :: rest, stop =>
    (start.getD .unknown).same old = true ∧ Replays (some new) rest stop

theorem replays_refl {start : Option Interval} (h : ∀ i, start = some i → i.IsNumeric) :
    Replays start [] start := by
  cases start with
  | none => rfl
  | some i => exact same_refl (h i rfl)

/-- A chain may begin at an equal bound. -/
theorem Replays.of_same {start middle : Option Interval} {steps : List (Interval × Interval)}
    {stop : Option Interval} (h : Replays start [] middle) (h' : Replays middle steps stop) :
    Replays start steps stop := by
  cases middle with
  | none =>
    rw [show start = none from h]
    exact h'
  | some m =>
    have hm : (start.getD .unknown).same m = true := h
    cases steps with
    | nil =>
      cases stop with
      | none => cases h'
      | some i => exact same_trans hm h'
    | cons step steps => exact ⟨same_trans hm h'.1, h'.2⟩

theorem Replays.trans {start middle stop : Option Interval}
    {steps others : List (Interval × Interval)} (h : Replays start steps middle)
    (h' : Replays middle others stop) : Replays start (steps ++ others) stop := by
  induction steps generalizing start with
  | nil => exact h.of_same h'
  | cons step steps ih => exact ⟨h.1, ih h.2⟩

/-! ## Worlds -/

namespace World

/-- The changes of one label, from old bounds to new ones. -/
def steps (label : Label) (changes : List Change) : List (Interval × Interval) :=
  (changes.filter fun c => decide (c.label = label)).map fun c => (c.old, c.new)

/-- The changes lead from one world to the other, label by label. -/
def Records (w : World) (changes : List Change) (v : World) : Prop :=
  ∀ label, Replays (w.get? label) (steps label changes) (v.get? label)

theorem Records.trans {w v u : World} {changes others : List Change} (h : w.Records changes v)
    (h' : v.Records others u) : w.Records (changes ++ others) u := by
  intro label
  have hsteps : steps label (changes ++ others) = steps label changes ++ steps label others := by
    unfold steps
    rw [List.filter_append, List.map_append]
  rw [hsteps]
  exact (h label).trans (h' label)

/-- One label is given another interval, and the others stay as they are. -/
theorem records_of_get? {w v : World} (hw : w.All IsNumeric) (label : Label)
    {changes : List Change} (hothers : ∀ other, other ≠ label → v.get? other = w.get? other)
    (hlabel : ∀ c ∈ changes, c.label = label)
    (h : Replays (w.get? label) (changes.map fun c => (c.old, c.new)) (v.get? label)) :
    w.Records changes v := by
  intro other
  unfold steps
  by_cases ho : other = label
  · subst ho
    rw [List.filter_eq_self.2 fun c hc => decide_eq_true (hlabel c hc)]
    exact h
  · rw [hothers other ho, List.filter_eq_nil_iff.2 fun c hc heq =>
      ho ((of_decide_eq_true heq).symm.trans (hlabel c hc))]
    exact replays_refl (hw other)

/-- Edits record what they do. -/
theorem Edits.records {w v : World} {changes : List Change} (h : Edits IsNumeric w changes v)
    (hw : w.All IsNumeric) : w.Records changes v := by
  induction h with
  | refl => exact fun label => replays_refl (hw label)
  | @addLabel changes v h label ih =>
    have hv := h.all closed_isNumeric hw
    have hadd : v.Records [] (v.addLabel label) := by
      refine records_of_get? hv label (fun other ho => ?_) (by simp) ?_
      · rw [get?_addLabel, if_neg ho]
      · rw [get?_addLabel, if_pos rfl]
        exact same_refl (hv.bound closed_isNumeric label)
    simpa using ih.trans hadd
  | @setStatic changes v h label isStatic ih =>
    have hv := h.all closed_isNumeric hw
    have hset : v.Records [] (v.setStatic label isStatic) := by
      refine records_of_get? hv label (fun other ho => ?_) (by simp) ?_
      · rw [get?_setStatic, if_neg ho]
      · rw [get?_setStatic, if_pos rfl]
        cases hl : v.get? label with
        | none => rfl
        | some i => exact same_refl (i := i) (hv label i hl)
    simpa using ih.trans hset
  | @learn changes v h label b old new hb hnew cause ih =>
    have hv := h.all closed_isNumeric hw
    obtain ⟨rfl, rfl, -, -⟩ := preview_changed hnew
    refine ih.trans (records_of_get? hv label (fun other ho => ?_) (by simp) ?_)
    · rw [get?_put, if_neg ho]
    · have hbound := hv.bound closed_isNumeric label
      rw [get?_put, if_pos rfl]
      exact ⟨same_refl hbound, same_refl (closed_isNumeric.meet hbound hb)⟩
  | @rewrite changes v h label b hb hsame ih =>
    have hv := h.all closed_isNumeric hw
    have hwrite : v.Records [] (v.overwrite label b) := by
      refine records_of_get? hv label (fun other ho => ?_) (by simp) ?_
      · rw [get?_overwrite, if_neg ho]
      · have hnew : (v.overwrite label b).get? label = some ((v.overwrite label b).bound label) := by
          rw [bound_overwrite, get?_overwrite, if_pos rfl]
        rw [hnew]
        exact hsame
    simpa using ih.trans hwrite
  | @overwrite changes v h label b new hb hnew cause consistent ih =>
    have hv := h.all closed_isNumeric hw
    refine ih.trans (records_of_get? hv label (fun other ho => ?_) (by simp) ?_)
    · rw [get?_overwrite, if_neg ho]
    · rw [get?_overwrite, if_pos rfl]
      refine ⟨same_refl (hv.bound closed_isNumeric label), ?_⟩
      have hbounds : new.lower = b.lower ∧ new.upper = b.upper := by
        rcases hnew with rfl | ⟨rfl, rfl⟩ <;> exact ⟨rfl, rfl⟩
      have hsame : new.same b = true := by
        unfold Interval.same
        rw [hbounds.1, hbounds.2]
        exact same_refl hb
      exact hsame

end World

/-! ## Interpretations -/

/-- The changes of one atom, from old bounds to new ones. -/
def TraceEntry.steps (c : Component) (label : Label) (entries : List TraceEntry) :
    List (Interval × Interval) :=
  (entries.filter fun e => decide (e.component = c ∧ e.label = label)).map fun e => (e.old, e.new)

namespace Interpretation

/-- The entries lead from one interpretation to the other, atom by atom. -/
def Records (i : Interpretation) (entries : List TraceEntry) (j : Interpretation) : Prop :=
  ∀ c label, Replays (i.bound? c label) (TraceEntry.steps c label entries) (j.bound? c label)

theorem records_refl {i : Interpretation} (h : i.All IsNumeric) : i.Records [] i :=
  fun _ _ => replays_refl fun _ hv => h.bound? hv

theorem Records.trans {i j k : Interpretation} {entries others : List TraceEntry}
    (h : i.Records entries j) (h' : j.Records others k) : i.Records (entries ++ others) k := by
  intro c label
  have hsteps : TraceEntry.steps c label (entries ++ others)
      = TraceEntry.steps c label entries ++ TraceEntry.steps c label others := by
    unfold TraceEntry.steps
    rw [List.filter_append, List.map_append]
  rw [hsteps]
  exact (h c label).trans (h' c label)

/-- The entries of an assertion are about its component only. -/
theorem steps_entry (a : Assertion) (message : String) (changes : List Change) (c : Component)
    (label : Label) :
    TraceEntry.steps c label (changes.map (a.entry message)) =
      if c = a.component then World.steps label changes else [] := by
  unfold TraceEntry.steps World.steps
  rw [List.filter_map, List.map_map]
  split
  · next hc =>
    have hfilter : ((fun e : TraceEntry => decide (e.component = c ∧ e.label = label))
        ∘ a.entry message) = fun change => decide (change.label = label) := by
      funext change
      exact decide_eq_decide.2 (by simp [Assertion.entry, hc])
    rw [hfilter]
    rfl
  · next hc =>
    rw [List.map_eq_nil_iff, List.filter_eq_nil_iff]
    intro change _ heq
    exact hc (of_decide_eq_true heq).1.symm

/-- An assertion whose changes are traced records what it does. -/
theorem assertOn_records {config : Config} (pairing : Pairing) {i : Interpretation} {a : Assertion}
    {w : World} (htraces : config.traces a.source = true) (hi : i.world? a.component = some w)
    (hall : i.All IsNumeric) (ha : a.bound.IsNumeric) :
    i.Records (i.assertOn config pairing a w).entries
        (i.assertOn config pairing a w).interpretation ∧
      ∀ e ∈ (i.assertOn config pairing a w).entries,
        e.time = a.time ∧ e.iteration = a.iteration := by
  have hw := hall a.component w hi
  obtain ⟨v, changes, message, hedits, hafter, -, -, hentries⟩ :=
    assertOn_edits closed_isNumeric config pairing hi hw ha
  rw [hafter, hentries, if_pos htraces, foldl_log]
  constructor
  · intro c label
    show Replays _ _ ((i.putWorld a.component v).bound? c label)
    rw [steps_entry, bound?_putWorld]
    split
    · next hc =>
      rw [hc, bound?_of_world? hi]
      exact hedits.records hw label
    · exact replays_refl fun _ hv => hall.bound? hv
  · intro e he
    obtain ⟨change, -, rfl⟩ := List.mem_map.1 he
    exact ⟨rfl, rfl⟩

/-- A new edge comes with atoms that say nothing, and needs no entry. -/
theorem addEdge_records {i j : Interpretation} {e : Edge} (hfits : i.Fits) (hall : i.All IsNumeric)
    (hadd : i.addEdge e = .ok j) : i.Records [] j := by
  rcases addEdge_cases hadd with ⟨-, rfl⟩ | ⟨he, g, -, -, rfl⟩
  · exact records_refl hall
  · intro c label
    show Replays (i.bound? c label) [] _
    rw [bound?_putWorld]
    split
    · next hc =>
      have hnone : i.bound? c label = none := by
        unfold bound?
        rw [hc, hfits.world?_new he]
        rfl
      rw [hnone, World.get?_ofLabels]
      split
      · exact same_refl closed_isNumeric.unknown
      · rfl
    · exact replays_refl fun _ hv => hall.bound? hv

end Interpretation

/-! ## Timesteps -/

/-- The entries so far of a timestep that started with an interpretation and a trace: they are of
this timestep, in the order of the iterations, and account for the truth values that there are
now. -/
structure Audited (start : Interpretation) (before : Trace) (t iteration : Nat)
    (i : Interpretation) (trace : Trace) : Prop where
  fits : i.Fits
  numeric : i.All IsNumeric
  log : ∃ entries : List TraceEntry, trace = before ++ entries ∧
    (∀ e ∈ entries, e.time = t ∧ e.iteration ≤ iteration) ∧
    entries.Pairwise (fun d e => d.iteration ≤ e.iteration) ∧ start.Records entries i

/-- Entries of the same iteration may follow. -/
theorem Audited.extend {start i j : Interpretation} {before trace : Trace} {t iteration : Nat}
    (h : Audited start before t iteration i trace) (hfits : j.Fits) (hnumeric : j.All IsNumeric)
    {entries : List TraceEntry} (hrecords : i.Records entries j)
    (hentries : ∀ e ∈ entries, e.time = t ∧ e.iteration = iteration) :
    Audited start before t iteration j (trace ++ entries) := by
  obtain ⟨so, hso, hbounds, hsorted, hstart⟩ := h.log
  refine ⟨hfits, hnumeric, so ++ entries, ?_, ?_, ?_, hstart.trans hrecords⟩
  · rw [hso]
    exact Array.ext' (by simp)
  · intro e he
    rcases List.mem_append.1 he with he | he
    · exact hbounds e he
    · exact ⟨(hentries e he).1, Nat.le_of_eq (hentries e he).2⟩
  · refine List.pairwise_append.2 ⟨hsorted, ?_, ?_⟩
    · exact List.pairwise_of_forall_mem_list fun d hd e he => by
        rw [(hentries d hd).2, (hentries e he).2]
    · intro d hd e he
      rw [(hentries e he).2]
      exact (hbounds d hd).2

/-- The effects of an iteration carry its time and its number. -/
theorem Reasoner.Performs.stamp {r : Reasoner} {t iteration : Nat} {a : Assertion}
    (h : r.Performs t iteration (.assert a)) : a.time = t ∧ a.iteration = iteration := by
  have hrule {rule : Rule} {g : Grounding} (he : .assert a ∈ rule.effects t iteration g) :
      a.time = t ∧ a.iteration = iteration := by
    rcases rule.mem_effects_cases he with ⟨edge, hlink⟩ | ⟨c, label, b, hassert, -⟩
    · cases hlink
    · cases hassert
      exact ⟨rfl, rfl⟩
  generalize heffect : Effect.assert a = e at h
  cases h with
  | fact hf =>
    cases heffect
    exact ⟨rfl, rfl⟩
  | due hf he => exact hrule (heffect ▸ he)
  | rule hr hg he => exact hrule (heffect ▸ he)

/-- Every effect of a timestep keeps the audit log, if everything is traced. -/
theorem Audited.perform {r : Reasoner} (hr : r.Carries IsNumeric)
    (hatom : r.config.atomTrace = true) (hattribute : r.config.attributeTrace = true)
    (start : Interpretation) (before : Trace) (t : Nat) :
    r.Keeps t (Audited start before t) := by
  intro iteration e he w hw
  have hcarries := hr.performs closed_isNumeric he
  obtain ⟨hfits, hnumeric⟩ :=
    w.perform_carries closed_isNumeric r.config r.pairing hcarries hw.fits hw.numeric
  rcases w.perform_cases r.config r.pairing e with
    ⟨edge, j, -, hadd, hi, htrace⟩ | ⟨a, v, rfl, hv, hi, htrace⟩ | ⟨hi, htrace⟩
  · rw [hi] at hfits hnumeric
    have hrecords := Interpretation.addEdge_records hw.fits hw.numeric hadd
    have hlinked := hw.extend hfits hnumeric hrecords (by simp)
    rw [Array.appendList_nil] at hlinked
    rw [hi, htrace]
    exact hlinked
  · have htraces : r.config.traces a.source = true := by
      unfold Config.traces
      rw [hatom, hattribute, Bool.or_true, Bool.and_true]
    obtain ⟨hrecords, hstamp⟩ :=
      Interpretation.assertOn_records r.pairing htraces hv hw.numeric hcarries
    obtain ⟨htime, hiteration⟩ := he.stamp
    rw [hi] at hfits hnumeric
    rw [hi, htrace]
    refine hw.extend hfits hnumeric hrecords ?_
    intro entry hentry
    rw [← htime, ← hiteration]
    exact hstamp entry hentry
  · rw [hi, htrace]
    exact hw

namespace Reasoner

/-- With all tracing on, the entries of a timestep, completed or stopped, are an audit log: they are
of this timestep, their iterations do not go back, and those of any one atom lead in a chain from
its bound after the reset to its bound at the end. -/
theorem timestep_audited {r : Reasoner}
    (hr : r.Reachable (Rule.Carries IsNumeric) fun f => f.bound.IsNumeric)
    (hatom : r.config.atomTrace = true) (hattribute : r.config.attributeTrace = true) (t : Nat) :
    ∃ entries : List TraceEntry,
      (r.timestep t).1.trace = r.trace ++ entries ∧
      (∀ e ∈ entries, e.time = t) ∧
      entries.Pairwise (fun d e => d.iteration ≤ e.iteration) ∧
      ∀ c label,
        Replays ((r.startWork t).interpretation.bound? c label)
          (TraceEntry.steps c label entries)
          ((r.timestep t).1.interpretation.bound? c label) := by
  have hcarries := hr.carries closed_isNumeric
  obtain ⟨hfits, hnumeric⟩ := hcarries.startWork closed_isNumeric t
  have hstart : Audited (r.startWork t).interpretation r.trace t 0 (r.startWork t).interpretation
      (r.startWork t).trace :=
    ⟨hfits, hnumeric, [], Array.appendList_nil.symm, by simp, List.Pairwise.nil,
      Interpretation.records_refl hnumeric⟩
  have hnext {iteration : Nat} {i : Interpretation} {trace : Trace}
      (h : Audited (r.startWork t).interpretation r.trace t iteration i trace) :
      Audited (r.startWork t).interpretation r.trace t (iteration + 1) i trace := by
    obtain ⟨entries, htrace, hbounds, hsorted, hrecords⟩ := h.log
    exact ⟨h.fits, h.numeric, entries, htrace,
      fun e he => ⟨(hbounds e he).1, Nat.le_succ_of_le (hbounds e he).2⟩, hsorted, hrecords⟩
  obtain ⟨last, haudited⟩ :=
    timestep_invariant (Audited.perform hcarries hatom hattribute _ _ t) hnext hstart
  obtain ⟨entries, htrace, hbounds, hsorted, hrecords⟩ := haudited.log
  exact ⟨entries, htrace, fun e he => (hbounds e he).1, hsorted, hrecords⟩

/-- One fact about one node: the entries account for what the fact makes of the node. -/
theorem timestep_audited_fact :
    let config := { Config.standard with atomTrace := true, attributeTrace := true }
    let fact : Fact := ⟨"f", .node ⟨"a"⟩, ⟨"p"⟩, .certain, 0, 0, false, false⟩
    ∃ r s : Reasoner, create (Graph.empty.addNode ⟨"a"⟩) {} config = .ok r ∧
      r.addFact fact = .ok s ∧
      ∃ entries : List TraceEntry, (s.timestep 0).1.trace = s.trace ++ entries ∧
        Replays ((s.startWork 0).interpretation.bound? (.node ⟨"a"⟩) ⟨"p"⟩)
          (TraceEntry.steps (.node ⟨"a"⟩) ⟨"p"⟩ entries)
          ((s.timestep 0).1.interpretation.bound? (.node ⟨"a"⟩) ⟨"p"⟩) := by
  intro config fact
  refine ⟨_, _, rfl, rfl, ?_⟩
  have hnew : Reachable (Rule.Carries IsNumeric) (fun f => f.bound.IsNumeric) _ :=
    .create (show create (Graph.empty.addNode ⟨"a"⟩) {} config = .ok _ from rfl)
  have hreachable := hnew.addFact (show fact.bound.IsNumeric by decide) 0
    (show (fact.shift 0).validate = .ok () from rfl)
  obtain ⟨entries, htrace, -, -, hreplays⟩ := timestep_audited hreachable rfl rfl 0
  exact ⟨entries, htrace, hreplays _ _⟩

end Reasoner

end AnnotatedLogic
