import AnnotatedLogic.Proofs.Listing
import AnnotatedLogic.Proofs.Underway
/-!
# What a reasoner keeps account of

A reasoner keeps the graph, the worlds, the number of atoms after each timestep and the snapshots apart,
and each is brought up to date at a place of its own. In every state that calls lead to, they tell of
each other.

* `kept_persists`, `Has.persists`: no call loses an atom, and nothing that happens within one does.
* `Books`: the counts and the snapshots are those of the completed timesteps, and the counts never fall.
* `kept_books`: every call keeps the books.
* `books_tell`: the whole account.
-/

namespace AnnotatedLogic

namespace Reasoner

variable {r : Reasoner}

/-! ## Atoms that do not disappear -/

theorem persists_startWork (r : Reasoner) (t : Nat) :
    r.interpretation.Persists (r.startWork t).interpretation := by
  unfold startWork
  dsimp only
  split
  · exact r.interpretation.persists_reset
  · exact .refl _

theorem Sound.persists_timestep (h : r.Sound) (t : Nat) :
    r.interpretation.Persists (r.timestep t).1.interpretation := by
  obtain ⟨-, -, hpersists⟩ := timestep_invariant (r := r) (t := t)
    (P := fun _ i _ => i.Fits ∧ r.interpretation.Persists i)
    (fun {_ e} _ w hw =>
      ⟨(Work.Over.perform (g := w.interpretation.graph) ⟨hw.1, .refl _⟩ e).fits,
        hw.2.trans (Work.persists_perform hw.1 r.config r.pairing e)⟩)
    (fun hw => hw) ⟨(h.startWork t).fits, r.persists_startWork t⟩
  exact hpersists

/-- No call loses an atom. -/
theorem kept_persists (rules : Rule → Prop) (facts : Fact → Prop) (i : Interpretation) :
    Kept rules facts fun s => s.Sound ∧ i.Persists s.interpretation where
  timestep h := ⟨(h.1.timestep _).1, h.2.trans (h.1.persists_timestep _)⟩
  complete {r _ _} h hs := by
    have hpersists := h.1.persists_timestep r.nextTime
    rw [hs] at hpersists
    exact ⟨(kept_sound rules facts).complete h.1 hs, h.2.trans hpersists⟩
  addRule h hr hv := ⟨(kept_sound rules facts).addRule h.1 hr hv, h.2⟩
  addFact h hf steps hv := ⟨(kept_sound rules facts).addFact h.1 hf steps hv, h.2⟩
  setPairing h pairing := ⟨(kept_sound rules facts).setPairing h.1 pairing, h.2⟩

/-- What a reasoner holds persists in all that its effects find. -/
theorem Has.persists {i : Interpretation} (hi : r.Has i) (h : r.Sound) :
    r.interpretation.Persists i := by
  cases hi with
  | held => exact .refl _
  | @found call x hx =>
    obtain ⟨s, hs, hx⟩ := exists_start_of_mem_callAttempts hx
    obtain ⟨hsound, hstart⟩ :=
      (kept_persists (fun _ => True) (fun _ => True) r.interpretation).callStarts ⟨h, .refl _⟩
        call.brings_any hs
    have hkept : s.KeptByEffects (fun _ => True) fun w => w.interpretation.Fits ∧
        s.interpretation.Persists w.interpretation :=
      { progress := fun hw _ => hw
        perform := fun {w e} hw _ =>
          ⟨(Work.Over.perform (g := w.interpretation.graph) ⟨hw.1, .refl _⟩ e).fits,
            hw.2.trans (Work.persists_perform hw.1 s.config s.pairing e)⟩ }
    have hfound := hkept.timestepAttempts
      ⟨(hsound.startWork s.nextTime).fits, s.persists_startWork s.nextTime⟩
      (fun _ _ => trivial) (fun _ _ => trivial) (fun _ _ _ _ => trivial) x hx
    exact hstart.trans hfound.1.2

/-! ## Counts and snapshots -/

/-- There is a count for each completed timestep. The counts never fall, and none is above the number of
atoms that there are. If snapshots are retained, there is one for each completed timestep, which is of
that time and lists as many atoms as were counted. -/
structure Books (r : Reasoner) : Prop where
  counts : r.atomCounts.size = r.nextTime
  ascending : r.atomCounts.toList.Pairwise (· ≤ ·)
  below : ∀ n ∈ r.atomCounts.toList, n ≤ r.interpretation.atomCount
  snapshots : r.config.retainHistory = true → r.history.size = r.nextTime
  snapshot : r.config.retainHistory = true → ∀ (k : Nat) s, r.history[k]? = some s →
    s.time = k ∧ r.atomCounts[k]? = some s.atoms.length

theorem Books.timestep (h : r.Books) (hsound : r.Sound) (t : Nat) : (r.timestep t).1.Books := by
  have hle : r.interpretation.atomCount ≤ (r.timestep t).1.interpretation.atomCount :=
    (hsound.persists_timestep t).atomCount_le hsound.fits (hsound.timestep t).1.fits
  have hbelow : ∀ n ∈ r.atomCounts.toList, n ≤ (r.timestep t).1.interpretation.atomCount :=
    fun n hn => (h.below n hn).trans hle
  generalize hi : (r.timestep t).1.interpretation = i at hbelow
  rw [timestep_frame, hi]
  exact ⟨h.counts, h.ascending, hbelow, h.snapshots, h.snapshot⟩

/-- A timestep that is completed is entered in the books. -/
theorem Books.complete (h : r.Books) (hfits : r.interpretation.Fits) :
    (r.complete r.nextTime).Books := by
  refine ⟨?_, ?_, ?_, fun hretain => ?_, fun hretain k s hs => ?_⟩
  · show (r.atomCounts.push _).size = r.nextTime + 1
    rw [Array.size_push, h.counts]
  · show (r.atomCounts.push r.interpretation.atomCount).toList.Pairwise (· ≤ ·)
    rw [Array.toList_push, List.pairwise_append]
    refine ⟨h.ascending, by simp, fun n hn m hm => ?_⟩
    rw [List.mem_singleton.1 hm]
    exact h.below n hn
  · show ∀ n ∈ (r.atomCounts.push r.interpretation.atomCount).toList, n ≤ r.interpretation.atomCount
    rw [Array.toList_push]
    intro n hn
    rcases List.mem_append.1 hn with hn | hn
    · exact h.below n hn
    · exact (List.mem_singleton.1 hn).le
  all_goals
    have hhistory : (r.complete r.nextTime).history
        = r.history.push (r.interpretation.snapshot r.nextTime) := if_pos hretain
    have hsize := h.snapshots hretain
  · show _ = r.nextTime + 1
    rw [hhistory, Array.size_push, hsize]
  · rw [hhistory, Array.getElem?_push] at hs
    show s.time = k ∧ (r.atomCounts.push r.interpretation.atomCount)[k]? = some s.atoms.length
    rw [Array.getElem?_push, h.counts]
    rw [hsize] at hs
    split at hs
    · next hk =>
      cases hs
      exact ⟨hk.symm, by rw [if_pos hk]; exact congrArg some hfits.length_atoms.symm⟩
    · next hk =>
      rw [if_neg hk]
      exact h.snapshot hretain k s hs

theorem kept_books (rules : Rule → Prop) (facts : Fact → Prop) :
    Kept rules facts fun r => r.Sound ∧ r.Books where
  timestep h := ⟨(h.1.timestep _).1, h.2.timestep h.1 _⟩
  complete {r s _} h hs := by
    have hsound := (h.1.timestep r.nextTime).1
    have hbooks := h.2.timestep h.1 r.nextTime
    have hnext := r.timestep_nextTime r.nextTime
    rw [hs] at hsound hbooks hnext
    have hentered := hbooks.complete hsound.fits
    rw [show s.nextTime = r.nextTime from hnext] at hentered
    exact ⟨(kept_sound rules facts).complete h.1 hs, hentered⟩
  addRule h hr hv :=
    ⟨(kept_sound rules facts).addRule h.1 hr hv, h.2.counts, h.2.ascending, h.2.below, h.2.snapshots,
      h.2.snapshot⟩
  addFact h hf steps hv :=
    ⟨(kept_sound rules facts).addFact h.1 hf steps hv, h.2.counts, h.2.ascending, h.2.below,
      h.2.snapshots, h.2.snapshot⟩
  setPairing h pairing :=
    ⟨(kept_sound rules facts).setPairing h.1 pairing, h.2.counts, h.2.ascending, h.2.below,
      h.2.snapshots, h.2.snapshot⟩

theorem books_create {graph : Graph} {labelling : Labelling} {config : Config}
    (h : create graph labelling config = .ok r) : r.Books := by
  unfold create at h
  split at h <;> cases h
  exact ⟨rfl, .nil, by simp, fun _ => rfl, by simp⟩

theorem Reachable.books {rules : Rule → Prop} {facts : Fact → Prop} (h : r.Reachable rules facts) :
    r.Books :=
  ((kept_books rules facts).reachable (fun hnew => ⟨sound_create hnew, books_create hnew⟩) h).2

/-! ## Reports -/

/-- The report of a call is about the state that it leads to. -/
theorem report_of_call {c : Call} {report : Report} (h : (r.call c).2 = .ok (some report)) :
    ∃ early halted, report = (r.call c).1.report early halted := by
  cases hrun : r.runOf? c with
  | some run =>
    rw [call_of_runOf? hrun] at h ⊢
    dsimp only at h ⊢
    unfold Reasoner.run at h ⊢
    split at h <;> cases h
    · exact ⟨_, none, rfl⟩
    · exact ⟨false, _, rfl⟩
  | none =>
    cases c with
    | reason => cases hrun
    | reasonAgain extra facts =>
      rw [call_reasonAgain hrun] at h ⊢
      dsimp only at h ⊢
      split at h <;> cases h
      exact ⟨false, none, rfl⟩
    | addRule rule =>
      unfold call at h
      dsimp only at h
      split at h <;> cases h
    | addFact fact =>
      unfold call at h
      dsimp only at h
      split at h <;> cases h
    | setPairing pairing => cases h

/-- In every state that calls lead to, those in the middle of a call included: the worlds are those of
the nodes and then of the edges of the graph; a snapshot lists every atom once, in the order of the
graph and of the label names, and as many as are counted; an edge that is there is not added again; and
no operation changes the nodes, takes away or moves an edge, or loses an atom. The books are kept, no
calls change the nodes, take away or move an edge, or lose an atom, and every report tells of the state
that the call has led to. -/
theorem books_tell {rules : Rule → Prop} {facts : Fact → Prop} (h : r.Reachable rules facts) :
    (∀ i, r.Has i →
      i.worlds.keys = i.graph.nodes.map .node ++ i.graph.edges.map .edge ∧
        (∀ t, (i.snapshot t).Lists i) ∧
        (∀ e ∈ i.graph.edges, i.addEdge e = .ok i) ∧
        r.interpretation.Persists i ∧ i.Persists i.reset ∧
        ∀ config pairing trace progress e,
          i.Persists (Work.perform config pairing ⟨i, trace, progress⟩ e).1.interpretation) ∧
      r.Books ∧
      (∀ cs, r.interpretation.Persists (r.calls cs).1.interpretation) ∧
      ∀ c report, (r.call c).2 = .ok (some report) →
        report.timesteps = (r.call c).1.nextTime ∧ report.atomCounts = (r.call c).1.atomCounts ∧
          report.history = (r.call c).1.history := by
  refine ⟨fun i hi => ?_, h.books, fun cs => ?_, fun c report hreport => ?_⟩
  · have hfits := hi.fits h.sound
    refine ⟨hfits, hfits.lists, fun e he => if_pos (decide_eq_true he), hi.persists h.sound,
      i.persists_reset, fun config pairing trace progress e => ?_⟩
    exact Work.persists_perform (w := ⟨i, trace, progress⟩) hfits config pairing e
  · exact ((kept_persists (fun _ => True) (fun _ => True) r.interpretation).calls
      ⟨h.sound, .refl _⟩ fun c _ => c.brings_any).2
  · obtain ⟨early, halted, rfl⟩ := report_of_call hreport
    have hcounts := ((kept_books (fun _ => True) fun _ => True).call ⟨h.sound, h.books⟩ c.brings_any).2.counts
    exact ⟨hcounts, rfl, rfl⟩

/-- A rule that turns an edge around one timestep later: the edge has its own world then, and the counts
and the snapshots tell of it. -/
theorem books_tell_new_edge :
    let a : Node := ⟨"A"⟩
    let b : Node := ⟨"B"⟩
    let clause : Clause := ⟨.node, ⟨"p"⟩, .certain, default⟩
    let turn : Rule :=
      { Rule.simple .node "turn" ⟨"q"⟩ with
        clauses := [clause], inference := some ⟨.clause 0, .target, none⟩ }
    let here : Fact := ⟨"here", .node b, ⟨"p"⟩, .certain, 0, 0, false, false⟩
    ∃ new, create (Graph.empty.join ⟨a, b⟩) {}
        { Config.standard with timesteps := 1, retainHistory := true } = .ok new ∧
      let r := (new.calls [.addRule turn, .addFact here, .reason]).1
      r.atomCounts.toList = [1, 2] ∧ r.nextTime = 2 ∧ r.history.size = 2 ∧
        r.interpretation.worlds.keys = [.node a, .node b, .edge ⟨a, b⟩, .edge ⟨b, a⟩] ∧
        (r.interpretation.snapshot 2).Lists r.interpretation ∧
        ∀ s, r.history[1]? = some s → s.time = 1 ∧ s.atoms.length = 2 := by
  intro a b clause turn here
  refine ⟨_, rfl, ?_⟩
  intro r
  have hr : r.Reachable (fun _ => True) fun _ => True :=
    (Reachable.create (show create (Graph.empty.join ⟨a, b⟩) {}
      { Config.standard with timesteps := 1, retainHistory := true } = .ok _ from rfl)).calls
      (by simp [Call.Brings])
  obtain ⟨hall, hbooks, -, -⟩ := books_tell hr
  obtain ⟨hkeys, hlists, -⟩ := hall _ .held
  have hcounts : r.atomCounts.toList = [1, 2] := by decide +kernel
  have hgraph : r.interpretation.graph.nodes = [a, b] ∧
      r.interpretation.graph.edges = [⟨a, b⟩, ⟨b, a⟩] := by decide +kernel
  have hretain : r.config.retainHistory = true := by decide +kernel
  have hnext : r.nextTime = 2 := by
    rw [← hbooks.counts, ← Array.length_toList, hcounts]
    rfl
  refine ⟨hcounts, hnext, (hbooks.snapshots hretain).trans hnext, ?_, hlists 2, fun s hs => ?_⟩
  · rw [hkeys, hgraph.1, hgraph.2]
    rfl
  · obtain ⟨htime, hlength⟩ := hbooks.snapshot hretain 1 s hs
    rw [← Array.getElem?_toList, hcounts] at hlength
    exact ⟨htime, (Option.some.inj hlength).symm⟩

end Reasoner

end AnnotatedLogic
