import AnnotatedLogic.Proofs.Arising
import AnnotatedLogic.Proofs.Below
import AnnotatedLogic.Rows
/-!
# Rows and queries

A query reads the world of a component. The rows of an export come out of a snapshot, which goes through the
graph, and they are sorted. Both say the same of every atom.

* `Degree.rank_inj`: only equal degrees have the same place in the order of rows.
* `filter_mergeSort`: sorting keeps the order of elements of which none has to come first.
* `Snapshot.selected`, `Atom.leads`: the atoms that become rows, and which of two may stand first.
* `filterRows_eq`: the rows are those of the selected atoms, sorted.
* `Interpretation.Fits.mem_selected_iff`: what the graph and the worlds together say of the selected atoms.
* `Interpretation.filterRows_answers`: the rows are those of the atoms that the query holds of, in their order.
-/

namespace AnnotatedLogic

/-- The order of all doubles tells different ones apart, the two zeros as well. -/
theorem Degree.rank_inj {x y : Degree} : x.rank = y.rank ↔ x = y := by
  refine ⟨fun h => ?_, fun h => h ▸ rfl⟩
  have hx := x.toBits.toNat_lt
  have hy := y.toBits.toNat_lt
  have hbits : x.toBits.toNat = y.toBits.toNat := by
    unfold rank signBit at h
    dsimp only at h
    split at h <;> split at h <;> omega
  obtain ⟨⟨bits, valid⟩⟩ := x
  obtain ⟨⟨bits', valid'⟩⟩ := y
  obtain rfl : bits = bits' := UInt64.toNat_inj.1 hbits
  rfl

/-- Sorting keeps the order of elements that may all stand in any order. -/
theorem filter_mergeSort {α : Type} {le : α → α → Bool}
    (trans : ∀ a b c, le a b = true → le b c = true → le a c = true)
    (total : ∀ a b, (le a b || le b a) = true) {p : α → Bool}
    (h : ∀ a b, p a = true → p b = true → le a b = true) (l : List α) :
    (l.mergeSort le).filter p = l.filter p := by
  have hpairwise : (l.filter p).Pairwise fun a b => le a b = true :=
    List.pairwise_of_forall_mem_list fun a ha b hb =>
      h a b (List.mem_filter.1 ha).2 (List.mem_filter.1 hb).2
  have hsublist : (l.filter p).Sublist ((l.mergeSort le).filter p) := by
    have hsub := (List.sublist_mergeSort trans total hpairwise List.filter_sublist).filter p
    rwa [List.filter_filter, show (fun a => p a && p a) = p from funext fun a => Bool.and_self _] at hsub
  exact (hsublist.eq_of_length ((List.mergeSort_perm l le).filter p).length_eq.symm).symm

/-! ## The atoms behind the rows -/

/-- The atoms of a snapshot that have one of some labels and lie within a bound. -/
def Snapshot.selected (s : Snapshot) (labels : List Label) (bound : Interval) : List Atom :=
  s.atoms.filter fun a => decide (a.label ∈ labels) && decide (bound.Contains a.bound)

/-- One atom may stand before another one if its lower bound is not below that of the other one. -/
def Atom.leads (a b : Atom) : Bool := decide (b.bound.lower.rank ≤ a.bound.lower.rank)

namespace Atom

theorem leads_trans (a b c : Atom) (hab : a.leads b = true) (hbc : b.leads c = true) :
    a.leads c = true :=
  decide_eq_true ((of_decide_eq_true hbc).trans (of_decide_eq_true hab))

theorem leads_total (a b : Atom) : (a.leads b || b.leads a) = true := by
  unfold leads
  rw [Bool.or_eq_true, decide_eq_true_iff, decide_eq_true_iff]
  exact Int.le_total _ _

end Atom

/-- The rows are those of the selected atoms, the highest lower bound first. -/
theorem filterRows_eq (s : Snapshot) (labels : List Label) (bound : Interval) :
    filterRows s labels bound
      = ((s.selected labels bound).mergeSort Atom.leads).map (Atom.row s.time) := by
  have hleads : ∀ a ∈ s.selected labels bound, ∀ b ∈ s.selected labels bound,
      a.leads b = (a.row s.time).before (b.row s.time) := fun _ _ _ _ => rfl
  exact (List.map_mergeSort hleads).symm

namespace Interpretation

variable {i : Interpretation} {c : Component} {label : Label} {bound : Interval}

/-- The query holds of an atom that is there with an interval within the bound. -/
theorem satisfies_iff :
    i.satisfies c label bound = true ↔ ∃ v, i.bound? c label = some v ∧ bound.Contains v := by
  unfold satisfies bound?
  cases i.world? c with
  | none => simp
  | some w => exact World.satisfies_iff

/-- Of the atoms that the graph and the worlds list, those are selected that the query holds of. -/
theorem Fits.mem_selected_iff (h : i.Fits) (t : Nat) {labels : List Label} {a : Atom} :
    a ∈ (i.snapshot t).selected labels bound ↔
      a.label ∈ labels ∧ i.bound? a.component a.label = some a.bound ∧ bound.Contains a.bound := by
  unfold Snapshot.selected
  rw [List.mem_filter, (h.lists t).mem, Bool.and_eq_true, decide_eq_true_iff, decide_eq_true_iff]
  exact ⟨fun ⟨hbound, hlabel, hwithin⟩ => ⟨hlabel, hbound, hwithin⟩,
    fun ⟨hlabel, hbound, hwithin⟩ => ⟨hbound, hlabel, hwithin⟩⟩

/-- The rows of an interpretation that arises, for some labels and a bound, are those of a list of atoms. The
list has each atom once that has one of the labels and satisfies the query for the bound, and no other one;
each of them has the bounds that the interpretation holds. The lower bounds never rise in the order of all
doubles, and atoms with the same lower bound are in the order of the snapshot. -/
theorem filterRows_answers (h : i.Arises) (t : Nat) (labels : List Label) (bound : Interval) :
    ∃ atoms : List Atom,
      filterRows (i.snapshot t) labels bound = atoms.map (Atom.row t) ∧
      (atoms.map fun a => (a.component, a.label)).Nodup ∧
      (∀ c label, (c, label) ∈ atoms.map (fun a => (a.component, a.label)) ↔
        label ∈ labels ∧ i.satisfies c label bound = true) ∧
      (∀ a ∈ atoms, i.bound? a.component a.label = some a.bound) ∧
      (atoms.Pairwise fun a b => b.bound.lower.rank ≤ a.bound.lower.rank) ∧
      ∀ lower, (atoms.filter fun a => decide (a.bound.lower = lower)).Sublist (i.snapshot t).atoms := by
  have hperm := List.mergeSort_perm ((i.snapshot t).selected labels bound) Atom.leads
  have hmem {a : Atom} : a ∈ ((i.snapshot t).selected labels bound).mergeSort Atom.leads ↔
      a.label ∈ labels ∧ i.bound? a.component a.label = some a.bound ∧ bound.Contains a.bound :=
    hperm.mem_iff.trans (h.fits.mem_selected_iff t)
  refine ⟨_, filterRows_eq (i.snapshot t) labels bound, ?_, fun c label => ?_, fun a ha => (hmem.1 ha).2.1,
    ?_, fun lower => ?_⟩
  · exact ((hperm.map _).nodup_iff).2 (i.nodup_atoms.sublist (List.filter_sublist.map _))
  · rw [satisfies_iff, List.mem_map]
    constructor
    · rintro ⟨a, ha, heq⟩
      cases heq
      obtain ⟨hlabel, hbound, hwithin⟩ := hmem.1 ha
      exact ⟨hlabel, a.bound, hbound, hwithin⟩
    · rintro ⟨hlabel, v, hbound, hwithin⟩
      exact ⟨⟨c, label, v⟩, hmem.2 ⟨hlabel, hbound, hwithin⟩, rfl⟩
  · exact (List.pairwise_mergeSort Atom.leads_trans Atom.leads_total _).imp of_decide_eq_true
  · rw [filter_mergeSort Atom.leads_trans Atom.leads_total fun a b ha hb => ?_]
    · exact List.filter_sublist.trans List.filter_sublist
    · unfold Atom.leads
      rw [of_decide_eq_true ha, of_decide_eq_true hb]
      exact decide_eq_true (le_refl _)

/-- Two atoms have the lower bound `0.25`, one on the node that was added first and one on the edge; the atom
with the higher lower bound comes before both. The atom of another label is left out, and so is the one that
does not lie within the bound. -/
theorem filterRows_answers_tie :
    let a : Node := ⟨"a"⟩
    let b : Node := ⟨"b"⟩
    let p : Label := ⟨"p"⟩
    let q : Label := ⟨"q"⟩
    let new : Work := ⟨.ofGraph (Graph.build [a, b, ⟨"c"⟩] [⟨a, b⟩] true false) { node := [p] }, #[], .nothing⟩
    let told (c : Component) (label : Label) (v : Interval) : Operation :=
      ⟨.standard, {}, .assert ⟨c, label, v, 0, 0, .fact, "f", false, false, .ignore, []⟩⟩
    let i := (new.operateAll [told (.edge ⟨a, b⟩) p (.fresh 0.25 0.5), told (.node b) p .certain,
      told (.node b) q .certain, told (.node a) p (.fresh 0.25 1)]).interpretation
    i.Arises ∧
      filterRows (i.snapshot 2) [p] (.fresh 0.25 1)
        = [⟨2, "node", "b", "p", 1, 1⟩, ⟨2, "node", "a", "p", 0.25, 1⟩,
            ⟨2, "edge", "(a,b)", "p", 0.25, 0.5⟩] ∧
      ∃ atoms : List Atom, filterRows (i.snapshot 2) [p] (.fresh 0.25 1) = atoms.map (Atom.row 2) ∧
        atoms.length = 3 ∧ (.node b, p) ∈ atoms.map (fun x => (x.component, x.label)) ∧
        (.node b, q) ∉ atoms.map (fun x => (x.component, x.label)) ∧
        (.node ⟨"c"⟩, p) ∉ atoms.map (fun x => (x.component, x.label)) := by
  intro a b p q new told i
  have harises : i.Arises := .operateAll (w := new) (.new _ _) _
  have hrows : filterRows (i.snapshot 2) [p] (.fresh 0.25 1)
      = [⟨2, "node", "b", "p", 1, 1⟩, ⟨2, "node", "a", "p", 0.25, 1⟩,
          ⟨2, "edge", "(a,b)", "p", 0.25, 0.5⟩] := by
    let x : Atom := ⟨.node a, p, ⟨0.25, 1, 0, 1, false⟩⟩
    let y : Atom := ⟨.node b, p, ⟨1, 1, 0, 1, false⟩⟩
    let z : Atom := ⟨.edge ⟨a, b⟩, p, ⟨0.25, 0.5, 0, 1, false⟩⟩
    have hselected : (i.snapshot 2).selected [p] (.fresh 0.25 1) = [x, y, z] := by decide +kernel
    have hxy : x.leads y = false := by decide +kernel
    have hxz : x.leads z = true := by decide +kernel
    have hyz : y.leads z = true := by decide +kernel
    have hsorted : [x, y, z].mergeSort Atom.leads = [y, x, z] := by
      simp [List.mergeSort, List.MergeSort.Internal.splitInTwo, hxy, hxz, hyz]
    rw [filterRows_eq, hselected, hsorted]
    decide +kernel
  obtain ⟨atoms, heq, -, hmem, -⟩ := filterRows_answers harises 2 [p] (.fresh 0.25 1)
  refine ⟨harises, hrows, atoms, heq, ?_, (hmem _ _).2 (by decide +kernel), ?_, ?_⟩
  · have hlength := congrArg List.length (heq.symm.trans hrows)
    rwa [List.length_map] at hlength
  · exact fun h => absurd ((hmem _ _).1 h) (by decide +kernel)
  · exact fun h => absurd ((hmem _ _).1 h) (by decide +kernel)

end Interpretation

end AnnotatedLogic
