import AnnotatedLogic.Proofs.Rooted
import Mathlib.Data.List.Perm.Subperm
/-!
# What a snapshot lists

The worlds of an interpretation, its graph and the number of its atoms are kept apart from each other. As
long as worlds belong to components, a snapshot lists every atom once, in the order of the graph and then
of the label names, and the number of atoms is how many it lists.

* `Snapshot.Lists`: what is said of a snapshot; `Interpretation.Fits.lists` says it of every one.
* `Interpretation.Persists`: the graph has grown, and no atom has disappeared. Effects and resets let an
  interpretation persist (`Work.persists_perform`, `persists_reset`).
* `Persists.atomCount_le`: so the number of atoms never falls.
-/

namespace AnnotatedLogic

/-! ## Entries of tables and worlds -/

/-- Under different keys, every value is found under its key. -/
theorem Table.get?_of_mem {κ ν : Type} [DecidableEq κ] {t : Table κ ν} (h : t.keys.Nodup) {key : κ}
    {value : ν} (hmem : (key, value) ∈ t.entries) : t.get? key = some value := by
  obtain ⟨entries⟩ := t
  unfold keys at h
  unfold get?
  dsimp only at h hmem ⊢
  induction entries with
  | nil => cases hmem
  | cons e rest ih =>
    obtain ⟨k, v⟩ := e
    rw [List.map_cons, List.nodup_cons] at h
    rcases List.mem_cons.1 hmem with heq | hmem
    · cases heq
      rw [find?, if_pos rfl]
    · have hne : k ≠ key := by
        rintro rfl
        exact h.1 (List.mem_map.2 ⟨_, hmem, rfl⟩)
      rw [find?, if_neg hne]
      exact ih h.2 hmem

theorem Entries.find?_eq_some_iff {entries : List (Label × Interval)} (h : Ascending entries)
    {label : Label} {v : Interval} : find? label entries = some v ↔ (label, v) ∈ entries := by
  induction entries with
  | nil => simp [find?]
  | cons e rest ih =>
    obtain ⟨l, i⟩ := e
    obtain ⟨hfirst, hrest⟩ := List.pairwise_cons.1 h
    rw [find?, List.mem_cons]
    split
    · next hl =>
      subst hl
      have hnew : (l, v) ∉ rest := fun hmem => String.lt_irrefl l.name (hfirst (l, v) hmem)
      simp [hnew, eq_comm]
    · next hl => simp [ih hrest, Ne.symm hl]

theorem World.mem_entries_iff {w : World} {label : Label} {v : Interval} :
    (label, v) ∈ w.entries ↔ w.get? label = some v :=
  (Entries.find?_eq_some_iff w.ascending).symm

/-! ## Snapshots -/

/-- One atom comes before another in the order of the graph and, on the same component, of the label
names. -/
def Atom.Before (g : Graph) (a b : Atom) : Prop :=
  [a.component, b.component].Sublist g.components ∨
    a.component = b.component ∧ a.label.name < b.label.name

/-- The snapshot lists the atoms of an interpretation: these and no others, each once and in their order,
and as many as are counted. -/
structure Snapshot.Lists (s : Snapshot) (i : Interpretation) : Prop where
  mem : ∀ a, a ∈ s.atoms ↔ i.bound? a.component a.label = some a.bound
  once : (s.atoms.map fun a => (a.component, a.label)).Nodup
  ordered : s.atoms.Pairwise (Atom.Before i.graph)
  count : s.atoms.length = i.atomCount

namespace Interpretation

variable {i j : Interpretation} {c : Component} {a : Atom}

theorem mem_atomsOf_iff : a ∈ i.atomsOf c ↔ a.component = c ∧ i.bound? c a.label = some a.bound := by
  unfold atomsOf bound?
  cases i.world? c with
  | none => simp
  | some w =>
    obtain ⟨component, label, v⟩ := a
    simp only [List.mem_map, Prod.exists, Atom.mk.injEq, Option.bind_some, ← World.mem_entries_iff]
    constructor
    · rintro ⟨l, u, hmem, rfl, rfl, rfl⟩
      exact ⟨rfl, hmem⟩
    · rintro ⟨rfl, hmem⟩
      exact ⟨label, v, hmem, rfl, rfl, rfl⟩

theorem Fits.mem_components (h : i.Fits) {label : Label} {v : Interval}
    (hv : i.bound? c label = some v) : c ∈ i.graph.components := by
  obtain ⟨w, hw, -⟩ := Option.bind_eq_some_iff.1 hv
  exact h.mem.1 ⟨w, hw⟩

theorem Fits.mem_atoms_iff (h : i.Fits) : a ∈ i.atoms ↔ i.bound? a.component a.label = some a.bound := by
  unfold atoms
  rw [List.mem_flatMap]
  constructor
  · rintro ⟨c, -, ha⟩
    obtain ⟨rfl, hbound⟩ := mem_atomsOf_iff.1 ha
    exact hbound
  · intro hbound
    exact ⟨a.component, h.mem_components hbound, mem_atomsOf_iff.2 ⟨rfl, hbound⟩⟩

/-- The labels of a component are listed in the order of their names. -/
theorem pairwise_atomsOf (i : Interpretation) (c : Component) :
    (i.atomsOf c).Pairwise fun a b => a.component = b.component ∧ a.label.name < b.label.name := by
  unfold atomsOf
  split
  · next w _ =>
    rw [List.pairwise_map]
    exact w.ascending.imp fun hlt => ⟨rfl, hlt⟩
  · exact .nil

theorem pairwise_atoms (i : Interpretation) : i.atoms.Pairwise (Atom.Before i.graph) := by
  unfold atoms
  rw [List.pairwise_flatMap]
  refine ⟨fun c _ => (i.pairwise_atomsOf c).imp .inr, List.pairwise_iff_forall_sublist.2 ?_⟩
  intro c d hsub a ha b hb
  rw [← (mem_atomsOf_iff.1 ha).1, ← (mem_atomsOf_iff.1 hb).1] at hsub
  exact .inl hsub

/-- What comes before is another atom. -/
theorem ne_of_before {g : Graph} {a b : Atom} (h : a.Before g b) :
    (a.component, a.label) ≠ (b.component, b.label) := by
  intro heq
  obtain ⟨hcomponent, hlabel⟩ := Prod.mk.inj heq
  rcases h with hsub | ⟨-, hlt⟩
  · rw [hcomponent] at hsub
    have hnodup := g.nodup_components.sublist hsub
    simp at hnodup
  · rw [hlabel] at hlt
    exact String.lt_irrefl _ hlt

theorem nodup_atoms (i : Interpretation) : (i.atoms.map fun a => (a.component, a.label)).Nodup := by
  rw [List.Nodup, List.pairwise_map]
  exact i.pairwise_atoms.imp ne_of_before

/-- The components of the graph are gone through as the worlds are. -/
theorem Fits.length_atoms (h : i.Fits) : i.atoms.length = i.atomCount := by
  have hnodup : i.worlds.keys.Nodup := by
    rw [h]
    exact i.graph.nodup_components
  have hentries : ∀ e ∈ i.worlds.entries, (i.atomsOf e.1).length = e.2.entries.length := by
    intro e he
    have hworld : i.world? e.1 = some e.2 := Table.get?_of_mem hnodup he
    unfold atomsOf
    rw [hworld, List.length_map]
  unfold atoms atomCount
  rw [← show i.worlds.keys = i.graph.components from h]
  unfold Table.keys Table.values
  rw [List.length_flatMap, List.length_flatMap, List.map_map, List.map_map]
  exact congrArg List.sum (List.map_congr_left hentries)

/-- A snapshot lists every atom once and in its order. -/
theorem Fits.lists (h : i.Fits) (t : Nat) : (i.snapshot t).Lists i where
  mem _ := h.mem_atoms_iff
  once := i.nodup_atoms
  ordered := i.pairwise_atoms
  count := h.length_atoms

/-! ## Atoms that do not disappear -/

/-- The graph has grown, and every atom is still there. -/
structure Persists (i j : Interpretation) : Prop where
  grows : i.graph.Grows j.graph
  atoms : ∀ c label v, i.bound? c label = some v → ∃ u, j.bound? c label = some u

theorem Persists.refl (i : Interpretation) : i.Persists i := ⟨.refl _, fun _ _ v hv => ⟨v, hv⟩⟩

theorem Persists.trans {k : Interpretation} (hij : i.Persists j) (hjk : j.Persists k) :
    i.Persists k := by
  refine ⟨hij.grows.trans hjk.grows, fun c label v hv => ?_⟩
  obtain ⟨u, hu⟩ := hij.atoms c label v hv
  exact hjk.atoms c label u hu

theorem persists_reset (i : Interpretation) : i.Persists i.reset := by
  refine ⟨.refl _, fun c label v hv => ?_⟩
  obtain ⟨w, hw, hv⟩ := Option.bind_eq_some_iff.1 hv
  refine ⟨v.reset, ?_⟩
  rw [bound?_of_world? (by rw [world?_reset, hw]; rfl), World.get?_reset, hv]
  rfl

/-- A new edge is no component that has atoms already. -/
theorem Fits.persists_addEdge (h : i.Fits) {e : Edge} (hadd : i.addEdge e = .ok j) : i.Persists j := by
  refine ⟨(grows_addEdge hadd).1, fun c label v hv => ?_⟩
  rcases addEdge_cases hadd with ⟨-, rfl⟩ | ⟨he, g, -, -, rfl⟩
  · exact ⟨v, hv⟩
  · have hne : c ≠ .edge e := by
      rintro rfl
      exact he (Graph.edge_mem_components.1 (h.mem_components hv))
    rw [bound?_putWorld, if_neg hne]
    exact ⟨v, hv⟩

/-- What an interpretation counts, one in which it persists counts as well. -/
theorem Persists.atomCount_le (h : i.Persists j) (hi : i.Fits) (hj : j.Fits) :
    i.atomCount ≤ j.atomCount := by
  have hkeys (atoms : List Atom) :
      atoms.length = (atoms.map fun a => (a.component, a.label)).length := (List.length_map _).symm
  rw [← hi.length_atoms, ← hj.length_atoms, hkeys i.atoms, hkeys j.atoms]
  refine (List.subperm_of_subset i.nodup_atoms fun key hkey => ?_).length_le
  obtain ⟨a, ha, rfl⟩ := List.mem_map.1 hkey
  obtain ⟨u, hu⟩ := h.atoms _ _ _ (hi.mem_atoms_iff.1 ha)
  exact List.mem_map.2 ⟨⟨a.component, a.label, u⟩, hj.mem_atoms_iff.2 hu, rfl⟩

end Interpretation

namespace Work

/-- An effect lets the interpretation persist. -/
theorem persists_perform {w : Work} (h : w.interpretation.Fits) (config : Config) (pairing : Pairing)
    (e : Effect) : w.interpretation.Persists (w.perform config pairing e).1.interpretation := by
  rcases w.perform_cases config pairing e with
    ⟨edge, j, -, hadd, hi, -⟩ | ⟨a, v, -, hv, hi, -⟩ | ⟨hi, -⟩
  · rw [hi]
    exact h.persists_addEdge hadd
  · obtain ⟨u, changes, message, hedits, hafter, -, -⟩ := Interpretation.assertOn_edits
      (P := fun _ => True) Interval.closed_true config pairing hv (fun _ _ _ => trivial) trivial
    rw [hi, hafter, Interpretation.foldl_log]
    refine ⟨.refl _, fun c label b hb => ?_⟩
    show ∃ b', (w.interpretation.putWorld a.component u).bound? c label = some b'
    rw [Interpretation.bound?_putWorld]
    split
    · next hc =>
      subst hc
      rw [Interpretation.bound?_of_world? hv] at hb
      exact hedits.exists_get? hb
    · exact ⟨b, hb⟩
  · rw [hi]
    exact .refl _

end Work

end AnnotatedLogic
