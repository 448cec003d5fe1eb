import AnnotatedLogic.Interpretation.PredicateMap
/-!
# Lists and sets of what has changed

The lists and the sets of an index are written one after the other and read apart. Here is what each of
them holds after changes have been recorded, and that they say the same if they did before.

* `PredicateIndex.toList_get_push`, `PredicateIndex.contains_push`: what recording does to the lists, and to the
  sets.
* `PredicateIndex.InStep`, `PredicateMap.InStep`: a set has what is in the list of its label.
* `PredicateMap.get_pushAll`, `PredicateMap.contains_pushAll`: the lists go on with what is recorded, and the
  sets get it. `PredicateMap.InStep.pushAll` says that they stay in step.
-/

namespace AnnotatedLogic

namespace PredicateIndex

variable {γ : Type} {p : PredicateIndex γ}

theorem get_clear (p : PredicateIndex γ) (label : Label) : p.clear.get label = #[] := rfl

variable [DecidableEq γ]

theorem contains_clear (p : PredicateIndex γ) (label : Label) (x : γ) :
    p.clear.contains label x = false := rfl

/-- What is recorded comes last in the list of its label. -/
theorem toList_get_push (p : PredicateIndex γ) (l label : Label) (x : γ) :
    ((p.push l x).get label).toList
      = (p.get label).toList ++ if l = label then [x] else [] := by
  unfold get push
  rw [Table.get?_put]
  by_cases hlabel : l = label
  · rw [if_pos hlabel.symm, if_pos hlabel, hlabel, Option.getD_some, Array.toList_push]
  · rw [if_neg (Ne.symm hlabel), if_neg hlabel, List.append_nil]

/-- What is recorded is in the set of its label. -/
theorem contains_push (p : PredicateIndex γ) (l label : Label) (x y : γ) :
    (p.push l x).contains label y = true ↔
      p.contains label y = true ∨ (y = x ∧ label = l) := by
  unfold contains push
  rw [Table.get?_put]
  by_cases hlabel : label = l
  · subst hlabel
    rw [if_pos rfl, Option.any_some, Table.get?_put]
    by_cases hx : y = x
    · simp [hx]
    · rw [if_neg hx]
      cases p.members.get? label with
      | none => simp [hx, Table.get?, Table.empty, Table.find?]
      | some set => simp [hx]
  · rw [if_neg hlabel]
    simp [hlabel]

/-- The sets have what the lists have. -/
def InStep (p : PredicateIndex γ) : Prop :=
  ∀ label x, p.contains label x = true ↔ x ∈ p.get label

theorem inStep_clear (p : PredicateIndex γ) : p.clear.InStep := by
  intro label x
  rw [contains_clear, get_clear]
  simp

/-- The set and the list of a label get the same. -/
theorem InStep.push (h : p.InStep) (l : Label) (x : γ) : (p.push l x).InStep := by
  intro label y
  rw [contains_push, h label y, ← Array.mem_toList_iff, ← Array.mem_toList_iff, toList_get_push,
    List.mem_append]
  by_cases hlabel : l = label
  · simp [hlabel]
  · simp [hlabel, Ne.symm hlabel]

end PredicateIndex

namespace PredicateMap

variable {m : PredicateMap}

theorem get_clear (m : PredicateMap) (kind : ComponentKind) (label : Label) :
    m.clear.get kind label = [] := by
  cases kind <;> rfl

/-- A change is listed for its label, among the components of its kind. -/
theorem get_push (m : PredicateMap) (c : Component) (l : Label) (kind : ComponentKind) (label : Label) :
    (m.push c l).get kind label
      = m.get kind label ++ if c.kind = kind ∧ l = label then [c] else [] := by
  cases c with
  | node n =>
    cases kind with
    | node => by_cases hl : l = label <;> simp [push, get, Component.kind, PredicateIndex.toList_get_push, hl]
    | edge => simp [push, get, Component.kind]
  | edge e =>
    cases kind with
    | node => simp [push, get, Component.kind]
    | edge => by_cases hl : l = label <;> simp [push, get, Component.kind, PredicateIndex.toList_get_push, hl]

theorem contains_push (m : PredicateMap) (c d : Component) (l label : Label) :
    (m.push c l).contains d label = true ↔ m.contains d label = true ∨ (d, label) = (c, l) := by
  cases c <;> cases d <;> simp [push, contains, PredicateIndex.contains_push]

theorem pushAll_cons (m : PredicateMap) (e : Component × Label) (changes : List (Component × Label)) :
    m.pushAll (e :: changes) = (m.push e.1 e.2).pushAll changes := rfl

/-- The lists go on with the changes that are recorded, each in the list of its kind and its label. -/
theorem get_pushAll (m : PredicateMap) (changes : List (Component × Label)) (kind : ComponentKind)
    (label : Label) :
    (m.pushAll changes).get kind label = m.get kind label ++
      (changes.filter fun e => decide (e.1.kind = kind ∧ e.2 = label)).map (·.1) := by
  induction changes generalizing m with
  | nil => simp [pushAll]
  | cons e changes ih =>
    rw [pushAll_cons, ih, get_push, List.filter_cons, List.append_assoc]
    by_cases he : e.1.kind = kind ∧ e.2 = label <;> simp [he]

/-- The sets get the changes that are recorded. -/
theorem contains_pushAll (m : PredicateMap) (changes : List (Component × Label)) (c : Component)
    (label : Label) :
    (m.pushAll changes).contains c label = true ↔
      m.contains c label = true ∨ (c, label) ∈ changes := by
  induction changes generalizing m with
  | nil => simp [pushAll]
  | cons e changes ih =>
    rw [pushAll_cons, ih, contains_push, List.mem_cons, or_assoc]

theorem pushAll_append (m : PredicateMap) (changes others : List (Component × Label)) :
    m.pushAll (changes ++ others) = (m.pushAll changes).pushAll others :=
  List.foldl_append

/-- The sets have what the lists have, for nodes and for edges. -/
structure InStep (m : PredicateMap) : Prop where
  nodes : m.nodes.InStep
  edges : m.edges.InStep

theorem inStep_clear (m : PredicateMap) : m.clear.InStep :=
  ⟨m.nodes.inStep_clear, m.edges.inStep_clear⟩

theorem inStep_empty : empty.InStep := empty.inStep_clear

theorem InStep.push (h : m.InStep) (c : Component) (label : Label) : (m.push c label).InStep := by
  cases c with
  | node n => exact ⟨h.nodes.push label n, h.edges⟩
  | edge e => exact ⟨h.nodes, h.edges.push label e⟩

theorem InStep.pushAll (h : m.InStep) (changes : List (Component × Label)) :
    (m.pushAll changes).InStep := by
  induction changes generalizing m with
  | nil => exact h
  | cons e changes ih => exact ih (h.push e.1 e.2)

/-- Where sets and lists are in step, a component is in a set if it is in the list. -/
theorem InStep.contains_iff (h : m.InStep) (c : Component) (label : Label) :
    m.contains c label = true ↔ c ∈ m.get c.kind label := by
  cases c with
  | node n => simpa [contains, get, Component.kind] using h.nodes label n
  | edge e => simpa [contains, get, Component.kind] using h.edges label e

end PredicateMap

end AnnotatedLogic
