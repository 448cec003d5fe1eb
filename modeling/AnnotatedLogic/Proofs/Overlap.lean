import AnnotatedLogic.Proofs.Opposites
/-!
# Learning several bounds

A label that learns several bounds is at each of them only compared with what it holds by then. All the same,
none of the bounds is found contradictory just when any two of them, and any of them and what the label held
before, have a degree in common. An empty meet says nothing, so meets could not be taken in another order; but
a bound with an empty meet is not learned, and without one the order does not matter.

* `Interval.IsOverlap`: the interval from the largest lower bound to the smallest upper bound of some others.
  It is disjoint from a bound just when one of them is (`Interval.IsOverlap.disjoint_iff`), and it learns the
  overlap with the bound (`Interval.IsOverlap.learning`).
* `World.learnEach`: a label learns one bound after the other.
* `World.learnEach_consistent_iff`, `World.isOverlap_learnEach`: when no contradiction is reported, and what
  the label holds then.
* `World.learnEach_overlap`: all that is said of learning several bounds.
-/

namespace AnnotatedLogic

open AnnotatedLogic.Interval

namespace Interval

variable {i j v b k : Interval} {js ks : List Interval}

theorem Disjoint.symm (h : i.Disjoint j) : j.Disjoint i := Or.symm h

theorem previous_learning (i b : Interval) : (i.learning b).previous = i.previous := by
  obtain ⟨hlower, hupper⟩ := meet_previous i b
  unfold learning
  split
  · rfl
  · unfold previous
    rw [hlower, hupper]

/-! ## The overlap of intervals -/

/-- The interval goes from the largest of the lower bounds to the smallest of the upper ones. -/
structure IsOverlap (v : Interval) (js : List Interval) : Prop where
  lower_mem : ∃ j ∈ js, v.lower = j.lower
  lower_le : ∀ j ∈ js, j.lower ≤ v.lower
  upper_mem : ∃ j ∈ js, v.upper = j.upper
  le_upper : ∀ j ∈ js, v.upper ≤ j.upper

namespace IsOverlap

theorem singleton (h : v.IsNumeric) : v.IsOverlap [v] := by
  obtain ⟨hlower, hupper⟩ := contains_refl h
  exact ⟨⟨v, by simp, rfl⟩, by simpa using hlower, ⟨v, by simp, rfl⟩, by simpa using hupper⟩

/-- The order of the intervals does not matter, nor how often they are listed. -/
theorem congr (h : v.IsOverlap js) (hmem : ∀ j, j ∈ ks ↔ j ∈ js) : v.IsOverlap ks := by
  obtain ⟨⟨jl, hjl, hl⟩, hlower, ⟨ju, hju, hu⟩, hupper⟩ := h
  exact ⟨⟨jl, (hmem jl).2 hjl, hl⟩, fun j hj => hlower j ((hmem j).1 hj),
    ⟨ju, (hmem ju).2 hju, hu⟩, fun j hj => hupper j ((hmem j).1 hj)⟩

/-- The overlap contains whatever lies within all of the intervals. -/
theorem contains (h : v.IsOverlap js) (hk : ∀ j ∈ js, j.Contains k) : v.Contains k := by
  obtain ⟨jl, hjl, hl⟩ := h.lower_mem
  obtain ⟨ju, hju, hu⟩ := h.upper_mem
  exact ⟨hl ▸ (hk jl hjl).1, hu ▸ (hk ju hju).2⟩

/-- There is only one overlap, as far as the bounds go. -/
theorem same {u : Interval} (hv : v.IsOverlap js) (hu : u.IsOverlap js) : v.same u = true :=
  same_of_contains (hv.contains fun j hj => ⟨hu.lower_le j hj, hu.le_upper j hj⟩)
    (hu.contains fun j hj => ⟨hv.lower_le j hj, hv.le_upper j hj⟩)

/-- A bound has no degree in common with the overlap just when it has none with one of the intervals. Each
of the two bounds of the overlap is that of an interval, and only one of them is in the way. -/
theorem disjoint_iff (h : v.IsOverlap js) : v.Disjoint b ↔ ∃ j ∈ js, j.Disjoint b := by
  constructor
  · rintro (hlow | hhigh)
    · obtain ⟨j, hj, heq⟩ := h.lower_mem
      exact ⟨j, hj, .inl (heq ▸ hlow)⟩
    · obtain ⟨j, hj, heq⟩ := h.upper_mem
      exact ⟨j, hj, .inr (heq ▸ hhigh)⟩
  · rintro ⟨j, hj, hlow | hhigh⟩
    · exact .inl (Degree.lt_of_lt_of_le hlow (h.lower_le j hj))
    · exact .inr (Degree.lt_of_le_of_lt (h.le_upper j hj) hhigh)

/-- What the overlap learns from a bound is the overlap with the bound. -/
theorem learning (h : v.IsOverlap js) (hv : v.IsProper) (hb : b.IsProper) (hdisjoint : ¬ v.Disjoint b) :
    (v.learning b).IsOverlap (js ++ [b]) := by
  obtain ⟨hwithin, hwithin', -⟩ := contains_learning hv hb hdisjoint
  obtain ⟨hlower, hupper⟩ := learning_cases hv hb hdisjoint
  refine ⟨?_, fun j hj => ?_, ?_, fun j hj => ?_⟩
  · rcases hlower with heq | heq
    · obtain ⟨j, hj, hjl⟩ := h.lower_mem
      exact ⟨j, by simp [hj], heq.trans hjl⟩
    · exact ⟨b, by simp, heq⟩
  · rcases List.mem_append.1 hj with hj | hj
    · exact Degree.le_trans (h.lower_le j hj) hwithin.1
    · exact List.mem_singleton.1 hj ▸ hwithin'.1
  · rcases hupper with heq | heq
    · obtain ⟨j, hj, hju⟩ := h.upper_mem
      exact ⟨j, by simp [hj], heq.trans hju⟩
    · exact ⟨b, by simp, heq⟩
  · rcases List.mem_append.1 hj with hj | hj
    · exact Degree.le_trans hwithin.2 (h.le_upper j hj)
    · exact List.mem_singleton.1 hj ▸ hwithin'.2

end IsOverlap

end Interval

namespace World

variable {w : World} {label l : Label} {b : Interval} {bs js : List Interval}

/-! ## Learning one bound after the other -/

/-- The bound was found contradictory. -/
def Learned.isContradiction : Learned → Bool
  | contradiction _ _ => true
  | _ => false

/-- A label learns one bound after the other. For each of them it is reported what becomes of the label. -/
def learnEach (w : World) (label : Label) : List Interval → World × List Learned
  | [] => (w, [])
  | b :: bs =>
    let (w, report) := w.learn label b
    let (w, reports) := learnEach w label bs
    (w, report :: reports)

theorem learnEach_cons (w : World) (label : Label) (b : Interval) (bs : List Interval) :
    w.learnEach label (b :: bs) = (((w.learn label b).1.learnEach label bs).1,
      (w.learn label b).2 :: ((w.learn label b).1.learnEach label bs).2) := rfl

/-- A bound that has no degree in common with what the label holds is reported, and nothing is written. Any
other bound is learned. -/
theorem learn_cases (w : World) (label : Label) (b : Interval) :
    ((w.bound label).Disjoint b ∧ w.learn label b = (w, .contradiction (w.bound label) b)) ∨
      (¬ (w.bound label).Disjoint b ∧ (w.learn label b).2.isContradiction = false ∧
        (w.learn label b).1.bound label = (w.bound label).learning b) := by
  unfold learn preview
  dsimp only
  by_cases hdisjoint : (w.bound label).Disjoint b
  · rw [if_pos hdisjoint]
    exact .inl ⟨hdisjoint, rfl⟩
  · rw [if_neg hdisjoint]
    refine .inr ⟨hdisjoint, ?_⟩
    cases hsame : ((w.bound label).meet b).same (w.bound label) with
    | true => exact ⟨rfl, (learning_eq_self hsame).symm⟩
    | false =>
      rw [learning_eq_meet hsame]
      refine ⟨rfl, bound_of_get? ?_⟩
      show (w.put label ((w.bound label).meet b)).get? label = _
      rw [get?_put, if_pos rfl]

theorem get?_learn_of_ne (w : World) (h : l ≠ label) (b : Interval) :
    (w.learn label b).1.get? l = w.get? l := by
  unfold learn
  split
  · rw [get?_put, if_neg h]
  · rfl

/-- No other label is touched. -/
theorem get?_learnEach_of_ne (w : World) (h : l ≠ label) (bs : List Interval) :
    (w.learnEach label bs).1.get? l = w.get? l := by
  induction bs generalizing w with
  | nil => rfl
  | cons b bs ih => exact (ih (w.learn label b).1).trans (w.get?_learn_of_ne h b)

theorem learnEach_snoc (w : World) (label : Label) (bs : List Interval) (b : Interval) :
    (w.learnEach label (bs ++ [b])).1 = ((w.learnEach label bs).1.learn label b).1 := by
  induction bs generalizing w with
  | nil => rfl
  | cons c bs ih => exact ih (w.learn label c).1

/-- What is reported of a bound is what becomes of the label where the bounds before it have led to. -/
theorem getElem?_reports (w : World) (label : Label) (before after : List Interval) (b : Interval) :
    (w.learnEach label (before ++ b :: after)).2[before.length]?
      = some ((w.learnEach label before).1.learn label b).2 := by
  induction before generalizing w with
  | nil => rfl
  | cons c before ih => exact ih (w.learn label c).1

/-- A contradiction is between a bound and what the label held by then, and it leaves the world as it was. -/
theorem learnEach_contradiction {before after : List Interval} {existing incoming : Interval}
    (h : (w.learnEach label (before ++ b :: after)).2[before.length]?
      = some (.contradiction existing incoming)) :
    existing = (w.learnEach label before).1.bound label ∧ incoming = b ∧
      (w.learnEach label (before ++ [b])).1 = (w.learnEach label before).1 := by
  rw [getElem?_reports] at h
  rw [learnEach_snoc]
  rcases learn_cases (w.learnEach label before).1 label b with ⟨-, hlearn⟩ | ⟨-, hreport, -⟩
  · rw [hlearn] at h ⊢
    cases h
    exact ⟨rfl, rfl, rfl⟩
  · rw [Option.some.inj h] at hreport
    cases hreport

/-! ## Bounds that overlap -/

/-- No contradiction is reported just when the bounds have degrees in common with each other and with the
intervals of which the label held the overlap before. -/
theorem learnEach_consistent_iff (hw : (w.bound label).IsProper) (hbs : ∀ b ∈ bs, b.IsProper)
    (hoverlap : (w.bound label).IsOverlap js) :
    (∀ report ∈ (w.learnEach label bs).2, report.isContradiction = false) ↔
      (∀ b ∈ bs, ∀ j ∈ js, ¬ j.Disjoint b) ∧ bs.Pairwise fun a b => ¬ a.Disjoint b := by
  induction bs generalizing w js with
  | nil => simp [learnEach]
  | cons b bs ih =>
    obtain ⟨hb, hbs⟩ := List.forall_mem_cons.1 hbs
    have hfirst : ¬ (w.bound label).Disjoint b ↔ ∀ j ∈ js, ¬ j.Disjoint b := by
      rw [hoverlap.disjoint_iff]
      simp
    rw [learnEach_cons, List.forall_mem_cons, List.forall_mem_cons, List.pairwise_cons, ← hfirst]
    rcases w.learn_cases label b with ⟨hdisjoint, hlearn⟩ | ⟨hdisjoint, hreport, hbound⟩
    · rw [hlearn]
      simp [Learned.isContradiction, hdisjoint]
    · -- What the label holds now is the overlap with one more bound, so the others are also compared with it.
      have hnext : ((w.learn label b).1.bound label).IsOverlap (js ++ [b]) :=
        hbound ▸ hoverlap.learning hw hb hdisjoint
      rw [ih (hbound ▸ hw.learning hb) hbs hnext]
      simp only [hreport, hdisjoint, not_false_eq_true, true_and, List.mem_append, List.mem_singleton,
        or_imp, forall_and, forall_eq, and_assoc]

/-- Without a contradiction the label ends up with the overlap of what it held and of the bounds, and what is
no bound of its interval stays as it is. -/
theorem isOverlap_learnEach (hw : (w.bound label).IsProper) (hbs : ∀ b ∈ bs, b.IsProper)
    (hoverlap : (w.bound label).IsOverlap js)
    (h : ∀ report ∈ (w.learnEach label bs).2, report.isContradiction = false) :
    ((w.learnEach label bs).1.bound label).IsOverlap (js ++ bs) ∧
      ((w.learnEach label bs).1.bound label).previous = (w.bound label).previous ∧
      ((w.learnEach label bs).1.bound label).isStatic = (w.bound label).isStatic := by
  induction bs generalizing w js with
  | nil => exact ⟨by rwa [List.append_nil], rfl, rfl⟩
  | cons b bs ih =>
    obtain ⟨hb, hbs⟩ := List.forall_mem_cons.1 hbs
    rw [learnEach_cons] at h ⊢
    obtain ⟨hfirst, hrest⟩ := List.forall_mem_cons.1 h
    rcases w.learn_cases label b with ⟨-, hlearn⟩ | ⟨hdisjoint, -, hbound⟩
    · rw [hlearn] at hfirst
      cases hfirst
    · obtain ⟨hends, hprevious, hstatic⟩ :=
        ih (hbound ▸ hw.learning hb) hbs (hbound ▸ hoverlap.learning hw hb hdisjoint) hrest
      rw [List.append_assoc] at hends
      refine ⟨hends, hprevious.trans ?_, hstatic.trans ?_⟩
      · rw [hbound, previous_learning]
      · rw [hbound, isStatic_learning hw hb hdisjoint]

/-- A label learns a list of proper bounds. No contradiction is reported if and only if what the label held
and the bounds have degrees in common, any two of them. Then, in whichever order the bounds are learned, the
label ends up with the interval from the largest of all lower bounds to the smallest of all upper ones; its
previous bounds and whether it is static stay, and it contains whatever lies within all of them. In any case
a bound that is reported as a contradiction leaves the world as it was, and no other label is touched. -/
theorem learnEach_overlap (hw : (w.bound label).IsProper) (hbs : ∀ b ∈ bs, b.IsProper) :
    ((∀ report ∈ (w.learnEach label bs).2, report.isContradiction = false) ↔
      (w.bound label :: bs).Pairwise fun i j => ¬ i.Disjoint j) ∧
    ((w.bound label :: bs).Pairwise (fun i j => ¬ i.Disjoint j) → ∀ cs, cs.Perm bs →
      (∀ report ∈ (w.learnEach label cs).2, report.isContradiction = false) ∧
      let v := (w.learnEach label cs).1.bound label
      v.IsOverlap (w.bound label :: bs) ∧ v.same ((w.learnEach label bs).1.bound label) = true ∧
        v.previous = (w.bound label).previous ∧ v.isStatic = (w.bound label).isStatic ∧
        ∀ k, (∀ j ∈ w.bound label :: bs, j.Contains k) → v.Contains k) ∧
    (∀ before b after existing incoming, bs = before ++ b :: after →
      (w.learnEach label bs).2[before.length]? = some (.contradiction existing incoming) →
        existing = (w.learnEach label before).1.bound label ∧ incoming = b ∧
          (w.learnEach label (before ++ [b])).1 = (w.learnEach label before).1) ∧
    ∀ other, other ≠ label → (w.learnEach label bs).1.get? other = w.get? other := by
  have hstart := IsOverlap.singleton hw.isNumeric
  have hiff {cs : List Interval} (hcs : ∀ b ∈ cs, b.IsProper) :
      (∀ report ∈ (w.learnEach label cs).2, report.isContradiction = false) ↔
        (w.bound label :: cs).Pairwise fun i j => ¬ i.Disjoint j := by
    rw [learnEach_consistent_iff hw hcs hstart, List.pairwise_cons]
    simp
  refine ⟨hiff hbs, fun hpairwise cs hperm => ?_, fun before b after existing incoming heq hreport => ?_,
    fun other hother => w.get?_learnEach_of_ne hother bs⟩
  · have hcs : ∀ b ∈ cs, b.IsProper := fun b hb => hbs b (hperm.subset hb)
    have hconsistent := (hiff hcs).2 (hpairwise.perm (hperm.symm.cons _) fun h hji => h hji.symm)
    obtain ⟨hoverlap, hprevious, hstatic⟩ := isOverlap_learnEach hw hcs hstart hconsistent
    obtain ⟨hgiven, -, -⟩ := isOverlap_learnEach hw hbs hstart ((hiff hbs).2 hpairwise)
    have hall : ((w.learnEach label cs).1.bound label).IsOverlap (w.bound label :: bs) :=
      hoverlap.congr fun j => ((hperm.symm.cons _).mem_iff)
    exact ⟨hconsistent, hall, hall.same hgiven, hprevious, hstatic, fun k hk => hall.contains hk⟩
  · subst heq
    exact learnEach_contradiction hreport

/-- A static label learns three bounds from the last to the first: it ends up with the overlap of all four
intervals. Of three other bounds the first two contradict each other, so the second one is refused, although
the third would contradict neither of them. -/
theorem learnEach_overlap_reversed :
    let p : Label := ⟨"p"⟩
    let q : Label := ⟨"q"⟩
    let w := (empty.put q .certain).put p ⟨0, 0.875, 0.25, 0.5, true⟩
    let bs : List Interval := [fresh 0.25 1, fresh 0.5 0.75, fresh 0 0.625]
    let clash : List Interval := [fresh 0.5 0.75, fresh 0 0.25, fresh 0.25 0.5]
    ((w.bound p).IsProper ∧ (∀ b ∈ bs, b.IsProper) ∧ ∀ b ∈ clash, b.IsProper) ∧
      (w.bound p :: bs).Pairwise (fun i j => ¬ i.Disjoint j) ∧
      (∀ report ∈ (w.learnEach p bs.reverse).2, report.isContradiction = false) ∧
      ((w.learnEach p bs.reverse).1.bound p).IsOverlap (w.bound p :: bs) ∧
      (w.learnEach p bs.reverse).1.bound p = ⟨0.5, 0.625, 0.25, 0.5, true⟩ ∧
      (w.learnEach p clash).2.map Learned.isContradiction = [false, true, false] ∧
      ¬ (w.bound p :: clash).Pairwise (fun i j => ¬ i.Disjoint j) ∧
      (w.learnEach p (clash.take 2)).1 = (w.learnEach p (clash.take 1)).1 ∧
      (w.learnEach p clash).1.get? q = w.get? q := by
  intro p q w bs clash
  have hw : (w.bound p).IsProper := by decide +kernel
  have hbs : ∀ b ∈ bs, b.IsProper := by decide +kernel
  have hclash : ∀ b ∈ clash, b.IsProper := by decide +kernel
  have hpairwise : (w.bound p :: bs).Pairwise fun i j => ¬ i.Disjoint j := by decide +kernel
  have hreports : (w.learnEach p clash).2.map Learned.isContradiction = [false, true, false] := by
    decide +kernel
  obtain ⟨-, hany, -, -⟩ := learnEach_overlap hw hbs
  obtain ⟨hconsistent, hoverlap, -⟩ := hany hpairwise bs.reverse bs.reverse_perm
  obtain ⟨hiff, -, hrefused, hothers⟩ := learnEach_overlap hw hclash
  refine ⟨⟨hw, hbs, hclash⟩, hpairwise, hconsistent, hoverlap, by decide +kernel, hreports, fun h => ?_, ?_,
    hothers q (by decide)⟩
  · have hnone := hiff.2 h
    rw [← List.forall_mem_map (f := Learned.isContradiction) (P := (· = false)), hreports] at hnone
    simp at hnone
  · obtain ⟨-, -, hsame⟩ := hrefused [fresh 0.5 0.75] (fresh 0 0.25) [fresh 0.25 0.5]
      ⟨0.5, 0.75, 0.25, 0.5, true⟩ (fresh 0 0.25) rfl (by decide +kernel)
    exact hsame

end World

end AnnotatedLogic
