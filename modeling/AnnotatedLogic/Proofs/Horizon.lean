import AnnotatedLogic.Proofs.Plan
/-!
# Runs in two parts

A run may be split: over some timesteps, and then over further ones. The horizon of the first part
shows only in the test whether anything is still to come, so whoever stops early under a farther
horizon stops early under a nearer one.

* `hasPending_mono`: what is to come up to a horizon is to come up to any later one.
* `runFrom_split`: where the first part reaches its horizon, the whole run either goes on as the
  second part or ends early right there.
* `reason_split`: the same of calls.
-/

namespace AnnotatedLogic

theorem Fact.isPending_mono {f : Fact} {t near far : Nat} (hle : near ≤ far)
    (h : f.isPending t near = true) : f.isPending t far = true := by
  unfold Fact.isPending at h ⊢
  simp only [Bool.and_eq_true, decide_eq_true_eq] at h ⊢
  exact ⟨Nat.le_trans h.1 hle, h.2⟩

namespace Reasoner

/-- What is to come up to a horizon is to come up to any later one. -/
theorem hasPending_mono {r : Reasoner} {t near far : Nat} (hle : near ≤ far)
    (h : r.hasPending t near = true) : r.hasPending t far = true := by
  unfold hasPending at h ⊢
  rw [Bool.or_eq_true, List.any_eq_true, List.any_eq_true] at h ⊢
  rcases h with ⟨f, hf, hpending⟩ | ⟨f, hf, hdue⟩
  · exact .inl ⟨f, hf, Fact.isPending_mono hle hpending⟩
  · refine .inr ⟨f, hf, ?_⟩
    simp only [decide_eq_true_eq] at hdue ⊢
    omega

/-! ## One timestep of a run -/

theorem runFrom_of_error {r s : Reasoner} {t : Nat} {halt : Halt}
    (h : r.timestep t = (s, .error halt)) (more : Nat) : r.runFrom more t = (s, .error halt) := by
  cases more <;> (unfold runFrom; rw [h])

theorem runFrom_zero {r s : Reasoner} {t : Nat} {progress : Progress}
    (h : r.timestep t = (s, .ok progress)) : r.runFrom 0 t = (s.complete t, .ok false) := by
  unfold runFrom
  rw [h]

theorem runFrom_succ {r s : Reasoner} {t : Nat} {progress : Progress}
    (h : r.timestep t = (s, .ok progress)) (more : Nat) :
    r.runFrom (more + 1) t =
      if !(s.complete t).hasPending t (t + more + 1)
          && progress.settled (s.complete t).config.convergence then
        (s.complete t, .ok true)
      else (s.complete t).runFrom more (t + 1) := by
  rw [runFrom, h]

/-- A run completes its timesteps one after the other, so the next timestep never goes back. -/
theorem nextTime_le_runFrom {r : Reasoner} {t : Nat} (h : r.nextTime ≤ t) (more : Nat) :
    r.nextTime ≤ (r.runFrom more t).1.nextTime := by
  induction more generalizing r t with
  | zero =>
    have hnext := r.timestep_nextTime t
    rcases hstep : r.timestep t with ⟨s, halt | progress⟩
    · rw [hstep] at hnext
      rw [runFrom_of_error hstep]
      exact Nat.le_of_eq hnext.symm
    · rw [runFrom_zero hstep]
      exact Nat.le_succ_of_le h
  | succ more ih =>
    have hnext := r.timestep_nextTime t
    rcases hstep : r.timestep t with ⟨s, halt | progress⟩
    · rw [hstep] at hnext
      rw [runFrom_of_error hstep]
      exact Nat.le_of_eq hnext.symm
    · rw [runFrom_succ hstep]
      split
      · exact Nat.le_succ_of_le h
      · exact Nat.le_trans (Nat.le_succ_of_le h) (ih (r := s.complete t) (Nat.le_refl (t + 1)))

/-! ## Two parts of a run -/

/-- A run that reaches its horizon has completed it. A run with a farther horizon then either goes
on from there or ends early there, with the same state. -/
theorem runFrom_split {r s : Reasoner} {n t : Nat} (h : r.runFrom n t = (s, .ok false)) (m : Nat) :
    s.nextTime = t + n + 1 ∧
      (r.runFrom (n + m + 1) t = (s, .ok true) ∨
        r.runFrom (n + m + 1) t = s.runFrom m (t + n + 1)) := by
  induction n generalizing r t with
  | zero =>
    rcases hstep : r.timestep t with ⟨u, halt | progress⟩
    · rw [runFrom_of_error hstep] at h
      cases h
    · rw [runFrom_zero hstep] at h
      cases h
      rw [Nat.zero_add, runFrom_succ hstep]
      refine ⟨rfl, ?_⟩
      split
      · exact .inl rfl
      · exact .inr rfl
  | succ n ih =>
    rcases hstep : r.timestep t with ⟨u, halt | progress⟩
    · rw [runFrom_of_error hstep] at h
      cases h
    · rw [runFrom_succ hstep] at h
      split at h
      · cases h
      · next hgoes =>
        -- The first part goes on here, so the whole run does: more is to come up to its horizon.
        have hwhole : ¬ (!(u.complete t).hasPending t (t + (n + m + 1) + 1)
            && progress.settled (u.complete t).config.convergence) = true := by
          simp only [Bool.and_eq_true, Bool.not_eq_true', not_and] at hgoes ⊢
          intro hfar
          refine hgoes (Bool.eq_false_iff.2 fun hnear => ?_)
          rw [hasPending_mono (by omega) hnear] at hfar
          cases hfar
        obtain ⟨hnext, hrest⟩ := ih h
        rw [show n + 1 + m + 1 = (n + m + 1) + 1 by omega, runFrom_succ hstep, if_neg hwhole,
          show t + (n + 1) + 1 = t + 1 + n + 1 by omega]
        exact ⟨hnext, hrest⟩

/-! ## Runs as calls -/

theorem run_fst (r : Reasoner) (more : Nat) : (r.run more).1 = (r.runFrom more r.nextTime).1 := by
  unfold run
  split <;> next h => rw [h]

theorem run_congr {r s : Reasoner} {more rest : Nat}
    (h : r.runFrom more r.nextTime = s.runFrom rest s.nextTime) : r.run more = s.run rest := by
  unfold run
  rw [h]

/-- A run that neither ended early nor stopped at a conflict has reached its horizon. -/
theorem runFrom_of_report {r : Reasoner} {more : Nat} {report : Report}
    (h : (r.run more).2 = .ok report) (hearly : report.convergedEarly = false)
    (hhalted : report.halted = none) :
    r.runFrom more r.nextTime = ((r.run more).1, .ok false) := by
  rw [run_fst]
  unfold run at h
  split at h
  · next heq =>
    cases h
    rw [heq]
    cases hearly
    rfl
  · cases h
    cases hhalted
  · cases h

/-- The same reasoner, told to run over so many timesteps. -/
def withTimesteps (r : Reasoner) (n : Nat) : Reasoner :=
  { r with config := { r.config with timesteps := n } }

theorem reason_withTimesteps (r : Reasoner) (n : Nat) :
    (r.withTimesteps n).reason
      = ((r.run n).1.withPlan ⟨n, r.config.execution, r.config.threads⟩, (r.run n).2) :=
  r.run_withPlan ⟨n, r.config.execution, r.config.threads⟩ n

/-- Let a run over `n` timesteps reach its horizon. Then a run over `n + m` timesteps completes
these as well, and unless it ends early right there, it leads to the same state and the same report
as the run over `n` timesteps and a further run over `m`. -/
theorem reason_split {r : Reasoner} {n m : Nat} {first : Report} (hm : 1 ≤ m)
    (hfirst : (r.withTimesteps n).reason.2 = .ok first) (hearly : first.convergedEarly = false)
    (hhalted : first.halted = none) :
    let whole := (r.withTimesteps (n + m)).reason
    let parts := (r.withTimesteps n).reason.1.reasonAgain m []
    r.nextTime + n < whole.1.nextTime ∧
      ((∀ report, whole.2 = .ok report → report.convergedEarly = true →
          whole.1.nextTime ≠ r.nextTime + n + 1) →
        whole = (parts.1.withTimesteps (n + m), parts.2)) := by
  obtain ⟨k, rfl⟩ : ∃ k, m = k + 1 := ⟨m - 1, by omega⟩
  intro whole parts
  rw [reason_withTimesteps] at hfirst
  have hreached := runFrom_of_report hfirst hearly hhalted
  have hparts : parts
      = (((r.run n).1.run k).1.withPlan ⟨n, r.config.execution, r.config.threads⟩,
          ((r.run n).1.run k).2) := by
    show (r.withTimesteps n).reason.1.reasonAgain (k + 1) [] = _
    rw [reason_withTimesteps, reasonAgain_withPlan]
    rfl
  generalize (r.run n).1 = s at hreached hparts
  obtain ⟨hnext, hsplit⟩ := runFrom_split hreached k
  have hwhole : whole = ((r.run (n + k + 1)).1.withPlan
      ⟨n + k + 1, r.config.execution, r.config.threads⟩, (r.run (n + k + 1)).2) :=
    r.reason_withTimesteps (n + k + 1)
  rcases hsplit with hends | hgoes
  · have hrun : r.run (n + k + 1) = (s, .ok (s.report true none)) := by
      unfold run
      rw [hends]
    rw [hwhole, hrun]
    refine ⟨?_, fun hnot => absurd hnext (hnot _ rfl rfl)⟩
    show r.nextTime + n < s.nextTime
    omega
  · have hrun : r.run (n + k + 1) = s.run k := by
      rw [← hnext] at hgoes
      exact run_congr hgoes
    rw [hwhole, hparts, hrun]
    refine ⟨?_, fun _ => rfl⟩
    show r.nextTime + n < (s.run k).1.nextTime
    have hle := nextTime_le_runFrom (Nat.le_refl s.nextTime) k
    rw [run_fst]
    omega

/-- A fact that lasts until time `3` keeps a run over `1` timestep from ending early, so a run over
`3` is this one and a further run over `2`. -/
theorem reason_split_lasting_fact :
    let fact : Fact := ⟨"f", .node ⟨"a"⟩, ⟨"p"⟩, .certain, 0, 3, false, false⟩
    let r : Reasoner :=
      { config := .standard
        interpretation := .ofGraph (Graph.empty.addNode ⟨"a"⟩) {}
        rules := [.simple .node "r" ⟨"q"⟩]
        facts := [fact]
        pairing := {}
        trace := #[]
        history := #[]
        atomCounts := #[]
        pending := []
        nextTime := 0 }
    let parts := (r.withTimesteps 1).reason.1.reasonAgain 2 []
    (r.withTimesteps 3).reason = (parts.1.withTimesteps 3, parts.2) := by
  intro fact r parts
  have hends : (r.withTimesteps 1).reason.2.toOption.map (fun f => (f.convergedEarly, f.halted))
      = some (false, none) := by decide +kernel
  rcases hfirst : (r.withTimesteps 1).reason.2 with e | first
  · rw [hfirst] at hends
    cases hends
  · rw [hfirst] at hends
    have hpair : (first.convergedEarly, first.halted) = (false, none) := Option.some.inj hends
    have hsplit := reason_split (n := 1) (m := 2) (by decide) hfirst (congrArg Prod.fst hpair)
      (congrArg Prod.snd hpair)
    have hlast : (r.withTimesteps 3).reason.1.nextTime ≠ 2 := by decide +kernel
    exact hsplit.2 fun _ _ _ => hlast

end Reasoner

end AnnotatedLogic
