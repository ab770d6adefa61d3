import NoisyDNF.Proofs.ZeroOne.Incumbents

namespace NoisyDNF.ZeroOne

namespace Status

variable {cutShort found : Bool}

theorem ofSearch_eq_infeasible_iff :
    ofSearch cutShort found = .infeasible ↔ cutShort = false ∧ found = false := by
  cases cutShort <;> cases found <;> simp [ofSearch]

theorem ofSearch_of_not_found (h : found = false) :
    ofSearch cutShort found = .unknown ∨ ofSearch cutShort found = .infeasible := by
  subst h
  cases cutShort
  · exact .inr rfl
  · exact .inl rfl

end Status

variable {R : Type} [Scalar R] {m : Model R} {deadline : Deadline}

namespace Search

/-- When time is up at the root, nothing has been recorded. -/
theorem best?_passed (m : Model R) : (run m .passed).best? = none := by
  rw [run, explore]
  split <;> rfl

end Search

theorem not_exists_isFeasible_of_infeasible (hm : m.WellFormed)
    (h : (branchAndBound deadline m).status = .infeasible) : ¬ ∃ y, m.isFeasible y = true := by
  obtain ⟨ht, hnone⟩ := Status.ofSearch_eq_infeasible_iff.1 h
  exact (Search.isSome_best?_iff hm ht).not.1 (Bool.eq_false_iff.1 hnone)

/-- The status tells whether there is a feasible assignment, and what is called optimal is one. No law of
arithmetic is used, so the coefficients of the objective may be infinite or undefined. -/
theorem branchAndBound_status_iff (hm : m.Built) :
    ((branchAndBound .never m).status = .optimal ↔ ∃ y, m.isFeasible y = true) ∧
    ((branchAndBound .never m).status = .infeasible ↔ ¬ ∃ y, m.isFeasible y = true) ∧
    ((branchAndBound .never m).status = .optimal →
      (branchAndBound .never m).values.size = m.numVars ∧
      m.isFeasible (branchAndBound .never m).values = true ∧
      (branchAndBound .never m).objective =
        some (m.objectiveValue (branchAndBound .never m).values)) ∧
    ((branchAndBound .passed m).status = .unknown ∨ (branchAndBound .passed m).status = .infeasible) ∧
    ((branchAndBound .passed m).status = .infeasible → ¬ ∃ y, m.isFeasible y = true) := by
  have hwf := hm.wellFormed
  have ht := Search.timedOut_never hwf
  have hfound := Search.isSome_best?_iff hwf ht
  refine ⟨?_, ?_, fun h ↦ ?_, ?_, not_exists_isFeasible_of_infeasible hwf⟩
  · exact Status.ofSearch_eq_optimal_iff.trans ((and_iff_right ht).trans hfound)
  · rw [← hfound, Bool.not_eq_true]
    exact Status.ofSearch_eq_infeasible_iff.trans (and_iff_right ht)
  · obtain ⟨hfeas, hobj⟩ := isFeasible_values_of_optimal hwf h
    exact ⟨((Model.isFeasible_iff hwf).1 hfeas).1, hfeas, hobj⟩
  · exact Status.ofSearch_of_not_found (congrArg Option.isSome (Search.best?_passed m))

def Model.ungraded : Model Float where
  names := #["a", "b"]
  objective := #[0 / 0, -1 / 0]
  constraints := [⟨[(0, 1), (1, 1)], .equal, 1⟩, ⟨[(1, 2), (0, -1)], .atLeast, 1⟩]

theorem Model.built_ungraded : ungraded.Built := built_iff_wellFormed.2 (by decide)

theorem branchAndBound_status_iff_ungraded :
    (branchAndBound .never Model.ungraded).status = .optimal ∧
      Model.ungraded.isFeasible (branchAndBound .never Model.ungraded).values = true ∧
      (branchAndBound .passed Model.ungraded).status = .unknown := by
  obtain ⟨hiff, -, hval, hor, hno⟩ := branchAndBound_status_iff Model.built_ungraded
  have hfeas : ∃ y, Model.ungraded.isFeasible y = true := ⟨#[false, true], by decide⟩
  have hopt := hiff.2 hfeas
  exact ⟨hopt, (hval hopt).2.1, hor.resolve_right fun h ↦ hno h hfeas⟩

end NoisyDNF.ZeroOne
