import Mathlib.Analysis.SpecialFunctions.Log.Basic
import NoisyDNF.Proofs.Scenario.Exhaustive
import NoisyDNF.Proofs.Scenario.LogLikelihood
import NoisyDNF.Proofs.ZeroOne.Optimality

namespace NoisyDNF.Scenario

open ZeroOne

variable {s : Scenario ℝ} {k : ℕ} {ts : List Formula}

theorem mem_likelihoodsOf_decode (hs : s.Valid k) (hf : s.formula.IsDnfOf k ts) {y : Array Bool}
    (hy : (s.modelOf k ts).isFeasible y = true) :
    s.likelihoodOf (s.decode y) ∈ s.likelihoodsOf false := by
  obtain ⟨-, hfalse, -⟩ := (isFeasible_modelOf_iff hs.noise_covers hf).1 hy
  exact (mem_likelihoodsOf hs).2 ⟨_, isTruth_decode s y, hfalse, rfl⟩

theorem le_exp_of_mem_likelihoodsOf (hs : s.Valid k) (hf : s.formula.IsDnfOf k ts) {v : ℝ}
    (h : ∀ y, (s.modelOf k ts).isFeasible y = true → (s.modelOf k ts).objectiveValue y ≤ v) {p : ℝ}
    (hp : p ∈ s.likelihoodsOf false) : p ≤ Real.exp (v + s.offsetOf) := by
  obtain ⟨x, hx, hfalse, rfl⟩ := (mem_likelihoodsOf hs).1 hp
  by_cases hpos : 0 < s.likelihoodOf x
  · obtain ⟨z, hz, hpin, hzf, he⟩ := exists_pinned hs hx hfalse hpos
    obtain ⟨y, hy, rfl⟩ := exists_feasible hs hf hz hpin hzf
    rw [← he, ← exp_objectiveValue hs.measured hf hy]
    exact Real.exp_le_exp.2 (add_le_add_left (h y hy) _)
  · exact (not_lt.1 hpos).trans (Real.exp_pos _).le

/-- An optimal solution stands for the likelihood of its truth. -/
theorem maximumRisk_eq (hs : s.Valid k) (hts : s.formula.terms? = some ts)
    (hf : s.formula.IsDnfOf k ts) (ht : s.formula.evaluate s.observed = some true)
    (hcan : s.canFalsify = .ok true) {solve : Solver ℝ} {y : Array Bool}
    (hstatus : (solve (s.modelOf k ts)).status = .optimal)
    (hobj : (solve (s.modelOf k ts)).objective = some ((s.modelOf k ts).objectiveValue y))
    (hy : (s.modelOf k ts).isFeasible y = true) :
    s.maximumRisk solve = .ok (s.likelihoodOf (s.decode y)) := by
  rw [maximumRisk_eq_probability hs hts ht hcan hstatus, hobj, Option.elim_some,
    probability_objectiveValue hs.measured hf hy]

theorem exists_isGreatest (hs : s.Valid k) (ht : s.formula.evaluate s.observed = some true) :
    ∃ m, IsGreatest (s.likelihoodsOf false) m ∧
      (s.formula.atoms.size ≤ maxExhaustiveAtoms → s.exhaustiveRisk = .ok m) := by
  obtain ⟨m, hm, hex⟩ := exists_exhaustiveRisk_eq hs ht
  refine ⟨m, ⟨?_, fun p hp ↦ hm.2 (Set.mem_insert_of_mem _ hp)⟩, hex⟩
  rcases hm.1 with rfl | hmem
  · obtain ⟨x, hx, hfalse⟩ := exists_falsifying hs
    have hmem : s.likelihoodOf x ∈ s.likelihoodsOf false :=
      (mem_likelihoodsOf hs).2 ⟨x, hx, hfalse, rfl⟩
    have hle := hm.2 (Set.mem_insert_of_mem _ hmem)
    rwa [le_antisymm hle hs.likelihoodOf_nonneg] at hmem
  · exact hmem

theorem canFalsify_false_iff (hs : s.Valid k) :
    s.canFalsify = .ok false ↔ s.formula.evaluate s.leastTruth ≠ some false := by
  rw [canFalsify_eq_of_exact hs, Except.ok.injEq, decide_eq_false_iff_not]

theorem eq_zero_of_canFalsify (hs : s.Valid k) (hcan : s.canFalsify = .ok false) {m : ℝ}
    (hm : IsGreatest (s.likelihoodsOf false) m) : m = 0 := by
  obtain ⟨x, -, hfalse, rfl⟩ := (mem_likelihoodsOf hs).1 hm.1
  exact likelihoodOf_eq_zero_of_leastTruth hs ((canFalsify_false_iff hs).1 hcan) hfalse

theorem exact_risk (hs : s.Valid k) (hts : s.formula.terms? = some ts)
    (hf : s.formula.IsDnfOf k ts) (ht : s.formula.evaluate s.observed = some true)
    (hcan : s.canFalsify = .ok true) {solve : Solver ℝ}
    (hsolve : SolvesExactly solve s.formula.atoms.size) {y : Array Bool}
    (hy : (s.modelOf k ts).isFeasible y = true) {m : ℝ}
    (hm : IsGreatest (s.likelihoodsOf false) m) : s.maximumRisk solve = .ok m := by
  obtain ⟨v, hstatus, hobj, ⟨z, hz, rfl⟩, hbound⟩ :=
    hsolve _ (wellFormed_modelOf hf) (numVars_modelOf s k ts) ⟨y, hy⟩
  rw [maximumRisk_eq hs hts hf ht hcan hstatus hobj hz]
  refine congrArg _ (le_antisymm (hm.2 (mem_likelihoodsOf_decode hs hf hz)) ?_)
  rw [← exp_objectiveValue hs.measured hf hz]
  exact le_exp_of_mem_likelihoodsOf hs hf (fun w hw ↦ hbound ⟨w, hw, rfl⟩) hm.1

/-- A solver that finds exact optima also finds the greatest likelihood when it is not called at all. -/
theorem maximumRisk_eq_of_solvesExactly (hs : s.Valid k)
    (ht : s.formula.evaluate s.observed = some true) {solve : Solver ℝ}
    (hsolve : SolvesExactly solve s.formula.atoms.size) {m : ℝ}
    (hm : IsGreatest (s.likelihoodsOf false) m) : s.maximumRisk solve = .ok m := by
  obtain ⟨ts, hts, hf⟩ := hs.exists_terms
  by_cases hleast : s.formula.evaluate s.leastTruth = some false
  · have hcan : s.canFalsify = .ok true := by
      rw [canFalsify_eq_of_exact hs, decide_eq_true hleast]
    obtain ⟨y, hy, -⟩ :=
      exists_feasible hs hf s.isTruth_leastTruth (pinned_leastTruth s) hleast
    exact exact_risk hs hts hf ht hcan hsolve hy hm
  · have hcan := (canFalsify_false_iff hs).2 hleast
    rw [eq_zero_of_canFalsify hs hcan hm]
    exact maximumRisk_eq_zero hs ht hcan solve

theorem enumerate_risk (hs : s.Valid k) (hts : s.formula.terms? = some ts)
    (hf : s.formula.IsDnfOf k ts) (ht : s.formula.evaluate s.observed = some true)
    (hcan : s.canFalsify = .ok true) (hsize : s.formula.atoms.size ≤ maxEnumeratedVars)
    {y : Array Bool} (hy : (s.modelOf k ts).isFeasible y = true) {m : ℝ}
    (hm : IsGreatest (s.likelihoodsOf false) m) : s.maximumRisk (enumerate .never) = .ok m :=
  exact_risk hs hts hf ht hcan (solvesExactly_enumerate hsize) hy hm

theorem branchAndBound_risk (hs : s.Valid k) (hts : s.formula.terms? = some ts)
    (hf : s.formula.IsDnfOf k ts) (ht : s.formula.evaluate s.observed = some true)
    (hcan : s.canFalsify = .ok true) {y : Array Bool}
    (hy : (s.modelOf k ts).isFeasible y = true) {m : ℝ}
    (hm : IsGreatest (s.likelihoodsOf false) m) :
    ∃ r o, s.maximumRisk (branchAndBound .never) = .ok r ∧
      (branchAndBound .never (s.modelOf k ts)).objective = some o ∧
      r ≤ m ∧ m ≤ r * Real.exp (1 / 10 ^ 12 * max 1 |o|) := by
  have hwf := wellFormed_modelOf (k := k) hf
  obtain ⟨z, hstatus, hobj, hz⟩ := exists_branchAndBound_eq hwf hy
  obtain ⟨v, hv, hbound⟩ := objectiveValue_le_of_optimal hwf hstatus
  obtain rfl := Option.some_inj.1 (hobj.symm.trans hv)
  refine ⟨_, _, maximumRisk_eq hs hts hf ht hcan hstatus hobj hz, hobj,
    hm.2 (mem_likelihoodsOf_decode hs hf hz), ?_⟩
  rw [← exp_objectiveValue hs.measured hf hz, ← Real.exp_add, max_comm, add_right_comm]
  exact le_exp_of_mem_likelihoodsOf hs hf hbound hm.1

/-- When the observation satisfies the formula, all ways to the maximum risk lead to the greatest
likelihood of a truth that falsifies it. Such a truth always exists. -/
theorem maximumRisk_of_satisfied (hv : s.validate true = .ok k)
    (ht : s.formula.evaluate s.observed = some true) :
    ∃ m, IsGreatest (s.likelihoodsOf false) m ∧
      (s.formula.atoms.size ≤ maxEnumeratedVars → s.maximumRisk (enumerate .never) = .ok m) ∧
      (∃ r, s.maximumRisk (branchAndBound .never) = .ok r ∧
        (s.canFalsify = .ok false ∧ r = 0 ∧ m = 0 ∨
          ∃ e o, s.canFalsify = .ok true ∧ s.encode k = .ok e ∧
            (branchAndBound .never e.model).objective = some o ∧
            r ≤ m ∧ m ≤ r * Real.exp (1 / 10 ^ 12 * max 1 |o|))) ∧
      (s.formula.atoms.size ≤ maxExhaustiveAtoms → s.exhaustiveRisk = .ok m) := by
  have hs := validate_eq_ok_iff.1 hv
  obtain ⟨ts, hts, hf⟩ := hs.exists_terms
  obtain ⟨m, hm, hex⟩ := exists_isGreatest hs ht
  by_cases hleast : s.formula.evaluate s.leastTruth = some false
  · have hcan : s.canFalsify = .ok true := by
      rw [canFalsify_eq_of_exact hs, decide_eq_true hleast]
    obtain ⟨y, hy, -⟩ :=
      exists_feasible hs hf s.isTruth_leastTruth (pinned_leastTruth s) hleast
    obtain ⟨r, o, hr, ho, hle, hle'⟩ := branchAndBound_risk hs hts hf ht hcan hy hm
    exact ⟨m, hm, fun hsize ↦ enumerate_risk hs hts hf ht hcan hsize hy hm,
      ⟨r, hr, .inr ⟨_, o, hcan, encode_eq hs hts, ho, hle, hle'⟩⟩, hex⟩
  · have hcan := (canFalsify_false_iff hs).2 hleast
    obtain rfl := eq_zero_of_canFalsify hs hcan hm
    exact ⟨0, hm, fun _ ↦ maximumRisk_eq_zero hs ht hcan _,
      ⟨0, maximumRisk_eq_zero hs ht hcan _, .inl ⟨hcan, rfl, rfl⟩⟩, hex⟩

theorem maximumRisk_of_satisfied_bothObserved :
    ∃ m, IsGreatest ((bothObserved (1 / 4 : ℝ) (1 / 8)).likelihoodsOf false) m ∧
      (bothObserved (1 / 4 : ℝ) (1 / 8)).maximumRisk (enumerate .never) = .ok m ∧
      (bothObserved (1 / 4 : ℝ) (1 / 8)).exhaustiveRisk = .ok m := by
  have hp : isErrorProbability (1 / 4 : ℝ) = true := by
    simp [isErrorProbability, Scalar.half]
    norm_num
  have hq : isErrorProbability (1 / 8 : ℝ) = true := by
    simp [isErrorProbability, Scalar.half]
    norm_num
  have hne : Scalar.isZero (1 / 4 : ℝ) = false := by simp [Scalar.isZero]
  obtain ⟨m, hm, henum, -, hex⟩ :=
    maximumRisk_of_satisfied (validate_eq_ok_iff.2 (valid_bothObserved hp hq hne)) (by decide)
  exact ⟨m, hm, henum (by decide), hex (by decide)⟩

end NoisyDNF.Scenario
