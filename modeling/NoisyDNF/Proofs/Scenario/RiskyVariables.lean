import NoisyDNF.Proofs.Scenario.FalsifyingSide
import NoisyDNF.Proofs.Scenario.SatisfyingSide
import NoisyDNF.Proofs.Scenario.Silencing

namespace NoisyDNF.Scenario

open ZeroOne

variable {s : Scenario ℝ} {k : ℕ} {v : Var} {c : Bool} {p : ℝ} {solve : Solver ℝ}

theorem exists_maximumRisk_isGreatest (hs : s.Valid k) (hc : s.formula.evaluate s.observed = some c)
    (hsolve : SolvesExactly solve s.formula.atoms.size) :
    ∃ m, s.maximumRisk solve = .ok m ∧ IsGreatest (s.likelihoodsOf !c) m := by
  cases c with
  | true =>
    obtain ⟨m, hm, -⟩ := exists_isGreatest hs hc
    exact ⟨m, maximumRisk_eq_of_solvesExactly hs hc hsolve hm, hm⟩
  | false =>
    obtain ⟨m, hrisk, hm⟩ := exists_isGreatest_satisfyingRisk hs
    exact ⟨m, (maximumRisk_eq_satisfyingRisk hs hc solve).trans hrisk, hm⟩

theorem exists_maximumRisk_eq (hs : s.Valid k) (hc : s.formula.evaluate s.observed = some c)
    (hsolve : SolvesExactly solve s.formula.atoms.size) :
    ∃ m, s.maximumRisk solve = .ok m ∧ IsGreatest (insert 0 (s.likelihoodsOf !c)) m := by
  obtain ⟨m, hrisk, hm⟩ := exists_maximumRisk_isGreatest hs hc hsolve
  have hnonneg : 0 ≤ m := by
    obtain ⟨x, -, -, rfl⟩ := (mem_likelihoodsOf hs).1 hm.1
    exact hs.likelihoodOf_nonneg
  exact ⟨m, hrisk, max_eq_right hnonneg ▸ hm.insert 0⟩

/-- Without the noise of a variable the maximum risk is the one of the truths that keep its value, but for
one factor, or when it is not observed, one of the risks that there are anyway. -/
theorem exists_riskWithout_eq (hs : s.Valid k) (hc : s.formula.evaluate s.observed = some c)
    (hsolve : SolvesExactly solve s.formula.atoms.size) (hp : s.noise.get? v = some p) :
    ∃ r, s.riskWithout solve v = .ok r ∧
      (v ∈ s.observed.keys → IsGreatest (insert 0 (s.likelihoodsKeeping v !c)) ((1 - p) * r)) ∧
      (v ∉ s.observed.keys → r ∈ insert 0 (s.likelihoodsOf !c)) ∧
      ((s.silence v).noise.isNoiseless = true → r = 0) := by
  have hv : v ∈ s.formula.atoms.keys := hs.keys_noise ▸ VarMap.mem_keys_iff.2 ⟨p, hp⟩
  by_cases hn : (s.silence v).noise.isNoiseless = true
  · refine ⟨0, by rw [riskWithout, if_pos hn], fun _ ↦ ?_, fun _ ↦ Set.mem_insert _ _, fun _ ↦ rfl⟩
    rw [mul_zero]
    refine isGreatest_likelihoodsKeeping_zero fun q hq ↦ ?_
    obtain ⟨x, -, hxc, hkeep, rfl⟩ := (mem_likelihoodsKeeping hs).1 hq
    exact likelihoodOf_eq_zero_of_isNoiseless hs hn hc hxc hkeep
  · have hs' := hs.silence isErrorProbability_zero hv (Bool.eq_false_iff.2 hn)
    obtain ⟨r, hrisk, hr⟩ := exists_maximumRisk_eq hs' hc hsolve
    refine ⟨r, by rw [riskWithout, if_neg hn, hrisk], fun hobs ↦ ?_, fun hobs ↦ ?_, fun h ↦ absurd h hn⟩
    · obtain ⟨b, hb⟩ := VarMap.mem_keys_iff.1 hobs
      exact isGreatest_likelihoodsKeeping hs hs' hp hb hr
    · refine hr.1.imp_right fun hmem ↦ ?_
      obtain ⟨x, hx, hxc, he⟩ := (mem_likelihoodsOf hs').1 hmem
      exact (mem_likelihoodsOf hs).2 ⟨x, hx, hxc, by rw [← he, likelihoodOf_silence_of_unobserved hobs]⟩

theorem isRisky_eq (hs : s.Valid k) (hv : v ∈ s.formula.atoms.keys) {m r : ℝ}
    (hm : s.maximumRisk solve = .ok m) (hr : s.riskWithout solve v = .ok r) :
    s.isRisky solve v = .ok (decide (v ∈ s.observed.keys ∧ m < r)) := by
  rw [isRisky_eq_exceedsWithout hs hv hm, exceedsWithout, hr]
  by_cases hobs : v ∈ s.observed.keys <;> simp [VarMap.contains_iff, hobs, Except.map]

theorem isGreatest_likelihoodsKeeping_of_unobserved (hobs : v ∉ s.observed.keys)
    (hv : v ∈ s.formula.atoms.keys) (c : Bool) :
    IsGreatest (insert 0 (s.likelihoodsKeeping v c)) 0 := by
  refine isGreatest_likelihoodsKeeping_zero ?_
  rintro q ⟨x, hx, -, hkeep, -⟩
  obtain ⟨b, hb⟩ := hx.exists_value hv
  rw [VarMap.get?_eq_none_iff.2 hobs, hb] at hkeep
  cases hkeep

/-- A variable is risky when it is observed and the greatest likelihood among the truths of the other class
that keep its value is more than what its noise leaves of the maximum risk. So a certain variable, the only
noisy one and one that is not observed are never risky, and being risky always means that the maximum risk
is greater without the noise of the variable. -/
theorem isRisky_eq_decide (hval : s.validate true = .ok k) (hv : v ∈ s.formula.atoms.keys)
    (hsolve : SolvesExactly solve s.formula.atoms.size) :
    ∃ c m mv p, s.formula.evaluate s.observed = some c ∧ s.noise.get? v = some p ∧
      IsGreatest (insert 0 (s.likelihoodsOf !c)) m ∧
      IsGreatest (insert 0 (s.likelihoodsKeeping v !c)) mv ∧
      s.isRisky solve v = .ok (decide (v ∈ s.observed.keys ∧ (1 - p) * m < mv)) ∧
      (p = 0 ∨ (s.silence v).noise.isNoiseless = true ∨ v ∉ s.observed.keys →
        s.isRisky solve v = .ok false) ∧
      ∃ r r', s.maximumRisk solve = .ok r ∧ s.riskWithout solve v = .ok r' ∧
        s.isRisky solve v = .ok (decide (r < r')) := by
  have hs := validate_eq_ok_iff.1 hval
  obtain ⟨c, hc⟩ := Option.ne_none_iff_exists'.1 hs.determined
  obtain ⟨p, hp⟩ := hs.exists_noise hv
  obtain ⟨m, hrisk, hm⟩ := exists_maximumRisk_eq hs hc hsolve
  obtain ⟨r, hwithout, hkeep, hunobs, hnoiseless⟩ := exists_riskWithout_eq hs hc hsolve hp
  have hpos : 0 < 1 - p := by linarith [hs.noise_mem hp]
  have heq := isRisky_eq hs hv hrisk hwithout
  by_cases hobs : v ∈ s.observed.keys
  -- The truths that keep the value are those of the silenced scenario, but for a factor that cancels.
  · have hmv := hkeep hobs
    have hlt : (1 - p) * m < (1 - p) * r ↔ m < r := mul_lt_mul_iff_right₀ hpos
    have hnonneg : 0 ≤ m := hm.2 (Set.mem_insert _ _)
    refine ⟨c, m, _, p, hc, hp, hm, hmv, by simpa only [hlt] using heq, ?_, m, r, hrisk, hwithout,
      by simpa only [hobs, true_and] using heq⟩
    rintro (rfl | hn | hno)
    · have hle := hm.2 (Set.insert_subset_insert (s.likelihoodsKeeping_subset v _) hmv.1)
      rw [sub_zero, one_mul] at hle
      simpa [not_lt.2 hle] using heq
    · simpa [hnoiseless hn, not_lt.2 hnonneg] using heq
    · exact absurd hobs hno
  -- Without the variable's noise nothing changes, or nothing is left.
  · have hfalse : s.isRisky solve v = .ok false := by simpa [hobs] using heq
    refine ⟨c, m, 0, p, hc, hp, hm, isGreatest_likelihoodsKeeping_of_unobserved hobs hv _,
      by simpa only [hobs, false_and] using heq, fun _ ↦ hfalse, m, r, hrisk, hwithout, ?_⟩
    have hle := not_lt.2 (hm.2 (hunobs hobs))
    simpa only [hle, decide_false] using hfalse

theorem isRisky_eq_decide_bothObserved :
    ∃ m mv, IsGreatest (insert 0 ((bothObserved (1 / 4 : ℝ) (1 / 8)).likelihoodsOf false)) m ∧
      IsGreatest (insert 0 ((bothObserved (1 / 4 : ℝ) (1 / 8)).likelihoodsKeeping varB false)) mv ∧
      (bothObserved (1 / 4 : ℝ) (1 / 8)).isRisky (enumerate .never) varB =
        .ok (decide ((1 - 1 / 8) * m < mv)) := by
  have hs : (bothObserved (1 / 4 : ℝ) (1 / 8)).Valid 2 :=
    valid_bothObserved (isErrorProbability_iff.2 ⟨by norm_num, by norm_num⟩)
      (isErrorProbability_iff.2 ⟨by norm_num, by norm_num⟩) (by simp [Scalar.isZero])
  have hsolve := solvesExactly_enumerate (K := ℝ) (show bothAtoms.atoms.size ≤ maxEnumeratedVars by decide)
  obtain ⟨c, m, mv, p, hc, hp, hm, hmv, heq, -⟩ :=
    isRisky_eq_decide (validate_eq_ok_iff.2 hs) (show varB ∈ bothAtoms.atoms.keys by decide) hsolve
  obtain rfl : c = true :=
    Option.some_inj.1 (hc.symm.trans (show bothAtoms.evaluate bothTrue = some true by decide))
  have hq : (bothObserved (1 / 4 : ℝ) (1 / 8)).noise.get? varB = some (1 / 8) :=
    VarMap.get?_eq_some_iff.2 (List.mem_cons_of_mem _ List.mem_cons_self)
  obtain rfl : p = 1 / 8 := Option.some_inj.1 (hp.symm.trans hq)
  have hobs : varB ∈ (bothObserved (1 / 4 : ℝ) (1 / 8)).observed.keys :=
    show varB ∈ bothTrue.keys by decide
  exact ⟨m, mv, hm, hmv, by simpa only [hobs, true_and] using heq⟩

end NoisyDNF.Scenario
