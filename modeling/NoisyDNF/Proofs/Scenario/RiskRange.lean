import NoisyDNF.Proofs.Scenario.Sensitivity

namespace NoisyDNF.Scenario

open ZeroOne

variable {s : Scenario ℝ} {k : ℕ} {x : Assignment} {v : Var} {b c : Bool} {p : ℝ} {solve : Solver ℝ}

def observedNoise (s : Scenario ℝ) : Set ℝ := {p | ∃ v ∈ s.observed.keys, s.noise.get? v = some p}

/-- What is observed decides the class, so a truth of the other class differs from it. -/
theorem exists_observed_ne (hc : s.formula.evaluate s.observed = some c)
    (hxc : s.formula.evaluate x = some !c) : ∃ v b, s.observed.get? v = some b ∧ x.get? v ≠ some b := by
  by_contra hno
  push Not at hno
  have hext := Formula.evaluate_of_extends (fun v _ b ↦ hno v b) hc
  rw [hext] at hxc
  cases c <;> cases hxc

theorem Valid.likelihoodBesides_le_one (hs : s.Valid k) (e : Var × Bool) (x : Assignment) :
    s.likelihoodBesides e x ≤ 1 := by
  refine prod_map_le_one fun d hd ↦ ?_
  have hmem := List.mem_of_mem_erase hd
  obtain ⟨q, hq⟩ := hs.exists_noise (hs.mem_atoms_of_observed (VarMap.get?_eq_some_iff.2 hmem))
  exact ⟨MonotoneScalar.zero_le (hs.isLikelihood_factor x hmem),
    (factor_le_complement hs hq).trans (sub_le_self 1 (hs.noise_mem hq).1)⟩

/-- A wrong reading is no likelier than its noise allows. -/
theorem Valid.likelihoodOf_le_noise (hs : s.Valid k) (hb : s.observed.get? v = some b)
    (hx : x.get? v ≠ some b) (hp : s.noise.get? v = some p) : s.likelihoodOf x ≤ p := by
  have hfactor : s.factor x (v, b) = p := by rw [factor, if_neg hx, hp, Option.getD_some]
  calc s.likelihoodOf x = p * s.likelihoodBesides (v, b) x := by rw [likelihoodOf_eq_mul hb, hfactor]
    _ ≤ p * 1 := mul_le_mul_of_nonneg_left (hs.likelihoodBesides_le_one _ x) (hs.noise_mem hp).1
    _ = p := mul_one p

theorem Valid.likelihoodOf_eq_zero_iff (hs : s.Valid k) : s.likelihoodOf x = 0 ↔
    ∃ v b, s.observed.get? v = some b ∧ x.get? v ≠ some b ∧ s.noise.get? v = some 0 := by
  rw [eq_comm, ← hs.likelihoodOf_nonneg.not_lt_iff_eq, hs.likelihoodOf_pos_iff, Respects]
  push Not
  simp only [isCertain_iff]
  exact exists₂_congr fun v b ↦ ⟨fun ⟨hp, hb, hx⟩ ↦ ⟨hb, hx, hp⟩, fun ⟨hb, hx, hp⟩ ↦ ⟨hp, hb, hx⟩⟩

theorem Valid.exists_isGreatest_observedNoise (hs : s.Valid k) (hv : v ∈ s.observed.keys) :
    ∃ p, IsGreatest s.observedNoise p := by
  have hset : {p | p ∈ s.observed.keys.filterMap s.noise.get?} = s.observedNoise := by
    ext p
    exact List.mem_filterMap
  obtain ⟨q, hq⟩ := hs.exists_noise (hs.keys_observed v hv)
  have hne : s.observed.keys.filterMap s.noise.get? ≠ [] :=
    List.ne_nil_of_mem (List.mem_filterMap.2 ⟨v, hv, hq⟩)
  refine ⟨_, hset ▸ MonotoneScalar.isGreatest_foldl_larger_zero hne fun p hp ↦ ?_⟩
  obtain ⟨w, -, hw⟩ := List.mem_filterMap.1 hp
  exact MonotoneScalar.isLikelihood_error (hs.noise_range w p hw)

/-- The maximum risk is no greater than the greatest error probability of an observed variable, and so less
than one half. It vanishes exactly when the certain observations rule out every truth of the other class. -/
theorem maximumRisk_mem_range (hval : s.validate true = .ok k)
    (hsolve : SolvesExactly solve s.formula.atoms.size) :
    ∃ c r p, s.formula.evaluate s.observed = some c ∧ s.maximumRisk solve = .ok r ∧
      IsGreatest s.observedNoise p ∧ 0 ≤ r ∧ r ≤ p ∧ p < 1 / 2 ∧
      (r = 0 ↔ ∀ x, s.IsTruth x → s.formula.evaluate x = some !c →
        ∃ v b, s.observed.get? v = some b ∧ x.get? v ≠ some b ∧ s.noise.get? v = some 0) := by
  have hs := validate_eq_ok_iff.1 hval
  obtain ⟨c, hc⟩ := Option.ne_none_iff_exists'.1 hs.determined
  obtain ⟨r, hrisk, hmem, hle⟩ := exists_maximumRisk_isGreatest hs hc hsolve
  obtain ⟨x, hx, hxc, rfl⟩ := (mem_likelihoodsOf hs).1 hmem
  obtain ⟨v, b, hb, hne⟩ := exists_observed_ne hc hxc
  have hv : v ∈ s.observed.keys := VarMap.mem_keys_iff.2 ⟨b, hb⟩
  obtain ⟨p, hp⟩ := hs.exists_isGreatest_observedNoise hv
  obtain ⟨q, hq⟩ := hs.exists_noise (hs.keys_observed v hv)
  obtain ⟨w, -, hw⟩ := hp.1
  refine ⟨c, _, p, hc, hrisk, hp, hs.likelihoodOf_nonneg,
    (hs.likelihoodOf_le_noise hb hne hq).trans (hp.2 ⟨v, hv, hq⟩), (hs.noise_mem hw).2, ?_⟩
  constructor
  · intro hzero z hz hzc
    refine hs.likelihoodOf_eq_zero_iff.1 (le_antisymm ?_ hs.likelihoodOf_nonneg)
    exact hzero ▸ hle ((mem_likelihoodsOf hs).2 ⟨z, hz, hzc, rfl⟩)
  · exact fun hall ↦ hs.likelihoodOf_eq_zero_iff.2 (hall x hx hxc)

theorem maximumRisk_mem_range_bothObserved :
    ∃ r p, (bothObserved (1 / 4 : ℝ) 0).maximumRisk (enumerate .never) = .ok r ∧
      IsGreatest (bothObserved (1 / 4 : ℝ) 0).observedNoise p ∧ 0 ≤ r ∧ r ≤ p ∧ p < 1 / 2 ∧
      (r = 0 ↔ ∀ x, (bothObserved (1 / 4 : ℝ) 0).IsTruth x → bothAtoms.evaluate x = some false →
        ∃ v b, bothTrue.get? v = some b ∧ x.get? v ≠ some b ∧
          (bothObserved (1 / 4 : ℝ) 0).noise.get? v = some 0) := by
  have hs : (bothObserved (1 / 4 : ℝ) 0).Valid 2 :=
    valid_bothObserved (isErrorProbability_iff.2 ⟨by norm_num, by norm_num⟩) isErrorProbability_zero
      (by simp [Scalar.isZero])
  have hsolve := solvesExactly_enumerate (K := ℝ) (show bothAtoms.atoms.size ≤ maxEnumeratedVars by decide)
  obtain ⟨c, r, p, hc, hr, hp, hnonneg, hle, hlt, hiff⟩ :=
    maximumRisk_mem_range (validate_eq_ok_iff.2 hs) hsolve
  obtain rfl : c = true :=
    Option.some_inj.1 (hc.symm.trans (show bothAtoms.evaluate bothTrue = some true by decide))
  exact ⟨r, p, hr, hp, hnonneg, hle, hlt, hiff⟩

end NoisyDNF.Scenario
