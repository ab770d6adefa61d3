import NoisyDNF.Proofs.Scenario.RiskyVariables

namespace NoisyDNF.Scenario

open ZeroOne

variable {s : Scenario ℝ} {k : ℕ} {x : Assignment} {v : Var} {c : Bool} {p q : ℝ} {solve : Solver ℝ}

theorem Valid.setNoise_of_lt (hs : s.Valid k) (hp : s.noise.get? v = some p) (hpq : p < q)
    (hq : q < 1 / 2) : (s.setNoise v q).Valid k := by
  have hpos : 0 < q := (hs.noise_mem hp).1.trans_lt hpq
  have hv : v ∈ s.formula.atoms.keys := hs.keys_noise ▸ VarMap.mem_keys_iff.2 ⟨p, hp⟩
  refine hs.setNoise (isErrorProbability_iff.2 ⟨hpos.le, hq⟩) hv (isNoiseless_eq_false_iff.2 ?_)
  refine ⟨v, q, by rw [get?_noise_setNoise, if_pos rfl], Bool.eq_false_iff.2 fun hz ↦ ?_⟩
  exact hpos.ne' (Scalar.isZero_iff.1 hz)

theorem Valid.likelihoodBesides_nonneg (hs : s.Valid k) (e : Var × Bool) (x : Assignment) :
    0 ≤ s.likelihoodBesides e x := by
  refine List.prod_nonneg fun a ha ↦ ?_
  obtain ⟨d, hd, rfl⟩ := List.mem_map.1 ha
  exact MonotoneScalar.zero_le (hs.isLikelihood_factor x (List.mem_of_mem_erase hd))

/-- Only the factor of the variable changes: its reading is right or wrong, or there is none. -/
theorem exists_likelihoodOf_eq_mul (hs : s.Valid k) (hp : s.noise.get? v = some p) (q : ℝ)
    (x : Assignment) : ∃ f f' w, s.likelihoodOf x = f * w ∧ (s.setNoise v q).likelihoodOf x = f' * w ∧
      0 ≤ w ∧ (f = 1 - p ∧ f' = 1 - q ∨ f = p ∧ f' = q ∨ f = 1 ∧ f' = 1) := by
  cases hb : s.observed.get? v with
  | none =>
    refine ⟨1, 1, s.likelihoodOf x, (one_mul _).symm, ?_, hs.likelihoodOf_nonneg, .inr (.inr ⟨rfl, rfl⟩)⟩
    rw [likelihoodOf_setNoise_of_unobserved (VarMap.get?_eq_none_iff.1 hb), one_mul]
  | some b =>
    have hb' : (s.setNoise v q).observed.get? v = some b := hb
    refine ⟨s.factor x (v, b), (s.setNoise v q).factor x (v, b), s.likelihoodBesides (v, b) x,
      likelihoodOf_eq_mul hb x, ?_, hs.likelihoodBesides_nonneg (v, b) x, ?_⟩
    · rw [likelihoodOf_eq_mul hb', likelihoodBesides_setNoise hb]
    · simp only [factor, hp, get?_noise_setNoise, if_true, Option.getD_some]
      by_cases hx : x.get? v = some b
      · simp [hx]
      · simp [hx]

/-- A right reading loses the most. -/
theorem likelihoodOf_mul_le (hs : s.Valid k) (hp : s.noise.get? v = some p) (hpq : p < q) :
    s.likelihoodOf x * (1 - q) ≤ (s.setNoise v q).likelihoodOf x * (1 - p) := by
  obtain ⟨f, f', w, h, h', hw, hcases⟩ := exists_likelihoodOf_eq_mul hs hp q x
  rw [h, h', mul_right_comm, mul_right_comm f']
  refine mul_le_mul_of_nonneg_right ?_ hw
  rcases hcases with ⟨rfl, rfl⟩ | ⟨rfl, rfl⟩ | ⟨rfl, rfl⟩ <;> linarith

/-- A wrong reading gains the most. -/
theorem mul_likelihoodOf_le (hs : s.Valid k) (hp : s.noise.get? v = some p) (hpq : p < q) :
    (s.setNoise v q).likelihoodOf x * p ≤ s.likelihoodOf x * q := by
  obtain ⟨f, f', w, h, h', hw, hcases⟩ := exists_likelihoodOf_eq_mul hs hp q x
  rw [h, h', mul_right_comm, mul_right_comm f]
  refine mul_le_mul_of_nonneg_right ?_ hw
  rcases hcases with ⟨rfl, rfl⟩ | ⟨rfl, rfl⟩ | ⟨rfl, rfl⟩ <;> linarith

theorem likelihoodsOf_setNoise_of_unobserved (hs : s.Valid k) (hs' : (s.setNoise v q).Valid k)
    (hobs : v ∉ s.observed.keys) (c : Bool) :
    (s.setNoise v q).likelihoodsOf c = s.likelihoodsOf c := by
  ext a
  rw [mem_likelihoodsOf hs, mem_likelihoodsOf hs']
  simp only [likelihoodOf_setNoise_of_unobserved hobs]
  exact Iff.rfl

/-- What bounds the likelihoods of every truth bounds the greatest ones. -/
theorem mul_le_mul_of_isGreatest (n n' : Noise ℝ) (hs : (s.withNoise n).Valid k)
    (hs' : (s.withNoise n').Valid k) {m m' f g : ℝ}
    (hm : IsGreatest (insert 0 ((s.withNoise n).likelihoodsOf c)) m)
    (hm' : IsGreatest (insert 0 ((s.withNoise n').likelihoodsOf c)) m') (hg : 0 ≤ g)
    (h : ∀ x, (s.withNoise n).likelihoodOf x * f ≤ (s.withNoise n').likelihoodOf x * g) :
    m * f ≤ m' * g := by
  rcases hm.1 with rfl | hmem
  · rw [zero_mul]
    exact mul_nonneg (hm'.2 (Set.mem_insert _ _)) hg
  · obtain ⟨x, hx, hxc, rfl⟩ := (mem_likelihoodsOf hs).1 hmem
    have hmem' : (s.withNoise n').likelihoodOf x ∈ (s.withNoise n').likelihoodsOf c :=
      (mem_likelihoodsOf hs').2 ⟨x, hx, hxc, rfl⟩
    exact (h x).trans (mul_le_mul_of_nonneg_right (hm'.2 (Set.mem_insert_of_mem _ hmem')) hg)

/-- More noise of a variable lowers the maximum risk at most as it makes right readings less likely, and
raises it at most as it makes wrong ones likelier. A variable that is not observed makes no difference, not
even one that was certain and so had its value pinned. -/
theorem maximumRisk_setNoise (hval : s.validate true = .ok k)
    (hsolve : SolvesExactly solve s.formula.atoms.size) (hp : s.noise.get? v = some p) (hpq : p < q)
    (hq : q < 1 / 2) :
    ∃ r r', s.maximumRisk solve = .ok r ∧ (s.setNoise v q).maximumRisk solve = .ok r' ∧
      r * (1 - q) / (1 - p) ≤ r' ∧ (0 < p → r' ≤ r * q / p) ∧ (v ∉ s.observed.keys → r' = r) := by
  have hs := validate_eq_ok_iff.1 hval
  have hs' := hs.setNoise_of_lt hp hpq hq
  obtain ⟨c, hc⟩ := Option.ne_none_iff_exists'.1 hs.determined
  obtain ⟨r, hrisk, hr⟩ := exists_maximumRisk_eq hs hc hsolve
  obtain ⟨r', hrisk', hr'⟩ := exists_maximumRisk_eq hs' hc hsolve
  have hpos : 0 < 1 - p := by linarith [hs.noise_mem hp]
  refine ⟨r, r', hrisk, hrisk', ?_, fun hp₀ ↦ ?_, fun hobs ↦ ?_⟩
  · rw [div_le_iff₀ hpos]
    exact mul_le_mul_of_isGreatest s.noise (s.noise.insert v q) hs hs' hr hr' hpos.le fun x ↦
      likelihoodOf_mul_le hs hp hpq
  · rw [le_div_iff₀ hp₀]
    exact mul_le_mul_of_isGreatest (s.noise.insert v q) s.noise hs' hs hr' hr (hp₀.trans hpq).le fun x ↦
      mul_likelihoodOf_le hs hp hpq
  · rw [likelihoodsOf_setNoise_of_unobserved hs hs' hobs] at hr'
    exact hr'.unique hr

theorem maximumRisk_setNoise_bothObserved :
    ∃ r r', (bothObserved (1 / 4 : ℝ) (1 / 8)).maximumRisk (enumerate .never) = .ok r ∧
      ((bothObserved (1 / 4 : ℝ) (1 / 8)).setNoise varB (1 / 3)).maximumRisk (enumerate .never) = .ok r' ∧
      r * (1 - 1 / 3) / (1 - 1 / 8) ≤ r' ∧ r' ≤ r * (1 / 3) / (1 / 8) := by
  have hs : (bothObserved (1 / 4 : ℝ) (1 / 8)).Valid 2 :=
    valid_bothObserved (isErrorProbability_iff.2 ⟨by norm_num, by norm_num⟩)
      (isErrorProbability_iff.2 ⟨by norm_num, by norm_num⟩) (by simp [Scalar.isZero])
  have hsolve := solvesExactly_enumerate (K := ℝ) (show bothAtoms.atoms.size ≤ maxEnumeratedVars by decide)
  have hp : (bothObserved (1 / 4 : ℝ) (1 / 8)).noise.get? varB = some (1 / 8) :=
    VarMap.get?_eq_some_iff.2 (List.mem_cons_of_mem _ List.mem_cons_self)
  obtain ⟨r, r', hr, hr', hle, hge, -⟩ := maximumRisk_setNoise (q := 1 / 3) (validate_eq_ok_iff.2 hs)
    hsolve hp (by norm_num) (by norm_num)
  exact ⟨r, r', hr, hr', hle, hge (by norm_num)⟩

end NoisyDNF.Scenario
