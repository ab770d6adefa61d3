import NoisyDNF.Proofs.Binary64.Monotonicity
import NoisyDNF.Proofs.Scenario.Exhaustive
import NoisyDNF.Proofs.Scenario.LeastTruth
import NoisyDNF.ZeroOne.Search

namespace NoisyDNF.Scenario

open Binary64 ZeroOne

variable {s : Scenario Float} {k : ℕ} {x : Assignment} {v : Var} {p : Float}

/-- No truth that falsifies the formula is possible, going by the computed likelihoods. -/
def Unfalsifiable (s : Scenario Float) : Prop :=
  ∀ x, s.IsTruth x → s.formula.evaluate x = some false →
    ∃ p, likelihood s.observed x s.noise = .ok p ∧ Scalar.isZero p = true

/-- The least truth falsifies the formula but its likelihood is rounded to zero, while the likelihood of
another truth that falsifies the formula is not. -/
structure LosesFalsifier (s : Scenario Float) : Prop where
  falsifies : s.formula.evaluate s.leastTruth = some false
  underflows : ∃ p, likelihood s.observed s.leastTruth s.noise = .ok p ∧ Scalar.isZero p = true
  exists_likely : ∃ p ∈ s.likelihoodsOf false, 0 < p

theorem Valid.isProbability_noise (hs : s.Valid k) (hp : s.noise.get? v = some p) :
    IsProbability p :=
  isProbability_of_isErrorProbability (hs.noise_range v p hp)

theorem isCertain_iff_value (hs : s.Valid k) (hp : s.noise.get? v = some p) :
    s.isCertain v = true ↔ value p = 0 := by
  rw [isCertain, hp, Option.any_some, isZero_iff (hs.isProbability_noise hp).isFinite]

theorem Valid.isProbability_of_mem (hs : s.Valid k) (x : Assignment) :
    ∀ a ∈ s.observed.entries.map (s.factor x), IsProbability a :=
  hs.isLikelihood_of_mem x

theorem Valid.isProbability_likelihoodOf (hs : s.Valid k) (x : Assignment) :
    IsProbability (s.likelihoodOf x) :=
  hs.isLikelihood_likelihoodOf x

theorem Valid.value_likelihoodOf_eq_zero (hs : s.Valid k) (hx : ¬ s.Respects x) :
    value (s.likelihoodOf x) = 0 := by
  obtain ⟨v, b, hc, hb, hne⟩ : ∃ v b, s.isCertain v = true ∧ s.observed.get? v = some b ∧
      x.get? v ≠ some b := by
    unfold Respects at hx
    push Not at hx
    exact hx
  obtain ⟨p, hp⟩ := hs.exists_noise (hs.mem_atoms_of_observed hb)
  refine isProbability_one.value_foldl_eq_zero (hs.isProbability_of_mem x) (.inr ⟨p, ?_, ?_⟩)
  · refine List.mem_map.2 ⟨(v, b), VarMap.get?_eq_some_iff.1 hb, ?_⟩
    rw [factor, if_neg hne, hp, Option.getD_some]
  · exact (isCertain_iff_value hs hp).1 hc

theorem unfalsifiable_iff (hs : s.Valid k) : s.Unfalsifiable ↔
    ∀ x, s.IsTruth x → s.formula.evaluate x = some false → value (s.likelihoodOf x) = 0 := by
  refine forall_congr' fun x ↦ forall_congr' fun hx ↦ forall_congr' fun _ ↦ ?_
  rw [likelihood_eq hs hx, ← isZero_iff (hs.isProbability_likelihoodOf x).isFinite]
  simp

theorem unfalsifiable_of_leastTruth (hs : s.Valid k)
    (h : s.formula.evaluate s.leastTruth ≠ some false) : s.Unfalsifiable := by
  rw [unfalsifiable_iff hs]
  intro x _ hx
  exact hs.value_likelihoodOf_eq_zero fun hr ↦ h (evaluate_leastTruth hs hx hr)

theorem canFalsify_eq_value (hs : s.Valid k) : s.canFalsify = .ok (decide
    (s.formula.evaluate s.leastTruth = some false ∧ value (s.likelihoodOf s.leastTruth) ≠ 0)) := by
  have h := hs.isProbability_likelihoodOf s.leastTruth
  rw [canFalsify_eq hs, ← Bool.decide_and]
  simp only [lt_iff isFinite_zero h.isFinite, value_zero, h.nonneg.lt_iff_ne, ne_comm]

/-- What the short circuit overlooks is lost to underflow. -/
theorem losesFalsifier_iff (hs : s.Valid k) :
    s.LosesFalsifier ↔ s.canFalsify = .ok false ∧ ¬ s.Unfalsifiable := by
  have hleast := hs.isProbability_likelihoodOf s.leastTruth
  have hlikely : (∃ p ∈ s.likelihoodsOf false, 0 < p) ↔ ¬ s.Unfalsifiable := by
    rw [unfalsifiable_iff hs]
    push Not
    constructor
    · rintro ⟨p, hp, hpos⟩
      obtain ⟨x, hx, hf, rfl⟩ := (mem_likelihoodsOf hs).1 hp
      rw [lt_iff isFinite_zero (hs.isProbability_likelihoodOf x).isFinite, value_zero] at hpos
      exact ⟨x, hx, hf, hpos.ne'⟩
    · rintro ⟨x, hx, hf, hne⟩
      have h := hs.isProbability_likelihoodOf x
      refine ⟨_, (mem_likelihoodsOf hs).2 ⟨x, hx, hf, rfl⟩, ?_⟩
      rw [lt_iff isFinite_zero h.isFinite, value_zero]
      exact lt_of_le_of_ne h.nonneg hne.symm
  rw [canFalsify_eq_value hs, Except.ok.injEq, decide_eq_false_iff_not]
  constructor
  · rintro ⟨-, ⟨p, hp, hzero⟩, hx⟩
    rw [likelihood_eq hs s.isTruth_leastTruth, Except.ok.injEq] at hp
    rw [← hp, isZero_iff hleast.isFinite] at hzero
    exact ⟨fun h ↦ h.2 hzero, hlikely.1 hx⟩
  · rintro ⟨hcan, hno⟩
    have hf : s.formula.evaluate s.leastTruth = some false :=
      not_not.1 fun h ↦ hno (unfalsifiable_of_leastTruth hs h)
    have hzero : value (s.likelihoodOf s.leastTruth) = 0 := not_not.1 fun h ↦ hcan ⟨hf, h⟩
    exact ⟨hf, ⟨_, likelihood_eq hs s.isTruth_leastTruth, (isZero_iff hleast.isFinite).2 hzero⟩,
      hlikely.2 hno⟩

theorem half_pow_le_value_factor (hs : s.Valid k) {e : ℕ}
    (he : ∀ v p, s.noise.get? v = some p → value p = 0 ∨ 2 ^ (-e : ℤ) ≤ value p)
    {c : Var × Bool} (hc : c ∈ s.observed.entries) : 2 ^ (-e : ℤ) ≤ value (s.factor s.leastTruth c) := by
  have hobs : s.observed.get? c.1 = some c.2 := VarMap.get?_eq_some_iff.2 hc
  have hv := hs.mem_atoms_of_observed hobs
  obtain ⟨p, hp⟩ := hs.exists_noise hv
  rw [factor, hp, Option.getD_some]
  split
  · -- Some probability is not zero, which bounds the power of two.
    obtain ⟨w, q, hq, hne⟩ : ∃ w q, s.noise.get? w = some q ∧ value q ≠ 0 := by
      have hn := hs.isNoiseless_eq
      rw [Noise.isNoiseless, List.all_eq_false] at hn
      obtain ⟨q, hmem, hz⟩ := hn
      obtain ⟨d, hd, rfl⟩ := List.mem_map.1 hmem
      have hq := VarMap.get?_eq_some_iff.2 hd
      rw [isZero_iff (hs.isProbability_noise hq).isFinite] at hz
      exact ⟨d.1, d.2, hq, hz⟩
    have hle := (he w q hq).resolve_left hne
    have hlt := (value_mem_of_isErrorProbability (hs.noise_range w q hq)).2.2
    exact (hle.trans hlt.le).trans (half_le_value_one_sub (hs.noise_range _ p hp)).2
  · next hne =>
    refine (he _ p hp).resolve_left fun hz ↦ hne ?_
    have hcert := (isCertain_iff_value hs hp).2 hz
    rw [get?_leastTruth hv, hcert, hobs, Option.getD_some, Bool.true_and]

/-- Powers of two are exact, so a product of factors that they bound is not rounded to zero. -/
theorem value_likelihoodOf_leastTruth_pos (hs : s.Valid k) {e : ℕ}
    (he : ∀ v p, s.noise.get? v = some p → value p = 0 ∨ 2 ^ (-e : ℤ) ≤ value p)
    (hn : e * s.observed.size ≤ 1074) : 0 < value (s.likelihoodOf s.leastTruth) := by
  have hlen : (s.observed.entries.map (s.factor s.leastTruth)).length = s.observed.size :=
    List.length_map _
  have h := isProbability_one.half_pow_le_value_foldl (hs.isProbability_of_mem s.leastTruth) (d := 0)
    (e := e) (by simp) (fun a ha ↦ ?_) (by rwa [hlen, Nat.zero_add])
  · exact (zpow_pos two_pos _).trans_le h
  · obtain ⟨c, hc, rfl⟩ := List.mem_map.1 ha
    exact half_pow_le_value_factor hs he hc

theorem isZero_exhaustiveRisk_iff (hs : s.Valid k) (ht : s.formula.evaluate s.observed = some true)
    (hsize : s.formula.atoms.size ≤ maxExhaustiveAtoms) :
    ∃ m, s.exhaustiveRisk = .ok m ∧ (Scalar.isZero m = true ↔ s.Unfalsifiable) := by
  obtain ⟨m, hm, hex⟩ := exists_exhaustiveRisk_eq hs ht
  have hor : m = 0 ∨ ∃ x, s.IsTruth x ∧ s.formula.evaluate x = some false ∧ s.likelihoodOf x = m :=
    hm.1.imp_right (mem_likelihoodsOf hs).1
  have hprob : IsProbability m := by
    rcases hor with rfl | ⟨x, -, -, rfl⟩
    · exact isProbability_zero
    · exact hs.isProbability_likelihoodOf x
  refine ⟨m, hex hsize, ?_⟩
  rw [isZero_iff hprob.isFinite, unfalsifiable_iff hs]
  constructor
  · intro hz x hx hf
    have hx' := hs.isProbability_likelihoodOf x
    have hle := hm.2 (Set.mem_insert_of_mem _ ((mem_likelihoodsOf hs).2 ⟨x, hx, hf, rfl⟩))
    rw [le_iff hx'.isFinite hprob.isFinite, hz] at hle
    exact le_antisymm hle hx'.nonneg
  · intro h
    rcases hor with rfl | ⟨x, hx, hf, rfl⟩
    · exact value_zero
    · exact h x hx hf

/-- The short circuit answers zero. It overlooks no truth that falsifies the formula, and neither does
trying every truth, exactly when nothing is lost to underflow; probabilities that are zero or at least a
power of two that all the observations together can bear rule that out. -/
theorem shortCircuit_iff (hv : s.validate true = .ok k)
    (ht : s.formula.evaluate s.observed = some true) :
    (s.canFalsify = .ok false → ∀ solve, s.maximumRisk solve = .ok 0) ∧
    ((s.canFalsify = .ok false → s.Unfalsifiable) ↔ ¬ s.LosesFalsifier) ∧
    (s.formula.atoms.size ≤ maxExhaustiveAtoms →
      ∃ m, s.exhaustiveRisk = .ok m ∧ (Scalar.isZero m = true ↔ s.Unfalsifiable)) ∧
    ∀ e : ℕ, (∀ v p, s.noise.get? v = some p → value p = 0 ∨ 2 ^ (-e : ℤ) ≤ value p) →
      e * s.observed.size ≤ 1074 → ¬ s.LosesFalsifier := by
  have hs := validate_eq_ok_iff.1 hv
  refine ⟨maximumRisk_eq_zero hs ht, ?_, isZero_exhaustiveRisk_iff hs ht, ?_⟩
  · rw [losesFalsifier_iff hs, not_and, not_not]
  · intro e he hn hlose
    obtain ⟨p, hp, hzero⟩ := hlose.underflows
    have hleast := hs.isProbability_likelihoodOf s.leastTruth
    rw [likelihood_eq hs s.isTruth_leastTruth, Except.ok.injEq] at hp
    rw [← hp, isZero_iff hleast.isFinite] at hzero
    exact (value_likelihoodOf_leastTruth_pos hs he hn).ne' hzero

/-- Both variables observed wrongly is too unlikely for binary64, but one of them is not. -/
theorem losesFalsifier_bothObserved : (bothObserved (1e-200 : Float) 1e-200).LosesFalsifier := by
  have hs : (bothObserved (1e-200 : Float) 1e-200).Valid 2 :=
    valid_bothObserved (by decide +kernel) (by decide +kernel) (by decide +kernel)
  let x : Assignment := .ofList [(varA, false), (varB, true)]
  have hx : (bothObserved (1e-200 : Float) 1e-200).IsTruth x := show x.keys = _ by decide
  refine ⟨by decide +kernel, ⟨_, likelihood_eq hs (isTruth_leastTruth _), by decide +kernel⟩,
    _, ⟨x, hx, by decide, likelihood_eq hs hx⟩, ?_⟩
  decide +kernel

theorem shortCircuit_iff_bothObserved :
    (bothObserved (1e-200 : Float) 1e-200).maximumRisk (branchAndBound .never) = .ok 0 ∧
      ¬ (bothObserved (1e-200 : Float) 1e-200).Unfalsifiable := by
  have hs : (bothObserved (1e-200 : Float) 1e-200).Valid 2 :=
    valid_bothObserved (by decide +kernel) (by decide +kernel) (by decide +kernel)
  obtain ⟨hzero, hiff, -⟩ := shortCircuit_iff (validate_eq_ok_iff.2 hs) (by decide)
  have hno := hiff.not.2 (not_not.2 losesFalsifier_bothObserved)
  push Not at hno
  exact ⟨hzero hno.1 _, hno.2⟩

end NoisyDNF.Scenario
