import NoisyDNF.Proofs.Binary64.Monotonicity
import NoisyDNF.Proofs.Formula.Recognition
import NoisyDNF.Proofs.Scenario.Validity

namespace NoisyDNF.Scenario

section Scalar

variable {R : Type} {s : Scenario R} {allowPartial : Bool} {e : Error R}

theorem kind_of_checkObserved (h : s.checkObserved allowPartial = .error e) : e.kind = .assignment := by
  rw [checkObserved] at h
  split at h
  · cases h; rfl
  split at h
  · cases h; rfl
  split at h <;> cases h
  rfl

variable [Scalar R]

theorem kind_of_checkNoise (h : s.checkNoise = .error e) : e.kind = .probability := by
  rw [checkNoise] at h
  split at h
  · cases h; rfl
  · cases h; rfl
  · cases h; rfl
  · split at h <;> cases h
    rfl

/-- The first check that fails gives the kind of the error. -/
theorem exists_error_kind_iff {kind : ErrorKind} :
    (∃ e, s.validate allowPartial = .error e ∧ e.kind = kind) ↔
      (¬ ∃ k, s.formula.dnfArity? = some k) ∧ kind = .format ∨
      (∃ k, s.formula.dnfArity? = some k) ∧ s.checkNoise ≠ .ok () ∧ kind = .probability ∨
      (∃ k, s.formula.dnfArity? = some k) ∧ s.checkNoise = .ok () ∧
        s.checkObserved allowPartial ≠ .ok () ∧ kind = .assignment := by
  rw [validate, checkFormula]
  cases s.formula.dnfArity? with
  | none => simp [bind, Except.bind, Error.kind, eq_comm]
  | some k =>
    cases hn : s.checkNoise with
    | error e => simp [bind, Except.bind, kind_of_checkNoise hn, eq_comm]
    | ok =>
      cases ho : s.checkObserved allowPartial with
      | error e => simp [bind, Except.bind, kind_of_checkObserved ho, eq_comm]
      | ok => simp [bind, Except.bind, pure, Except.pure]

end Scalar

/-- Each atom and nothing else has an error probability, and not all of these are zero. -/
structure NoiseFits (s : Scenario Float) : Prop where
  keys : ∀ v, v ∈ s.noise.keys ↔ v ∈ s.formula.atoms.keys
  range : ∀ v p, s.noise.get? v = some p → 0 ≤ p ∧ p < 0.5
  positive : ∃ v p, s.noise.get? v = some p ∧ 0 < p

/-- Only atoms are observed, and these decide the class. Unless partial observations are allowed, all atoms
are observed. -/
structure ObservationFits {R : Type} (s : Scenario R) (allowPartial : Bool) : Prop where
  decides : ∃ c, ∀ x, s.formula.Completes s.observed x → s.formula.value x.holds = c
  keys : ∀ v ∈ s.observed.keys, v ∈ s.formula.atoms.keys
  total : allowPartial = false → ∀ v ∈ s.formula.atoms.keys, v ∈ s.observed.keys

variable {s : Scenario Float} {k : ℕ} {allowPartial : Bool}

theorem isErrorProbability_iff_float {p : Float} : isErrorProbability p = true ↔ 0 ≤ p ∧ p < 0.5 := by
  rw [isErrorProbability, Bool.and_eq_true, decide_eq_true_eq, decide_eq_true_eq]
  exact Iff.rfl

example : isErrorProbability (-0.0 : Float) = true ∧ isErrorProbability (0.0 / 0.0 : Float) = false := by
  decide +kernel

theorem checkNoise_eq_ok_iff_noiseFits : s.checkNoise = .ok () ↔ s.NoiseFits := by
  rw [checkNoise_eq_ok_iff, isNoiseless_eq_false_iff]
  simp only [isErrorProbability_iff_float]
  constructor
  · rintro ⟨hk, hr, v, p, hp, hne⟩
    refine ⟨fun v ↦ hk ▸ Iff.rfl, hr, v, p, hp, ?_⟩
    exact (MonotoneScalar.isZero_eq_false_iff (isErrorProbability_iff_float.2 (hr v p hp))).1 hne
  · rintro ⟨hk, hr, v, p, hp, hpos⟩
    refine ⟨VarMap.keys_eq_of_mem_iff hk, hr, v, p, hp, ?_⟩
    exact (MonotoneScalar.isZero_eq_false_iff (isErrorProbability_iff_float.2 (hr v p hp))).2 hpos

theorem checkObserved_eq_ok_iff_observationFits (hf : s.formula.NegationFree) :
    s.checkObserved allowPartial = .ok () ↔ s.ObservationFits allowPartial := by
  rw [checkObserved_eq_ok_iff, hf.evaluate_ne_none_iff]
  constructor
  · rintro ⟨hc, hk, htotal⟩
    exact ⟨hc, hk, fun h ↦ (VarMap.size_eq_iff_of_keys_subset hk).1 (htotal h)⟩
  · rintro ⟨hc, hk, htotal⟩
    exact ⟨hc, hk, fun h ↦ (VarMap.size_eq_iff_of_keys_subset hk).2 (htotal h)⟩

/-- Validation accepts exactly the scenarios whose parts fit each other, and rejects the others for the
first part that does not: the formula, then the noise, then the observation. -/
theorem validate_iff (s : Scenario Float) (allowPartial : Bool) :
    (∀ k, s.validate allowPartial = .ok k ↔
      s.formula.IsKDnf k ∧ s.NoiseFits ∧ s.ObservationFits allowPartial) ∧
    ∀ kind, (∃ e, s.validate allowPartial = .error e ∧ e.kind = kind) ↔
      (¬ ∃ k, s.formula.IsKDnf k) ∧ kind = .format ∨
      (∃ k, s.formula.IsKDnf k) ∧ ¬ s.NoiseFits ∧ kind = .probability ∨
      (∃ k, s.formula.IsKDnf k) ∧ s.NoiseFits ∧ ¬ s.ObservationFits allowPartial ∧
        kind = .assignment := by
  constructor
  · intro k
    rw [validate_eq_ok_iff_checks, Formula.dnfArity?_eq_some_iff, checkNoise_eq_ok_iff_noiseFits]
    exact and_congr_right fun hf ↦ and_congr_right fun _ ↦
      checkObserved_eq_ok_iff_observationFits hf.negationFree
  · intro kind
    rw [exists_error_kind_iff]
    simp only [Formula.dnfArity?_eq_some_iff, ne_eq, checkNoise_eq_ok_iff_noiseFits]
    refine or_congr_right (or_congr_right (and_congr_right fun ⟨k, hf⟩ ↦ ?_))
    rw [checkObserved_eq_ok_iff_observationFits hf.negationFree]

end NoisyDNF.Scenario
