import NoisyDNF.Proofs.Binary64.SignedZero
import NoisyDNF.Proofs.Scenario.Failures

namespace NoisyDNF

namespace Noise

variable {R : Type} [Scalar R] {m n : Noise R}

/-- The same variables have the same error probabilities, but for the sign of zero. -/
structure Alike (m n : Noise R) : Prop where
  keys_eq : n.keys = m.keys
  alike : ∀ v p q, m.get? v = some p → n.get? v = some q → Scalar.Alike p q

namespace Alike

theorem get? (h : m.Alike n) (v : Var) : m.get? v = none ∧ n.get? v = none ∨
    ∃ p q, m.get? v = some p ∧ n.get? v = some q ∧ Scalar.Alike p q := by
  by_cases hv : v ∈ m.keys
  · obtain ⟨p, hp⟩ := VarMap.mem_keys_iff.1 hv
    obtain ⟨q, hq⟩ := VarMap.mem_keys_iff.1 (h.keys_eq ▸ hv)
    exact .inr ⟨p, q, hp, hq, h.alike v p q hp hq⟩
  · exact .inl ⟨VarMap.get?_eq_none_iff.2 hv, VarMap.get?_eq_none_iff.2 (h.keys_eq ▸ hv)⟩

theorem getD (h : m.Alike n) (v : Var) : Scalar.Alike ((m.get? v).getD 0) ((n.get? v).getD 0) := by
  rcases h.get? v with ⟨hm, hn⟩ | ⟨p, q, hm, hn, hpq⟩
  · rw [hm, hn]
    exact .refl _
  · rw [hm, hn]
    exact hpq

theorem isNoiseless_eq_false (h : m.Alike n) (hm : m.isNoiseless = false) : n.isNoiseless = false := by
  obtain ⟨v, p, hp, hne⟩ := Scenario.isNoiseless_eq_false_iff.1 hm
  obtain ⟨q, hq⟩ := VarMap.mem_keys_iff.1 (h.keys_eq ▸ VarMap.mem_keys_iff.2 ⟨p, hp⟩)
  exact Scenario.isNoiseless_eq_false_iff.2 ⟨v, q, hq, (h.alike v p q hp hq).isZero_eq ▸ hne⟩

theorem silence [SignedZero R] {v : Var} (hv : (m.get? v).any Scalar.isZero = true) :
    m.Alike (m.silence v) := by
  obtain ⟨r, hr, hz⟩ := (Option.any_eq_true _ _).1 hv
  refine ⟨VarMap.keys_insert_of_mem (VarMap.mem_keys_iff.2 ⟨r, hr⟩) 0, fun w p q hp hq ↦ ?_⟩
  rw [Noise.silence, VarMap.get?_insert] at hq
  split at hq
  · next hw =>
    obtain rfl := Option.some_inj.1 (hp.symm.trans (hw ▸ hr))
    cases hq
    exact .inr ⟨hz, SignedZero.isZero_zero⟩
  · cases hp.symm.trans hq
    exact .refl p

end Alike

end Noise

namespace Encoding.Reading

variable {R : Type} [LogScalar R] {p q : R}

theorem gain_congr (h : Scalar.Alike p q) (i : ℕ) (b : Option Bool) :
    (⟨i, p, b⟩ : Reading R).gain = (⟨i, q, b⟩ : Reading R).gain := by
  rcases h with rfl | ⟨hp, hq⟩
  · rfl
  · rw [gain, gain, isCertain, isCertain, if_pos hp, if_pos hq]

theorem offset?_congr (h : Scalar.Alike p q) (i : ℕ) (b : Option Bool) :
    (⟨i, p, b⟩ : Reading R).offset? = (⟨i, q, b⟩ : Reading R).offset? := by
  rcases h with rfl | ⟨hp, hq⟩
  · rfl
  · rw [offset?, offset?, isCertain, isCertain, if_pos hp, if_pos hq]

end Encoding.Reading

namespace Scenario

open ZeroOne

section Scalar

variable {R : Type} [Scalar R] {s : Scenario R} {n : Noise R} {k : ℕ}

theorem isCertain_withNoise (h : s.noise.Alike n) (v : Var) :
    (s.withNoise n).isCertain v = s.isCertain v := by
  rcases h.get? v with ⟨hm, hn⟩ | ⟨p, q, hm, hn, hpq⟩
  · rw [isCertain, isCertain, withNoise, hm, hn]
  · rw [isCertain, isCertain, withNoise, hm, hn]
    exact hpq.isZero_eq.symm

theorem leastTruth_withNoise (h : s.noise.Alike n) : (s.withNoise n).leastTruth = s.leastTruth := by
  rw [leastTruth_eq, leastTruth_eq]
  simp only [isCertain_withNoise h]
  rfl

variable [SignedZero R]

theorem isErrorProbability_congr {p q : R} (h : Scalar.Alike p q) :
    isErrorProbability p = isErrorProbability q := by
  simp only [isErrorProbability, (Scalar.Alike.refl 0).le_iff h, h.lt_iff (.refl Scalar.half)]

theorem Valid.of_alike (hs : s.Valid k) (h : s.noise.Alike n) : (s.withNoise n).Valid k := by
  refine hs.withNoise h.keys_eq (fun v q hq ↦ ?_) (h.isNoiseless_eq_false hs.isNoiseless_eq)
  obtain ⟨p, hp⟩ := VarMap.mem_keys_iff.1 (h.keys_eq ▸ VarMap.mem_keys_iff.2 ⟨q, hq⟩)
  rw [← isErrorProbability_congr (h.alike v p q hp hq)]
  exact hs.noise_range v p hp

theorem likelihoodOf_alike (h : s.noise.Alike n) (x : Assignment) :
    Scalar.Alike (s.likelihoodOf x) ((s.withNoise n).likelihoodOf x) := by
  refine .product fun e _ ↦ ?_
  have hp := h.getD e.1
  by_cases hx : x.get? e.1 = some e.2
  · rw [factor, factor, if_pos hx, if_pos hx]
    exact .inl hp.one_sub
  · rw [factor, factor, if_neg hx, if_neg hx]
    exact hp

theorem canFalsify_withNoise (hs : s.Valid k) (h : s.noise.Alike n) :
    (s.withNoise n).canFalsify = s.canFalsify := by
  rw [canFalsify_eq hs, canFalsify_eq (hs.of_alike h), leastTruth_withNoise h]
  simp only [(Scalar.Alike.refl 0).lt_iff (likelihoodOf_alike h s.leastTruth)]
  rfl

theorem exists_satisfyingRisk_withNoise (hs : s.Valid k) (h : s.noise.Alike n) :
    ∃ r r', s.satisfyingRisk = .ok r ∧ (s.withNoise n).satisfyingRisk = .ok r' ∧ Scalar.Alike r r' := by
  obtain ⟨ts, hts, -⟩ := hs.exists_terms
  refine ⟨_, _, satisfyingRisk_eq hs hts, satisfyingRisk_eq (hs.of_alike h) hts, ?_⟩
  exact .foldl .larger (fun t _ ↦ likelihoodOf_alike h (s.forcedTruth t)) (.refl 0)

end Scalar

section Encoding

variable {R : Type} [LogScalar R] {s : Scenario R} {n : Noise R} {k : ℕ}

theorem exists_readingOf_withNoise (h : s.noise.Alike n) (c : Var × ℕ) :
    ∃ p q, s.readingOf c = ⟨c.2, p, s.observed.get? c.1⟩ ∧
      (s.withNoise n).readingOf c = ⟨c.2, q, s.observed.get? c.1⟩ ∧ Scalar.Alike p q :=
  ⟨_, _, rfl, rfl, h.getD c.1⟩

theorem modelOf_withNoise (h : s.noise.Alike n) (ts : List Formula) :
    (s.withNoise n).modelOf k ts = s.modelOf k ts := by
  have hgain (c) : ((s.withNoise n).readingOf c).gain = (s.readingOf c).gain := by
    obtain ⟨p, q, hp, hq, hpq⟩ := exists_readingOf_withNoise h c
    rw [hp, hq, Encoding.Reading.gain_congr hpq]
  have hcertain (c) : ((s.withNoise n).readingOf c).isCertain = (s.readingOf c).isCertain := by
    obtain ⟨p, q, hp, hq, hpq⟩ := exists_readingOf_withNoise h c
    rw [hp, hq]
    exact hpq.isZero_eq.symm
  simp only [modelOf, readings, List.map_map, List.filter_map, Function.comp_def, hgain, hcertain]
  rfl

theorem offsetOf_withNoise (h : s.noise.Alike n) : (s.withNoise n).offsetOf = s.offsetOf := by
  have hoffset (c) : ((s.withNoise n).readingOf c).offset? = (s.readingOf c).offset? := by
    obtain ⟨p, q, hp, hq, hpq⟩ := exists_readingOf_withNoise h c
    rw [hp, hq, Encoding.Reading.offset?_congr hpq]
  simp only [offsetOf, readings, List.filterMap_map, Function.comp_def, hoffset]
  rfl

end Encoding

variable {R : Type} [LogScalar R] {s : Scenario R} {n : Noise R} {k : ℕ} {v : Var} {solve : Solver R}
  {m : R}

theorem isRisky_eq_error (hs : s.Valid k) (hv : v ∈ s.formula.atoms.keys)
    {e : Error R}
    (hm : s.maximumRisk solve = .error e) : s.isRisky solve v = .error e := by
  rw [isRisky, validate_eq_ok_iff.2 hs, VarMap.contains_iff.2 hv, hm]
  rfl

variable [SignedZero R]

/-- The solver is asked the same question. -/
theorem encode_withNoise (hs : s.Valid k) (h : s.noise.Alike n) :
    (s.withNoise n).encode k = s.encode k := by
  obtain ⟨ts, hts, -⟩ := hs.exists_terms
  rw [encode_eq hs hts, encode_eq (hs.of_alike h) hts, modelOf_withNoise h, offsetOf_withNoise h]
  rfl

theorem falsifyingRisk_withNoise (hs : s.Valid k) (h : s.noise.Alike n) (solve : Solver R) :
    (s.withNoise n).falsifyingRisk solve k = s.falsifyingRisk solve k := by
  rw [falsifyingRisk, falsifyingRisk, canFalsify_withNoise hs h, encode_withNoise hs h]

/-- Where a maximum risk is found with some noise, it is found with noise that is alike. -/
theorem exists_maximumRisk_withNoise (hs : s.Valid k) (h : s.noise.Alike n)
    (hm : s.maximumRisk solve = .ok m) :
    ∃ m', (s.withNoise n).maximumRisk solve = .ok m' ∧ Scalar.Alike m m' := by
  have hs' := hs.of_alike h
  obtain ⟨c, hc⟩ := Option.ne_none_iff_exists'.1 hs.determined
  cases c with
  | true =>
    rw [maximumRisk_eq_falsifyingRisk hs hc] at hm
    refine ⟨m, ?_, .refl m⟩
    rw [maximumRisk_eq_falsifyingRisk hs' hc, falsifyingRisk_withNoise hs h, hm]
  | false =>
    obtain ⟨r, r', hr, hr', hrr⟩ := exists_satisfyingRisk_withNoise hs h
    rw [maximumRisk_eq_satisfyingRisk hs hc, hr] at hm
    cases hm
    exact ⟨r', (maximumRisk_eq_satisfyingRisk hs' hc solve).trans hr', hrr⟩

theorem exceedsWithout_of_isCertain (hs : s.Valid k) (hv : s.isCertain v = true)
    (hm : s.maximumRisk solve = .ok m) : s.exceedsWithout solve m v = .ok false := by
  have h : s.noise.Alike (s.noise.silence v) := .silence hv
  obtain ⟨m', hm', hmm⟩ := exists_maximumRisk_withNoise hs h hm
  have hn : (s.silence v).noise.isNoiseless = false := h.isNoiseless_eq_false hs.isNoiseless_eq
  have hwithout : s.riskWithout solve v = .ok m' := by
    rw [riskWithout, hn]
    exact hm'
  rw [exceedsWithout, hwithout]
  split
  · exact congrArg Except.ok (decide_eq_false hmm.not_lt)
  · rfl

theorem isRisky_eq_isRiskyAgainst (hs : s.Valid k) (hv : v ∈ s.formula.atoms.keys)
    (hm : s.maximumRisk solve = .ok m) : s.isRisky solve v = s.isRiskyAgainst solve m v := by
  rw [isRisky_eq_exceedsWithout hs hv hm, isRiskyAgainst]
  split
  · next hc => exact exceedsWithout_of_isCertain hs hc hm
  · rfl

theorem isRisky_of_mem_sweep (hs : s.Valid k) (hm : s.maximumRisk solve = .ok m) {vs : VarSet}
    (hvs : s.riskyVariables solve = .ok vs) :
    (∀ v ∈ s.formula.atoms.keys, s.isRisky solve v = .ok (vs.contains v)) ∧
      ∀ v ∈ vs.keys, v ∈ s.formula.atoms.keys := by
  rw [riskyVariables_eq_map hs hm] at hvs
  rcases filterM_eq_ok_or_error (s.isRiskyAgainst solve m) s.formula.atoms.keys with
    ⟨p, hp, hfilter⟩ | ⟨v, hv, e, he, hfilter⟩
  · rw [hfilter] at hvs
    cases hvs
    simp only [VarSet.mem_keys_ofList, List.mem_filter]
    refine ⟨fun v hv ↦ ?_, fun v hv ↦ hv.1⟩
    rw [isRisky_eq_isRiskyAgainst hs hv hm, hp v hv, Except.ok.injEq, Bool.eq_iff_iff,
      VarMap.contains_iff, VarSet.mem_keys_ofList, List.mem_filter]
    exact (and_iff_right hv).symm
  · rw [hfilter] at hvs
    cases hvs

theorem exists_isRisky_of_sweep_eq_error (hs : s.Valid k) (hm : s.maximumRisk solve = .ok m)
    {e : Error R} (he : s.riskyVariables solve = .error e) :
    ∃ v ∈ s.formula.atoms.keys, s.isRisky solve v = .error e := by
  rw [riskyVariables_eq_map hs hm] at he
  rcases filterM_eq_ok_or_error (s.isRiskyAgainst solve m) s.formula.atoms.keys with
    ⟨p, hp, hfilter⟩ | ⟨v, hv, e', hve, hfilter⟩
  · rw [hfilter] at he
    cases he
  · rw [hfilter] at he
    cases he
    exact ⟨v, hv, (isRisky_eq_isRiskyAgainst hs hv hm).trans hve⟩

/-- What the sweep finds is what asking about each atom by itself finds, and what it fails with is what
asking about some atom fails with. -/
theorem riskyVariables_isRisky (solve : Solver R) (s : Scenario R) :
    (∀ vs, s.riskyVariables solve = .ok vs →
      (∀ v ∈ s.formula.atoms.keys, s.isRisky solve v = .ok (vs.contains v)) ∧
        ∀ v ∈ vs.keys, v ∈ s.formula.atoms.keys) ∧
    ∀ e, s.riskyVariables solve = .error e →
      (s.validate true = .error e ∧ ∀ v, s.isRisky solve v = .error e) ∨
        ∃ v ∈ s.formula.atoms.keys, s.isRisky solve v = .error e := by
  cases hval : s.validate true with
  | error e =>
    have hsweep : s.riskyVariables solve = .error e := by rw [riskyVariables, hval]; rfl
    have hone (v) : s.isRisky solve v = .error e := by rw [isRisky, hval]; rfl
    simp [hsweep, hone]
  | ok k =>
    have hs := validate_eq_ok_iff.1 hval
    cases hm : s.maximumRisk solve with
    | error e =>
      have hsweep : s.riskyVariables solve = .error e := by rw [riskyVariables, hval, hm]; rfl
      obtain ⟨v, hv⟩ := hs.exists_atom
      rw [hsweep]
      constructor
      · intro vs hvs
        cases hvs
      · intro e' he
        cases he
        exact .inr ⟨v, hv, isRisky_eq_error hs hv hm⟩
    | ok m =>
      constructor
      · intro vs hvs
        exact isRisky_of_mem_sweep hs hm hvs
      · intro e he
        exact .inr (exists_isRisky_of_sweep_eq_error hs hm he)

/-- One of two observed variables is certain, with a probability of minus zero. -/
theorem riskyVariables_isRisky_bothObserved :
    ∃ vs, (bothObserved (0.125 : Float) (-0.0)).riskyVariables (branchAndBound .never) = .ok vs ∧
      (bothObserved (0.125 : Float) (-0.0)).isRisky (branchAndBound .never) varA = .ok (vs.contains varA) ∧
      (bothObserved (0.125 : Float) (-0.0)).isRisky (branchAndBound .never) varB = .ok (vs.contains varB) := by
  have hs : (bothObserved (0.125 : Float) (-0.0)).Valid 2 :=
    valid_bothObserved (by decide +kernel) (by decide +kernel) (by decide +kernel)
  obtain ⟨vs, hvs⟩ := exists_riskyVariables (by decide +kernel) hs
  obtain ⟨hok, -⟩ := riskyVariables_isRisky (branchAndBound .never) (bothObserved (0.125 : Float) (-0.0))
  obtain ⟨hrisky, -⟩ := hok vs hvs
  exact ⟨vs, hvs, hrisky varA (show varA ∈ bothAtoms.atoms.keys by decide),
    hrisky varB (show varB ∈ bothAtoms.atoms.keys by decide)⟩

end Scenario

end NoisyDNF
