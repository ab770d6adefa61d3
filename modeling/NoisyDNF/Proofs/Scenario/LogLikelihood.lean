import Mathlib.Analysis.SpecialFunctions.Log.Basic
import NoisyDNF.Proofs.RealArithmetic
import NoisyDNF.Proofs.Scenario.Encoding

namespace NoisyDNF

open ZeroOne

theorem sum_filterMap {M α : Type} [AddCommMonoid M] (f : α → Option M) (as : List α) :
    (as.filterMap f).sum = (as.map fun a ↦ (f a).getD 0).sum := by
  induction as with
  | nil => rfl
  | cons a as ih =>
    rw [List.map_cons, List.sum_cons, ← ih]
    cases hf : f a <;> simp [hf]

namespace Scenario

variable {s : Scenario ℝ} {k : ℕ} {ts : List Formula} {y : Array Bool}

theorem gain_modelOf {c : Var × ℕ} (hc : c ∈ s.columns.entries) :
    (s.modelOf k ts).gain c.2 = (s.readingOf c).gain := by
  have hget : s.columns.entries[c.2]? = some c := by
    rw [columns, VarMap.numbering, List.getElem?_zipIdx, mem_columns_iff.1 hc, Option.map_some,
      Nat.zero_add]
  simp [Model.gain, modelOf, readings, hget]

theorem objectiveValue_modelOf (hf : s.formula.IsDnfOf k ts) (hy : y.size = s.formula.atoms.size) :
    (s.modelOf k ts).objectiveValue y =
      (s.columns.entries.map fun c ↦ if truth y c.2 then (s.readingOf c).gain else 0).sum := by
  rw [Model.objectiveValue_eq (wellFormed_modelOf hf) (hy.trans (numVars_modelOf s k ts).symm),
    numVars_modelOf]
  have hrange : (∑ i ∈ Finset.range s.formula.atoms.size,
      if truth y i then (s.modelOf k ts).gain i else 0) =
      (s.columns.values.map fun i ↦ if truth y i then (s.modelOf k ts).gain i else 0).sum := by
    rw [columns, VarMap.values_numbering]
    rfl
  rw [hrange, VarMap.values, List.map_map]
  congr 1
  apply List.map_congr_left
  intro c hc
  rw [Function.comp_apply, gain_modelOf hc]

theorem offsetOf_eq (s : Scenario ℝ) :
    s.offsetOf = (s.columns.entries.map fun c ↦ (s.readingOf c).offset?.getD 0).sum := by
  rw [offsetOf, Scalar.sum_eq_sum, sum_filterMap, readings, List.map_map]
  rfl

theorem exp_reading (hs : s.Measured) {x : Assignment} (hx : s.Pinned x) {c : Var × ℕ}
    (hv : c.1 ∈ s.formula.atoms.keys) {b : Bool} (hb : x.get? c.1 = some b) :
    Real.exp ((if b then (s.readingOf c).gain else 0) + (s.readingOf c).offset?.getD 0) =
      s.contribution x c.1 := by
  obtain ⟨p, hp, h₀, h₁⟩ := hs.exists_noise c.1 hv
  have hpos : 0 < 1 - p := by linarith
  have hread : s.readingOf c = ⟨c.2, p, s.observed.get? c.1⟩ := by
    rw [readingOf, hp, Option.getD_some]
  rw [hread, contribution]
  by_cases hz : p = 0
  · have hcert : Scalar.isZero p = true := Scalar.isZero_iff.2 hz
    have hbv := hx c.1 hv (isCertain_iff.2 (hz ▸ hp))
    cases ho : s.observed.get? c.1 with
    | none => simp [Encoding.Reading.gain, Encoding.Reading.offset?, Encoding.Reading.isCertain, hcert]
    | some o =>
      rw [ho, Option.getD_some] at hbv
      simp [Encoding.Reading.gain, Encoding.Reading.offset?, Encoding.Reading.isCertain,
        factor, hp, hbv, hz]
  · have hcert : Scalar.isZero p = false := Bool.eq_false_iff.2 fun h ↦ hz (Scalar.isZero_iff.1 h)
    have hp₀ : 0 < p := lt_of_le_of_ne h₀ (Ne.symm hz)
    have hln : Real.exp (LogScalar.ln p) = p := Real.exp_log hp₀
    have hln' : Real.exp (LogScalar.ln (1 - p)) = 1 - p := Real.exp_log hpos
    rcases s.observed.get? c.1 with - | - | - <;> cases b <;>
      simp [Encoding.Reading.gain, Encoding.Reading.offset?, Encoding.Reading.isCertain, hcert,
        factor, hp, hb, logLikelihoodRatio, hln, hln']

/-- Objective and offset reconstruct the likelihood. -/
theorem exp_objectiveValue (hs : s.Measured) (hf : s.formula.IsDnfOf k ts)
    (hy : (s.modelOf k ts).isFeasible y = true) :
    Real.exp ((s.modelOf k ts).objectiveValue y + s.offsetOf) = s.likelihoodOf (s.decode y) := by
  obtain ⟨hsize, -, hpin⟩ := (isFeasible_modelOf_iff hs.noise_covers hf).1 hy
  have hkeys : s.formula.atoms.keys = s.columns.entries.map Prod.fst := by
    rw [← VarMap.keys_numbering]
    rfl
  rw [objectiveValue_modelOf hf hsize, offsetOf_eq, ← List.sum_map_add, Real.exp_list_sum,
    likelihoodOf_eq_prod hs.keys_observed, hkeys, List.map_map, List.map_map]
  congr 1
  apply List.map_congr_left
  intro c hc
  have hv : c.1 ∈ s.formula.atoms.keys := hkeys ▸ List.mem_map_of_mem hc
  refine exp_reading hs hpin hv ?_
  rw [get?_decode hv, column_eq hc]

theorem likelihood_decode (hs : s.Measured) (y : Array Bool) :
    likelihood s.observed (s.decode y) s.noise = .ok (s.likelihoodOf (s.decode y)) :=
  likelihood_eq_of_covers (fun v hv ↦ hs.noise_covers v (hs.keys_observed v hv))
    fun v hv ↦ isTruth_decode s y ▸ hs.keys_observed v hv

/-- A feasible assignment has a likelihood that needs no clamping. -/
theorem probability_objectiveValue (hs : s.Measured) (hf : s.formula.IsDnfOf k ts)
    (hy : (s.modelOf k ts).isFeasible y = true) :
    Encoding.probability ⟨s.modelOf k ts, s.columns, s.offsetOf⟩ ((s.modelOf k ts).objectiveValue y) =
      s.likelihoodOf (s.decode y) := by
  have hexp : LogScalar.exp ((s.modelOf k ts).objectiveValue y + s.offsetOf) =
      s.likelihoodOf (s.decode y) := exp_objectiveValue hs hf hy
  have hpos : 0 < s.likelihoodOf (s.decode y) := hexp ▸ Real.exp_pos _
  rw [Encoding.probability, Encoding.logLikelihood, hexp]
  exact Scalar.clampUnit_of_mem hpos.le hs.likelihoodOf_le_one

/-- At a feasible assignment the program has the likelihood of its truth, which is positive, and a greater
objective is a greater likelihood. -/
theorem encode_objectiveValue (hk : s.formula.dnfArity? = some k) (hs : s.Measured) :
    ∃ e, s.encode k = .ok e ∧ ∀ y, e.model.isFeasible y = true → ∃ x p, e.decode? y = some x ∧
      likelihood s.observed x s.noise = .ok p ∧
      Real.exp (e.model.objectiveValue y + e.offset) = p ∧ 0 < p ∧ p ≤ 1 ∧
      e.probability (e.model.objectiveValue y) = p ∧
      ∀ z x' q, e.model.isFeasible z = true → e.decode? z = some x' →
        likelihood s.observed x' s.noise = .ok q →
        (e.model.objectiveValue y ≤ e.model.objectiveValue z ↔ p ≤ q) := by
  obtain ⟨ts, hts, hf⟩ := Formula.exists_terms hk
  refine ⟨_, encode_eq_of_covers hs.noise_covers hts hf, ?_⟩
  intro y hy
  have hsize := ((isFeasible_modelOf_iff hs.noise_covers hf).1 hy).1
  have hexp := exp_objectiveValue hs hf hy
  refine ⟨s.decode y, _, decode?_eq hsize, likelihood_decode hs y, hexp, hexp ▸ Real.exp_pos _,
    hs.likelihoodOf_le_one, probability_objectiveValue hs hf hy, ?_⟩
  intro z x' q hz hx' hq
  have hsize' := ((isFeasible_modelOf_iff hs.noise_covers hf).1 hz).1
  rw [decode?_eq hsize', Option.some_inj] at hx'
  subst hx'
  rw [likelihood_decode hs z, Except.ok.injEq] at hq
  rw [← hq, ← hexp, ← exp_objectiveValue hs hf hz, Real.exp_le_exp, add_le_add_iff_right]

theorem measured_pairsObserved {p q : ℝ} (hp : 0 ≤ p ∧ p < 1 / 2) (hq : 0 ≤ q ∧ q < 1 / 2) :
    (pairsObserved p q).Measured where
  exists_noise := by
    obtain ⟨ha, hb, hc, hd⟩ := get?_noise_pairsObserved p q
    have h₀ : (0 : ℝ) ≤ 0 ∧ (0 : ℝ) < 1 / 2 := by norm_num
    change ∀ v ∈ twoPairs.atoms.keys, _
    rw [keys_atoms_twoPairs]
    simp only [List.forall_mem_cons]
    exact ⟨⟨0, ha, h₀⟩, ⟨p, hb, hp⟩, ⟨q, hc, hq⟩, ⟨0, hd, h₀⟩, List.forall_mem_nil _⟩
  keys_observed := show ∀ v ∈ [varA, varB, varC], v ∈ twoPairs.atoms.keys by decide

theorem likelihood_pairsTruth (p q : ℝ) (c : Bool) :
    likelihood (pairsObserved p q).observed (pairsTruth true false c false) (pairsObserved p q).noise =
      .ok (p * if c then q else 1 - q) := by
  have hprod : likelihood (pairsObserved p q).observed (pairsTruth true false c false)
      (pairsObserved p q).noise = .ok (1 * (1 - 0) * p * if false = c then 1 - q else q) := rfl
  rw [hprod]
  cases c <;> simp

theorem encode_objectiveValue_pairsObserved :
    ∃ e, (pairsObserved (1 / 4 : ℝ) (1 / 8)).encode 2 = .ok e ∧
      Real.exp (e.model.objectiveValue #[true, false, false, false] + e.offset) = 7 / 32 ∧
      e.probability (e.model.objectiveValue #[true, false, false, false]) = 7 / 32 ∧
      e.model.objectiveValue #[true, false, true, false] ≤
        e.model.objectiveValue #[true, false, false, false] := by
  have hs : (pairsObserved (1 / 4 : ℝ) (1 / 8)).Measured :=
    measured_pairsObserved (by norm_num) (by norm_num)
  have hk : (pairsObserved (1 / 4 : ℝ) (1 / 8)).formula.dnfArity? = some 2 :=
    show twoPairs.dnfArity? = some 2 by decide
  obtain ⟨ts, hts, hf⟩ := Formula.exists_terms hk
  have hfeas (c : Bool) :
      ((pairsObserved (1 / 4 : ℝ) (1 / 8)).modelOf 2 ts).isFeasible #[true, false, c, false] = true := by
    refine (isFeasible_modelOf_iff hs.noise_covers hf).2 ⟨rfl, ?_⟩
    rw [decode_pairsObserved]
    exact (falsifies_pairsTruth_iff (by simp) (by simp [Bool.eq_false_iff])
      (by simp [Bool.eq_false_iff])).2 ⟨rfl, rfl, rfl⟩
  obtain ⟨e, he, h⟩ := encode_objectiveValue hk hs
  obtain rfl := Except.ok.inj ((encode_eq_of_covers hs.noise_covers hts hf).symm.trans he)
  obtain ⟨x, p, hx, hp, hexp, -, -, hprob, -⟩ := h _ (hfeas false)
  obtain ⟨z, q, hz, hq, -, -, -, -, hle⟩ := h _ (hfeas true)
  have hqp := hle _ x p (hfeas false) hx hp
  rw [decode?_eq rfl, Option.some_inj, decode_pairsObserved] at hx hz
  rw [← hx, likelihood_pairsTruth, Except.ok.injEq] at hp
  rw [← hz, likelihood_pairsTruth, Except.ok.injEq] at hq
  have hp : p = 7 / 32 := by norm_num [← hp]
  have hq : q = 1 / 32 := by norm_num [← hq]
  exact ⟨_, he, hexp.trans hp, hprob.trans hp, hqp.2 (by norm_num [hp, hq])⟩

end Scenario

end NoisyDNF
