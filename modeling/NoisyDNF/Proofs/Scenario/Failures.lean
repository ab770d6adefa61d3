import NoisyDNF.Proofs.Scenario.FalsifyingSide
import NoisyDNF.Proofs.Scenario.Silencing
import NoisyDNF.Proofs.ZeroOne.Status

namespace NoisyDNF

section Except

variable {ε α β : Type} {x : Except ε α} {f : α → Except ε β} {e : ε}

/-- When only the first step can fail, its errors are those of the whole. -/
theorem bind_eq_error_iff_left (h : ∀ a, x = .ok a → ∃ b, (x >>= f) = .ok b) :
    (x >>= f) = .error e ↔ x = .error e := by
  cases x with
  | error e' => simp [bind, Except.bind]
  | ok a =>
    obtain ⟨b, hb⟩ := h a rfl
    rw [hb]
    exact iff_of_false nofun nofun

theorem filterM_eq_ok {f : α → Except ε Bool} {p : α → Bool} {as : List α}
    (h : ∀ a ∈ as, f a = .ok (p a)) : as.filterM f = .ok (as.filter p) := by
  have haux (acc : List α) : as.filterAuxM f acc = .ok ((as.filter p).reverse ++ acc) := by
    induction as generalizing acc with
    | nil => rfl
    | cons a as ih =>
      rw [List.filterAuxM, h a List.mem_cons_self]
      refine (ih (fun b hb ↦ h b (List.mem_cons_of_mem a hb)) _).trans ?_
      cases hp : p a <;> simp [hp]
  rw [List.filterM, haux]
  exact congrArg Except.ok (by simp)

/-- Filtering tests all of the list, or stops at the first test that fails. -/
theorem filterM_eq_ok_or_error (f : α → Except ε Bool) (as : List α) :
    (∃ p : α → Bool, (∀ a ∈ as, f a = .ok (p a)) ∧ as.filterM f = .ok (as.filter p)) ∨
      ∃ a ∈ as, ∃ e, f a = .error e ∧ as.filterM f = .error e := by
  by_cases h : ∀ a ∈ as, ∃ b, f a = .ok b
  · have hp : ∀ a ∈ as, f a = .ok ((f a).toOption.getD false) := by
      intro a ha
      obtain ⟨b, hb⟩ := h a ha
      rw [hb]
      rfl
    exact .inl ⟨_, hp, filterM_eq_ok hp⟩
  · refine .inr ?_
    have haux (acc : List α) : ∃ a ∈ as, ∃ e, f a = .error e ∧ as.filterAuxM f acc = .error e := by
      induction as generalizing acc with
      | nil => exact absurd (fun _ ha ↦ absurd ha List.not_mem_nil) h
      | cons a as ih =>
        rw [List.filterAuxM]
        cases ha : f a with
        | error e => exact ⟨a, List.mem_cons_self, e, ha, rfl⟩
        | ok b =>
          obtain ⟨c, hc, he⟩ := ih (fun hall ↦ h (List.forall_mem_cons.2 ⟨⟨b, ha⟩, hall⟩)) _
          exact ⟨c, List.mem_cons_of_mem a hc, he⟩
    obtain ⟨a, ha, e, he, hfilter⟩ := haux []
    refine ⟨a, ha, e, he, ?_⟩
    rw [List.filterM, hfilter]
    rfl

end Except

namespace Scenario

open ZeroOne

variable {R : Type} [LogScalar R] {s : Scenario R} {k : ℕ} {v : Var}

/-- Every lookup that has to find something does: the atoms of the terms have variables in the model, and the
answer gives each of these a value. -/
def LookupsSucceed (s : Scenario R) (k : ℕ) : Prop :=
  ∃ e ts, s.encode k = .ok e ∧ e.model.WellFormed ∧ s.formula.terms? = some ts ∧
    (∀ t ∈ ts, ∀ v ∈ t.atoms.keys, ∃ i < e.model.numVars, e.columns.get? v = some i) ∧
    (s.canFalsify = .ok true → ∃ x, e.decode? (branchAndBound .never e.model).values = some x)

theorem status_branchAndBound_modelOf (hs : s.Valid k) {ts : List Formula}
    (hf : s.formula.IsDnfOf k ts) (hcan : s.canFalsify = .ok true) :
    (branchAndBound .never (s.modelOf k ts)).status = .optimal := by
  obtain ⟨y, hy⟩ := exists_feasible_of_canFalsify hs hf hcan
  obtain ⟨-, hstatus, -⟩ := exists_branchAndBound_eq (wellFormed_modelOf hf) hy
  exact hstatus

theorem Valid.lookupsSucceed (hs : s.Valid k) : s.LookupsSucceed k := by
  obtain ⟨ts, hts, hf⟩ := hs.exists_terms
  have hwf := wellFormed_modelOf (k := k) hf
  refine ⟨_, ts, encode_eq hs hts, hwf, hts, fun t ht v hv ↦ ?_, fun hcan ↦ ?_⟩
  · have hatom : v ∈ s.formula.atoms.keys :=
      Formula.mem_atoms.2 (hf.mem_occurrences.2 ⟨t, ht, Formula.mem_atoms.1 hv⟩)
    refine ⟨s.column v, (column_lt hatom).trans_eq (numVars_modelOf s k ts).symm, ?_⟩
    exact VarMap.get?_numbering.2 (getElem?_column hatom)
  · obtain ⟨hfeas, -⟩ :=
      isFeasible_values_of_optimal hwf (status_branchAndBound_modelOf hs hf hcan)
    exact ⟨_, decode?_eq ((isFeasible_modelOf_iff hs.noise_covers hf).1 hfeas).1⟩

theorem exists_maximumRisk (hs : s.Valid k) : ∃ r, s.maximumRisk (branchAndBound .never) = .ok r := by
  obtain ⟨ts, hts, hf⟩ := hs.exists_terms
  obtain ⟨c, hc⟩ := Option.ne_none_iff_exists'.1 hs.determined
  cases c with
  | false => exact ⟨_, (maximumRisk_eq_satisfyingRisk hs hc _).trans (satisfyingRisk_eq hs hts)⟩
  | true =>
    cases hcan : decide (s.formula.evaluate s.leastTruth = some false) &&
        decide (0 < s.likelihoodOf s.leastTruth) with
    | false => exact ⟨0, maximumRisk_eq_zero hs hc (hcan ▸ canFalsify_eq hs) _⟩
    | true =>
      have hcan' : s.canFalsify = .ok true := hcan ▸ canFalsify_eq hs
      exact ⟨_, maximumRisk_eq_probability hs hts hc hcan' (status_branchAndBound_modelOf hs hf hcan')⟩

theorem riskyVariables_eq_map (hs : s.Valid k) {solve : Solver R} {m : R}
    (hm : s.maximumRisk solve = .ok m) : s.riskyVariables solve =
      (s.formula.atoms.keys.filterM (s.isRiskyAgainst solve m)).map VarSet.ofList := by
  rw [riskyVariables, validate_eq_ok_iff.2 hs, hm]
  simp only [bind, Except.bind, pure, Except.pure, Except.map]

section Silencing

variable (h₀ : isErrorProbability (0 : R) = true)
include h₀

theorem exists_riskWithout (hs : s.Valid k) (hv : v ∈ s.formula.atoms.keys) :
    ∃ r, s.riskWithout (branchAndBound .never) v = .ok r := by
  rw [riskWithout]
  split
  · exact ⟨0, rfl⟩
  · next hn => exact exists_maximumRisk (hs.silence h₀ hv (Bool.eq_false_iff.2 hn))

theorem exists_exceedsWithout (hs : s.Valid k) (hv : v ∈ s.formula.atoms.keys) (baseline : R) :
    ∃ b, s.exceedsWithout (branchAndBound .never) baseline v = .ok b := by
  obtain ⟨r, hr⟩ := exists_riskWithout h₀ hs hv
  rw [exceedsWithout, hr]
  split
  · exact ⟨_, rfl⟩
  · exact ⟨false, rfl⟩

theorem exists_isRisky (hs : s.Valid k) (hv : v ∈ s.formula.atoms.keys) :
    ∃ b, s.isRisky (branchAndBound .never) v = .ok b := by
  obtain ⟨m, hm⟩ := exists_maximumRisk hs
  obtain ⟨b, hb⟩ := exists_exceedsWithout h₀ hs hv m
  exact ⟨b, (isRisky_eq_exceedsWithout hs hv hm).trans hb⟩

theorem exists_isRiskyAgainst (hs : s.Valid k) (hv : v ∈ s.formula.atoms.keys) (baseline : R) :
    ∃ b, s.isRiskyAgainst (branchAndBound .never) baseline v = .ok b := by
  rw [isRiskyAgainst]
  split
  · exact ⟨false, rfl⟩
  · exact exists_exceedsWithout h₀ hs hv baseline

theorem exists_riskyVariables (hs : s.Valid k) :
    ∃ vs, s.riskyVariables (branchAndBound .never) = .ok vs := by
  obtain ⟨m, hm⟩ := exists_maximumRisk hs
  rw [riskyVariables_eq_map hs hm]
  rcases filterM_eq_ok_or_error (s.isRiskyAgainst (branchAndBound .never) m) s.formula.atoms.keys with
    ⟨p, -, hfilter⟩ | ⟨v, hv, e, he, -⟩
  · rw [hfilter]
    exact ⟨_, rfl⟩
  · obtain ⟨b, hb⟩ := exists_isRiskyAgainst h₀ hs hv m
    cases he.symm.trans hb

end Silencing

theorem isRisky_of_not_mem (hs : s.Valid k) (hv : v ∉ s.formula.atoms.keys) (solve : Solver R) :
    s.isRisky solve v = .error (.outsideDomain v) := by
  have hno : s.formula.atoms.contains v = false := by
    rw [Bool.eq_false_iff, ne_eq, VarMap.contains_iff]
    exact hv
  rw [isRisky, validate_eq_ok_iff.2 hs, hno]
  rfl

theorem isRisky_eq_error_iff (h₀ : isErrorProbability (0 : R) = true) {e : Error R} :
    s.isRisky (branchAndBound .never) v = .error e ↔ s.validate true = .error e ∨
      (∃ k, s.validate true = .ok k) ∧ v ∉ s.formula.atoms.keys ∧ e = .outsideDomain v := by
  cases hval : s.validate true with
  | error e' => simp [isRisky, hval, bind, Except.bind]
  | ok k =>
    have hs := validate_eq_ok_iff.1 hval
    by_cases hv : v ∈ s.formula.atoms.keys
    · obtain ⟨b, hb⟩ := exists_isRisky h₀ hs hv
      simp [hb, hv]
    · simp [isRisky_of_not_mem hs hv, hv, eq_comm]

theorem exhaustiveRisk_eq_error_iff {e : Error R} :
    s.exhaustiveRisk = .error e ↔ s.validate true = .error e ∨ (∃ k, s.validate true = .ok k) ∧
      20 < s.formula.atoms.size ∧ e = .tooManyAtoms s.formula.atoms.size 20 := by
  cases hval : s.validate true with
  | error e' => simp [exhaustiveRisk, hval, bind, Except.bind]
  | ok k =>
    have hs := validate_eq_ok_iff.1 hval
    obtain ⟨c, hc⟩ := Option.ne_none_iff_exists'.1 hs.determined
    rw [exhaustiveRisk_eq hs hc]
    by_cases hsize : 20 < s.formula.atoms.size <;>
      simp [maxExhaustiveAtoms, hsize, eq_comm]

/-- Nothing fails once a scenario has passed validation, but for asking about a variable that does not
occur in the formula and for trying too many truths. That holds of the scenarios without the noise of one
variable, too. -/
theorem errors_iff (h₀ : isErrorProbability (0 : R) = true) (s : Scenario R) :
    (∀ e, s.maximumRisk (branchAndBound .never) = .error e ↔ s.validate true = .error e) ∧
    (∀ e, s.riskyVariables (branchAndBound .never) = .error e ↔ s.validate true = .error e) ∧
    (∀ v e, s.isRisky (branchAndBound .never) v = .error e ↔ s.validate true = .error e ∨
      (∃ k, s.validate true = .ok k) ∧ v ∉ s.formula.atoms.keys ∧ e = .outsideDomain v) ∧
    (∀ e, s.exhaustiveRisk = .error e ↔ s.validate true = .error e ∨
      (∃ k, s.validate true = .ok k) ∧
        20 < s.formula.atoms.size ∧ e = .tooManyAtoms s.formula.atoms.size 20) ∧
    ∀ k, s.validate true = .ok k → s.LookupsSucceed k ∧
      ∀ v ∈ s.formula.atoms.keys, (s.silence v).noise.isNoiseless = false →
        (s.silence v).validate true = .ok k ∧ (s.silence v).LookupsSucceed k := by
  refine ⟨fun e ↦ ?_, fun e ↦ ?_, fun v e ↦ isRisky_eq_error_iff h₀,
    fun e ↦ exhaustiveRisk_eq_error_iff, fun k hval ↦ ?_⟩
  · exact bind_eq_error_iff_left (x := s.validate true) fun k hk ↦
      exists_maximumRisk (validate_eq_ok_iff.1 hk)
  · exact bind_eq_error_iff_left (x := s.validate true) fun k hk ↦
      exists_riskyVariables h₀ (validate_eq_ok_iff.1 hk)
  · have hs := validate_eq_ok_iff.1 hval
    refine ⟨hs.lookupsSucceed, fun v hv hn ↦ ?_⟩
    have hs' := hs.silence h₀ hv hn
    exact ⟨validate_eq_ok_iff.2 hs', hs'.lookupsSucceed⟩

theorem errors_iff_bothObserved :
    (∀ e, (bothObserved (0.125 : Float) 0.25).maximumRisk (branchAndBound .never) ≠ .error e) ∧
      (∀ e, (bothObserved (0.125 : Float) 0.25).riskyVariables (branchAndBound .never) ≠ .error e) ∧
      (bothObserved (0.125 : Float) 0.25).isRisky (branchAndBound .never) ⟨"c", by decide⟩ =
        .error (.outsideDomain ⟨"c", by decide⟩) := by
  have hval : (bothObserved (0.125 : Float) 0.25).validate true = .ok 2 := validate_eq_ok_iff.2
    (valid_bothObserved (by decide +kernel) (by decide +kernel) (by decide +kernel))
  obtain ⟨hmax, hrisky, hone, -⟩ :=
    errors_iff (R := Float) (by decide +kernel) (bothObserved (0.125 : Float) 0.25)
  have hno (e : Error Float) : (bothObserved (0.125 : Float) 0.25).validate true ≠ .error e := by
    rw [hval]
    exact nofun
  refine ⟨fun e ↦ (hmax e).not.2 (hno e), fun e ↦ (hrisky e).not.2 (hno e), (hone _ _).2 (.inr ?_)⟩
  exact ⟨⟨2, hval⟩, show _ ∉ bothAtoms.atoms.keys by decide, rfl⟩

end Scenario

end NoisyDNF
