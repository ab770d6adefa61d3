import NoisyDNF.Proofs.Binary64.Monotonicity
import NoisyDNF.Proofs.Scenario.Exhaustive
import NoisyDNF.Scenario.Risk
import NoisyDNF.ZeroOne.Search

namespace NoisyDNF

theorem Assignment.get?_force (a : Assignment) (vs : List Var) (w : Var) :
    (a.force vs).get? w = if w ∈ vs then some true else a.get? w := by
  induction vs generalizing a with
  | nil => rfl
  | cons v vs ih =>
    refine (ih (a.insert v true)).trans ?_
    rw [VarMap.get?_insert]
    by_cases hw : w ∈ vs <;> by_cases hv : w = v <;> simp [hw, hv]

namespace Scenario

open ZeroOne

section Scalar

variable {R : Type} {s : Scenario R} {k : ℕ} {ts : List Formula} {t : Formula} {x : Assignment}
  {v : Var}

def forcedTruth (s : Scenario R) (t : Formula) : Assignment :=
  s.formula.atoms.map fun v _ ↦ ((s.observed.force t.atoms.keys).get? v).getD false

theorem isTruth_forcedTruth (s : Scenario R) (t : Formula) : s.IsTruth (s.forcedTruth t) :=
  isTruth_map_atoms _

theorem get?_forcedTruth_of_mem (hv : v ∈ s.formula.atoms.keys) (ht : v ∈ t.occurrences) :
    (s.forcedTruth t).get? v = some true := by
  rw [forcedTruth, get?_map_atoms hv, Assignment.get?_force, if_pos (Formula.mem_atoms.2 ht),
    Option.getD_some]

theorem evaluate_forcedTruth (hf : s.formula.IsDnfOf k ts) (ht : t ∈ ts) :
    s.formula.evaluate (s.forcedTruth t) = some true :=
  hf.evaluate_eq_true_iff.2 ⟨t, ht, fun _ hv ↦
    get?_forcedTruth_of_mem (Formula.mem_atoms.2 (hf.mem_occurrences.2 ⟨t, ht, hv⟩)) hv⟩

variable [Scalar R]

theorem get?_forcedTruth_of_observed (hs : s.Valid k) {b : Bool} (hb : s.observed.get? v = some b) :
    (s.forcedTruth t).get? v = (s.observed.force t.atoms.keys).get? v := by
  rw [forcedTruth, get?_map_atoms (hs.mem_atoms_of_observed hb), Assignment.get?_force, hb]
  split <;> rfl

theorem termRisk_eq (hs : s.Valid k) (t : Formula) :
    s.termRisk t = .ok (s.likelihoodOf (s.forcedTruth t)) := by
  rw [termRisk, likelihood_eq_of_covers hs.noise_covers_observed fun v hv ↦ ?_,
    likelihoodOf_congr fun v b hb ↦ (get?_forcedTruth_of_observed hs hb).symm]
  obtain ⟨b, hb⟩ := VarMap.mem_keys_iff.1 hv
  rw [VarMap.mem_keys_iff, Assignment.get?_force, hb]
  split
  · exact ⟨true, rfl⟩
  · exact ⟨b, rfl⟩

theorem satisfyingRisk_eq (hs : s.Valid k) (hts : s.formula.terms? = some ts) : s.satisfyingRisk =
    .ok ((ts.map fun t ↦ s.likelihoodOf (s.forcedTruth t)).foldl Scalar.larger 0) := by
  rw [satisfyingRisk, hts]
  simp only [mapM_eq_ok fun t _ ↦ termRisk_eq hs t]
  rfl

variable [MonotoneScalar R]

theorem factor_le_complement (hs : s.Valid k) {e : Var × Bool} {p : R}
    (hp : s.noise.get? e.1 = some p) : s.factor x e ≤ 1 - p := by
  have hrange := hs.noise_range _ p hp
  rw [factor, hp, Option.getD_some]
  split
  · exact MonotoneScalar.le_refl (MonotoneScalar.isLikelihood_complement hrange)
  · exact MonotoneScalar.le_complement hrange

/-- In the term both truths are the same, and elsewhere the forced one keeps to the observation, which is
the likelier value. -/
theorem factor_le_factor_forcedTruth (hs : s.Valid k)
    (hx : ∀ v ∈ t.occurrences, x.get? v = some true) {e : Var × Bool} (he : e ∈ s.observed.entries) :
    s.factor x e ≤ s.factor (s.forcedTruth t) e := by
  have hb := VarMap.get?_eq_some_iff.2 he
  have hforced := (get?_forcedTruth_of_observed (t := t) hs hb).trans (Assignment.get?_force ..)
  by_cases ht : e.1 ∈ t.atoms.keys
  · have heq : s.factor x e = s.factor (s.forcedTruth t) e := by
      rw [factor, factor, hforced, if_pos ht, hx _ (Formula.mem_atoms.1 ht)]
    rw [← heq]
    exact MonotoneScalar.le_refl (hs.isLikelihood_factor x he)
  · obtain ⟨p, hp⟩ := hs.exists_noise (hs.mem_atoms_of_observed hb)
    have heq : s.factor (s.forcedTruth t) e = 1 - p := by
      rw [factor, hforced, if_neg ht, hb, if_pos rfl, hp, Option.getD_some]
    rw [heq]
    exact factor_le_complement hs hp

theorem likelihoodOf_le_forcedTruth (hs : s.Valid k)
    (hx : ∀ v ∈ t.occurrences, x.get? v = some true) :
    s.likelihoodOf x ≤ s.likelihoodOf (s.forcedTruth t) :=
  MonotoneScalar.product_le_product (fun _ ↦ hs.isLikelihood_factor x)
    (fun _ ↦ hs.isLikelihood_factor _) fun _ ↦ factor_le_factor_forcedTruth hs hx

theorem exists_isGreatest_satisfyingRisk (hs : s.Valid k) :
    ∃ r, s.satisfyingRisk = .ok r ∧ IsGreatest (s.likelihoodsOf true) r := by
  obtain ⟨ts, hts, hf⟩ := hs.exists_terms
  obtain ⟨hmem, hle⟩ := MonotoneScalar.isGreatest_foldl_larger_zero
    (mt List.map_eq_nil_iff.1 hf.ne_nil) fun p hp ↦ by
      obtain ⟨t, -, rfl⟩ := List.mem_map.1 hp
      exact hs.isLikelihood_likelihoodOf (s.forcedTruth t)
  refine ⟨_, satisfyingRisk_eq hs hts, ?_, fun p hp ↦ ?_⟩
  · obtain ⟨t, ht, he⟩ := List.mem_map.1 hmem
    exact (mem_likelihoodsOf hs).2 ⟨_, isTruth_forcedTruth s t, evaluate_forcedTruth hf ht, he⟩
  · obtain ⟨x, -, hxt, rfl⟩ := (mem_likelihoodsOf hs).1 hp
    obtain ⟨t, ht, hx⟩ := hf.evaluate_eq_true_iff.1 hxt
    obtain ⟨u, -, hu⟩ := List.mem_map.1 hmem
    have hbound := hle (List.mem_map_of_mem ht)
    rw [← hu] at hbound ⊢
    exact MonotoneScalar.le_trans (hs.isLikelihood_likelihoodOf _) (hs.isLikelihood_likelihoodOf _)
      (hs.isLikelihood_likelihoodOf _) (likelihoodOf_le_forcedTruth hs hx) hbound

end Scalar

theorem maximumRisk_eq_satisfyingRisk {R : Type} [LogScalar R] {s : Scenario R} {k : ℕ}
    (hs : s.Valid k) (hc : s.formula.evaluate s.observed = some false) (solve : Solver R) :
    s.maximumRisk solve = s.satisfyingRisk := by
  rw [maximumRisk, validate_eq_ok_iff.2 hs, hc]
  rfl

/-- When the observation falsifies the formula, the maximum risk is the greatest likelihood of a truth that
satisfies it, without tolerance and whatever the solver, and trying every truth finds the same number. -/
theorem maximumRisk_of_falsified {R : Type} [LogScalar R] [MonotoneScalar R] {s : Scenario R} {k : ℕ}
    (hv : s.validate true = .ok k) (hc : s.formula.evaluate s.observed = some false) :
    ∃ r, (∀ solve, s.maximumRisk solve = .ok r) ∧ IsGreatest (s.likelihoodsOf true) r ∧
      (s.formula.atoms.size ≤ maxExhaustiveAtoms →
        ∃ r', s.exhaustiveRisk = .ok r' ∧ r ≤ r' ∧ r' ≤ r) := by
  have hs := validate_eq_ok_iff.1 hv
  obtain ⟨r, hr, hgreatest⟩ := exists_isGreatest_satisfyingRisk hs
  refine ⟨r, fun solve ↦ (maximumRisk_eq_satisfyingRisk hs hc solve).trans hr, hgreatest, ?_⟩
  intro hsize
  obtain ⟨r', hr', hex⟩ := exists_exhaustiveRisk_eq hs hc
  refine ⟨r', hex hsize, hr'.2 (Set.mem_insert_of_mem _ hgreatest.1), ?_⟩
  rcases hr'.1 with rfl | hmem
  · obtain ⟨x, -, -, rfl⟩ := (mem_likelihoodsOf hs).1 hgreatest.1
    exact MonotoneScalar.zero_le (hs.isLikelihood_likelihoodOf x)
  · exact hgreatest.2 hmem

def oneDenied {R : Type} (p q : R) : Scenario R :=
  { bothObserved p q with observed := .ofList [(varA, false)] }

theorem valid_oneDenied {R : Type} [Scalar R] {p q : R} (h : (bothObserved p q).Valid 2) :
    (oneDenied p q).Valid 2 :=
  { h with
    keys_observed := show ∀ v ∈ (VarMap.ofList [(varA, false)]).keys, v ∈ bothAtoms.atoms.keys by decide
    determined := show bothAtoms.evaluate (.ofList [(varA, false)]) ≠ none by decide }

theorem maximumRisk_of_falsified_oneDenied :
    ∃ r, (oneDenied (0.125 : Float) 0.25).maximumRisk (branchAndBound .never) = .ok r ∧
      IsGreatest ((oneDenied (0.125 : Float) 0.25).likelihoodsOf true) r ∧
      ∃ r', (oneDenied (0.125 : Float) 0.25).exhaustiveRisk = .ok r' ∧ r ≤ r' ∧ r' ≤ r := by
  have hs : (oneDenied (0.125 : Float) 0.25).Valid 2 := valid_oneDenied
    (valid_bothObserved (by decide +kernel) (by decide +kernel) (by decide +kernel))
  obtain ⟨r, hr, hgreatest, hex⟩ := maximumRisk_of_falsified (validate_eq_ok_iff.2 hs) (by decide)
  exact ⟨r, hr _, hgreatest, hex (by decide)⟩

end Scenario

end NoisyDNF
