import Mathlib.Algebra.Order.Field.Basic
import NoisyDNF.Proofs.Scenario.Likelihood
import NoisyDNF.Scenario.Risk

namespace NoisyDNF.Scenario

open ZeroOne

section Scalar

variable {R : Type} {s : Scenario R} {k : ℕ} {x : Assignment} {v : Var}

theorem get?_map_atoms {f : Var → Unit → Bool} (hv : v ∈ s.formula.atoms.keys) :
    (s.formula.atoms.map f).get? v = some (f v ()) := by
  obtain ⟨u, hu⟩ := VarMap.mem_keys_iff.1 hv
  rw [VarMap.get?_map, hu, Option.map_some]

theorem isTruth_map_atoms (f : Var → Unit → Bool) : s.IsTruth (s.formula.atoms.map f) :=
  VarMap.keys_map f _

theorem evaluate_eq_or (hx : s.IsTruth x) :
    s.formula.evaluate x = some true ∨ s.formula.evaluate x = some false := by
  rw [Formula.evaluate_eq_value_holds fun v hv ↦ hx ▸ Formula.mem_atoms.2 hv, Option.some_inj,
    Option.some_inj]
  exact Bool.eq_false_or_eq_true _

variable [Scalar R]

/-- Certain atoms have their observed value, and are false when they are not observed. -/
def Pinned (s : Scenario R) (x : Assignment) : Prop :=
  ∀ v ∈ s.formula.atoms.keys, s.isCertain v = true →
    x.get? v = some ((s.observed.get? v).getD false)

theorem Pinned.respects (hs : s.Valid k) (hx : s.Pinned x) : s.Respects x := by
  intro v b hc hb
  rw [hx v (hs.mem_atoms_of_observed hb) hc, hb, Option.getD_some]

theorem isTruth_leastTruth (s : Scenario R) : s.IsTruth s.leastTruth := isTruth_map_atoms _

theorem leastTruth_eq (s : Scenario R) : s.leastTruth =
    s.formula.atoms.map fun v _ ↦ s.isCertain v && (s.observed.get? v).getD false := by
  rw [leastTruth]
  congr 1
  funext v _
  rw [isCertain]
  cases s.observed.get? v with
  | none => simp
  | some b =>
    cases s.noise.get? v with
    | none => simp
    | some p => by_cases hz : Scalar.isZero p <;> simp [hz]

theorem get?_leastTruth (hv : v ∈ s.formula.atoms.keys) :
    s.leastTruth.get? v = some (s.isCertain v && (s.observed.get? v).getD false) := by
  rw [leastTruth_eq, get?_map_atoms hv]

theorem pinned_leastTruth (s : Scenario R) : s.Pinned s.leastTruth := by
  intro v hv hc
  rw [get?_leastTruth hv, hc, Bool.true_and]

theorem exists_falsifying (hs : s.Valid k) : ∃ x, s.IsTruth x ∧ s.formula.evaluate x = some false := by
  obtain ⟨ts, -, hf⟩ := hs.exists_terms
  refine ⟨_, isTruth_map_atoms fun _ _ ↦ false, hf.evaluate_eq_false_iff.2 fun t ht ↦ ?_⟩
  obtain ⟨v, hv⟩ := hf.exists_mem_term ht
  exact ⟨v, hv, get?_map_atoms (Formula.mem_atoms.2 (hf.mem_occurrences.2 ⟨t, ht, hv⟩))⟩

theorem evaluate_leastTruth (hs : s.Valid k) (hx : s.formula.evaluate x = some false)
    (hr : s.Respects x) : s.formula.evaluate s.leastTruth = some false := by
  obtain ⟨ts, -, hf⟩ := hs.exists_terms
  refine hf.evaluate_eq_false_mono hx ?_
  intro v hv hfalse
  rw [get?_leastTruth (Formula.mem_atoms.2 hv), Option.some_inj, Bool.and_eq_false_iff]
  by_cases hc : s.isCertain v = true
  · refine .inr ?_
    cases hb : s.observed.get? v with
    | none => rfl
    | some b =>
      rw [hr v b hc hb] at hfalse
      exact Option.some_inj.1 hfalse
  · exact .inl (Bool.eq_false_iff.2 hc)

theorem canFalsify_eq (hs : s.Valid k) :
    s.canFalsify = .ok (decide (s.formula.evaluate s.leastTruth = some false) &&
      decide (0 < s.likelihoodOf s.leastTruth)) := by
  rw [canFalsify]
  rcases evaluate_eq_or s.isTruth_leastTruth with h | h
  · simp [h]
  · simp only [h, likelihood_eq hs s.isTruth_leastTruth, decide_true, Bool.true_and]
    rfl

def lower (s : Scenario R) (x : Assignment) : Assignment :=
  s.formula.atoms.map fun v _ ↦
    (x.get? v).getD false && !(s.isCertain v && (s.observed.get? v).isNone)

theorem get?_lower_of_observed (hs : s.Valid k) (hx : s.IsTruth x) {b : Bool}
    (hb : s.observed.get? v = some b) : (s.lower x).get? v = x.get? v := by
  have hv := hs.mem_atoms_of_observed hb
  obtain ⟨c, hc⟩ := hx.exists_value hv
  rw [lower, get?_map_atoms hv, hc, hb]
  simp

theorem pinned_lower (hs : s.Valid k) (hx : s.IsTruth x) (hr : s.Respects x) :
    s.Pinned (s.lower x) := by
  intro v hv hc
  cases hb : s.observed.get? v with
  | none => rw [lower, get?_map_atoms hv, hc, hb]; simp
  | some b => rw [get?_lower_of_observed hs hx hb, hr v b hc hb, Option.getD_some]

theorem evaluate_lower (hs : s.Valid k) (hx : s.formula.evaluate x = some false) :
    s.formula.evaluate (s.lower x) = some false := by
  obtain ⟨ts, -, hf⟩ := hs.exists_terms
  refine hf.evaluate_eq_false_mono hx ?_
  intro v hv hfalse
  rw [lower, get?_map_atoms (Formula.mem_atoms.2 hv), hfalse]
  rfl

theorem likelihoodOf_lower (hs : s.Valid k) (hx : s.IsTruth x) :
    s.likelihoodOf (s.lower x) = s.likelihoodOf x :=
  likelihoodOf_congr fun _ _ hb ↦ get?_lower_of_observed hs hx hb

end Scalar

theorem maximumRisk_eq_falsifyingRisk {R : Type} [LogScalar R] {s : Scenario R} {k : ℕ}
    (hs : s.Valid k) (ht : s.formula.evaluate s.observed = some true) (solve : Solver R) :
    s.maximumRisk solve = s.falsifyingRisk solve k := by
  rw [maximumRisk, validate_eq_ok_iff.2 hs, ht]
  rfl

theorem maximumRisk_eq_zero {R : Type} [LogScalar R] {s : Scenario R} {k : ℕ} (hs : s.Valid k)
    (ht : s.formula.evaluate s.observed = some true) (hcan : s.canFalsify = .ok false)
    (solve : Solver R) : s.maximumRisk solve = .ok 0 := by
  rw [maximumRisk_eq_falsifyingRisk hs ht, falsifyingRisk, hcan]
  rfl

variable {K : Type} [Field K] [LinearOrder K] [IsStrictOrderedRing K] {s : Scenario K} {k : ℕ}
  {x : Assignment}

/-- In exact arithmetic a pinned truth is possible, so the class of the least one decides. -/
theorem canFalsify_eq_of_exact (hs : s.Valid k) :
    s.canFalsify = .ok (decide (s.formula.evaluate s.leastTruth = some false)) := by
  have hpos := hs.likelihoodOf_pos_iff.2 ((pinned_leastTruth s).respects hs)
  rw [canFalsify_eq hs, decide_eq_true hpos, Bool.and_true]

theorem likelihoodOf_eq_zero_of_leastTruth (hs : s.Valid k)
    (h : s.formula.evaluate s.leastTruth ≠ some false) (hx : s.formula.evaluate x = some false) :
    s.likelihoodOf x = 0 :=
  hs.likelihoodOf_eq_zero fun hr ↦ h (evaluate_leastTruth hs hx hr)

/-- Every truth that falsifies the formula is impossible or as likely as a pinned one. -/
theorem exists_pinned (hs : s.Valid k) (hx : s.IsTruth x) (hf : s.formula.evaluate x = some false)
    (hpos : 0 < s.likelihoodOf x) :
    ∃ z, s.IsTruth z ∧ s.Pinned z ∧ s.formula.evaluate z = some false ∧
      s.likelihoodOf z = s.likelihoodOf x :=
  ⟨s.lower x, isTruth_map_atoms _, pinned_lower hs hx (hs.likelihoodOf_pos_iff.1 hpos),
    evaluate_lower hs hf, likelihoodOf_lower hs hx⟩

end NoisyDNF.Scenario
