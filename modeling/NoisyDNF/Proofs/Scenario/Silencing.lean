import Mathlib.Algebra.BigOperators.Group.List.Lemmas
import NoisyDNF.Proofs.RealArithmetic
import NoisyDNF.Proofs.Scenario.LeastTruth
import NoisyDNF.Scenario.RiskyVariables

namespace NoisyDNF.Scenario

open ZeroOne

section Scalar

variable {R : Type} {s : Scenario R} {k : ℕ} {v : Var} {q : R}

def setNoise (s : Scenario R) (v : Var) (q : R) : Scenario R := s.withNoise (s.noise.insert v q)

theorem get?_noise_setNoise (s : Scenario R) (v w : Var) (q : R) :
    (s.setNoise v q).noise.get? w = if w = v then some q else s.noise.get? w :=
  VarMap.get?_insert s.noise v q w

variable [Scalar R]

theorem Valid.setNoise (hs : s.Valid k) (hq : isErrorProbability q = true)
    (hv : v ∈ s.formula.atoms.keys) (hn : (s.setNoise v q).noise.isNoiseless = false) :
    (s.setNoise v q).Valid k := by
  refine hs.withNoise (VarMap.keys_insert_of_mem (hs.keys_noise ▸ hv) q) (fun w p hp ↦ ?_) hn
  rw [VarMap.get?_insert] at hp
  split at hp
  · exact Option.some_inj.1 hp ▸ hq
  · exact hs.noise_range w p hp

theorem factor_setNoise (s : Scenario R) {e : Var × Bool} (he : e.1 ≠ v) (q : R) (x : Assignment) :
    (s.setNoise v q).factor x e = s.factor x e := by
  rw [factor, factor, get?_noise_setNoise, if_neg he]

theorem likelihoodOf_setNoise_of_unobserved (hv : v ∉ s.observed.keys) (q : R) (x : Assignment) :
    (s.setNoise v q).likelihoodOf x = s.likelihoodOf x := by
  refine congrArg Scalar.product (List.map_congr_left fun e he ↦ factor_setNoise s ?_ q x)
  rintro rfl
  exact hv (List.mem_map_of_mem he)

end Scalar

section LogScalar

variable {R : Type} [LogScalar R] {s : Scenario R} {k : ℕ} {x : Assignment} {v : Var} {c : Bool}

theorem get?_noise_silence (s : Scenario R) (v w : Var) :
    (s.silence v).noise.get? w = if w = v then some 0 else s.noise.get? w :=
  get?_noise_setNoise s v w 0

/-- Zero has to be an error probability. -/
theorem Valid.silence (hs : s.Valid k) (h₀ : isErrorProbability (0 : R) = true)
    (hv : v ∈ s.formula.atoms.keys) (hn : (s.silence v).noise.isNoiseless = false) :
    (s.silence v).Valid k :=
  hs.setNoise h₀ hv hn

theorem likelihoodOf_silence_of_unobserved (hv : v ∉ s.observed.keys) (x : Assignment) :
    (s.silence v).likelihoodOf x = s.likelihoodOf x :=
  likelihoodOf_setNoise_of_unobserved hv 0 x

theorem isRisky_eq_exceedsWithout (hs : s.Valid k) (hv : v ∈ s.formula.atoms.keys) {solve : Solver R}
    {m : R} (hm : s.maximumRisk solve = .ok m) : s.isRisky solve v = s.exceedsWithout solve m v := by
  rw [isRisky, validate_eq_ok_iff.2 hs, VarMap.contains_iff.2 hv, hm]
  rfl

def likelihoodsKeeping (s : Scenario R) (v : Var) (c : Bool) : Set R := fun p ↦
  ∃ x, s.IsTruth x ∧ s.formula.evaluate x = some c ∧ x.get? v = s.observed.get? v ∧
    likelihood s.observed x s.noise = .ok p

theorem mem_likelihoodsKeeping (hs : s.Valid k) {p : R} : p ∈ s.likelihoodsKeeping v c ↔
    ∃ x, s.IsTruth x ∧ s.formula.evaluate x = some c ∧ x.get? v = s.observed.get? v ∧
      s.likelihoodOf x = p := by
  refine exists_congr fun x ↦ and_congr_right fun hx ↦ and_congr_right fun _ ↦
    and_congr_right fun _ ↦ ?_
  rw [likelihood_eq hs hx, Except.ok.injEq]

theorem likelihoodsKeeping_subset (s : Scenario R) (v : Var) (c : Bool) :
    s.likelihoodsKeeping v c ⊆ s.likelihoodsOf c :=
  fun _ ⟨x, hx, hc, _, hp⟩ ↦ ⟨x, hx, hc, hp⟩

end LogScalar

variable {s : Scenario ℝ} {k : ℕ} {x : Assignment} {v : Var} {c b : Bool} {p : ℝ}

noncomputable def likelihoodBesides (s : Scenario ℝ) (e : Var × Bool) (x : Assignment) : ℝ :=
  ((s.observed.entries.erase e).map (s.factor x)).prod

theorem likelihoodOf_eq_mul (hb : s.observed.get? v = some b) (x : Assignment) :
    s.likelihoodOf x = s.factor x (v, b) * s.likelihoodBesides (v, b) x := by
  have hperm := List.perm_cons_erase (VarMap.get?_eq_some_iff.1 hb)
  rw [likelihoodOf, Scalar.product_eq_prod, (hperm.map (s.factor x)).prod_eq, List.map_cons,
    List.prod_cons]
  rfl

theorem likelihoodBesides_setNoise (hb : s.observed.get? v = some b) (q : ℝ) (x : Assignment) :
    (s.setNoise v q).likelihoodBesides (v, b) x = s.likelihoodBesides (v, b) x := by
  have hfactor : (s.observed.entries.erase (v, b)).map ((s.setNoise v q).factor x) =
      (s.observed.entries.erase (v, b)).map (s.factor x) := by
    refine List.map_congr_left fun e he ↦ factor_setNoise s (fun hv ↦ ?_) q x
    have hnodup : s.observed.entries.Nodup := .of_map Prod.fst s.observed.nodup_keys
    obtain ⟨hne, hmem⟩ := hnodup.mem_erase_iff.1 he
    have hd := VarMap.get?_eq_some_iff.2 hmem
    rw [hv, hb] at hd
    exact hne (Prod.ext hv (Option.some_inj.1 hd).symm)
  exact congrArg List.prod hfactor

/-- Noise of a variable costs one factor, if the truth gives it the observed value. -/
theorem likelihoodOf_eq_mul_silence (hp : s.noise.get? v = some p) (hb : s.observed.get? v = some b)
    (hx : x.get? v = some b) : s.likelihoodOf x = (1 - p) * (s.silence v).likelihoodOf x := by
  have hone : (s.silence v).likelihoodOf x = s.likelihoodBesides (v, b) x := by
    have hb' : (s.silence v).observed.get? v = some b := hb
    rw [likelihoodOf_eq_mul hb', factor, if_pos hx, get?_noise_silence, if_pos rfl, Option.getD_some,
      sub_zero, one_mul]
    exact likelihoodBesides_setNoise hb 0 x
  rw [likelihoodOf_eq_mul hb, factor, if_pos hx, hp, Option.getD_some, hone]

/-- Without noise the variable has been observed rightly. -/
theorem likelihoodOf_silence_eq_zero (hb : s.observed.get? v = some b) (hx : x.get? v ≠ some b) :
    (s.silence v).likelihoodOf x = 0 := by
  have hb' : (s.silence v).observed.get? v = some b := hb
  rw [likelihoodOf_eq_mul hb', factor, if_neg hx, get?_noise_silence, if_pos rfl, Option.getD_some,
    zero_mul]

/-- The greatest likelihood among the truths that keep an observed value is the one without its noise, but
for one factor. -/
theorem isGreatest_likelihoodsKeeping (hs : s.Valid k) (hs' : (s.silence v).Valid k)
    (hp : s.noise.get? v = some p) (hb : s.observed.get? v = some b) {m : ℝ}
    (hm : IsGreatest (insert 0 ((s.silence v).likelihoodsOf c)) m) :
    IsGreatest (insert 0 (s.likelihoodsKeeping v c)) ((1 - p) * m) := by
  have hpos : 0 < 1 - p := by linarith [hs.noise_mem hp]
  constructor
  · rcases hm.1 with rfl | hmem
    · exact .inl (mul_zero _)
    · obtain ⟨x, hx, hc, rfl⟩ := (mem_likelihoodsOf hs').1 hmem
      by_cases hkeep : x.get? v = some b
      · refine .inr ((mem_likelihoodsKeeping hs).2 ⟨x, hx, hc, hkeep.trans hb.symm, ?_⟩)
        exact likelihoodOf_eq_mul_silence hp hb hkeep
      · exact .inl (by rw [likelihoodOf_silence_eq_zero hb hkeep, mul_zero])
  · rintro q (rfl | hq)
    · exact mul_nonneg hpos.le (hm.2 (Set.mem_insert _ _))
    · obtain ⟨x, hx, hc, hkeep, rfl⟩ := (mem_likelihoodsKeeping hs).1 hq
      rw [likelihoodOf_eq_mul_silence hp hb (hkeep.trans hb)]
      have hmem := (mem_likelihoodsOf hs').2 ⟨x, hx, hc, rfl⟩
      exact mul_le_mul_of_nonneg_left (hm.2 (Set.mem_insert_of_mem _ hmem)) hpos.le

/-- A truth of the other class differs from the observation in an observed variable, and when that is not
`v` its noise is needed. -/
theorem likelihoodOf_eq_zero_of_isNoiseless (hs : s.Valid k)
    (hn : (s.silence v).noise.isNoiseless = true) (hc : s.formula.evaluate s.observed = some c)
    (hxc : s.formula.evaluate x = some !c) (hkeep : x.get? v = s.observed.get? v) :
    s.likelihoodOf x = 0 := by
  refine hs.likelihoodOf_eq_zero fun hr ↦ ?_
  have hext : s.formula.evaluate x = some c := by
    refine Formula.evaluate_of_extends (fun w _ d hd ↦ ?_) hc
    by_cases hw : w = v
    · rw [hw, hkeep, ← hw, hd]
    · refine hr w d (isCertain_iff.2 ?_) hd
      obtain ⟨q, hq⟩ := hs.exists_noise (hs.mem_atoms_of_observed hd)
      have hq' : (s.silence v).noise.get? w = some q := by rwa [get?_noise_silence, if_neg hw]
      have hzero := List.all_eq_true.1 hn q
        (List.mem_map.2 ⟨(w, q), VarMap.get?_eq_some_iff.1 hq', rfl⟩)
      rw [hq, Scalar.isZero_iff.1 hzero]
  rw [hext] at hxc
  cases c <;> cases hxc

theorem isGreatest_likelihoodsKeeping_zero
    (h : ∀ q ∈ s.likelihoodsKeeping v c, q = 0) :
    IsGreatest (insert 0 (s.likelihoodsKeeping v c)) 0 := by
  refine ⟨Set.mem_insert _ _, ?_⟩
  rintro q (rfl | hq)
  · exact le_rfl
  · exact (h q hq).le

end NoisyDNF.Scenario
