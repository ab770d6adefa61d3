import NoisyDNF.Proofs.Binary64.Probability
import NoisyDNF.Proofs.MonotoneArithmetic

namespace NoisyDNF.Binary64

open Float.Model
open Scenario (isErrorProbability)

/-- Canonical numbers are determined by their values, up to the sign of zero. -/
theorem eq_of_unpackedValue_eq {u w : UnpackedFloat} (hu : IsNumber u) (hw : IsNumber w)
    (hpos : 0 < unpackedValue u) (h : unpackedValue u = unpackedValue w) : u = w := by
  have hpos' := h ▸ hpos
  cases u with
  | infinity | notANumber | zero => cases hpos.ne rfl
  | finite s m e hm =>
    cases w with
    | infinity | notANumber | zero => cases hpos'.ne rfl
    | finite t m' e' hm' =>
      cases s with
      | negative =>
        rw [unpackedValue_negative, neg_pos] at hpos
        exact absurd hpos (mul_zpow_pos hm e).asymm
      | positive =>
        cases t with
        | negative =>
          rw [unpackedValue_negative, neg_pos] at hpos'
          exact absurd hpos' (mul_zpow_pos hm' e').asymm
        | positive =>
          rw [unpackedValue_positive, unpackedValue_positive] at h
          obtain ⟨he, hmm⟩ :=
            Ordering.then_eq_eq.1 ((Stored.compares hu.canonical hw.canonical).eq_eq.2 h)
          obtain rfl := compare_eq_iff_eq.1 he
          obtain rfl := compare_eq_iff_eq.1 hmm
          rfl

theorem unpack_eq_of_value_eq {x y : Float} (hx : x.isFinite = true) (hy : y.isFinite = true)
    (hpos : 0 < value x) (h : value x = value y) : x.toModel.unpack = y.toModel.unpack :=
  eq_of_unpackedValue_eq (isNumber_unpack hx) (isNumber_unpack hy) hpos h

namespace IsProbability

variable {a b c d : Float}

theorem value_mul_le_value_mul (ha : IsProbability a) (hb : IsProbability b) (hc : IsProbability c)
    (hd : IsProbability d) (hab : value a ≤ value b) (hcd : value c ≤ value d) :
    value (a * c) ≤ value (b * d) := by
  rcases (mul_le_mul hab hcd hc.nonneg hb.nonneg).lt_or_eq with hlt | heq
  · exact (ha.computes_mul hc).isRounding.le_of_lt (hb.computes_mul hd).isRounding hlt
  by_cases hz : value a = 0 ∨ value c = 0
  · rw [ha.value_mul_eq_zero hc hz]
    exact (hb.mul hd).nonneg
  · -- Equal products of positive numbers have equal factors, and so are rounded in the same way.
    push Not at hz
    have ha₀ := lt_of_le_of_ne ha.nonneg (Ne.symm hz.1)
    have hc₀ := lt_of_le_of_ne hc.nonneg (Ne.symm hz.2)
    obtain ⟨hab', hcd'⟩ := (mul_eq_mul_iff_eq_and_eq_of_pos hab hcd ha₀ (hc₀.trans_le hcd)).1 heq
    rw [mul_eq, mul_eq, unpack_eq_of_value_eq ha.isFinite hb.isFinite ha₀ hab',
      unpack_eq_of_value_eq hc.isFinite hd.isFinite hc₀ hcd']

theorem mul_le_mul (ha : IsProbability a) (hb : IsProbability b) (hc : IsProbability c)
    (hd : IsProbability d) (hab : a ≤ b) (hcd : c ≤ d) : a * c ≤ b * d := by
  rw [le_iff ha.isFinite hb.isFinite] at hab
  rw [le_iff hc.isFinite hd.isFinite] at hcd
  rw [le_iff (ha.mul hc).isFinite (hb.mul hd).isFinite]
  exact ha.value_mul_le_value_mul hb hc hd hab hcd

theorem le_refl (ha : IsProbability a) : a ≤ a := (le_iff ha.isFinite ha.isFinite).2 le_rfl

end IsProbability

theorem isProbability_zero : IsProbability 0 :=
  ⟨isFinite_zero, value_zero.ge, value_zero.trans_le zero_le_one⟩

theorem le_one_sub {p : Float} (h : isErrorProbability p = true) : p ≤ 1 - p := by
  obtain ⟨hp, -, hlt⟩ := value_mem_of_isErrorProbability h
  obtain ⟨hq, hle⟩ := half_le_value_one_sub h
  exact (le_iff hp hq.isFinite).2 (hlt.le.trans hle)

instance : MonotoneScalar Float where
  IsLikelihood := IsProbability
  isLikelihood_zero := isProbability_zero
  isLikelihood_one := isProbability_one
  isLikelihood_mul := IsProbability.mul
  isLikelihood_error := isProbability_of_isErrorProbability
  isLikelihood_complement h := (half_le_value_one_sub h).1
  zero_le ha := (le_iff isFinite_zero ha.isFinite).2 (value_zero.trans_le ha.nonneg)
  le_total ha hb := by
    rw [le_iff ha.isFinite hb.isFinite, le_iff hb.isFinite ha.isFinite]
    exact le_total _ _
  le_trans ha hb hc hab hbc := by
    rw [le_iff ha.isFinite hb.isFinite] at hab
    rw [le_iff hb.isFinite hc.isFinite] at hbc
    exact (le_iff ha.isFinite hc.isFinite).2 (hab.trans hbc)
  lt_iff_not_le ha hb := by
    rw [lt_iff ha.isFinite hb.isFinite, le_iff hb.isFinite ha.isFinite, not_le]
  mul_le_mul_left ha hb hc h := hc.mul_le_mul hc ha hb hc.le_refl h
  mul_le_mul_right ha hb hc h := ha.mul_le_mul hb hc hc h hc.le_refl
  le_complement := le_one_sub

end NoisyDNF.Binary64
