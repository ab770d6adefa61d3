import Mathlib.Algebra.Order.Field.Basic
import Mathlib.Algebra.BigOperators.Group.List.Basic
import Mathlib.Tactic.NormNum
import Mathlib.Tactic.Positivity
import NoisyDNF.Scalar

namespace NoisyDNF

variable {K : Type} [Field K] [LinearOrder K]

instance (priority := low) exactScalar : Scalar K where
  decidableLT := inferInstance
  decidableLE := inferInstance
  isFinite _ := true
  half := 1 / 2
  tolerance := 1 / 10 ^ 12

namespace Scalar

@[simp]
theorem isDefined_eq_true (a : K) : isDefined a = true := decide_eq_true le_rfl

@[simp]
theorem isFinite_eq_true (a : K) : Scalar.isFinite a = true := rfl

@[simp]
theorem isZero_iff {a : K} : isZero a = true ↔ a = 0 := by
  simp only [isZero, Bool.and_eq_true, decide_eq_true_eq]
  exact ⟨fun h ↦ le_antisymm h.1 h.2, fun h ↦ ⟨h.le, h.ge⟩⟩

@[simp]
theorem larger_eq_max (a b : K) : larger a b = max a b := by
  simp only [larger, isDefined_eq_true, Bool.true_and, Bool.not_eq_true', decide_eq_false_iff_not,
    not_lt]
  split
  · next h => rw [max_eq_right h]
  · next h => rw [max_eq_left (not_le.1 h).le]

theorem clampUnit_of_mem {a : K} (h₀ : 0 ≤ a) (h₁ : a ≤ 1) : clampUnit a = a := by
  rw [clampUnit, if_neg (not_lt.2 h₀), if_neg (not_lt.2 h₁)]

@[simp]
theorem sum_eq_sum (as : List K) : sum as = as.sum := (List.sum_eq_foldl).symm

@[simp]
theorem product_eq_prod (as : List K) : product as = as.prod := (List.prod_eq_foldl).symm

variable [IsStrictOrderedRing K]

@[simp]
theorem magnitude_eq_abs (a : K) : magnitude a = |a| := by
  unfold magnitude
  split
  · next h => rw [abs_of_neg h]
  · next h => rw [abs_of_nonneg (not_lt.1 h)]

theorem tolerance_pos : (0 : K) < tolerance := by
  change (0 : K) < 1 / 10 ^ 12
  positivity

theorem tolerance_le_one : (tolerance : K) ≤ 1 := by
  change (1 / 10 ^ 12 : K) ≤ 1
  rw [div_le_one (by positivity)]
  norm_num

end Scalar

end NoisyDNF
