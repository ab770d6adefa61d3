import NoisyDNF.Proofs.Binary64.Arithmetic
import NoisyDNF.Scenario.Basic

namespace NoisyDNF.Binary64

open Scenario (isErrorProbability)

structure IsProbability (x : Float) : Prop where
  isFinite : x.isFinite = true
  nonneg : 0 ≤ value x
  le_one : value x ≤ 1

variable {x y a : Float} {xs : List Float}

theorem representable_one : Representable 1 := by
  exact_mod_cast representable_intCast (m := 1) (by norm_num)

theorem representable_half_pow {e : ℕ} (he : e ≤ 1074) : Representable (2 ^ (-e : ℤ)) :=
  ⟨1, -e, by norm_num, by omega, by rw [Int.cast_one, one_mul]⟩

theorem isProbability_one : IsProbability 1 :=
  ⟨isFinite_one, value_one ▸ zero_le_one, value_one.le⟩

namespace IsProbability

theorem computes_mul (hx : IsProbability x) (hy : IsProbability y) :
    Computes (value x * value y) (x * y) := by
  refine Binary64.computes_mul hx.isFinite hy.isFinite ?_
  rw [abs_of_nonneg (mul_nonneg hx.nonneg hy.nonneg)]
  exact (mul_le_one₀ hx.le_one hy.nonneg hy.le_one).trans one_le_greatest

theorem mul (hx : IsProbability x) (hy : IsProbability y) : IsProbability (x * y) where
  isFinite := (hx.computes_mul hy).isFinite
  nonneg := (hx.computes_mul hy).isRounding.nonneg (mul_nonneg hx.nonneg hy.nonneg)
  le_one := (hx.computes_mul hy).isRounding.le 1 representable_one
    (mul_le_one₀ hx.le_one hy.nonneg hy.le_one)

theorem value_mul_eq_zero (hx : IsProbability x) (hy : IsProbability y)
    (h : value x = 0 ∨ value y = 0) : value (x * y) = 0 := by
  have hzero := mul_eq_zero.2 h
  rw [(hx.computes_mul hy).value_eq (hzero ▸ representable_zero), hzero]

theorem half_pow_le_value_mul (hx : IsProbability x) (hy : IsProbability y) {d e : ℕ}
    (hd : 2 ^ (-d : ℤ) ≤ value x) (he : 2 ^ (-e : ℤ) ≤ value y) (h : d + e ≤ 1074) :
    2 ^ (-(d + e : ℕ) : ℤ) ≤ value (x * y) := by
  refine (hx.computes_mul hy).isRounding.ge _ (representable_half_pow h) ?_
  calc (2 : ℚ) ^ (-(d + e : ℕ) : ℤ) = 2 ^ (-d : ℤ) * 2 ^ (-e : ℤ) := by
        rw [← zpow_add₀ two_ne_zero]
        congr 1
        omega
    _ ≤ value x * value y := mul_le_mul hd he (zpow_pos two_pos _).le hx.nonneg

theorem value_foldl_eq_zero (ha : IsProbability a) (h : ∀ x ∈ xs, IsProbability x)
    (hzero : value a = 0 ∨ ∃ x ∈ xs, value x = 0) : value (xs.foldl (· * ·) a) = 0 := by
  induction xs generalizing a with
  | nil => exact hzero.resolve_right (by simp)
  | cons x xs ih =>
    have hx := h x List.mem_cons_self
    refine ih (ha.mul hx) (fun y hy ↦ h y (List.mem_cons_of_mem x hy)) ?_
    rcases hzero with hz | ⟨y, hy, hz⟩
    · exact .inl (ha.value_mul_eq_zero hx (.inl hz))
    · rcases List.mem_cons.1 hy with rfl | hy
      · exact .inl (ha.value_mul_eq_zero hx (.inr hz))
      · exact .inr ⟨y, hy, hz⟩

theorem half_pow_le_value_foldl (ha : IsProbability a) (h : ∀ x ∈ xs, IsProbability x) {d e : ℕ}
    (hd : 2 ^ (-d : ℤ) ≤ value a) (he : ∀ x ∈ xs, 2 ^ (-e : ℤ) ≤ value x)
    (hlen : d + e * xs.length ≤ 1074) :
    2 ^ (-(d + e * xs.length : ℕ) : ℤ) ≤ value (xs.foldl (· * ·) a) := by
  induction xs generalizing a d with
  | nil => exact hd
  | cons x xs ih =>
    have hx := h x List.mem_cons_self
    rw [List.length_cons, Nat.mul_succ, Nat.add_comm (e * _), ← Nat.add_assoc] at hlen ⊢
    exact ih (ha.mul hx) (fun y hy ↦ h y (List.mem_cons_of_mem x hy))
      (ha.half_pow_le_value_mul hx hd (he x List.mem_cons_self) (by omega))
      (fun y hy ↦ he y (List.mem_cons_of_mem x hy)) hlen

end IsProbability

theorem value_mem_of_isErrorProbability (h : isErrorProbability x = true) :
    x.isFinite = true ∧ 0 ≤ value x ∧ value x < 1 / 2 := by
  rw [isErrorProbability, Bool.and_eq_true, decide_eq_true_eq, decide_eq_true_eq] at h
  have hx := isFinite_of_le_of_le isFinite_zero isFinite_half h.1 (Binary64.le_of_lt h.2)
  rw [le_iff isFinite_zero hx, lt_iff hx isFinite_half, value_zero, value_half] at h
  exact ⟨hx, h⟩

theorem isProbability_of_isErrorProbability (h : isErrorProbability x = true) : IsProbability x := by
  obtain ⟨hx, h₀, h₁⟩ := value_mem_of_isErrorProbability h
  exact ⟨hx, h₀, by linarith⟩

/-- An error probability is too small for its complement to be rounded below one half. -/
theorem half_le_value_one_sub (h : isErrorProbability x = true) :
    IsProbability (1 - x) ∧ 1 / 2 ≤ value (1 - x) := by
  obtain ⟨hx, h₀, h₁⟩ := value_mem_of_isErrorProbability h
  have hle : |value 1 - value x| ≤ 1 := by
    rw [value_one, abs_le]
    constructor <;> linarith
  have hc := computes_sub isFinite_one hx (hle.trans one_le_greatest)
  have hhalf : 1 / 2 ≤ value (1 - x) := by
    refine hc.isRounding.ge _ ?_ (by rw [value_one]; linarith)
    simpa using representable_half_pow (e := 1) (by norm_num)
  exact ⟨⟨hc.isFinite, by linarith, hc.isRounding.le 1 representable_one (abs_le.1 hle).2⟩, hhalf⟩

end NoisyDNF.Binary64
