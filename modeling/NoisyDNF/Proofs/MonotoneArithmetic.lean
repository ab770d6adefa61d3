import Mathlib.Algebra.Order.Field.Basic
import Mathlib.Data.Set.Defs
import Mathlib.Order.Bounds.Defs
import Mathlib.Tactic.Linarith
import NoisyDNF.Proofs.ExactArithmetic
import NoisyDNF.Scenario.Basic

namespace NoisyDNF

open Scenario (isErrorProbability)

class MonotoneScalar (R : Type) [Scalar R] where
  /-- The numbers that likelihoods are computed with. -/
  IsLikelihood : R → Prop
  isLikelihood_zero : IsLikelihood 0
  isLikelihood_one : IsLikelihood 1
  isLikelihood_mul {a b : R} : IsLikelihood a → IsLikelihood b → IsLikelihood (a * b)
  isLikelihood_error {p : R} : isErrorProbability p = true → IsLikelihood p
  isLikelihood_complement {p : R} : isErrorProbability p = true → IsLikelihood (1 - p)
  zero_le {a : R} : IsLikelihood a → 0 ≤ a
  le_total {a b : R} : IsLikelihood a → IsLikelihood b → a ≤ b ∨ b ≤ a
  le_trans {a b c : R} : IsLikelihood a → IsLikelihood b → IsLikelihood c → a ≤ b → b ≤ c → a ≤ c
  lt_iff_not_le {a b : R} : IsLikelihood a → IsLikelihood b → (a < b ↔ ¬ b ≤ a)
  mul_le_mul_left {a b c : R} : IsLikelihood a → IsLikelihood b → IsLikelihood c → a ≤ b →
    c * a ≤ c * b
  mul_le_mul_right {a b c : R} : IsLikelihood a → IsLikelihood b → IsLikelihood c → a ≤ b →
    a * c ≤ b * c
  le_complement {p : R} : isErrorProbability p = true → p ≤ 1 - p

namespace MonotoneScalar

section Laws

variable {R : Type} [Scalar R] [MonotoneScalar R] {a b : R} {as : List R}

theorem le_refl (ha : IsLikelihood a) : a ≤ a := or_self_iff.1 (le_total ha ha)

theorem isZero_eq_false_iff {p : R} (h : isErrorProbability p = true) :
    Scalar.isZero p = false ↔ 0 < p := by
  have hp := isLikelihood_error h
  rw [lt_iff_not_le isLikelihood_zero hp, Scalar.isZero, decide_eq_true (zero_le hp), Bool.and_true,
    decide_eq_false_iff_not]

theorem larger_eq (ha : IsLikelihood a) (hb : IsLikelihood b) :
    Scalar.larger a b = if a ≤ b then b else a := by
  simp only [Scalar.larger, Scalar.isDefined, le_refl hb, lt_iff_not_le hb ha, decide_true,
    Bool.true_and, Bool.not_eq_true', decide_eq_false_iff_not, not_not]

theorem larger_eq_or (ha : IsLikelihood a) (hb : IsLikelihood b) :
    Scalar.larger a b = a ∨ Scalar.larger a b = b := by
  rw [larger_eq ha hb]
  split
  · exact .inr rfl
  · exact .inl rfl

theorem le_larger_left (ha : IsLikelihood a) (hb : IsLikelihood b) : a ≤ Scalar.larger a b := by
  rw [larger_eq ha hb]
  split
  · next h => exact h
  · exact le_refl ha

theorem le_larger_right (ha : IsLikelihood a) (hb : IsLikelihood b) : b ≤ Scalar.larger a b := by
  rw [larger_eq ha hb]
  split
  · exact le_refl hb
  · next h => exact (le_total ha hb).resolve_left h

theorem isLikelihood_larger (ha : IsLikelihood a) (hb : IsLikelihood b) :
    IsLikelihood (Scalar.larger a b) := by
  rcases larger_eq_or ha hb with h | h
  · exact h.symm ▸ ha
  · exact h.symm ▸ hb

theorem larger_zero (ha : IsLikelihood a) : Scalar.larger 0 a = a := by
  rw [larger_eq isLikelihood_zero ha, if_pos (zero_le ha)]

/-- The larger of several likelihoods is the greatest of them. -/
theorem isGreatest_foldl_larger (ha : IsLikelihood a) (h : ∀ b ∈ as, IsLikelihood b) :
    IsGreatest {b | b ∈ a :: as} (as.foldl Scalar.larger a) := by
  induction as generalizing a with
  | nil => exact ⟨List.mem_singleton_self a, fun b hb ↦ (List.mem_singleton.1 hb).symm ▸ le_refl ha⟩
  | cons c as ih =>
    have hc := h c List.mem_cons_self
    have hac := isLikelihood_larger ha hc
    have has : ∀ b ∈ as, IsLikelihood b := fun b hb ↦ h b (List.mem_cons_of_mem c hb)
    obtain ⟨hmem, hle⟩ := ih hac has
    have hfold : IsLikelihood (as.foldl Scalar.larger (Scalar.larger a c)) := by
      rcases List.mem_cons.1 hmem with he | hmem
      · exact he.symm ▸ hac
      · exact has _ hmem
    have hfirst := hle List.mem_cons_self
    rw [List.foldl_cons]
    constructor
    · rcases List.mem_cons.1 hmem with he | hmem
      · rw [he]
        rcases larger_eq_or ha hc with he | he <;> simp [he]
      · exact List.mem_cons_of_mem a (List.mem_cons_of_mem c hmem)
    · intro b hb
      rcases List.mem_cons.1 hb with rfl | hb
      · exact le_trans ha hac hfold (le_larger_left ha hc) hfirst
      rcases List.mem_cons.1 hb with rfl | hb
      · exact le_trans hc hac hfold (le_larger_right ha hc) hfirst
      · exact hle (List.mem_cons_of_mem _ hb)

theorem isGreatest_foldl_larger_zero (has : as ≠ []) (h : ∀ b ∈ as, IsLikelihood b) :
    IsGreatest {b | b ∈ as} (as.foldl Scalar.larger 0) := by
  obtain ⟨a, as, rfl⟩ := List.exists_cons_of_ne_nil has
  have ha := h a List.mem_cons_self
  rw [List.foldl_cons, larger_zero ha]
  exact isGreatest_foldl_larger ha fun b hb ↦ h b (List.mem_cons_of_mem a hb)

section Product

variable {α : Type} {f g : α → R} {xs : List α}

theorem isLikelihood_foldl_mul (ha : IsLikelihood a) (h : ∀ b ∈ as, IsLikelihood b) :
    IsLikelihood (as.foldl (· * ·) a) := by
  induction as generalizing a with
  | nil => exact ha
  | cons b as ih =>
    exact ih (isLikelihood_mul ha (h b List.mem_cons_self)) fun c hc ↦
      h c (List.mem_cons_of_mem b hc)

theorem isLikelihood_product (h : ∀ b ∈ as, IsLikelihood b) : IsLikelihood (Scalar.product as) :=
  isLikelihood_foldl_mul isLikelihood_one h

theorem foldl_mul_le_foldl_mul (ha : IsLikelihood a) (hb : IsLikelihood b) (hab : a ≤ b)
    (hf : ∀ x ∈ xs, IsLikelihood (f x)) (hg : ∀ x ∈ xs, IsLikelihood (g x))
    (hfg : ∀ x ∈ xs, f x ≤ g x) :
    (xs.map f).foldl (· * ·) a ≤ (xs.map g).foldl (· * ·) b := by
  induction xs generalizing a b with
  | nil => exact hab
  | cons x xs ih =>
    have hfx := hf x List.mem_cons_self
    have hgx := hg x List.mem_cons_self
    have hstep : a * f x ≤ b * g x :=
      le_trans (isLikelihood_mul ha hfx) (isLikelihood_mul hb hfx) (isLikelihood_mul hb hgx)
        (mul_le_mul_right ha hb hfx hab) (mul_le_mul_left hfx hgx hb (hfg x List.mem_cons_self))
    exact ih (isLikelihood_mul ha hfx) (isLikelihood_mul hb hgx) hstep
      (fun y hy ↦ hf y (List.mem_cons_of_mem x hy)) (fun y hy ↦ hg y (List.mem_cons_of_mem x hy))
      fun y hy ↦ hfg y (List.mem_cons_of_mem x hy)

theorem product_le_product (hf : ∀ x ∈ xs, IsLikelihood (f x)) (hg : ∀ x ∈ xs, IsLikelihood (g x))
    (hfg : ∀ x ∈ xs, f x ≤ g x) : Scalar.product (xs.map f) ≤ Scalar.product (xs.map g) :=
  foldl_mul_le_foldl_mul isLikelihood_one isLikelihood_one (le_refl isLikelihood_one) hf hg hfg

end Product

end Laws

end MonotoneScalar

variable {K : Type} [Field K] [LinearOrder K]

namespace Scenario

theorem isErrorProbability_iff {p : K} : isErrorProbability p = true ↔ 0 ≤ p ∧ p < 1 / 2 := by
  rw [isErrorProbability, Bool.and_eq_true, decide_eq_true_eq, decide_eq_true_eq]
  exact Iff.rfl

variable [IsStrictOrderedRing K]

theorem isErrorProbability_zero : isErrorProbability (0 : K) = true :=
  isErrorProbability_iff.2 ⟨le_rfl, by norm_num⟩

theorem le_one_sub_of_isErrorProbability {p : K} (h : isErrorProbability p = true) : p ≤ 1 - p := by
  linarith [isErrorProbability_iff.1 h]

end Scenario

instance (priority := low) exactMonotoneScalar [IsStrictOrderedRing K] : MonotoneScalar K where
  IsLikelihood a := 0 ≤ a
  isLikelihood_zero := le_rfl
  isLikelihood_one := zero_le_one
  isLikelihood_mul := mul_nonneg
  isLikelihood_error h := (Scenario.isErrorProbability_iff.1 h).1
  isLikelihood_complement h :=
    (Scenario.isErrorProbability_iff.1 h).1.trans (Scenario.le_one_sub_of_isErrorProbability h)
  zero_le := id
  le_total _ _ := le_total _ _
  le_trans _ _ _ := le_trans
  lt_iff_not_le _ _ := not_le.symm
  mul_le_mul_left _ _ hc h := mul_le_mul_of_nonneg_left h hc
  mul_le_mul_right _ _ hc h := mul_le_mul_of_nonneg_right h hc
  le_complement := Scenario.le_one_sub_of_isErrorProbability

end NoisyDNF
