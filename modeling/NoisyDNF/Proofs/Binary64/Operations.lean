import NoisyDNF.Proofs.Binary64.Rounding
import Mathlib.Order.Compare

namespace NoisyDNF.Binary64

open Float.Model Float.Model.UnpackedFloat

variable {u w : UnpackedFloat}

structure IsNumber (u : UnpackedFloat) : Prop where
  canonical : Canonical u
  isFinite : u.isFinite = true

theorem IsNumber.roundsTo (h : IsNumber u) : RoundsTo (unpackedValue u) u :=
  ⟨h.canonical, h.isFinite, .of_representable (representable_unpackedValue h.canonical)⟩

theorem unpackedValue_zero (s : Sign) : unpackedValue (.zero s) = 0 := rfl

theorem roundsTo_zero (s : Sign) : RoundsTo 0 (.zero s) :=
  ⟨trivial, rfl, .of_representable representable_zero⟩

theorem apply_neg (s : Sign) (n : ℤ) : (-s).apply n = -s.apply n := by
  cases s
  · exact (neg_neg n).symm
  · rfl

theorem apply_mul (s t : Sign) (a b : ℤ) : (s * t).apply (a * b) = s.apply a * t.apply b := by
  cases s <;> cases t
  · exact (neg_mul_neg a b).symm
  · exact (neg_mul a b).symm
  · exact (mul_neg a b).symm
  · rfl

theorem apply_decreaseExponent (s : Sign) (m : ℕ) {e f : ℤ} (h : f ≤ e) :
    (s.apply (decreaseExponent m e f).1 : ℚ) * 2 ^ f = s.apply m * 2 ^ e := by
  obtain ⟨j, rfl⟩ := Int.le.dest h
  have hj : (f + (j : ℤ) - f).toNat = j := by omega
  rw [decreaseExponent, hj, zpow_add₀ two_ne_zero, zpow_natCast, Nat.shiftLeft_eq]
  cases s <;> simp only [Sign.apply] <;> push_cast <;> ring

theorem canonical_neg (h : Canonical u) : Canonical u.neg := by
  cases u <;> exact h

theorem unpackedValue_neg (u : UnpackedFloat) : unpackedValue u.neg = -unpackedValue u := by
  cases u with
  | finite s m e hm =>
    rw [UnpackedFloat.neg, unpackedValue, unpackedValue, apply_neg, Int.cast_neg, neg_mul]
  | infinity | notANumber | zero => exact neg_zero.symm

theorem IsNumber.neg (h : IsNumber u) : IsNumber u.neg :=
  ⟨canonical_neg h.canonical, by cases u <;> exact h.isFinite⟩

theorem roundsTo_add (hu : IsNumber u) (hw : IsNumber w) :
    RoundsTo (unpackedValue u + unpackedValue w) (UnpackedFloat.add .binary64 u w) := by
  cases u with
  | infinity | notANumber => cases hu.isFinite
  | zero s =>
    rw [unpackedValue_zero, zero_add]
    cases w with
    | infinity | notANumber => cases hw.isFinite
    | zero t =>
      simp only [UnpackedFloat.add]
      split <;> exact roundsTo_zero _
    | finite t m e hm => exact hw.roundsTo
  | finite s m e hm =>
    cases w with
    | infinity | notANumber => cases hw.isFinite
    | zero t =>
      rw [unpackedValue_zero, add_zero]
      exact hu.roundsTo
    | finite t m' e' hm' =>
      rw [unpackedValue, unpackedValue, ← apply_decreaseExponent s m (min_le_left e e'),
        ← apply_decreaseExponent t m' (min_le_right e e'), ← add_mul, ← Int.cast_add]
      exact roundsTo_normalize _ _ _

theorem roundsTo_sub (hu : IsNumber u) (hw : IsNumber w) :
    RoundsTo (unpackedValue u - unpackedValue w) (UnpackedFloat.sub .binary64 u w) := by
  cases u with
  | infinity | notANumber => cases hu.isFinite
  | zero s =>
    rw [unpackedValue_zero, zero_sub, ← unpackedValue_neg]
    cases w with
    | infinity | notANumber => cases hw.isFinite
    | zero t =>
      simp only [UnpackedFloat.sub]
      split <;> exact roundsTo_zero _
    | finite t m e hm => exact hw.neg.roundsTo
  | finite s m e hm =>
    cases w with
    | infinity | notANumber => cases hw.isFinite
    | zero t =>
      rw [unpackedValue_zero, sub_zero]
      exact hu.roundsTo
    | finite t m' e' hm' =>
      rw [unpackedValue, unpackedValue, ← apply_decreaseExponent s m (min_le_left e e'),
        ← apply_decreaseExponent t m' (min_le_right e e'), ← sub_mul, ← Int.cast_sub]
      exact roundsTo_normalize _ _ _

/-- A product of two mantissas has bits enough, or both exponents are the least one. -/
theorem Stored.add_le_targetExponent {m m' : ℕ} {e e' : ℤ} (h : Stored m e) (h' : Stored m' e')
    (hm : 0 < m) (hm' : 0 < m') :
    e + e' ≤ Format.binary64.targetExponent (totalExponent (m * m') (e + e')) := by
  rw [targetExponent_eq]
  by_cases hn : 2 ^ 52 ≤ m * m'
  · have := (Nat.le_log2 (Nat.mul_pos hm hm').ne').2 hn
    omega
  · have he : e = -1074 := h.normal.resolve_left fun hle ↦ hn (hle.trans (Nat.le_mul_of_pos_right m hm'))
    have := h'.normal.resolve_left fun hle ↦ hn (hle.trans (Nat.le_mul_of_pos_left m' hm))
    omega

theorem roundsTo_mul (hu : IsNumber u) (hw : IsNumber w) :
    RoundsTo (unpackedValue u * unpackedValue w) (UnpackedFloat.mul .binary64 u w) := by
  cases u with
  | infinity | notANumber => cases hu.isFinite
  | zero s =>
    rw [unpackedValue_zero, zero_mul]
    cases w with
    | infinity | notANumber => cases hw.isFinite
    | zero | finite => exact roundsTo_zero _
  | finite s m e hm =>
    cases w with
    | infinity | notANumber => cases hw.isFinite
    | zero t =>
      rw [unpackedValue_zero, mul_zero]
      exact roundsTo_zero _
    | finite t m' e' hm' =>
      have hval : unpackedValue (.finite s m e hm) * unpackedValue (.finite t m' e' hm') =
          (s * t).apply (m * m' : ℕ) * 2 ^ (e + e') := by
        rw [unpackedValue, unpackedValue, Nat.cast_mul, apply_mul, Int.cast_mul,
          zpow_add₀ two_ne_zero]
        ring
      rw [hval]
      exact roundsTo_roundWithAccuracy _ (Nat.mul_pos hm hm')
        (Stored.add_le_targetExponent hu.canonical hw.canonical hm hm')

theorem Stored.lt_of_exponent_lt {m m' : ℕ} {e e' : ℤ} (h : Stored m e) (h' : Stored m' e')
    (he : e < e') : (m : ℚ) * 2 ^ e < m' * 2 ^ e' := by
  have hm' : 2 ^ 52 ≤ m' := h'.normal.resolve_right (by have := h.le_exponent; omega)
  calc (m : ℚ) * 2 ^ e < 2 ^ 53 * 2 ^ e :=
        mul_lt_mul_of_pos_right (by exact_mod_cast h.lt) (zpow_pos two_pos e)
    _ = 2 ^ 52 * 2 ^ (e + 1) := by rw [zpow_add_one₀ two_ne_zero]; ring
    _ ≤ m' * 2 ^ e' := mul_le_mul (by exact_mod_cast hm')
        (zpow_le_zpow_right₀ one_le_two (by omega)) (zpow_pos two_pos _).le (Nat.cast_nonneg _)

theorem Stored.compares {m m' : ℕ} {e e' : ℤ} (h : Stored m e) (h' : Stored m' e') :
    ((compare e e').then (compare m m')).Compares ((m : ℚ) * 2 ^ e) (m' * 2 ^ e') := by
  rcases lt_trichotomy e e' with he | rfl | he
  · rw [compare_lt_iff_lt.2 he]
    exact h.lt_of_exponent_lt h' he
  · have hpos : (0 : ℚ) < 2 ^ e := zpow_pos two_pos e
    rw [compare_eq_iff_eq.2 rfl]
    rcases lt_trichotomy m m' with hm | rfl | hm
    · rw [compare_lt_iff_lt.2 hm]
      exact mul_lt_mul_of_pos_right (by exact_mod_cast hm) hpos
    · rw [compare_eq_iff_eq.2 rfl]
      exact Eq.refl _
    · rw [compare_gt_iff_gt.2 hm]
      exact mul_lt_mul_of_pos_right (by exact_mod_cast hm) hpos
  · rw [compare_gt_iff_gt.2 he]
    exact h'.lt_of_exponent_lt h he

theorem unpackedValue_negative {m : ℕ} {e : ℤ} (hm : 0 < m) :
    unpackedValue (.finite .negative m e hm) = -(m * 2 ^ e) := by
  rw [unpackedValue, Sign.apply, Int.cast_neg, Int.cast_natCast, neg_mul]

theorem unpackedValue_positive {m : ℕ} {e : ℤ} (hm : 0 < m) :
    unpackedValue (.finite .positive m e hm) = m * 2 ^ e := by
  rw [unpackedValue, Sign.apply, Int.cast_natCast]

theorem mul_zpow_pos {m : ℕ} (hm : 0 < m) (e : ℤ) : (0 : ℚ) < m * 2 ^ e :=
  mul_pos (by exact_mod_cast hm) (zpow_pos two_pos e)

theorem exists_compare_finite (s t : Sign) {m m' : ℕ} {e e' : ℤ} (hm : 0 < m) (hm' : 0 < m')
    (h : ((compare e e').then (compare m m')).Compares ((m : ℚ) * 2 ^ e) (m' * 2 ^ e')) :
    ∃ o, (UnpackedFloat.finite s m e hm).compare (.finite t m' e' hm') = some o ∧
      o.Compares (unpackedValue (.finite s m e hm)) (unpackedValue (.finite t m' e' hm')) := by
  have hp := mul_zpow_pos hm e
  have hp' := mul_zpow_pos hm' e'
  cases s with
  | negative =>
    rw [unpackedValue_negative]
    cases t with
    | negative =>
      refine ⟨_, rfl, ?_⟩
      rw [unpackedValue_negative]
      cases ho : (compare e e').then (compare m m') <;> rw [ho] at h
      · exact neg_lt_neg h
      · exact congrArg Neg.neg h
      · exact neg_lt_neg h
    | positive =>
      refine ⟨.lt, rfl, ?_⟩
      rw [unpackedValue_positive]
      exact (neg_neg_of_pos hp).trans hp'
  | positive =>
    rw [unpackedValue_positive]
    cases t with
    | negative =>
      refine ⟨.gt, rfl, ?_⟩
      rw [unpackedValue_negative]
      exact (neg_neg_of_pos hp').trans hp
    | positive =>
      rw [unpackedValue_positive]
      exact ⟨_, rfl, h⟩

theorem exists_compare_eq (hu : IsNumber u) (hw : IsNumber w) :
    ∃ o, u.compare w = some o ∧ o.Compares (unpackedValue u) (unpackedValue w) := by
  cases u with
  | infinity | notANumber => cases hu.isFinite
  | zero s =>
    cases w with
    | infinity | notANumber => cases hw.isFinite
    | zero t => exact ⟨.eq, rfl, rfl⟩
    | finite t m e hm =>
      have hp := mul_zpow_pos hm e
      cases t with
      | negative => exact ⟨.gt, rfl, (unpackedValue_negative hm).trans_lt (neg_neg_of_pos hp)⟩
      | positive => exact ⟨.lt, rfl, hp.trans_eq (unpackedValue_positive hm).symm⟩
  | finite s m e hm =>
    cases w with
    | infinity | notANumber => cases hw.isFinite
    | zero t =>
      have hp := mul_zpow_pos hm e
      cases s with
      | negative => exact ⟨.lt, rfl, (unpackedValue_negative hm).trans_lt (neg_neg_of_pos hp)⟩
      | positive => exact ⟨.gt, rfl, hp.trans_eq (unpackedValue_positive hm).symm⟩
    | finite t m' e' hm' =>
      exact exists_compare_finite s t hm hm' (Stored.compares hu.canonical hw.canonical)

end NoisyDNF.Binary64
