import Mathlib

namespace NoisyDNF.Binary64

open Float.Model Float.Model.UnpackedFloat

/-- The finite numbers of the format, were there no greatest exponent. -/
def Representable (x : ℚ) : Prop := ∃ m e : ℤ, |m| ≤ 2 ^ 53 ∧ -1074 ≤ e ∧ x = m * 2 ^ e

theorem Representable.neg {x : ℚ} (h : Representable x) : Representable (-x) := by
  obtain ⟨m, e, hm, he, rfl⟩ := h
  exact ⟨-m, e, by rwa [abs_neg], he, by push_cast; ring⟩

theorem representable_intCast {m : ℤ} (h : |m| ≤ 2 ^ 53) : Representable m :=
  ⟨m, 0, h, by norm_num, by simp⟩

theorem representable_zero : Representable 0 := ⟨0, 0, by norm_num, by norm_num, by simp⟩

structure IsRounding (x v : ℚ) : Prop where
  representable : Representable v
  nearest : ∀ y, Representable y → |v - x| ≤ |y - x|

namespace IsRounding

variable {x v y w : ℚ}

theorem le (h : IsRounding x v) (y : ℚ) (hy : Representable y) (hxy : x ≤ y) : v ≤ y := by
  have hle := (le_abs_self _).trans (h.nearest y hy)
  rw [abs_of_nonneg (sub_nonneg.2 hxy)] at hle
  linarith

theorem ge (h : IsRounding x v) (y : ℚ) (hy : Representable y) (hyx : y ≤ x) : y ≤ v := by
  have hle := (neg_le_abs _).trans (h.nearest y hy)
  rw [abs_of_nonpos (sub_nonpos.2 hyx)] at hle
  linarith

theorem le_of_lt (h : IsRounding x v) (h' : IsRounding y w) (hxy : x < y) : v ≤ w := by
  by_contra! hwv
  -- Otherwise exchanging `v` and `w` would bring one of them nearer.
  have hx := sq_le_sq.2 (h.nearest w h'.representable)
  have hy := sq_le_sq.2 (h'.nearest v h.representable)
  have hpos := mul_pos (sub_pos.2 hwv) (sub_pos.2 hxy)
  linarith

theorem neg (h : IsRounding x v) : IsRounding (-x) (-v) where
  representable := h.representable.neg
  nearest y hy := by
    rw [← neg_add', ← sub_eq_add_neg, abs_neg, sub_neg_eq_add, ← abs_neg (y + x), neg_add']
    exact h.nearest (-y) hy.neg

theorem of_representable (h : Representable x) : IsRounding x x :=
  ⟨h, fun y _ ↦ by rw [sub_self, abs_zero]; exact abs_nonneg (y - x)⟩

theorem eq (h : IsRounding x v) (hx : Representable x) : v = x :=
  le_antisymm (h.le x hx le_rfl) (h.ge x hx le_rfl)

theorem nonneg (h : IsRounding x v) (hx : 0 ≤ x) : 0 ≤ v := h.ge 0 representable_zero hx

theorem abs_value_le (h : IsRounding x v) {y : ℚ} (hy : Representable y) (hx : |x| ≤ y) : |v| ≤ y :=
  abs_le.2 ⟨h.ge _ hy.neg (abs_le.1 hx).1, h.le y hy (abs_le.1 hx).2⟩

/-- Rounding adds little to numbers of moderate size. -/
theorem le_add (h : IsRounding x v) {M : ℚ} (hM : 1 ≤ M) (hx : |x| ≤ 2 * M) : v ≤ x + M / 2 ^ 38 := by
  obtain ⟨P, hP, hP'⟩ := exists_mem_Ico_zpow (zero_lt_one.trans_le hM) (one_lt_two : (1 : ℚ) < 2)
  have hP0 : 0 ≤ P := by
    by_contra hneg
    have hle : (2 : ℚ) ^ (P + 1) ≤ 2 ^ (0 : ℤ) := zpow_le_zpow_right₀ one_le_two (by omega)
    rw [zpow_zero] at hle
    exact absurd (hM.trans_lt hP') (not_lt.2 hle)
  have hstep : (2 : ℚ) ^ (P - 38) = 2 ^ P / 2 ^ 38 := by
    rw [zpow_sub₀ two_ne_zero]
    norm_num
  have hpos : (0 : ℚ) < 2 ^ (P - 38) := zpow_pos two_pos _
  -- The next point of a grid that is fine against `M` and whose points are representable up to `2 M`.
  have hle : x ≤ ⌈x / 2 ^ (P - 38)⌉ * 2 ^ (P - 38) := (div_le_iff₀ hpos).1 (Int.le_ceil _)
  have hlt : (⌈x / 2 ^ (P - 38)⌉ : ℚ) * 2 ^ (P - 38) < x + 2 ^ (P - 38) := by
    have hceil := mul_lt_mul_of_pos_right (Int.ceil_lt_add_one (x / 2 ^ (P - 38))) hpos
    rwa [add_mul, one_mul, div_mul_cancel₀ _ hpos.ne'] at hceil
  refine (h.le _ ⟨⌈x / 2 ^ (P - 38)⌉, P - 38, ?_, by omega, rfl⟩ hle).trans (hlt.le.trans ?_)
  · have hsmall : |x / 2 ^ (P - 38)| ≤ 2 ^ 40 := by
      rw [abs_div, abs_of_pos hpos, div_le_iff₀ hpos, hstep]
      rw [zpow_add_one₀ two_ne_zero] at hP'
      refine hx.trans ?_
      have heq : (2 : ℚ) ^ 40 * (2 ^ P / 2 ^ 38) = 2 * (2 ^ P * 2) := by ring
      linarith
    obtain ⟨hlo, hhi⟩ := abs_le.1 hsmall
    have hup : ⌈x / 2 ^ (P - 38)⌉ ≤ 2 ^ 40 := Int.ceil_le.2 (by exact_mod_cast hhi)
    have hlow : -2 ^ 40 ≤ ⌈x / 2 ^ (P - 38)⌉ := by
      have := hlo.trans (Int.le_ceil _)
      exact_mod_cast this
    rw [abs_le]
    omega
  · rw [hstep]
    exact add_le_add_right (div_le_div_of_nonneg_right hP (by positivity)) x

end IsRounding

structure Stored (m : ℕ) (e : ℤ) : Prop where
  lt : m < 2 ^ 53
  le_exponent : -1074 ≤ e
  normal : 2 ^ 52 ≤ m ∨ e = -1074

def Canonical : UnpackedFloat → Prop
  | .finite _ m e _ => Stored m e
  | _ => True

def unpackedValue : UnpackedFloat → ℚ
  | .finite s m e _ => s.apply m * 2 ^ e
  | _ => 0

theorem representable_unpackedValue {u : UnpackedFloat} (h : Canonical u) :
    Representable (unpackedValue u) := by
  cases u with
  | finite s m e hm =>
    have hlt : m < 2 ^ 53 := h.lt
    refine ⟨s.apply m, e, ?_, h.le_exponent, rfl⟩
    cases s <;> simp only [Sign.apply, abs_neg, Nat.abs_cast] <;> omega
  | infinity | notANumber | zero => exact representable_zero

theorem shiftRight_succ (em : ExtendedMantissa) (k : ℕ) :
    em >>> (k + 1) = (em >>> k).shiftRightOne := rfl

theorem shiftRight_succ_eq (m k : ℕ) :
    ExtendedMantissa.ofMantissaAndAccuracy m .exact >>> (k + 1) =
      ⟨m / 2 ^ (k + 1), m / 2 ^ k % 2 != 0, m % 2 ^ k != 0⟩ := by
  induction k with
  | zero =>
    rw [shiftRight_succ]
    simp [HShiftRight.hShiftRight, Nat.repeat, ExtendedMantissa.shiftRightOne,
      ExtendedMantissa.ofMantissaAndAccuracy, Nat.mod_one]
  | succ k ih =>
    have hmod : m % 2 ^ (k + 1) = m % 2 ^ k + 2 ^ k * (m / 2 ^ k % 2) := by
      rw [pow_succ, Nat.mod_mul]
    rw [shiftRight_succ, ih, ExtendedMantissa.shiftRightOne, Nat.div_div_eq_div_mul, ← pow_succ, hmod]
    congr 1
    rw [Bool.eq_iff_iff]
    simp only [Bool.or_eq_true, bne_iff_ne, ne_eq, Nat.add_eq_zero_iff, mul_eq_zero,
      (Nat.two_pow_pos k).ne', false_or]
    tauto

def rounded (m k : ℕ) : ℕ :=
  (ExtendedMantissa.ofMantissaAndAccuracy m .exact >>> k).roundedMantissa

/-- The mantissa is rounded down only when at most half a step is lost, and up only when at least half a step
is. -/
theorem rounded_succ_eq_or (m k : ℕ) :
    rounded m (k + 1) = m / 2 ^ (k + 1) ∧ m % 2 ^ (k + 1) ≤ 2 ^ k ∨
      rounded m (k + 1) = m / 2 ^ (k + 1) + 1 ∧ 2 ^ k ≤ m % 2 ^ (k + 1) := by
  have hmod : m % 2 ^ (k + 1) = m % 2 ^ k + 2 ^ k * (m / 2 ^ k % 2) := by
    rw [pow_succ, Nat.mod_mul]
  have hlt : m % 2 ^ k < 2 ^ k := Nat.mod_lt m (Nat.two_pow_pos k)
  rw [rounded, shiftRight_succ_eq, hmod]
  generalize m / 2 ^ (k + 1) = q
  generalize m % 2 ^ k = r at hlt
  simp only [ExtendedMantissa.roundedMantissa]
  rcases Nat.mod_two_eq_zero_or_one (m / 2 ^ k) with hb | hb
  · left
    rw [hb]
    refine ⟨?_, by omega⟩
    cases r != 0 <;> rfl
  · rw [hb, mul_one]
    by_cases hr : r = 0
    · subst hr
      rw [zero_add]
      rcases Nat.mod_two_eq_zero_or_one q with hq | hq
      · exact .inl ⟨congrArg (q + ·) hq, le_rfl⟩
      · exact .inr ⟨congrArg (q + ·) hq, le_rfl⟩
    · right
      rw [bne_iff_ne.2 hr]
      exact ⟨rfl, by omega⟩

/-- Rounding a mantissa moves it by half a step of the coarser grid at most. -/
theorem rounded_near (m k : ℕ) :
    2 * (rounded m k * 2 ^ k) ≤ 2 * m + 2 ^ k ∧ 2 * m ≤ 2 * (rounded m k * 2 ^ k) + 2 ^ k := by
  obtain - | k := k
  · have hm : rounded m 0 = m := rfl
    omega
  · have hm := Nat.div_add_mod' m (2 ^ (k + 1))
    have hpow : 2 ^ (k + 1) = 2 * 2 ^ k := pow_succ' 2 k
    rcases rounded_succ_eq_or m k with ⟨h, hr⟩ | ⟨h, hr⟩
    · rw [h]
      omega
    · rw [h, add_mul, one_mul]
      omega

theorem rounded_le {m c k : ℕ} (h : m ≤ c * 2 ^ k) : rounded m k ≤ c := by
  by_contra! hlt
  have hmul := Nat.mul_le_mul_right (2 ^ k) hlt
  rw [Nat.succ_mul] at hmul
  have := (rounded_near m k).1
  have := Nat.two_pow_pos k
  omega

theorem le_rounded {m c k : ℕ} (h : c * 2 ^ k ≤ m) : c ≤ rounded m k := by
  by_contra! hlt
  have hmul := Nat.mul_le_mul_right (2 ^ k) hlt
  rw [Nat.succ_mul] at hmul
  have := (rounded_near m k).2
  have := Nat.two_pow_pos k
  omega

theorem abs_rounded_sub_le (m k : ℕ) (c : ℤ) :
    |(rounded m k : ℤ) * 2 ^ k - m| ≤ |c * 2 ^ k - m| := by
  have hpos : (0 : ℤ) < 2 ^ k := by positivity
  obtain ⟨hle, hge⟩ := rounded_near m k
  zify at hle hge
  rcases lt_trichotomy c (rounded m k) with hc | rfl | hc
  · have hmul := mul_le_mul_of_nonneg_right (Int.add_one_le_iff.2 hc) hpos.le
    rw [add_mul, one_mul] at hmul
    exact (abs_le.2 ⟨by omega, by omega⟩).trans (neg_le_abs _)
  · exact le_rfl
  · have hmul := mul_le_mul_of_nonneg_right (Int.add_one_le_iff.2 hc) hpos.le
    rw [add_mul, one_mul] at hmul
    exact (abs_le.2 ⟨by omega, by omega⟩).trans (le_abs_self _)

theorem targetExponent_eq (m : ℕ) (e : ℤ) :
    Format.binary64.targetExponent (totalExponent m e) = max (m.log2 + e - 52) (-1074) := by
  simp only [Format.targetExponent, totalExponent, Format.mantissaBits, Format.minExponent]
  norm_num
  omega

section Shift

variable {m k : ℕ} {e : ℤ}

theorem shiftToTargetExponent_eq
    (h : Format.binary64.targetExponent (totalExponent m e) = e + k) :
    shiftToTargetExponent Format.binary64 m e .exact =
      (ExtendedMantissa.ofMantissaAndAccuracy m .exact >>> k, e + k) := by
  have hk : (e + (k : ℤ) - e).toNat = k := by omega
  simp only [shiftToTargetExponent, shiftToExponent, h, hk]

/-- Rounding may carry into one more bit, which a second shift removes without loss. -/
theorem shiftToTargetExponent_carry (hm : m ≤ 2 ^ 53) (he : -1074 ≤ e) :
    shiftToTargetExponent Format.binary64 m e .exact =
      if m < 2 ^ 53 then (⟨m, false, false⟩, e) else (⟨2 ^ 52, false, false⟩, e + 1) := by
  split
  · next hlt =>
    have hlog : m.log2 ≤ 52 := by
      by_cases hz : m = 0
      · simp [hz]
      · have := (Nat.log2_lt hz).2 hlt
        omega
    have ht : (Format.binary64.targetExponent (totalExponent m e) - e).toNat = 0 := by
      rw [targetExponent_eq]
      omega
    simp only [shiftToTargetExponent, shiftToExponent, ht]
    simp [ExtendedMantissa.ofMantissaAndAccuracy, HShiftRight.hShiftRight, Nat.repeat]
  · next hlt =>
    obtain rfl : m = 2 ^ 53 := by omega
    have ht : Format.binary64.targetExponent (totalExponent (2 ^ 53) e) = e + (1 : ℕ) := by
      rw [targetExponent_eq, Nat.log2_two_pow]
      omega
    rw [shiftToTargetExponent_eq ht]
    rfl

theorem mul_zpow_add (c : ℤ) (k : ℕ) (e : ℤ) : (c : ℚ) * 2 ^ (e + k) = (c * 2 ^ k : ℤ) * 2 ^ e := by
  rw [zpow_add₀ two_ne_zero, zpow_natCast]
  push_cast
  ring

theorem mul_zpow_le_iff {c : ℤ} : (c : ℚ) * 2 ^ (e + k) ≤ m * 2 ^ e ↔ c * 2 ^ k ≤ m := by
  rw [mul_zpow_add, mul_le_mul_iff_left₀ (zpow_pos two_pos e)]
  norm_cast

theorem abs_mul_zpow_sub (c : ℤ) :
    |(c : ℚ) * 2 ^ (e + k) - m * 2 ^ e| = ((|c * 2 ^ k - m| : ℤ) : ℚ) * 2 ^ e := by
  rw [mul_zpow_add, ← sub_mul, abs_mul, abs_of_pos (zpow_pos (two_pos : (0 : ℚ) < 2) e)]
  norm_cast

/-- No point of the coarser grid is nearer than the rounded one. -/
theorem abs_rounded_mul_zpow_sub_le (m k : ℕ) (e c : ℤ) :
    |(rounded m k : ℚ) * 2 ^ (e + k) - m * 2 ^ e| ≤ |(c : ℚ) * 2 ^ (e + k) - m * 2 ^ e| := by
  have hrounded := abs_mul_zpow_sub (m := m) (k := k) (e := e) (rounded m k)
  rw [Int.cast_natCast] at hrounded
  rw [hrounded, abs_mul_zpow_sub]
  exact mul_le_mul_of_nonneg_right (by exact_mod_cast abs_rounded_sub_le m k c) (zpow_pos two_pos e).le

/-- A representable number is on the grid, or no more than `2 ^ 52` of its steps above zero. -/
theorem Representable.eq_or_le {y : ℚ} (hy : Representable y) (f : ℤ) :
    (∃ c : ℤ, y = c * 2 ^ f) ∨ y ≤ (2 ^ 52 : ℤ) * 2 ^ f ∧ f ≠ -1074 := by
  obtain ⟨c, d, hc, hd, rfl⟩ := hy
  by_cases hfd : f ≤ d
  · obtain ⟨j, rfl⟩ := Int.le.dest hfd
    exact .inl ⟨c * 2 ^ j, mul_zpow_add c j f⟩
  · refine .inr ⟨?_, by omega⟩
    have hc' : (c : ℚ) ≤ 2 ^ 53 := by exact_mod_cast (le_abs_self c).trans hc
    calc (c : ℚ) * 2 ^ d ≤ 2 ^ 53 * 2 ^ (f - 1) := by
          refine mul_le_mul hc' (zpow_le_zpow_right₀ one_le_two (by omega)) ?_ (by positivity)
          exact (zpow_pos two_pos d).le
      _ = (2 ^ 52 : ℤ) * 2 ^ f := by
          rw [zpow_sub_one₀ two_ne_zero]
          push_cast
          ring

variable (h : Format.binary64.targetExponent (totalExponent m e) = e + k)
include h

theorem le_mul_two_pow : m ≤ 2 ^ 53 * 2 ^ k := by
  rw [targetExponent_eq] at h
  have hlt : m < 2 ^ (m.log2 + 1) := Nat.lt_log2_self
  rw [← pow_add]
  exact hlt.le.trans (Nat.pow_le_pow_right two_pos (by omega))

variable (hm : 0 < m)
include hm

theorem mul_two_pow_le (he : e + k ≠ -1074) : 2 ^ 52 * 2 ^ k ≤ m := by
  rw [targetExponent_eq] at h
  rw [← pow_add]
  exact (Nat.pow_le_pow_right two_pos (by omega)).trans (Nat.log2_self_le hm.ne')

theorem roundWithAccuracy_eq (s : Sign) :
    Canonical (roundWithAccuracy Format.binary64 s m e .exact) ∧
      unpackedValue (roundWithAccuracy Format.binary64 s m e .exact) =
        s.apply (rounded m k) * 2 ^ (e + k) := by
  have hle : rounded m k ≤ 2 ^ 53 := rounded_le (le_mul_two_pow h)
  have hexp : -1074 ≤ e + k := by
    rw [← h, targetExponent_eq]
    exact le_max_right _ _
  have hnormal : 2 ^ 52 ≤ rounded m k ∨ e + k = -1074 :=
    or_iff_not_imp_right.2 fun he ↦ le_rounded (mul_two_pow_le h hm he)
  have hr : (ExtendedMantissa.ofMantissaAndAccuracy m .exact >>> k).roundedMantissa = rounded m k := rfl
  have hcarry := shiftToTargetExponent_carry hle hexp
  rw [roundWithAccuracy, shiftToTargetExponent_eq h]
  by_cases hlt : rounded m k < 2 ^ 53
  · simp only [hr, hcarry, if_pos hlt]
    by_cases hz : rounded m k = 0
    · cases s <;> simp [Canonical, unpackedValue, hz, Sign.apply]
    · rw [dif_neg hz]
      exact ⟨⟨hlt, hexp, hnormal⟩, rfl⟩
  · have hmax : rounded m k = 2 ^ 53 := by omega
    simp only [hr, hcarry, if_neg hlt]
    refine ⟨⟨by norm_num, by omega, .inl le_rfl⟩, ?_⟩
    rw [dif_neg (by norm_num), unpackedValue, hmax, zpow_add_one₀ two_ne_zero]
    cases s <;> simp only [Sign.apply] <;> push_cast <;> ring

/-- Rounding a mantissa to a grid leaves no representable number in between. -/
theorem isRounding_rounded : IsRounding (m * 2 ^ e) (rounded m k * 2 ^ (e + k)) := by
  have hle : rounded m k ≤ 2 ^ 53 := rounded_le (le_mul_two_pow h)
  have hexp : -1074 ≤ e + k := by
    rw [← h, targetExponent_eq]
    exact le_max_right _ _
  have hmin (he : e + k ≠ -1074) : ((2 ^ 52 : ℤ) : ℚ) * 2 ^ (e + k) ≤ m * 2 ^ e :=
    mul_zpow_le_iff.2 (by exact_mod_cast mul_two_pow_le h hm he)
  refine ⟨⟨rounded m k, e + k, ?_, hexp, by norm_num⟩, ?_⟩
  · rw [Nat.abs_cast]
    exact_mod_cast hle
  · intro y hy
    rcases hy.eq_or_le (e + k) with ⟨c, rfl⟩ | ⟨hyle, he⟩
    · exact abs_rounded_mul_zpow_sub_le m k e c
    · refine (abs_rounded_mul_zpow_sub_le m k e (2 ^ 52)).trans ?_
      rw [abs_of_nonpos (sub_nonpos.2 (hmin he)), abs_of_nonpos (sub_nonpos.2 (hyle.trans (hmin he)))]
      linarith

end Shift

/-- What the operations on unpacked numbers promise of a result whose exact value is `x`. -/
structure RoundsTo (x : ℚ) (u : UnpackedFloat) : Prop where
  canonical : Canonical u
  isFinite : u.isFinite = true
  isRounding : IsRounding x (unpackedValue u)

theorem isFinite_roundWithAccuracy (s : Sign) (m : ℕ) (e : ℤ) (a : Accuracy) :
    (roundWithAccuracy Format.binary64 s m e a).isFinite = true := by
  simp only [roundWithAccuracy]
  split <;> rfl

theorem roundsTo_roundWithAccuracy (s : Sign) {m : ℕ} (hm : 0 < m) {e : ℤ}
    (he : e ≤ Format.binary64.targetExponent (totalExponent m e)) :
    RoundsTo (s.apply m * 2 ^ e) (roundWithAccuracy Format.binary64 s m e .exact) := by
  obtain ⟨k, hk⟩ := Int.le.dest he
  obtain ⟨hc, hv⟩ := roundWithAccuracy_eq hk.symm hm s
  refine ⟨hc, isFinite_roundWithAccuracy s m e .exact, ?_⟩
  have h := isRounding_rounded hk.symm hm
  rw [hv]
  cases s with
  | positive => exact_mod_cast h
  | negative => simpa [Sign.apply] using h.neg

theorem roundsTo_round (s : Sign) {m : ℕ} (hm : 0 < m) (e : ℤ) :
    RoundsTo (s.apply m * 2 ^ e) (UnpackedFloat.round .binary64 s m e) := by
  rw [UnpackedFloat.round]
  simp only [decreaseExponent, Nat.shiftLeft_eq]
  by_cases he : e ≤ Format.binary64.targetExponent (totalExponent m e)
  · rw [Int.toNat_of_nonpos (by omega), pow_zero, mul_one, Nat.cast_zero, sub_zero]
    exact roundsTo_roundWithAccuracy s hm he
  · obtain ⟨j, hj⟩ := Int.le.dest (not_le.1 he).le
    have hj' : (e - Format.binary64.targetExponent (totalExponent m e)).toNat = j := by omega
    have hlog : (m * 2 ^ j).log2 = m.log2 + j := by
      rw [Nat.log2_eq_iff (Nat.mul_pos hm (Nat.two_pow_pos j)).ne', pow_add,
        show m.log2 + j + 1 = m.log2 + 1 + j by omega, pow_add]
      exact ⟨Nat.mul_le_mul_right _ (Nat.log2_self_le hm.ne'),
        Nat.mul_lt_mul_of_pos_right Nat.lt_log2_self (Nat.two_pow_pos j)⟩
    have ht : e - j ≤ Format.binary64.targetExponent (totalExponent (m * 2 ^ j) (e - j)) := by
      rw [targetExponent_eq] at hj ⊢
      rw [hlog]
      push_cast
      omega
    have h := roundsTo_roundWithAccuracy s (Nat.mul_pos hm (Nat.two_pow_pos j)) ht
    have hval : ((s.apply (m * 2 ^ j : ℕ) : ℤ) : ℚ) * 2 ^ (e - j) = s.apply m * 2 ^ e := by
      rw [zpow_sub₀ two_ne_zero, zpow_natCast]
      cases s <;> simp only [Sign.apply] <;> push_cast <;> field_simp
    rwa [hj', ← hval]

theorem roundsTo_normalize (m e : ℤ) (s : Sign) :
    RoundsTo (m * 2 ^ e) (UnpackedFloat.normalize .binary64 m e s) := by
  rw [UnpackedFloat.normalize]
  rcases lt_trichotomy m 0 with hm | rfl | hm
  · rw [Int.compare_eq_lt.2 hm]
    have h := roundsTo_round .negative (m := (-m).toNat) (by omega) e
    rwa [Sign.apply, Int.toNat_of_nonneg (by omega), neg_neg] at h
  · rw [Int.compare_eq_eq.2 rfl]
    refine ⟨trivial, rfl, ?_⟩
    rw [Int.cast_zero, zero_mul]
    exact .of_representable representable_zero
  · rw [Int.compare_eq_gt.2 hm]
    have h := roundsTo_round .positive (m := m.toNat) (by omega) e
    rwa [Sign.apply, Int.toNat_of_nonneg hm.le] at h

end NoisyDNF.Binary64
