import NoisyDNF.Proofs.Binary64.Operations
import NoisyDNF.Proofs.Binary64.Packing
import NoisyDNF.Scalar

namespace NoisyDNF.Binary64

open Float.Model

def value (x : Float) : ℚ := unpackedValue x.toModel.unpack

variable {x y z : Float}

theorem isNumber_unpack (hx : x.isFinite = true) : IsNumber x.toModel.unpack :=
  ⟨(fits_unpack _).canonical, hx⟩

theorem representable_value (x : Float) : Representable (value x) :=
  representable_unpackedValue (fits_unpack _).canonical

@[simp]
theorem isFinite_zero : Float.isFinite (0 : Float) = true := by decide +kernel

@[simp]
theorem value_zero : value 0 = 0 := by decide +kernel

@[simp]
theorem isFinite_one : Float.isFinite (1 : Float) = true := by decide +kernel

@[simp]
theorem value_one : value 1 = 1 := by decide +kernel

theorem isFinite_half : (Scalar.half : Float).isFinite = true := by decide +kernel

theorem value_half : value Scalar.half = 1 / 2 := by decide +kernel

theorem isFinite_tolerance : (Scalar.tolerance : Float).isFinite = true := by decide +kernel

theorem value_tolerance_pos : 0 < value Scalar.tolerance := by decide +kernel

theorem value_tolerance_le : value Scalar.tolerance ≤ 1 / 2 ^ 39 := by decide +kernel

theorem lt_iff_compare : x < y ↔ x.toModel.unpack.compare y.toModel.unpack = some .lt := by
  change Float.lt x y = true ↔ _
  rw [Float.lt, decide_eq_true_eq]
  exact beq_iff_eq

theorem le_iff_compare :
    x ≤ y ↔ (x.toModel.unpack.compare y.toModel.unpack).any (·.isLE) = true := by
  change Float.le x y = true ↔ _
  rw [Float.le, decide_eq_true_eq]
  exact Iff.rfl

theorem lt_iff (hx : x.isFinite = true) (hy : y.isFinite = true) : x < y ↔ value x < value y := by
  obtain ⟨o, ho, hc⟩ := exists_compare_eq (isNumber_unpack hx) (isNumber_unpack hy)
  rw [lt_iff_compare, ho, Option.some_inj]
  exact hc.eq_lt

theorem le_iff (hx : x.isFinite = true) (hy : y.isFinite = true) : x ≤ y ↔ value x ≤ value y := by
  obtain ⟨o, ho, hc⟩ := exists_compare_eq (isNumber_unpack hx) (isNumber_unpack hy)
  rw [le_iff_compare, ho, Option.any_some, Ordering.isLE_iff_ne_gt]
  exact hc.ne_gt

theorem le_of_lt (h : x < y) : x ≤ y := by
  rw [le_iff_compare, lt_iff_compare.1 h]
  rfl

theorem isFinite_of_le_of_le (hx : x.isFinite = true) (hz : z.isFinite = true) (hxy : x ≤ y)
    (hyz : y ≤ z) : y.isFinite = true := by
  have hle := le_iff_compare.1 hxy
  have hle' := le_iff_compare.1 hyz
  change x.toModel.unpack.isFinite = true at hx
  change z.toModel.unpack.isFinite = true at hz
  change y.toModel.unpack.isFinite = true
  generalize x.toModel.unpack = u at hx hle
  generalize z.toModel.unpack = w at hz hle'
  cases hy : y.toModel.unpack with
  | zero | finite => rfl
  | notANumber =>
    rw [hy] at hle'
    cases hle'
  | infinity s =>
    rw [hy] at hle hle'
    cases s with
    | positive =>
      cases w with
      | infinity | notANumber => cases hz
      | zero | finite => cases hle'
    | negative =>
      cases u with
      | infinity | notANumber => cases hx
      | zero => cases hle
      | finite s => cases s <;> cases hle

theorem sub_eq (x y : Float) :
    x - y = .ofModel (pack (.sub .binary64 x.toModel.unpack y.toModel.unpack)) := rfl

theorem mul_eq (x y : Float) :
    x * y = .ofModel (pack (.mul .binary64 x.toModel.unpack y.toModel.unpack)) := rfl

structure Computes (q : ℚ) (x : Float) : Prop where
  isFinite : x.isFinite = true
  isRounding : IsRounding q (value x)

theorem Computes.value_eq {q : ℚ} (h : Computes q x) (hq : Representable q) : value x = q :=
  h.isRounding.eq hq

theorem abs_unpackedValue_finite (s : UnpackedFloat.Sign) {m : ℕ} (e : ℤ) (hm : 0 < m) :
    |unpackedValue (.finite s m e hm)| = m * 2 ^ e := by
  rw [unpackedValue, abs_mul, abs_of_pos (zpow_pos (two_pos : (0 : ℚ) < 2) e)]
  cases s <;> simp [UnpackedFloat.Sign.apply]

def greatest : ℚ := (2 ^ 53 - 1) * 2 ^ (971 : ℤ)

theorem representable_greatest : Representable greatest :=
  ⟨2 ^ 53 - 1, 971, by norm_num, by norm_num, by
    rw [greatest, Int.cast_sub, Int.cast_pow, Int.cast_ofNat, Int.cast_one]⟩

theorem le_greatest {e : ℤ} (he : e ≤ 1023) : (2 : ℚ) ^ e ≤ greatest :=
  calc (2 : ℚ) ^ e ≤ 2 ^ ((52 : ℕ) + (971 : ℤ)) := zpow_le_zpow_right₀ one_le_two (by omega)
    _ = 2 ^ 52 * 2 ^ (971 : ℤ) := by rw [zpow_add₀ two_ne_zero, zpow_natCast]
    _ ≤ greatest := mul_le_mul_of_nonneg_right (by norm_num) (zpow_pos two_pos _).le

theorem one_le_greatest : 1 ≤ greatest := by
  simpa using le_greatest (e := 0) (by norm_num)

theorem abs_value_le_greatest (x : Float) : |value x| ≤ greatest := by
  have h := fits_unpack x.toModel
  rw [value]
  cases hu : x.toModel.unpack with
  | infinity | notANumber | zero => exact abs_zero.trans_le (zero_le_one.trans one_le_greatest)
  | finite s m e hm =>
    rw [hu] at h
    obtain ⟨hs, he⟩ := h
    have hm' : (m : ℚ) ≤ 2 ^ 53 - 1 := le_sub_iff_add_le.2 (by exact_mod_cast hs.lt)
    rw [abs_unpackedValue_finite]
    exact mul_le_mul hm' (zpow_le_zpow_right₀ one_le_two he) (zpow_pos two_pos e).le (by norm_num)

theorem fits_of_roundsTo {q : ℚ} {u : UnpackedFloat} (h : RoundsTo q u) (hq : |q| ≤ greatest) :
    Fits u := by
  have hle := h.isRounding.abs_value_le representable_greatest hq
  cases u with
  | infinity | notANumber | zero => trivial
  | finite s m e hm =>
    have hs : Stored m e := h.canonical
    refine ⟨hs, not_lt.1 ?_⟩
    intro he
    have hm' : 2 ^ 52 ≤ m := hs.normal.resolve_right (by omega)
    rw [abs_unpackedValue_finite] at hle
    have hlt : greatest < m * 2 ^ e :=
      calc greatest < 2 ^ 53 * 2 ^ (971 : ℤ) :=
            mul_lt_mul_of_pos_right (by norm_num) (zpow_pos two_pos _)
        _ = 2 ^ 52 * 2 ^ (972 : ℤ) := by
            rw [show (972 : ℤ) = 971 + 1 by norm_num, zpow_add_one₀ two_ne_zero]
            ring
        _ ≤ m * 2 ^ e := mul_le_mul (by exact_mod_cast hm') (zpow_le_zpow_right₀ one_le_two he)
            (zpow_pos two_pos _).le (Nat.cast_nonneg m)
    exact absurd hle (not_le.2 hlt)

theorem computes_pack {q : ℚ} {u : UnpackedFloat} (h : RoundsTo q u) (hq : |q| ≤ greatest) :
    Computes q (.ofModel (pack u)) := by
  have hu := unpack_pack (fits_of_roundsTo h hq)
  constructor
  · change (pack u).unpack.isFinite = true
    rw [hu]
    exact h.isFinite
  · rw [value, hu]
    exact h.isRounding

theorem computes_add (hx : x.isFinite = true) (hy : y.isFinite = true)
    (h : |value x + value y| ≤ greatest) : Computes (value x + value y) (x + y) :=
  computes_pack (roundsTo_add (isNumber_unpack hx) (isNumber_unpack hy)) h

theorem computes_sub (hx : x.isFinite = true) (hy : y.isFinite = true)
    (h : |value x - value y| ≤ greatest) : Computes (value x - value y) (x - y) :=
  computes_pack (roundsTo_sub (isNumber_unpack hx) (isNumber_unpack hy)) h

theorem computes_mul (hx : x.isFinite = true) (hy : y.isFinite = true)
    (h : |value x * value y| ≤ greatest) : Computes (value x * value y) (x * y) :=
  computes_pack (roundsTo_mul (isNumber_unpack hx) (isNumber_unpack hy)) h

theorem fits_neg {u : UnpackedFloat} (h : Fits u) : Fits u.neg := by
  cases u <;> exact h

theorem unpack_neg (x : Float) : (-x).toModel.unpack = x.toModel.unpack.neg :=
  unpack_pack (fits_neg (fits_unpack x.toModel))

@[simp]
theorem value_neg (x : Float) : value (-x) = -value x := by
  rw [value, unpack_neg, unpackedValue_neg]
  rfl

theorem isFinite_neg (hx : x.isFinite = true) : (-x).isFinite = true := by
  change (-x).toModel.unpack.isFinite = true
  rw [unpack_neg]
  exact (isNumber_unpack hx).neg.isFinite

theorem isZero_iff (hx : x.isFinite = true) : Scalar.isZero x = true ↔ value x = 0 := by
  simp only [Scalar.isZero, Bool.and_eq_true, decide_eq_true_eq, le_iff hx isFinite_zero,
    le_iff isFinite_zero hx, value_zero]
  exact le_antisymm_iff.symm

theorem isFinite_magnitude (hx : x.isFinite = true) : (Scalar.magnitude x).isFinite = true := by
  unfold Scalar.magnitude
  split
  · exact isFinite_neg hx
  · exact hx

theorem value_magnitude (hx : x.isFinite = true) : value (Scalar.magnitude x) = |value x| := by
  simp only [Scalar.magnitude, lt_iff hx isFinite_zero, value_zero]
  split
  · next h => rw [value_neg, abs_of_neg h]
  · next h => rw [abs_of_nonneg (not_lt.1 h)]

theorem larger_eq (hx : x.isFinite = true) (hy : y.isFinite = true) :
    Scalar.larger x y = if value x ≤ value y then y else x := by
  simp only [Scalar.larger, Scalar.isDefined, lt_iff hy hx, le_iff hy hy, le_refl, decide_true,
    Bool.true_and, Bool.not_eq_true', decide_eq_false_iff_not, not_lt]

theorem isFinite_larger (hx : x.isFinite = true) (hy : y.isFinite = true) :
    (Scalar.larger x y).isFinite = true := by
  rw [larger_eq hx hy]
  split
  · exact hy
  · exact hx

theorem value_larger (hx : x.isFinite = true) (hy : y.isFinite = true) :
    value (Scalar.larger x y) = max (value x) (value y) := by
  rw [larger_eq hx hy]
  split
  · next h => rw [max_eq_right h]
  · next h => rw [max_eq_left (not_le.1 h).le]

end NoisyDNF.Binary64
