import NoisyDNF.Proofs.Binary64.Arithmetic
import NoisyDNF.Proofs.SignedZero

namespace NoisyDNF.Binary64

open Float.Model Float.Model.UnpackedFloat Scalar

variable {u : UnpackedFloat} {z z' : Float}

theorem exists_eq_zero (hu : IsNumber u) (h : unpackedValue u = 0) : ∃ s, u = zero s := by
  cases u with
  | infinity | notANumber => cases hu.isFinite
  | zero s => exact ⟨s, rfl⟩
  | finite s m e hm =>
    have habs := abs_unpackedValue_finite s e hm
    rw [h, abs_zero] at habs
    exact absurd habs (mul_zpow_pos hm e).ne

theorem exists_unpack_eq_zero (hz : isZero z = true) : ∃ s, z.toModel.unpack = zero s := by
  have hle := hz
  rw [isZero, Bool.and_eq_true, decide_eq_true_eq, decide_eq_true_eq] at hle
  have hfin := isFinite_of_le_of_le isFinite_zero isFinite_zero hle.2 hle.1
  exact exists_eq_zero (isNumber_unpack hfin) ((isZero_iff hfin).1 hz)

theorem compare_self_ne_lt (u : UnpackedFloat) : u.compare u ≠ some .lt := by
  cases u with
  | infinity r => cases r <;> decide
  | notANumber | zero => exact nofun
  | finite r m e hm => cases r <;> simp [UnpackedFloat.compare]

theorem compare_zero_left (s t : Sign) (u : UnpackedFloat) : (zero s).compare u = (zero t).compare u := by
  cases u with
  | infinity r => cases r <;> rfl
  | notANumber | zero => rfl
  | finite r m e hm => cases r <;> rfl

theorem compare_zero_right (s t : Sign) (u : UnpackedFloat) : u.compare (zero s) = u.compare (zero t) := by
  cases u with
  | infinity r => cases r <;> rfl
  | notANumber | zero => rfl
  | finite r m e hm => cases r <;> rfl

theorem compare_left (hz : isZero z = true) (hz' : isZero z' = true) (u : UnpackedFloat) :
    z.toModel.unpack.compare u = z'.toModel.unpack.compare u := by
  obtain ⟨s, hs⟩ := exists_unpack_eq_zero hz
  obtain ⟨t, ht⟩ := exists_unpack_eq_zero hz'
  rw [hs, ht, compare_zero_left s t]

theorem compare_right (hz : isZero z = true) (hz' : isZero z' = true) (u : UnpackedFloat) :
    u.compare z.toModel.unpack = u.compare z'.toModel.unpack := by
  obtain ⟨s, hs⟩ := exists_unpack_eq_zero hz
  obtain ⟨t, ht⟩ := exists_unpack_eq_zero hz'
  rw [hs, ht, compare_zero_right s t]

/-- Only in a difference from another zero the sign of zero shows. -/
theorem sub_zero_eq (hu : ∀ r, u ≠ zero r) (s : Sign) : UnpackedFloat.sub .binary64 u (zero s) = u := by
  cases u with
  | zero r => exact absurd rfl (hu r)
  | infinity | notANumber | finite => rfl

theorem unpack_one_ne_zero (s : Sign) : (1 : Float).toModel.unpack ≠ zero s := by
  intro h
  have hv : value 1 = unpackedValue (zero s) := congrArg unpackedValue h
  rw [value_one, unpackedValue_zero] at hv
  exact one_ne_zero hv

theorem one_sub_eq_one (hz : isZero z = true) : 1 - z = .ofModel (pack (1 : Float).toModel.unpack) := by
  obtain ⟨s, hs⟩ := exists_unpack_eq_zero hz
  rw [sub_eq, hs, sub_zero_eq unpack_one_ne_zero]

theorem isZero_pack_zero (s : Sign) : isZero (Float.ofModel (pack (zero s))) = true := by
  cases s <;> decide +kernel

/-- Zero times infinity is undefined, and every other product with zero is zero. -/
theorem mul_left_alike (hz : isZero z = true) (hz' : isZero z' = true) (x : Float) :
    Alike (z * x) (z' * x) := by
  obtain ⟨s, hs⟩ := exists_unpack_eq_zero hz
  obtain ⟨t, ht⟩ := exists_unpack_eq_zero hz'
  rw [mul_eq, mul_eq, hs, ht]
  cases x.toModel.unpack with
  | infinity | notANumber => exact .refl _
  | zero | finite => exact .inr ⟨isZero_pack_zero _, isZero_pack_zero _⟩

theorem mul_right_alike (hz : isZero z = true) (hz' : isZero z' = true) (x : Float) :
    Alike (x * z) (x * z') := by
  obtain ⟨s, hs⟩ := exists_unpack_eq_zero hz
  obtain ⟨t, ht⟩ := exists_unpack_eq_zero hz'
  rw [mul_eq, mul_eq, hs, ht]
  cases x.toModel.unpack with
  | infinity | notANumber => exact .refl _
  | zero | finite => exact .inr ⟨isZero_pack_zero _, isZero_pack_zero _⟩

instance : SignedZero Float where
  lt_irrefl x h := compare_self_ne_lt _ (lt_iff_compare.1 h)
  isZero_zero := by decide +kernel
  lt_left hz hz' x := by rw [lt_iff_compare, lt_iff_compare, compare_left hz hz']
  lt_right hz hz' x := by rw [lt_iff_compare, lt_iff_compare, compare_right hz hz']
  le_left hz hz' x := by rw [le_iff_compare, le_iff_compare, compare_left hz hz']
  le_right hz hz' x := by rw [le_iff_compare, le_iff_compare, compare_right hz hz']
  one_sub hz hz' := (one_sub_eq_one hz).trans (one_sub_eq_one hz').symm
  mul_left := mul_left_alike
  mul_right := mul_right_alike

end NoisyDNF.Binary64
