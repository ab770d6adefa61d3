import NoisyDNF.Proofs.Binary64.Rounding

namespace NoisyDNF.Binary64

open Float.Model Float.Model.UnpackedFloat

def Fits : UnpackedFloat → Prop
  | .finite _ m e _ => Stored m e ∧ e ≤ 971
  | _ => True

theorem Fits.canonical {u : UnpackedFloat} (h : Fits u) : Canonical u := by
  cases u with
  | finite s m e hm => exact h.1
  | infinity | notANumber | zero => trivial

theorem toNat_append_implicit (m : BitVec 52) : (1#1 ++ m).toNat = 2 ^ 52 + m.toNat := by
  rw [BitVec.toNat_append, ← Nat.shiftLeft_add_eq_or_of_lt m.isLt]
  rfl

theorem toNat_ofNat_of_lt {w n : ℕ} (h : n < 2 ^ w) : (BitVec.ofNat w n).toNat = n := by
  rw [BitVec.toNat_ofNat, Nat.mod_eq_of_lt h]

theorem ofNat_ne {w n : ℕ} {x : BitVec w} (hn : n < 2 ^ w) (hx : n ≠ x.toNat) :
    BitVec.ofNat w n ≠ x := by
  rintro rfl
  exact hx (toNat_ofNat_of_lt hn).symm

theorem fits_unpack (f : Float.Model) : Fits f.unpack := by
  have hlt : (@unpackMantissa .binary64 f.toBits.toBitVec).toNat < 2 ^ 52 :=
    BitVec.isLt _
  have hexp : (@unpackExponent .binary64 f.toBits.toBitVec).toNat < 2 ^ 11 :=
    BitVec.isLt _
  rw [Float.Model.unpack, UnpackedFloat.unpack]
  split
  · split <;> trivial
  · next hinf =>
    split
    · next hzero =>
      split
      · trivial
      · refine ⟨⟨hlt.trans (by norm_num), ?_, .inr ?_⟩, ?_⟩ <;>
          simp only [hzero, Format.exponentBias] <;> norm_num
    · next hzero =>
      have hpos : (@unpackExponent .binary64 f.toBits.toBitVec).toNat ≠ 0 :=
        fun h ↦ hzero (BitVec.eq_of_toNat_eq h)
      have hmax : (@unpackExponent .binary64 f.toBits.toBitVec).toNat ≠ 2047 :=
        fun h ↦ hinf (BitVec.eq_of_toNat_eq h)
      have hm := toNat_append_implicit (@unpackMantissa .binary64 f.toBits.toBitVec)
      refine ⟨⟨hm.trans_lt (by omega), ?_, .inl ((by omega : 2 ^ 52 ≤ _).trans_eq hm.symm)⟩, ?_⟩ <;>
        simp only [Format.exponentBias] <;> norm_num <;> omega

section Finite

variable {s : Sign} {m : ℕ} {e : ℤ} {hm : 0 < m}

theorem pack_finite (h : Stored m e) (he : e ≤ 971) :
    UnpackedFloat.pack .binary64 (.finite s m e hm) = if 2 ^ 52 ≤ m then
      packComponents .binary64 s (BitVec.ofNat 11 (e + 1075).toNat) (BitVec.ofNat 52 m)
    else packComponents .binary64 s 0#11 (BitVec.ofNat 52 m) := by
  obtain ⟨hlt, hle, -⟩ := h
  -- The biased exponent stays below the one of infinity.
  have hb : (e + Format.binary64.exponentBias + Format.binary64.mantissaBitsWithoutImplicit).toNat =
      (e + 1075).toNat := by
    simp only [Format.exponentBias]
    norm_num
    omega
  have hfit : ¬ 2 ^ 11 ≤ (e + 1075).toNat + 1 := by omega
  have hlog : m.log2 + 1 = Format.binary64.mantissaBits ↔ 2 ^ 52 ≤ m := by
    simp only [Format.mantissaBits]
    rw [← Nat.le_log2 hm.ne']
    have := (Nat.log2_lt hm.ne').2 hlt
    omega
  simp only [UnpackedFloat.pack, hb, hfit, if_false, hlog]

theorem unpack_normal (h : Stored m e) (he : e ≤ 971) (hn : 2 ^ 52 ≤ m) :
    UnpackedFloat.unpack .binary64 (packComponents .binary64 s
      (BitVec.ofNat 11 (e + 1075).toNat) (BitVec.ofNat 52 m)) = .finite s m e hm := by
  obtain ⟨hlt, hle, -⟩ := h
  have hb : (e + 1075).toNat < 2 ^ 11 := by omega
  have hinf : BitVec.ofNat 11 (e + 1075).toNat ≠ -1#11 := ofNat_ne hb (by norm_num; omega)
  have hzero : BitVec.ofNat 11 (e + 1075).toNat ≠ 0#11 := ofNat_ne hb (by norm_num; omega)
  have hman : (1#1 ++ BitVec.ofNat 52 m).toNat = m := by
    rw [toNat_append_implicit, BitVec.toNat_ofNat]
    omega
  rw [UnpackedFloat.unpack]
  simp only [unpackExponent_packComponents, unpackMantissa_packComponents,
    unpackSign_packComponents, Sign.ofBitVec_toBitVec, hinf, hzero, if_false, hman,
    toNat_ofNat_of_lt hb]
  congr 1
  simp only [Format.exponentBias]
  norm_num
  omega

theorem unpack_subnormal (hn : m < 2 ^ 52) :
    UnpackedFloat.unpack .binary64 (packComponents .binary64 s 0#11 (BitVec.ofNat 52 m)) =
      .finite s m (-1074) hm := by
  have hzero : BitVec.ofNat 52 m ≠ 0#52 := ofNat_ne hn hm.ne'
  rw [UnpackedFloat.unpack]
  simp only [unpackExponent_packComponents, unpackMantissa_packComponents,
    unpackSign_packComponents, Sign.ofBitVec_toBitVec, hzero, dif_neg, not_false_eq_true,
    toNat_ofNat_of_lt hn]
  rfl

end Finite

theorem unpack_pack {u : UnpackedFloat} (h : Fits u) : (Float.Model.pack u).unpack = u := by
  cases u with
  | notANumber => rfl
  | infinity s => cases s <;> rfl
  | zero s => cases s <;> rfl
  | finite s m e hm =>
    obtain ⟨hs, he⟩ := h
    change UnpackedFloat.unpack .binary64 (UnpackedFloat.pack .binary64 (.finite s m e hm)) = _
    rw [pack_finite hs he]
    split
    · next hn => exact unpack_normal hs he hn
    · next hn =>
      obtain rfl := hs.normal.resolve_left hn
      exact unpack_subnormal (not_le.1 hn)

end NoisyDNF.Binary64
