import Mathlib.Order.WithBot
import NoisyDNF.Proofs.Binary64.Arithmetic

namespace NoisyDNF.Binary64

open Float.Model Float.Model.UnpackedFloat

/-- The infinities take the two ends; both zeros have the same place. -/
def unpackedPlace : UnpackedFloat → WithBot (WithTop ℚ)
  | .infinity .negative => ⊥
  | .infinity .positive => ⊤
  | u => ((unpackedValue u : WithTop ℚ) : WithBot (WithTop ℚ))

def place (x : Float) : WithBot (WithTop ℚ) := unpackedPlace x.toModel.unpack

variable {u w : UnpackedFloat} {x y : Float}

section Finite

variable (hu : u.isFinite = true)
include hu

theorem unpackedPlace_of_isFinite :
    unpackedPlace u = ((unpackedValue u : WithTop ℚ) : WithBot (WithTop ℚ)) := by
  cases u with
  | infinity | notANumber => cases hu
  | zero | finite => rfl

theorem unpackedPlace_mem_Ioo : ⊥ < unpackedPlace u ∧ unpackedPlace u < ⊤ := by
  rw [unpackedPlace_of_isFinite hu]
  exact ⟨WithBot.bot_lt_coe _, WithBot.coe_lt_coe.2 (WithTop.coe_lt_top _)⟩

theorem compare_negative_infinity : u.compare (.infinity .negative) = some .gt := by
  cases u with
  | infinity | notANumber => cases hu
  | zero => rfl
  | finite s => cases s <;> rfl

theorem compare_positive_infinity : u.compare (.infinity .positive) = some .lt := by
  cases u with
  | infinity | notANumber => cases hu
  | zero => rfl
  | finite s => cases s <;> rfl

theorem negative_infinity_compare : (UnpackedFloat.infinity .negative).compare u = some .lt := by
  cases u with
  | infinity | notANumber => cases hu
  | zero => rfl
  | finite s => cases s <;> rfl

theorem positive_infinity_compare : (UnpackedFloat.infinity .positive).compare u = some .gt := by
  cases u with
  | infinity | notANumber => cases hu
  | zero => rfl
  | finite s => cases s <;> rfl

end Finite

theorem isFinite_or_infinity (hu : u.isNaN = false) :
    u.isFinite = true ∨ u = .infinity .negative ∨ u = .infinity .positive := by
  cases u with
  | notANumber => cases hu
  | infinity s => cases s <;> simp
  | zero | finite => exact .inl rfl

theorem exists_compare_eq_place (hu : Canonical u) (hw : Canonical w) (hu' : u.isNaN = false)
    (hw' : w.isNaN = false) :
    ∃ o, u.compare w = some o ∧ o.Compares (unpackedPlace u) (unpackedPlace w) := by
  rcases isFinite_or_infinity hu' with hfin | rfl | rfl
  · obtain ⟨hbot, htop⟩ := unpackedPlace_mem_Ioo hfin
    rcases isFinite_or_infinity hw' with hfin' | rfl | rfl
    · obtain ⟨o, ho, hc⟩ := exists_compare_eq ⟨hu, hfin⟩ ⟨hw, hfin'⟩
      refine ⟨o, ho, ?_⟩
      rw [unpackedPlace_of_isFinite hfin, unpackedPlace_of_isFinite hfin']
      exact (WithBot.coe_strictMono.comp WithTop.coe_strictMono).compares.2 hc
    · exact ⟨.gt, compare_negative_infinity hfin, hbot⟩
    · exact ⟨.lt, compare_positive_infinity hfin, htop⟩
  · rcases isFinite_or_infinity hw' with hfin' | rfl | rfl
    · exact ⟨.lt, negative_infinity_compare hfin', (unpackedPlace_mem_Ioo hfin').1⟩
    · exact ⟨.eq, rfl, rfl⟩
    · exact ⟨.lt, rfl, bot_lt_top⟩
  · rcases isFinite_or_infinity hw' with hfin' | rfl | rfl
    · exact ⟨.gt, positive_infinity_compare hfin', (unpackedPlace_mem_Ioo hfin').2⟩
    · exact ⟨.gt, rfl, bot_lt_top⟩
    · exact ⟨.eq, rfl, rfl⟩

theorem lt_iff_place (hx : x.isNaN = false) (hy : y.isNaN = false) : x < y ↔ place x < place y := by
  obtain ⟨o, ho, hc⟩ := exists_compare_eq_place (fits_unpack x.toModel).canonical
    (fits_unpack y.toModel).canonical hx hy
  rw [lt_iff_compare, ho, Option.some_inj]
  exact hc.eq_lt

theorem le_iff_place (hx : x.isNaN = false) (hy : y.isNaN = false) : x ≤ y ↔ place x ≤ place y := by
  obtain ⟨o, ho, hc⟩ := exists_compare_eq_place (fits_unpack x.toModel).canonical
    (fits_unpack y.toModel).canonical hx hy
  rw [le_iff_compare, ho, Option.any_some, Ordering.isLE_iff_ne_gt]
  exact hc.ne_gt

end NoisyDNF.Binary64
