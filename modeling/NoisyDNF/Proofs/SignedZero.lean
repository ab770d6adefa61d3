import NoisyDNF.Proofs.ExactArithmetic

namespace NoisyDNF

/-- Equal, or both zero. -/
def Scalar.Alike {R : Type} [Scalar R] (a b : R) : Prop :=
  a = b ∨ Scalar.isZero a = true ∧ Scalar.isZero b = true

open Scalar (Alike isZero)

/-- A sign of zero makes no difference to a comparison or a complement, and to a product at most its sign if
that is zero, too. -/
class SignedZero (R : Type) [Scalar R] : Prop where
  lt_irrefl (a : R) : ¬ a < a
  isZero_zero : isZero (0 : R) = true
  lt_left {z w : R} (hz : isZero z = true) (hw : isZero w = true) (a : R) : z < a ↔ w < a
  lt_right {z w : R} (hz : isZero z = true) (hw : isZero w = true) (a : R) : a < z ↔ a < w
  le_left {z w : R} (hz : isZero z = true) (hw : isZero w = true) (a : R) : z ≤ a ↔ w ≤ a
  le_right {z w : R} (hz : isZero z = true) (hw : isZero w = true) (a : R) : a ≤ z ↔ a ≤ w
  one_sub {z w : R} (hz : isZero z = true) (hw : isZero w = true) : 1 - z = 1 - w
  mul_left {z w : R} (hz : isZero z = true) (hw : isZero w = true) (a : R) : Alike (z * a) (w * a)
  mul_right {z w : R} (hz : isZero z = true) (hw : isZero w = true) (a : R) : Alike (a * z) (a * w)

namespace Scalar.Alike

section Scalar

variable {R : Type} [Scalar R] {a b c d : R}

theorem refl (a : R) : Alike a a := .inl rfl

theorem symm (h : Alike a b) : Alike b a := h.imp Eq.symm And.symm

theorem isZero_eq (h : Alike a b) : isZero a = isZero b := by
  rcases h with rfl | ⟨ha, hb⟩
  · rfl
  · rw [ha, hb]

theorem trans (h : Alike a b) (h' : Alike b c) : Alike a c := by
  rcases h with rfl | ⟨ha, hb⟩
  · exact h'
  · exact .inr ⟨ha, h'.isZero_eq ▸ hb⟩

theorem eq (h : Alike a b) (ha : isZero a = false) : a = b :=
  h.resolve_right fun hz ↦ by rw [ha] at hz; cases hz.1

/-- An operation that keeps numbers alike does so along a list. -/
theorem foldl {op : R → R → R}
    (hop : ∀ {a b c d : R}, Alike a b → Alike c d → Alike (op a c) (op b d)) {α : Type} {f g : α → R}
    {xs : List α} (hfg : ∀ x ∈ xs, Alike (f x) (g x)) (h : Alike a b) :
    Alike ((xs.map f).foldl op a) ((xs.map g).foldl op b) := by
  induction xs generalizing a b with
  | nil => exact h
  | cons x xs ih =>
    exact ih (fun y hy ↦ hfg y (List.mem_cons_of_mem x hy)) (hop h (hfg x List.mem_cons_self))

end Scalar

section SignedZero

variable {R : Type} [Scalar R] [SignedZero R] {a b c d : R}

theorem lt_iff (h : Alike a b) (h' : Alike c d) : a < c ↔ b < d := by
  have hleft : a < c ↔ b < c := by
    rcases h with rfl | ⟨ha, hb⟩
    · exact Iff.rfl
    · exact SignedZero.lt_left ha hb c
  rw [hleft]
  rcases h' with rfl | ⟨hc, hd⟩
  · exact Iff.rfl
  · exact SignedZero.lt_right hc hd b

theorem le_iff (h : Alike a b) (h' : Alike c d) : a ≤ c ↔ b ≤ d := by
  have hleft : a ≤ c ↔ b ≤ c := by
    rcases h with rfl | ⟨ha, hb⟩
    · exact Iff.rfl
    · exact SignedZero.le_left ha hb c
  rw [hleft]
  rcases h' with rfl | ⟨hc, hd⟩
  · exact Iff.rfl
  · exact SignedZero.le_right hc hd b

theorem not_lt (h : Alike a b) : ¬ a < b := by
  rw [← (refl a).lt_iff h]
  exact SignedZero.lt_irrefl a

theorem one_sub (h : Alike a b) : 1 - a = 1 - b := by
  rcases h with rfl | ⟨ha, hb⟩
  · rfl
  · exact SignedZero.one_sub ha hb

theorem mul (h : Alike a b) (h' : Alike c d) : Alike (a * c) (b * d) := by
  have hleft : Alike (a * c) (b * c) := by
    rcases h with rfl | ⟨ha, hb⟩
    · exact refl _
    · exact SignedZero.mul_left ha hb c
  refine hleft.trans ?_
  rcases h' with rfl | ⟨hc, hd⟩
  · exact refl _
  · exact SignedZero.mul_right hc hd b

theorem larger (h : Alike a b) (h' : Alike c d) : Alike (larger a c) (larger b d) := by
  have hlater : (isDefined c && !decide (c < a)) = (isDefined d && !decide (d < b)) := by
    simp only [isDefined, h'.le_iff h', h'.lt_iff h]
  rw [Scalar.larger, Scalar.larger, hlater]
  by_cases hd : (isDefined d && !decide (d < b)) = true
  · rw [if_pos hd, if_pos hd]
    exact h'
  · rw [if_neg hd, if_neg hd]
    exact h

theorem product {α : Type} {f g : α → R} {xs : List α} (h : ∀ x ∈ xs, Alike (f x) (g x)) :
    Alike (Scalar.product (xs.map f)) (Scalar.product (xs.map g)) :=
  foldl mul h (refl 1)

end SignedZero

end Scalar.Alike

instance (priority := low) exactSignedZero {K : Type} [Field K] [LinearOrder K] : SignedZero K where
  lt_irrefl := lt_irrefl
  isZero_zero := Scalar.isZero_iff.2 rfl
  lt_left hz hw a := by rw [Scalar.isZero_iff.1 hz, Scalar.isZero_iff.1 hw]
  lt_right hz hw a := by rw [Scalar.isZero_iff.1 hz, Scalar.isZero_iff.1 hw]
  le_left hz hw a := by rw [Scalar.isZero_iff.1 hz, Scalar.isZero_iff.1 hw]
  le_right hz hw a := by rw [Scalar.isZero_iff.1 hz, Scalar.isZero_iff.1 hw]
  one_sub hz hw := by rw [Scalar.isZero_iff.1 hz, Scalar.isZero_iff.1 hw]
  mul_left hz hw a := by rw [Scalar.isZero_iff.1 hz, Scalar.isZero_iff.1 hw]; exact .refl _
  mul_right hz hw a := by rw [Scalar.isZero_iff.1 hz, Scalar.isZero_iff.1 hw]; exact .refl _

end NoisyDNF
