import Mathlib.Algebra.Order.Field.Basic
import Mathlib.Algebra.BigOperators.Group.Finset.Basic
import Mathlib.Algebra.BigOperators.Intervals
import Mathlib.Algebra.Order.Group.Int
import NoisyDNF.Proofs.ExactArithmetic
import NoisyDNF.Proofs.ZeroOne.WellFormed

namespace NoisyDNF.ZeroOne

def truth (y : Array Bool) (v : ℕ) : Bool := y.getD v false

theorem sum_map_filter {α M : Type} [AddCommMonoid M] (p : α → Bool) (f : α → M) (xs : List α) :
    ((xs.filter p).map f).sum = (xs.map fun x ↦ if p x then f x else 0).sum := by
  induction xs with
  | nil => rfl
  | cons x xs ih => by_cases h : p x <;> simp [h, ih]

theorem sum_zip {M : Type} [AddCommMonoid M] (as : List M) (bs : List Bool) (h : as.length = bs.length) :
    ((as.zip bs).filterMap fun p ↦ if p.2 then some p.1 else none).sum =
      ∑ i ∈ Finset.range as.length, if bs.getD i false then as.getD i 0 else 0 := by
  induction as generalizing bs with
  | nil => simp
  | cons a as ih =>
    obtain - | ⟨b, bs⟩ := bs
    · cases h
    · have hs := ih bs (by simpa using h)
      rw [List.length_cons, Finset.sum_range_succ']
      simp only [List.getD_cons_succ, List.getD_cons_zero, ← hs]
      cases b <;> simp [add_comm]

namespace Constraint

theorem sumOfCoeffs_eq (ts : List (ℕ × ℤ)) : sumOfCoeffs ts = (ts.map Prod.snd).sum := by
  induction ts with
  | nil => rfl
  | cons t ts ih => rw [List.map_cons, List.sum_cons, ← ih]; rfl

def lhs (c : Constraint) (f : ℕ → Bool) : ℤ := (c.terms.map fun t ↦ if f t.1 then t.2 else 0).sum

theorem lhs?_eq {n : ℕ} {c : Constraint} (hc : c.WellFormed n) {y : Array Bool} (hy : y.size = n) :
    c.lhs? y = some (c.lhs (truth y)) := by
  have h : c.terms.all (fun t ↦ decide (t.1 < y.size)) = true := by
    simpa [hy] using fun a b hab ↦ hc.lt (a, b) hab
  rw [lhs?, if_pos h, sumOfCoeffs_eq, sum_map_filter]
  rfl

theorem isSatisfied?_eq {n : ℕ} {c : Constraint} (hc : c.WellFormed n) {y : Array Bool}
    (hy : y.size = n) :
    c.isSatisfied? y = some (c.comparison.holds (c.lhs (truth y)) c.rhs) := by
  rw [isSatisfied?, lhs?_eq hc hy, Option.map_some]

end Constraint

namespace Model

def SatisfiedBy {R : Type} (m : Model R) (f : ℕ → Bool) : Prop :=
  ∀ c ∈ m.constraints, c.comparison.holds (c.lhs f) c.rhs = true

theorem isFeasible_iff {R : Type} {m : Model R} (hm : m.WellFormed) {y : Array Bool} :
    m.isFeasible y = true ↔ y.size = m.numVars ∧ m.SatisfiedBy (truth y) := by
  simp only [isFeasible, SatisfiedBy, Bool.and_eq_true, beq_iff_eq, List.all_eq_true]
  refine and_congr_right fun hy ↦ forall₂_congr fun c hc ↦ ?_
  rw [Constraint.isSatisfied?_eq (hm.constraints c hc) hy, Option.some_inj]

theorem gain_eq {R : Type} [Scalar R] (m : Model R) (v : ℕ) :
    m.gain v = m.objective.toList.getD v 0 := by
  simp only [gain, Array.getD_eq_getD_getElem?, List.getD_eq_getElem?_getD, Array.getElem?_toList]

theorem objectiveValue_eq {K : Type} [Field K] [LinearOrder K] {m : Model K} (hm : m.WellFormed)
    {y : Array Bool} (hy : y.size = m.numVars) :
    m.objectiveValue y = ∑ v ∈ Finset.range m.numVars, if truth y v then m.gain v else 0 := by
  have hl : m.objective.toList.length = m.numVars := by simpa using hm.size_objective
  rw [objectiveValue, Scalar.sum_eq_sum, sum_zip _ _ (by simp [hy, hm.size_objective]), hl]
  refine Finset.sum_congr rfl ?_
  intro v _
  rw [gain_eq, truth, Array.getD_eq_getD_getElem?, List.getD_eq_getElem?_getD,
    Array.getElem?_toList]

end Model

end NoisyDNF.ZeroOne
