import Mathlib.Algebra.Order.Field.Basic
import Mathlib.Data.Nat.Bitwise
import Mathlib.Order.Bounds.Defs
import NoisyDNF.Proofs.ExactArithmetic
import NoisyDNF.Proofs.ZeroOne.WellFormed
import NoisyDNF.ZeroOne.Enumeration

namespace NoisyDNF.ZeroOne

theorem size_valuesOfBits (n bits : ℕ) : (valuesOfBits n bits).size = n := Array.size_ofFn

def bitsOf (y : Array Bool) : ℕ := Nat.ofBits fun i : Fin y.size ↦ y[i]

theorem bitsOf_lt (y : Array Bool) : bitsOf y < 2 ^ y.size := Nat.ofBits_lt_two_pow _

theorem valuesOfBits_bitsOf (y : Array Bool) : valuesOfBits y.size (bitsOf y) = y := by
  refine Array.ext (size_valuesOfBits _ _) ?_
  intro i hi hi'
  simp only [valuesOfBits, Array.getElem_ofFn, bitsOf, Nat.testBit_ofBits_lt _ i hi']
  rfl

theorem bitsOf_valuesOfBits {n bits : ℕ} (h : bits < 2 ^ n) : bitsOf (valuesOfBits n bits) = bits := by
  have hsize := size_valuesOfBits n bits
  refine Nat.eq_of_testBit_eq fun i ↦ ?_
  by_cases hi : i < n
  · rw [bitsOf, Nat.testBit_ofBits_lt _ i (hsize.symm ▸ hi)]
    simp [valuesOfBits]
  · rw [bitsOf, Nat.testBit_ofBits_ge _ i (hsize.symm ▸ not_lt.1 hi)]
    exact (Nat.testBit_lt_two_pow (h.trans_le (Nat.pow_le_pow_right two_pos (not_lt.1 hi)))).symm

theorem exists_valuesOfBits_eq (y : Array Bool) :
    ∃ bits < 2 ^ y.size, valuesOfBits y.size bits = y := ⟨bitsOf y, bitsOf_lt y, valuesOfBits_bitsOf y⟩

theorem Model.size_of_isFeasible {R : Type} {m : Model R} {y : Array Bool} (hy : m.isFeasible y = true) :
    y.size = m.numVars := by
  rw [isFeasible, Bool.and_eq_true, beq_iff_eq] at hy
  exact hy.1

def Model.OrderedBy {R K : Type} [Scalar R] [LT K] (m : Model R) (f : R → K) : Prop :=
  ∀ y z, m.isFeasible y = true → m.isFeasible z = true →
    (m.objectiveValue y < m.objectiveValue z ↔ f (m.objectiveValue y) < f (m.objectiveValue z))

variable {R K : Type} [Scalar R] [LinearOrder K] {m : Model R} {f : R → K}

namespace Enumeration

structure Covers (m : Model R) (f : R → K) (count : ℕ) (e : Enumeration R) : Prop where
  cutShort : e.cutShort = false
  reached : ∀ i, e.best = some i → m.isFeasible i.values = true ∧
    i.objective = m.objectiveValue i.values
  bounded : ∀ bits < count, m.isFeasible (valuesOfBits m.numVars bits) = true →
    ∃ i, e.best = some i ∧ f (m.objectiveValue (valuesOfBits m.numVars bits)) ≤ f i.objective

section Consider

variable {y : Array Bool} {best : Option (Incumbent R)}

/-- The best assignment stays, or gives way to a feasible one with a greater objective. -/
theorem consider_eq (m : Model R) (y : Array Bool) (best : Option (Incumbent R)) :
    consider m y best = best ∨
      m.isFeasible y = true ∧ (∀ b, best = some b → b.objective < m.objectiveValue y) ∧
        consider m y best = some ⟨m.objectiveValue y, y⟩ := by
  unfold consider
  split
  · next hy =>
    dsimp only
    split
    · next hbest =>
      refine .inr ⟨hy, ?_, rfl⟩
      rintro b rfl
      exact of_decide_eq_true hbest
    · exact .inl rfl
  · exact .inl rfl

theorem exists_objectiveValue_le_consider (hf : m.OrderedBy f)
    (hbest : ∀ i, best = some i → m.isFeasible i.values = true ∧
      i.objective = m.objectiveValue i.values) (hy : m.isFeasible y = true) :
    ∃ i, consider m y best = some i ∧ f (m.objectiveValue y) ≤ f i.objective := by
  cases best with
  | none => exact ⟨⟨m.objectiveValue y, y⟩, if_pos hy, le_rfl⟩
  | some i =>
    obtain ⟨hfeas, hobj⟩ := hbest i rfl
    simp only [consider, hy, if_true, Option.all_some, decide_eq_true_eq]
    split
    · exact ⟨_, rfl, le_rfl⟩
    · next hlt =>
      rw [hobj, hf _ _ hfeas hy, ← hobj] at hlt
      exact ⟨i, rfl, not_lt.1 hlt⟩

theorem exists_objective_le_consider (hf : m.OrderedBy f) {i : Incumbent R}
    (hi : m.isFeasible i.values = true ∧ i.objective = m.objectiveValue i.values) :
    ∃ j, consider m y (some i) = some j ∧ f i.objective ≤ f j.objective := by
  unfold consider
  split
  · next hy =>
    obtain ⟨hfeas, hobj⟩ := hi
    simp only [Option.all_some, decide_eq_true_eq]
    split
    · next hlt =>
      rw [hobj, hf _ _ hfeas hy, ← hobj] at hlt
      exact ⟨_, rfl, hlt.le⟩
    · exact ⟨i, rfl, le_rfl⟩
  · exact ⟨i, rfl, le_rfl⟩

end Consider

theorem Covers.step (hf : m.OrderedBy f) {count : ℕ} {e : Enumeration R} (h : e.Covers m f count) :
    (e.step m .never count).Covers m f (count + 1) := by
  have hstep : e.step m .never count = { e with
      best := consider m (valuesOfBits m.numVars count) e.best
      nodes := e.nodes + 1 } := by
    simp [Enumeration.step, h.cutShort, Deadline.never]
  rw [hstep]
  refine ⟨h.cutShort, ?_, ?_⟩
  · intro i hi
    rcases consider_eq m (valuesOfBits m.numVars count) e.best with he | ⟨hy, -, he⟩
    · exact h.reached i (he.symm.trans hi)
    · obtain rfl := Option.some_inj.1 (he.symm.trans hi)
      exact ⟨hy, rfl⟩
  · intro bits hbits hfeas
    rcases Nat.lt_succ_iff_lt_or_eq.1 hbits with hbits | rfl
    · obtain ⟨i, hi, hle⟩ := h.bounded bits hbits hfeas
      obtain ⟨j, hj, hle'⟩ := exists_objective_le_consider hf (h.reached i hi)
      exact ⟨j, hi ▸ hj, hle.trans hle'⟩
    · exact exists_objectiveValue_le_consider hf h.reached hfeas

theorem covers_run (hf : m.OrderedBy f) : (run m .never).Covers m f (2 ^ m.numVars) := by
  have h (count : ℕ) :
      (count.fold (fun bits _ e ↦ e.step m .never bits) ({} : Enumeration R)).Covers m f count := by
    induction count with
    | zero => exact ⟨rfl, nofun, nofun⟩
    | succ count ih =>
      rw [Nat.fold_succ]
      exact ih.step hf
  rw [run, Nat.one_shiftLeft]
  exact h _

end Enumeration

theorem exists_enumerate_eq_of_orderedBy (hf : m.OrderedBy f) (hn : m.numVars ≤ maxEnumeratedVars)
    {y : Array Bool} (hy : m.isFeasible y = true) :
    ∃ z, (enumerate .never m).status = .optimal ∧
      (enumerate .never m).objective = some (m.objectiveValue z) ∧ m.isFeasible z = true ∧
      ∀ w, m.isFeasible w = true → f (m.objectiveValue w) ≤ f (m.objectiveValue z) := by
  have hc := Enumeration.covers_run hf
  have hall (z : Array Bool) (hz : m.isFeasible z = true) :
      ∃ i, (Enumeration.run m .never).best = some i ∧ f (m.objectiveValue z) ≤ f i.objective := by
    obtain ⟨bits, hlt, hz'⟩ := exists_valuesOfBits_eq z
    rw [Model.size_of_isFeasible hz] at hlt hz'
    rw [← hz'] at hz ⊢
    exact hc.bounded bits hlt hz
  obtain ⟨i, hi, -⟩ := hall y hy
  obtain ⟨hfeas, hobj⟩ := hc.reached i hi
  have henum : enumerate .never m = .ofSearch m.numVars false (some i)
      (Enumeration.run m .never).nodes := by
    rw [enumerate, if_neg (not_lt.2 hn), ← hi, ← hc.cutShort]
  refine ⟨i.values, by rw [henum]; rfl, by rw [henum, ← hobj]; rfl, hfeas, fun w hw ↦ ?_⟩
  obtain ⟨j, hj, hle⟩ := hall w hw
  obtain rfl := Option.some_inj.1 (hi.symm.trans hj)
  rwa [← hobj]

variable {K : Type} [Field K] [LinearOrder K] {m : Model K} {n : ℕ}

/-- On models of so many variables, the answer is the greatest objective of a feasible assignment whenever
there is one. -/
def SolvesExactly (solve : Solver K) (n : ℕ) : Prop :=
  ∀ m, m.WellFormed → m.numVars = n → (∃ y, m.isFeasible y = true) →
    ∃ v, (solve m).status = .optimal ∧ (solve m).objective = some v ∧
      IsGreatest {w | ∃ z, m.isFeasible z = true ∧ m.objectiveValue z = w} v

theorem exists_enumerate_eq (hn : m.numVars ≤ maxEnumeratedVars) {y : Array Bool}
    (hy : m.isFeasible y = true) :
    ∃ v, (enumerate .never m).status = .optimal ∧ (enumerate .never m).objective = some v ∧
      IsGreatest {w | ∃ z, m.isFeasible z = true ∧ m.objectiveValue z = w} v := by
  have hid : m.OrderedBy (id : K → K) := fun _ _ _ _ ↦ Iff.rfl
  obtain ⟨z, hstatus, hobj, hz, hle⟩ := exists_enumerate_eq_of_orderedBy hid hn hy
  refine ⟨_, hstatus, hobj, ⟨z, hz, rfl⟩, ?_⟩
  rintro _ ⟨w, hw, rfl⟩
  exact hle w hw

theorem solvesExactly_enumerate (hn : n ≤ maxEnumeratedVars) :
    SolvesExactly (enumerate .never : Solver K) n := by
  rintro m - rfl ⟨y, hy⟩
  exact exists_enumerate_eq hn hy

end NoisyDNF.ZeroOne
