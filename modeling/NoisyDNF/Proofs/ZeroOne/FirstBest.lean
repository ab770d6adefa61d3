import NoisyDNF.Proofs.Binary64.Order
import NoisyDNF.Proofs.ZeroOne.Enumeration

namespace NoisyDNF.ZeroOne

variable {R K : Type} [Scalar R] [LinearOrder K] {m : Model R} {f : R → K}

namespace Enumeration

/-- All numbers below `count` have been tried, and the best assignment is the first of the best ones. -/
structure FirstBest (m : Model R) (f : R → K) (count : ℕ) (e : Enumeration R) : Prop
    extends e.Covers m f count where
  nodes : e.nodes = count
  first : ∀ i, e.best = some i → ∃ bits < count, valuesOfBits m.numVars bits = i.values ∧
    ∀ earlier < bits, m.isFeasible (valuesOfBits m.numVars earlier) = true →
      f (m.objectiveValue (valuesOfBits m.numVars earlier)) < f i.objective

theorem FirstBest.step (hf : m.OrderedBy f) {count : ℕ} {e : Enumeration R}
    (h : e.FirstBest m f count) : (e.step m .never count).FirstBest m f (count + 1) := by
  have hstep : e.step m .never count = { e with
      best := consider m (valuesOfBits m.numVars count) e.best
      nodes := e.nodes + 1 } := by
    simp [Enumeration.step, h.cutShort, Deadline.never]
  have hcovers := h.toCovers.step hf
  rw [hstep] at hcovers ⊢
  refine ⟨hcovers, congrArg (· + 1) h.nodes, fun i hi ↦ ?_⟩
  rcases consider_eq m (valuesOfBits m.numVars count) e.best with he | ⟨hy, hlt, he⟩
  · obtain ⟨bits, hbits, hrest⟩ := h.first i (he.symm.trans hi)
    exact ⟨bits, Nat.lt_succ_of_lt hbits, hrest⟩
  · obtain rfl := Option.some_inj.1 (he.symm.trans hi)
    refine ⟨count, Nat.lt_succ_self count, rfl, fun earlier hearlier hfeas ↦ ?_⟩
    -- The incumbent is at least as good as any earlier one, and the new one beats it.
    obtain ⟨b, hb, hle⟩ := h.bounded earlier hearlier hfeas
    obtain ⟨hbfeas, hbobj⟩ := h.reached b hb
    refine hle.trans_lt ?_
    rw [hbobj]
    exact (hf _ _ hbfeas hy).1 (hbobj ▸ hlt b hb)

theorem firstBest_run (hf : m.OrderedBy f) : (run m .never).FirstBest m f (2 ^ m.numVars) := by
  have h (count : ℕ) :
      (count.fold (fun bits _ e ↦ e.step m .never bits) ({} : Enumeration R)).FirstBest m f count := by
    induction count with
    | zero => exact ⟨⟨rfl, nofun, nofun⟩, rfl, nofun⟩
    | succ count ih =>
      rw [Nat.fold_succ]
      exact ih.step hf
  rw [run, Nat.one_shiftLeft]
  exact h _

end Enumeration

structure Model.IsFirstBest (m : Model R) (f : R → K) (z : Array Bool) : Prop where
  isFeasible : m.isFeasible z = true
  le : ∀ y, m.isFeasible y = true → f (m.objectiveValue y) ≤ f (m.objectiveValue z)
  first : ∀ y, m.isFeasible y = true → f (m.objectiveValue z) ≤ f (m.objectiveValue y) →
    bitsOf z ≤ bitsOf y

theorem enumerate_eq (hf : m.OrderedBy f) (hn : m.numVars ≤ maxEnumeratedVars) :
    (enumerate .never m).nodes = 2 ^ m.numVars ∧
      ((¬ ∃ y, m.isFeasible y = true) ∧ (enumerate .never m).status = .infeasible ∨
        (enumerate .never m).status = .optimal ∧ (enumerate .never m).objective =
          some (m.objectiveValue (enumerate .never m).values) ∧
        m.IsFirstBest f (enumerate .never m).values) := by
  have h := Enumeration.firstBest_run hf
  have henum : enumerate .never m = .ofSearch m.numVars false (Enumeration.run m .never).best
      (2 ^ m.numVars) := by
    rw [enumerate, if_neg (not_lt.2 hn), ← h.cutShort, ← h.nodes]
  have hbits {y : Array Bool} (hy : m.isFeasible y = true) :
      bitsOf y < 2 ^ m.numVars ∧ valuesOfBits m.numVars (bitsOf y) = y :=
    Model.size_of_isFeasible hy ▸ ⟨bitsOf_lt y, valuesOfBits_bitsOf y⟩
  rw [henum]
  refine ⟨rfl, ?_⟩
  cases hbest : (Enumeration.run m .never).best with
  | none =>
    refine .inl ⟨?_, rfl⟩
    rintro ⟨y, hy⟩
    obtain ⟨hlt, hval⟩ := hbits hy
    obtain ⟨i, hi, -⟩ := h.bounded (bitsOf y) hlt (hval.symm ▸ hy)
    rw [hbest] at hi
    cases hi
  | some i =>
    obtain ⟨hfeas, hobj⟩ := h.reached i hbest
    refine .inr ⟨rfl, congrArg some hobj, hfeas, fun y hy ↦ ?_, fun y hy hle ↦ ?_⟩
    · obtain ⟨hlt, hval⟩ := hbits hy
      obtain ⟨j, hj, hle⟩ := h.bounded (bitsOf y) hlt (hval.symm ▸ hy)
      obtain rfl := Option.some_inj.1 (hbest.symm.trans hj)
      rwa [hval, hobj] at hle
    · obtain ⟨-, hval⟩ := hbits hy
      obtain ⟨bits, hlt, hvalues, hearlier⟩ := h.first i hbest
      have hnum : bitsOf i.values = bits := hvalues ▸ bitsOf_valuesOfBits hlt
      by_contra hgt
      have hless := hearlier (bitsOf y) (hnum ▸ not_le.1 hgt) (hval.symm ▸ hy)
      rw [hval, hobj] at hless
      exact absurd hle (not_le.2 hless)

open Binary64 in
/-- Every assignment is tried, and the answer is the first of the best, whatever infinities and signed zeros
the objectives are. -/
theorem enumerate_isFirstBest {m : Model Float} (hn : m.numVars ≤ maxEnumeratedVars)
    (hdef : ∀ y, m.isFeasible y = true → (m.objectiveValue y).isNaN = false) :
    ((enumerate .never m).status = .infeasible ↔ ¬ ∃ y, m.isFeasible y = true) ∧
    ((∃ y, m.isFeasible y = true) → (enumerate .never m).status = .optimal ∧
      (enumerate .never m).objective = some (m.objectiveValue (enumerate .never m).values) ∧
      m.isFeasible (enumerate .never m).values = true ∧
      ∀ y, m.isFeasible y = true →
        m.objectiveValue y ≤ m.objectiveValue (enumerate .never m).values ∧
        (m.objectiveValue (enumerate .never m).values ≤ m.objectiveValue y →
          bitsOf (enumerate .never m).values ≤ bitsOf y)) ∧
    (enumerate .never m).nodes = 2 ^ m.numVars := by
  have hord : m.OrderedBy place := fun y z hy hz ↦ lt_iff_place (hdef y hy) (hdef z hz)
  obtain ⟨hnodes, ⟨hno, hstatus⟩ | ⟨hstatus, hobj, hbest⟩⟩ := enumerate_eq hord hn
  · exact ⟨iff_of_true hstatus hno, fun h ↦ absurd h hno, hnodes⟩
  · have hiff (y z : Array Bool) (hy : m.isFeasible y = true) (hz : m.isFeasible z = true) :=
      le_iff_place (hdef y hy) (hdef z hz)
    refine ⟨iff_of_false (by rw [hstatus]; decide) (not_not.2 ⟨_, hbest.isFeasible⟩), fun _ ↦ ?_, hnodes⟩
    refine ⟨hstatus, hobj, hbest.isFeasible, fun y hy ↦ ⟨?_, fun hle ↦ ?_⟩⟩
    · exact (hiff _ _ hy hbest.isFeasible).2 (hbest.le y hy)
    · exact hbest.first y hy ((hiff _ _ hbest.isFeasible hy).1 hle)

def Model.unbounded : Model Float where
  names := #["a", "b", "c"]
  objective := #[-0.0, 1 / 0, 1 / 0]
  constraints := [⟨[(0, 1), (1, 1), (2, 1)], .atMost, 1⟩]

/-- The second variable and the third are worth the same, and the second comes first. -/
theorem enumerate_isFirstBest_unbounded :
    (enumerate .never Model.unbounded).status = .optimal ∧
      (enumerate .never Model.unbounded).values = #[false, true, false] ∧
      Model.unbounded.objectiveValue #[false, false, true] ≤
        Model.unbounded.objectiveValue #[false, true, false] ∧
      bitsOf #[false, true, false] ≤ bitsOf #[false, false, true] ∧
      (enumerate .never Model.unbounded).nodes = 2 ^ 3 := by
  have hdef (y : Array Bool) (hy : Model.unbounded.isFeasible y = true) :
      (Model.unbounded.objectiveValue y).isNaN = false := by
    have hall : ∀ bits < 2 ^ 3, Model.unbounded.isFeasible (valuesOfBits 3 bits) = true →
        (Model.unbounded.objectiveValue (valuesOfBits 3 bits)).isNaN = false := by decide +kernel
    have hsize : y.size = 3 := Model.size_of_isFeasible hy
    have hval := valuesOfBits_bitsOf y
    rw [hsize] at hval
    exact hval ▸ hall (bitsOf y) (hsize ▸ bitsOf_lt y) (hval.symm ▸ hy)
  have hvalues : (enumerate .never Model.unbounded).values = #[false, true, false] := by decide +kernel
  obtain ⟨-, hbest, hnodes⟩ := enumerate_isFirstBest (m := Model.unbounded) (by decide) hdef
  obtain ⟨hstatus, -, -, hall⟩ := hbest ⟨#[false, true, false], by decide⟩
  rw [hvalues] at hall
  obtain ⟨hle, hfirst⟩ := hall #[false, false, true] (by decide)
  exact ⟨hstatus, hvalues, hle, hfirst (by decide +kernel), hnodes⟩

end NoisyDNF.ZeroOne
