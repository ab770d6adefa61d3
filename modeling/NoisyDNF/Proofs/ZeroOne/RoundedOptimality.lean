import NoisyDNF.Proofs.ZeroOne.Enumeration
import NoisyDNF.Proofs.ZeroOne.ExactBound
import NoisyDNF.Proofs.ZeroOne.Optimality

namespace NoisyDNF.ZeroOne

open Binary64

def slack (v : ℚ) : ℚ := v + 1 / 10 ^ 9 * max |v| 1

theorem slack_mono {v w : ℚ} (h : v ≤ w) : slack v ≤ slack w :=
  Search.add_mul_max_le (by norm_num) (by norm_num) h

theorem le_slack (v : ℚ) : v ≤ slack v :=
  le_add_of_nonneg_right (mul_nonneg (by norm_num) (zero_le_one.trans (le_max_right _ _)))

/-- The threshold is rounded to something between the objective and what it may reach. -/
theorem threshold_mem {a : Float} (ha : a.isFinite = true) (h : slack (value a) ≤ greatest) :
    (Search.threshold a).isFinite = true ∧ value a ≤ value (Search.threshold a) ∧
      value (Search.threshold a) ≤ slack (value a) := by
  have hL := isFinite_larger (isFinite_magnitude ha) isFinite_one
  have hM : value (Scalar.larger (Scalar.magnitude a) 1) = max |value a| 1 := by
    rw [value_larger (isFinite_magnitude ha) isFinite_one, value_magnitude ha, value_one]
  have hM₁ : 1 ≤ max |value a| 1 := le_max_right _ _
  have hMg : max |value a| 1 ≤ greatest := max_le (abs_value_le_greatest a) one_le_greatest
  obtain ⟨hlo, hhi⟩ := abs_le.1 (le_max_left |value a| 1)
  obtain ⟨hg, -⟩ := abs_le.1 (abs_value_le_greatest a)
  rw [slack] at h ⊢
  generalize max |value a| 1 = M at *
  -- The relative gain is rounded first, then its sum with the objective.
  have ht₀ := value_tolerance_pos
  have ht₁ := value_tolerance_le
  have hprod₀ : 0 ≤ value Scalar.tolerance * M := mul_nonneg ht₀.le (by linarith)
  have hprod₁ : value Scalar.tolerance * M ≤ 1 / 2 ^ 39 * M :=
    mul_le_mul_of_nonneg_right ht₁ (by linarith)
  have hp := computes_mul isFinite_tolerance hL (by
    rw [hM, abs_of_nonneg hprod₀]
    linarith)
  rw [hM] at hp
  have hp₀ := hp.isRounding.nonneg hprod₀
  have hp₁ := hp.isRounding.le_add hM₁ (by rw [abs_of_nonneg hprod₀]; linarith)
  have hs := computes_add ha hp.isFinite (abs_le.2 ⟨by linarith, by linarith⟩)
  refine ⟨hs.isFinite, hs.isRounding.ge _ (representable_value a) (by linarith), ?_⟩
  have hs₁ := hs.isRounding.le_add hM₁ (abs_le.2 ⟨by linarith, by linarith⟩)
  exact hs₁.trans (by linarith)

namespace Model

open Search

/-- A feasible assignment is better than `v` allows for, although the search has come across it or
across a node above it. -/
inductive LosesOptimum (m : Model Float) (v : Float) : Prop
  | replaced (i : Incumbent Float) : i ∈ (run m .never).incumbents →
      slack (value v) < value i.objective → LosesOptimum m v
  | pruned (c : Search Float) (y : Array Bool) : c ∈ entered m .never → c.isPruned m = true →
      m.isFeasible y = true → Completes c.node.valueOf (truth y) →
      slack (value v) < value (m.objectiveValue y) → LosesOptimum m v

/-- A worse assignment has replaced a better one, or a bound lies below an objective that can be
reached. -/
inductive Drifts (m : Model Float) : Prop
  | replaced (i j : Incumbent Float) (l : List (Incumbent Float)) :
      i :: j :: l <:+ (run m .never).incumbents → i.objective < j.objective → Drifts m
  | bounded (c : Search Float) (y : Array Bool) : c ∈ entered m .never → m.isFeasible y = true →
      Completes c.node.valueOf (truth y) →
      (∀ b, c.node.bound? m = some b → ¬ m.objectiveValue y ≤ b) → Drifts m

def IsNearOptimal (m : Model Float) (v : Float) : Prop :=
  ∀ y, m.isFeasible y = true → value (m.objectiveValue y) ≤ slack (value v)

variable {m : Model Float} {v : Float}

theorem isNearOptimal_iff (hm : m.WellFormed) : m.IsNearOptimal v ↔ ¬ m.LosesOptimum v := by
  constructor
  · rintro h (⟨i, hi, hlt⟩ | ⟨c, y, -, -, hy, -, hlt⟩)
    · obtain ⟨hfeas, hobj⟩ := mem_incumbents hm hi
      exact absurd (h i.values hfeas) (not_le.2 (hobj ▸ hlt))
    · exact absurd (h y hy) (not_le.2 hlt)
  · intro h y hy
    have ho := outcome_run .never hm (Node.Invariant.trivial m) ⟨⟩
    by_contra hlt
    rcases ho.accounts y hy ⟨⟩ with ht | ⟨i, hi, rfl⟩ | ⟨c, hc, hp, hf⟩
    · exact absurd ((timedOut_never hm).symm.trans ht) Bool.false_ne_true
    · exact h (.replaced i hi ((mem_incumbents hm hi).2 ▸ not_le.1 hlt))
    · exact h (.pruned c y hc hp hy hf (not_le.1 hlt))

section Finite

variable (hm : m.WellFormed)
  (hfin : ∀ y, m.isFeasible y = true → (m.objectiveValue y).isFinite = true)
include hm hfin

theorem isFinite_objective {i : Incumbent Float} (hi : i ∈ (run m .never).incumbents) :
    i.objective.isFinite = true := by
  obtain ⟨hfeas, hobj⟩ := mem_incumbents hm hi
  exact hobj ▸ hfin _ hfeas

theorem value_le_of_not_drifts (hno : ¬ m.Drifts) {i j : Incumbent Float}
    {l : List (Incumbent Float)} (hi : (run m .never).incumbents = i :: l)
    (hj : j ∈ (run m .never).incumbents) : value j.objective ≤ value i.objective := by
  rw [hi] at hj
  refine le_head_of_suffix (f := fun i : Incumbent Float ↦ value i.objective) ?_ hj
  intro b c l' hl
  rw [← hi] at hl
  have hb := isFinite_objective hm hfin (hl.subset List.mem_cons_self)
  have hc := isFinite_objective hm hfin (hl.subset (List.mem_cons_of_mem b List.mem_cons_self))
  exact not_lt.1 fun hlt ↦ hno (.replaced b c l' hl ((lt_iff hb hc).2 hlt))

/-- What is below a pruned node is within the slack of the incumbent that it was pruned for. -/
theorem exists_le_slack (hno : ¬ m.Drifts) {c : Search Float} (hc : c ∈ entered m .never)
    (hp : c.isPruned m = true) {y : Array Bool} (hy : m.isFeasible y = true)
    (hf : Completes c.node.valueOf (truth y)) :
    ∃ j ∈ (run m .never).incumbents,
      value (m.objectiveValue y) ≤ slack (value j.objective) := by
  obtain ⟨-, hsuf⟩ := (outcome_run .never hm (Node.Invariant.trivial m) ⟨⟩).entered c hc
  cases hinc : c.incumbents with
  | nil => simp [isPruned, best?, hinc] at hp
  | cons j l =>
    have hj : j ∈ (run m .never).incumbents := hsuf.subset (hinc ▸ List.mem_cons_self)
    refine ⟨j, hj, not_lt.1 ?_⟩
    intro hlt
    obtain ⟨hT, -, hT'⟩ := threshold_mem (isFinite_objective hm hfin hj)
      (hlt.le.trans ((le_abs_self _).trans (abs_value_le_greatest _)))
    obtain ⟨b, hb, hle⟩ : ∃ b, c.node.bound? m = some b ∧ m.objectiveValue y ≤ b := by
      by_contra hn
      push Not at hn
      exact hno (.bounded c y hc hy hf hn)
    rw [isPruned, best?, hinc, List.head?_cons] at hp
    simp only [hb, decide_eq_true_eq] at hp
    have hbfin := isFinite_of_le_of_le (hfin y hy) hT hle hp
    have hle' := (le_iff (hfin y hy) hbfin).1 hle
    have hp' := (le_iff hbfin hT).1 hp
    exact absurd (hlt.trans_le (hle'.trans (hp'.trans hT'))) (lt_irrefl _)

theorem drifts_of_losesOptimum {i : Incumbent Float} {l : List (Incumbent Float)}
    (hi : (run m .never).incumbents = i :: l) (h : m.LosesOptimum i.objective) : m.Drifts := by
  by_contra hno
  cases h with
  | replaced j hj hlt =>
    have hle := value_le_of_not_drifts hm hfin hno hi hj
    exact absurd (hle.trans (le_slack _)) (not_le.2 hlt)
  | pruned c y hc hp hy hf hlt =>
    obtain ⟨j, hj, hle⟩ := exists_le_slack hm hfin hno hc hp hy hf
    have hbest := value_le_of_not_drifts hm hfin hno hi hj
    exact absurd (hle.trans (slack_mono hbest)) (not_le.2 hlt)

end Finite

theorem slack_le_greatest {g : Grid} {q : ℚ} (h : |q| ≤ g.capacity) : slack q ≤ greatest := by
  have hcap : g.capacity ≤ 2 ^ (1022 : ℤ) :=
    zpow_le_zpow_right₀ one_le_two (by have := g.exponent_le; omega)
  have hone : (1 : ℚ) ≤ 2 ^ (1022 : ℤ) := one_le_zpow₀ one_le_two (by norm_num)
  have hmax : max |q| 1 ≤ 2 ^ (1022 : ℤ) := max_le (h.trans hcap) hone
  calc slack q ≤ 2 ^ (1022 : ℤ) + 1 * 2 ^ (1022 : ℤ) := by
        refine add_le_add ((le_abs_self q).trans (h.trans hcap)) ?_
        exact mul_le_mul (by norm_num) hmax (zero_le_one.trans (le_max_right _ _)) zero_le_one
    _ = 2 ^ ((1022 : ℤ) + 1) := by rw [zpow_add_one₀ two_ne_zero, one_mul, mul_two]
    _ ≤ greatest := le_greatest (by norm_num)

section Exact

variable {g : Grid} (hm : m.WellFormed) (hg : g.Carries m.objective.toList)
include hm hg

theorem not_lt_of_suffix_incumbents {i j : Incumbent Float} {l : List (Incumbent Float)}
    (hl : i :: j :: l <:+ (run m .never).incumbents) : ¬ i.objective < j.objective := by
  obtain ⟨c, hc, hleaf, hinc, rfl⟩ :=
    exists_leaf hm (Node.invariant_sumsExactly hg hm) (Node.sumsExactly_root hg hm) hl
  have hy := hc.isFeasible_leafValues hm hleaf
  obtain ⟨hsize, -⟩ := (isFeasible_iff hm).1 hy
  obtain ⟨b, hb, hbfin, -, hble⟩ :=
    Node.exists_bound?_eq hg hm hc.tracks hc.invariant hy c.completes_leafValues
  have hobj := denotes_objectiveValue hg c.leafValues
  have hleafobj := Node.objectiveValue_of_leaf (wellFormed_exact hm) hc.invariant.tracksObjective
    hsize c.completes_leafValues fun v hv h ↦
      hleaf.not_isFree v (Node.isFree_iff.2 ⟨hc.tracks.size_values ▸ hv, h⟩)
  obtain ⟨hjfeas, hjobj⟩ := mem_incumbents hm (hl.subset (List.mem_cons_of_mem _ List.mem_cons_self))
  have hj := denotes_objectiveValue hg j.values
  rw [← hjobj] at hj
  have hjle := abs_objectiveValue_le hg hm ((isFeasible_iff hm).1 hjfeas).1
  rw [← hj.value_eq] at hjle
  obtain ⟨hT, hjT, -⟩ := threshold_mem hj.isFinite (slack_le_greatest hjle)
  have hp := hleaf.not_isPruned
  rw [isPruned, best?, hinc, List.head?_cons] at hp
  simp only [hb, decide_eq_false_iff_not, le_iff hbfin hT, not_le] at hp
  intro hlt
  have hlt' := (lt_iff hobj.isFinite hj.isFinite).1 hlt
  rw [hobj.value_eq, hleafobj] at hlt'
  exact absurd ((hjT.trans_lt hp).trans_le hble) (lt_asymm hlt')

/-- Without rounding, bounds stay above what can be reached and every incumbent beats the one before. -/
theorem not_drifts : ¬ m.Drifts := by
  rintro (⟨i, j, l, hl, hlt⟩ | ⟨c, y, hc, hy, hf, hno⟩)
  · exact not_lt_of_suffix_incumbents hm hg hl hlt
  · have hJ := Node.invariant_sumsExactly hg hm
    obtain ⟨hec, -⟩ := (outcome_run .never hm hJ (Node.sumsExactly_root hg hm)).entered c hc
    obtain ⟨b, hb, hbfin, hle, -⟩ := Node.exists_bound?_eq hg hm hec.tracks hec.invariant hy hf
    exact hno b hb ((le_iff (denotes_objectiveValue hg y).isFinite hbfin).2 hle)

end Exact

end Model

/-- In binary64 an optimal answer is optimal up to a relative gain of `1 / 10 ^ 9`, and agrees with
enumeration, exactly when the search has lost no assignment. It loses one only when a sum has drifted,
and none does when the coefficients can be added without rounding. -/
theorem branchAndBound_isNearOptimal_iff {m : Model Float} (hm : m.Built)
    (hfin : ∀ y, m.isFeasible y = true → (m.objectiveValue y).isFinite = true)
    (h : (branchAndBound .never m).status = .optimal) :
    ∃ v, (branchAndBound .never m).objective = some v ∧
      (m.IsNearOptimal v ↔ ¬ m.LosesOptimum v) ∧
      (m.numVars ≤ maxEnumeratedVars → ∃ w, (enumerate .never m).status = .optimal ∧
        (enumerate .never m).objective = some w ∧ value v ≤ value w ∧
        (value w ≤ slack (value v) ↔ ¬ m.LosesOptimum v)) ∧
      (m.LosesOptimum v → m.Drifts) ∧
      ∀ g : Grid, g.Carries m.objective.toList → ¬ m.Drifts := by
  have hwf := hm.wellFormed
  obtain ⟨-, hfound⟩ := Status.ofSearch_eq_optimal_iff.1 h
  obtain ⟨i, hi⟩ := Option.isSome_iff_exists.1 hfound
  obtain ⟨l, hl⟩ := List.head?_eq_some_iff.1 hi
  obtain ⟨hfeas, hobj⟩ := Search.mem_incumbents hwf (hl ▸ List.mem_cons_self)
  have hiff := Model.isNearOptimal_iff (v := i.objective) hwf
  refine ⟨i.objective, ?_, hiff, fun hn ↦ ?_, Model.drifts_of_losesOptimum hwf hfin hl,
    fun g hg ↦ Model.not_drifts hwf hg⟩
  · simp only [branchAndBound, Solution.ofSearch, hi, Option.map_some]
  · have hord : m.OrderedBy value := fun y z hy hz ↦ lt_iff (hfin y hy) (hfin z hz)
    obtain ⟨z, hstatus, hw, hz, hle⟩ := exists_enumerate_eq_of_orderedBy hord hn hfeas
    refine ⟨_, hstatus, hw, hobj ▸ hle i.values hfeas, Iff.trans ?_ hiff⟩
    exact ⟨fun hslack y hy ↦ (hle y hy).trans hslack, fun hnear ↦ hnear z hz⟩

def Model.swamped : Model Float :=
  { names := #["a", "b", "c"], objective := #[8, 3, 1e17], constraints := [⟨[(2, 1)], .equal, 0⟩] }

theorem Model.built_swamped : swamped.Built := built_iff_wellFormed.2 (by decide)

/-- The answer is eight although eleven is feasible, and enumeration finds it. -/
theorem branchAndBound_isNearOptimal_iff_swamped :
    (branchAndBound .never Model.swamped).objective = some 8 ∧ ¬ Model.swamped.IsNearOptimal 8 ∧
      Model.swamped.Drifts := by
  have hfin (y : Array Bool) (hy : Model.swamped.isFeasible y = true) :
      (Model.swamped.objectiveValue y).isFinite = true := by
    have hall : ∀ bits < 2 ^ 3, (Model.swamped.objectiveValue (valuesOfBits 3 bits)).isFinite = true := by
      decide +kernel
    obtain ⟨bits, hlt, hbits⟩ := exists_valuesOfBits_eq y
    rw [((Model.isFeasible_iff Model.built_swamped.wellFormed).1 hy).1] at hlt hbits
    exact hbits ▸ hall bits hlt
  obtain ⟨v, hv, hiff, -, hdrift, -⟩ :=
    branchAndBound_isNearOptimal_iff Model.built_swamped hfin (by decide +kernel)
  have hv8 : (branchAndBound .never Model.swamped).objective = some 8 := by decide +kernel
  obtain rfl := Option.some_inj.1 (hv.symm.trans hv8)
  have hfar : ¬ Model.swamped.IsNearOptimal 8 := by
    intro h
    exact absurd (h #[true, true, false] (by decide +kernel)) (by decide +kernel)
  exact ⟨hv8, hfar, hdrift (not_not.1 fun h ↦ hfar (hiff.2 h))⟩

end NoisyDNF.ZeroOne
