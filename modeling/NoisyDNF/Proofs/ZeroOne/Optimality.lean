import Mathlib.Algebra.Order.Field.Basic
import Mathlib.Algebra.Order.Group.MinMax
import Mathlib.Algebra.Order.Ring.Rat
import Mathlib.Tactic.Linarith
import NoisyDNF.Proofs.ZeroOne.Admissible
import NoisyDNF.Proofs.ZeroOne.Incumbents

namespace NoisyDNF.ZeroOne

variable {K : Type} [Field K] [LinearOrder K]

theorem Node.invariant_tracksObjective (m : Model K) :
    Invariant m fun n ↦ n.TracksObjective m where
  assign b ht h hv := h.assign ht b hv
  undo ht h := h.undo ht

variable [IsStrictOrderedRing K] {m : Model K} {deadline : Deadline}

namespace Search

theorem threshold_eq (a : K) : threshold a = a + 1 / 10 ^ 12 * max |a| 1 := by
  rw [threshold, Scalar.larger_eq_max, Scalar.magnitude_eq_abs]
  rfl

theorem lt_threshold (a : K) : a < threshold a := by
  have h : (0 : K) < max |a| 1 := lt_max_of_lt_right one_pos
  rw [threshold, Scalar.larger_eq_max, Scalar.magnitude_eq_abs]
  exact lt_add_of_pos_right a (mul_pos Scalar.tolerance_pos h)

theorem add_mul_max_le {t a b : K} (h₀ : 0 ≤ t) (h₁ : t ≤ 1) (h : a ≤ b) :
    a + t * max |a| 1 ≤ b + t * max |b| 1 := by
  have hmax : max |a| 1 - max |b| 1 ≤ b - a :=
    calc max |a| 1 - max |b| 1 ≤ |max |a| 1 - max |b| 1| := le_abs_self _
      _ ≤ |(|a| - |b|)| := abs_max_sub_max_le_abs _ _ _
      _ ≤ |a - b| := abs_abs_sub_abs_le_abs_sub a b
      _ = b - a := by rw [abs_sub_comm, abs_of_nonneg (sub_nonneg.2 h)]
  have htol : t * (max |a| 1 - max |b| 1) ≤ b - a :=
    calc t * (max |a| 1 - max |b| 1) ≤ t * (b - a) := mul_le_mul_of_nonneg_left hmax h₀
      _ ≤ 1 * (b - a) := mul_le_mul_of_nonneg_right h₁ (sub_nonneg.2 h)
      _ = b - a := one_mul _
  linarith [mul_sub t (max |a| 1) (max |b| 1)]

theorem threshold_mono {a b : K} (h : a ≤ b) : threshold a ≤ threshold b := by
  simp only [threshold, Scalar.larger_eq_max, Scalar.magnitude_eq_abs]
  exact add_mul_max_le Scalar.tolerance_pos.le Scalar.tolerance_le_one h

/-- A pruned node has no feasible completion above the threshold of the incumbent then. -/
theorem Entered.exists_threshold {c : Search K} (hm : m.WellFormed)
    (hc : Entered m (fun n ↦ n.TracksObjective m) c) (hp : c.isPruned m = true) {y : Array Bool}
    (hy : m.isFeasible y = true) (hf : Completes c.node.valueOf (truth y)) :
    ∃ i ∈ c.incumbents, m.objectiveValue y ≤ threshold i.objective := by
  obtain ⟨b, hb, hle, -⟩ := Node.objectiveValue_le_bound hm hc.tracks hc.invariant hy hf
  cases hi : c.incumbents with
  | nil => simp [isPruned, best?, hi] at hp
  | cons i l =>
    rw [isPruned, best?, hi, List.head?_cons] at hp
    simp only [hb, decide_eq_true_eq] at hp
    exact ⟨i, List.mem_cons_self, hle.trans hp⟩

/-- A leaf that is not pruned beats the incumbent. -/
theorem Entered.lt_objectiveValue {c : Search K} (hm : m.WellFormed)
    (hc : Entered m (fun n ↦ n.TracksObjective m) c) (hl : c.IsLeaf m) {i : Incumbent K}
    {l : List (Incumbent K)} (hi : c.incumbents = i :: l) :
    i.objective < m.objectiveValue c.leafValues := by
  have hy := hc.isFeasible_leafValues hm hl
  obtain ⟨hsize, -⟩ := (Model.isFeasible_iff hm).1 hy
  obtain ⟨b, hb, -, hle⟩ :=
    Node.objectiveValue_le_bound hm hc.tracks hc.invariant hy c.completes_leafValues
  have hleaf := Node.objectiveValue_of_leaf hm hc.invariant hsize c.completes_leafValues
    fun v hv h ↦ hl.not_isFree v (Node.isFree_iff.2 ⟨hc.tracks.size_values ▸ hv, h⟩)
  have hp := hl.not_isPruned
  rw [isPruned, best?, hi, List.head?_cons] at hp
  simp only [hb, decide_eq_false_iff_not, not_le] at hp
  exact ((lt_threshold i.objective).trans hp).trans_le (hle.trans_eq hleaf.symm)

theorem lt_of_suffix_incumbents (hm : m.WellFormed) {i j : Incumbent K} {l : List (Incumbent K)}
    (h : i :: j :: l <:+ (run m deadline).incumbents) : j.objective < i.objective := by
  obtain ⟨c, hc, hl, hinc, rfl⟩ :=
    exists_leaf hm (Node.invariant_tracksObjective m) (Node.tracksObjective_root hm) h
  exact hc.lt_objectiveValue hm hl hinc

theorem pairwise_incumbents (hm : m.WellFormed) (deadline : Deadline) :
    (run m deadline).incumbents.Pairwise fun i j ↦ j.objective < i.objective := by
  have hchain : ((run m deadline).incumbents.map (·.objective)).IsChain (· > ·) := by
    rw [List.isChain_map, List.isChain_iff_forall_rel_of_append_cons_cons]
    intro i j l l' he
    exact lt_of_suffix_incumbents hm ⟨l, he.symm⟩
  exact List.pairwise_map.1 hchain.pairwise

theorem objectiveValue_le_threshold (hm : m.WellFormed)
    (ht : (run m deadline).timedOut = false) {i : Incumbent K} {l : List (Incumbent K)}
    (hi : (run m deadline).incumbents = i :: l) {y : Array Bool} (hy : m.isFeasible y = true) :
    m.objectiveValue y ≤ threshold i.objective := by
  have ho := outcome_run deadline hm (Node.invariant_tracksObjective m)
    (Node.tracksObjective_root hm)
  have hbest (j : Incumbent K) (hj : j ∈ (run m deadline).incumbents) :
      j.objective ≤ i.objective :=
    le_head_of_suffix (fun b c l h ↦ (lt_of_suffix_incumbents hm (hi ▸ h)).le) (hi ▸ hj)
  rcases ho.accounts y hy ⟨⟩ with h | ⟨j, hj, rfl⟩ | ⟨c, hc, hp, hf⟩
  · exact absurd (ht.symm.trans h) Bool.false_ne_true
  · rw [← (mem_incumbents hm hj).2]
    exact (hbest j hj).trans (lt_threshold _).le
  · obtain ⟨hec, hsuf⟩ := ho.entered c hc
    obtain ⟨j, hj, hle⟩ := hec.exists_threshold hm hp hy hf
    exact hle.trans (threshold_mono (hbest j (hsuf.subset hj)))

end Search

theorem objectiveValue_le_of_optimal (hm : m.WellFormed)
    (h : (branchAndBound deadline m).status = .optimal) :
    ∃ v, (branchAndBound deadline m).objective = some v ∧
      ∀ y, m.isFeasible y = true → m.objectiveValue y ≤ v + 1 / 10 ^ 12 * max |v| 1 := by
  obtain ⟨ht, hfound⟩ := Status.ofSearch_eq_optimal_iff.1 h
  obtain ⟨i, hi⟩ := Option.isSome_iff_exists.1 hfound
  obtain ⟨l, hl⟩ := List.head?_eq_some_iff.1 hi
  refine ⟨i.objective, ?_, ?_⟩
  · simp only [branchAndBound, Solution.ofSearch, hi, Option.map_some]
  · intro y hy
    rw [← Search.threshold_eq]
    exact Search.objectiveValue_le_threshold hm ht hl hy

/-- In exact arithmetic an optimal answer is optimal up to the tolerance, and the search only ever
replaces an incumbent by a better one. -/
theorem branchAndBound_optimal (hm : m.Built) (deadline : Deadline) :
    ((branchAndBound deadline m).status = .optimal →
      ∃ v, (branchAndBound deadline m).objective = some v ∧
        ∀ y, m.isFeasible y = true → m.objectiveValue y ≤ v + 1 / 10 ^ 12 * max |v| 1) ∧
    (Search.run m deadline).incumbents.Pairwise fun new old ↦ old.objective < new.objective :=
  ⟨objectiveValue_le_of_optimal hm.wellFormed, Search.pairwise_incumbents hm.wellFormed deadline⟩

def Model.eitherOr : Model ℚ :=
  { names := #["a", "b"], objective := #[2, 3], constraints := [⟨[(0, 1), (1, 1)], .atMost, 1⟩] }

theorem Model.built_eitherOr : eitherOr.Built := built_iff_wellFormed.2 (by decide)

theorem branchAndBound_optimal_eitherOr :
    ∃ v, (branchAndBound .never Model.eitherOr).objective = some v ∧
      ∀ y, Model.eitherOr.isFeasible y = true →
        Model.eitherOr.objectiveValue y ≤ v + 1 / 10 ^ 12 * max |v| 1 :=
  (branchAndBound_optimal Model.built_eitherOr .never).1 (by decide +kernel)

end NoisyDNF.ZeroOne
