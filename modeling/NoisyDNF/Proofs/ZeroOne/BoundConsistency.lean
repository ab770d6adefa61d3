import Mathlib.Algebra.Order.Ring.Rat
import Mathlib.Order.Bounds.Basic
import NoisyDNF.Proofs.ZeroOne.Consistency

namespace NoisyDNF.ZeroOne

theorem Completes.update_right {σ : ℕ → Option Bool} {f : ℕ → Bool} (h : Completes σ f) {v : ℕ} {b : Bool}
    (hb : (σ v).all (· == b) = true) : Completes σ (Function.update f v b) := by
  intro w b' hw
  by_cases hwv : w = v
  · subst hwv
    rw [hw, Option.all_some, beq_iff_eq] at hb
    rw [Function.update_self, hb]
  · rw [Function.update_of_ne hwv]
    exact h w b' hw

namespace Activity

/-- The left-hand side is least when the negative coefficients of free variables count. -/
theorem least_share (k : ℤ) (o : Option Bool) :
    (share k o).least = if o.getD (decide (k < 0)) then k else 0 := by
  cases o with
  | none =>
    by_cases hk : k < 0
    · simp [share, least, hk, hk.le]
    · simp [share, least, hk, not_lt.1 hk]
  | some b => cases b <;> simp [share, least]

/-- The left-hand side is greatest when the positive coefficients of free variables count. -/
theorem greatest_share (k : ℤ) (o : Option Bool) :
    (share k o).greatest = if o.getD (decide (0 < k)) then k else 0 := by
  cases o with
  | none =>
    by_cases hk : 0 < k
    · simp [share, greatest, hk, hk.le]
    · simp [share, greatest, hk, not_lt.1 hk]
  | some b => cases b <;> simp [share, greatest]

theorem least_share_le_greatest (k : ℤ) (o : Option Bool) :
    (share k o).least ≤ (share k o).greatest := by
  rw [least_share, greatest_share]
  cases o with
  | none =>
    simp only [Option.getD_none, decide_eq_true_eq]
    omega
  | some b => rfl

end Activity

theorem Comparison.admits_iff (c : Comparison) (rhs least greatest : ℤ) :
    c.admits rhs least greatest = true ↔
      (c.isUpper = true → least ≤ rhs) ∧ (c.isLower = true → rhs ≤ greatest) := by
  cases c <;> simp [admits, isUpper, isLower]

namespace Constraint

variable {c : Constraint} {k : ℕ}

def achievable (c : Constraint) (σ : ℕ → Option Bool) : Set ℤ := {z | ∃ f, Completes σ f ∧ c.lhs f = z}

/-- As far as the least and the greatest achievable left-hand side tell, the constraint can be satisfied. -/
def IsCompatible (c : Constraint) (σ : ℕ → Option Bool) : Prop :=
  ∃ least greatest, IsLeast (c.achievable σ) least ∧ IsGreatest (c.achievable σ) greatest ∧
    (c.comparison.isUpper = true → least ≤ c.rhs) ∧ (c.comparison.isLower = true → c.rhs ≤ greatest)

def IsAchievable (c : Constraint) (σ : ℕ → Option Bool) : Prop :=
  ∃ f, Completes σ f ∧ c.comparison.holds (c.lhs f) c.rhs = true

structure IsBoundConsistent (c : Constraint) (σ : ℕ → Option Bool) : Prop where
  isCompatible : c.IsCompatible σ
  isCompatible_update : ∀ t ∈ c.terms, σ t.1 = none → ∀ b,
    c.IsCompatible (Function.update σ t.1 (some b))

section Extremes

theorem least_activityUnder (c : Constraint) (σ : ℕ → Option Bool) :
    (c.activityUnder σ).least = (c.terms.map fun t ↦ (Activity.share t.2 (σ t.1)).least).sum :=
  c.map_activityUnder (Activity.fixedHom + Activity.negativeHom) σ

theorem greatest_activityUnder (c : Constraint) (σ : ℕ → Option Bool) :
    (c.activityUnder σ).greatest =
      (c.terms.map fun t ↦ (Activity.share t.2 (σ t.1)).greatest).sum :=
  c.map_activityUnder (Activity.fixedHom + Activity.positiveHom) σ

/-- A completion may choose the values of the free variables by their coefficients. -/
theorem exists_completes_getD (hc : c.WellFormed k) (σ : ℕ → Option Bool) (p : ℤ → Bool) :
    ∃ f, Completes σ f ∧ ∀ t ∈ c.terms, f t.1 = (σ t.1).getD (p t.2) := by
  refine ⟨fun v ↦ (σ v).getD (c.terms.any fun t ↦ t.1 == v && p t.2), fun v b hv ↦ ?_, fun t ht ↦ ?_⟩
  · dsimp only
    rw [hv, Option.getD_some]
  · have hany : (c.terms.any fun u ↦ u.1 == t.1 && p u.2) = p t.2 := by
      cases hp : p t.2 with
      | true => exact List.any_eq_true.2 ⟨t, ht, by rw [beq_self_eq_true, hp, Bool.true_and]⟩
      | false =>
        rw [List.any_eq_false]
        intro u hu h
        rw [Bool.and_eq_true, beq_iff_eq] at h
        obtain rfl : u = t := List.inj_on_of_nodup_map hc.nodup hu ht h.1
        rw [hp] at h
        cases h.2
    dsimp only
    rw [hany]

theorem isLeast_achievable (hc : c.WellFormed k) (σ : ℕ → Option Bool) :
    IsLeast (c.achievable σ) (c.activityUnder σ).least := by
  constructor
  · obtain ⟨f, hf, hval⟩ := exists_completes_getD hc σ fun k ↦ decide (k < 0)
    refine ⟨f, hf, ?_⟩
    rw [lhs, least_activityUnder]
    congr 1
    apply List.map_congr_left
    intro t ht
    rw [hval t ht, Activity.least_share]
  · rintro z ⟨f, hf, rfl⟩
    exact (c.lhs_mem_activityUnder hf).1

theorem isGreatest_achievable (hc : c.WellFormed k) (σ : ℕ → Option Bool) :
    IsGreatest (c.achievable σ) (c.activityUnder σ).greatest := by
  constructor
  · obtain ⟨f, hf, hval⟩ := exists_completes_getD hc σ fun k ↦ decide (0 < k)
    refine ⟨f, hf, ?_⟩
    rw [lhs, greatest_activityUnder]
    congr 1
    apply List.map_congr_left
    intro t ht
    rw [hval t ht, Activity.greatest_share]
  · rintro z ⟨f, hf, rfl⟩
    exact (c.lhs_mem_activityUnder hf).2

end Extremes

theorem isCompatible_iff (hc : c.WellFormed k) {σ : ℕ → Option Bool} : c.IsCompatible σ ↔
    c.comparison.admits c.rhs (c.activityUnder σ).least (c.activityUnder σ).greatest = true := by
  rw [Comparison.admits_iff]
  constructor
  · rintro ⟨least, greatest, hl, hg, h⟩
    rwa [hl.unique (isLeast_achievable hc σ), hg.unique (isGreatest_achievable hc σ)] at h
  · exact fun h ↦ ⟨_, _, isLeast_achievable hc σ, isGreatest_achievable hc σ, h⟩

/-- With a unit coefficient a variable has a value that leaves the rest within its own extremes. -/
theorem exists_value_within {k z least greatest : ℤ} (hk : |k| = 1) (o : Option Bool)
    (hle : least ≤ greatest) (hl : (Activity.share k o).least + least ≤ z)
    (hg : z ≤ (Activity.share k o).greatest + greatest) :
    ∃ b, o.all (· == b) = true ∧ least ≤ z - (if b then k else 0) ∧
      z - (if b then k else 0) ≤ greatest := by
  cases o with
  | some b =>
    refine ⟨b, by simp, ?_⟩
    cases b <;> simp [Activity.share, Activity.least, Activity.greatest] at hl hg ⊢ <;> omega
  | none =>
    simp only [Activity.share, Activity.least, Activity.greatest, zero_add] at hl hg
    by_cases hz : least ≤ z ∧ z ≤ greatest
    · exact ⟨false, rfl, by simpa using hz⟩
    · refine ⟨true, rfl, ?_⟩
      rcases (abs_eq one_pos.le).1 hk with rfl | rfl
      · simp only [if_true]
        omega
      · simp only [if_true]
        omega

/-- Unit coefficients let the left-hand side take every value between its extremes. -/
theorem exists_completes_lhs_eq_of_unit (hc : c.WellFormed k) (hunit : ∀ t ∈ c.terms, |t.2| = 1)
    {σ : ℕ → Option Bool} {z : ℤ} (hl : (c.activityUnder σ).least ≤ z)
    (hg : z ≤ (c.activityUnder σ).greatest) : ∃ f, Completes σ f ∧ c.lhs f = z := by
  have hnodup := hc.nodup
  rw [least_activityUnder] at hl
  rw [greatest_activityUnder] at hg
  unfold lhs
  generalize c.terms = ts at hnodup hunit hl hg
  induction ts generalizing z with
  | nil => exact ⟨fun v ↦ (σ v).getD false, fun v b hv ↦ by simp [hv], le_antisymm hl hg⟩
  | cons t ts ih =>
    rw [List.map_cons, List.nodup_cons] at hnodup
    rw [List.map_cons, List.sum_cons] at hl hg
    have hle : (ts.map fun t ↦ (Activity.share t.2 (σ t.1)).least).sum ≤
        (ts.map fun t ↦ (Activity.share t.2 (σ t.1)).greatest).sum :=
      List.sum_le_sum fun t _ ↦ Activity.least_share_le_greatest t.2 (σ t.1)
    obtain ⟨b, hb, hl', hg'⟩ :=
      exists_value_within (hunit t List.mem_cons_self) (σ t.1) hle hl hg
    obtain ⟨f, hf, hlhs⟩ := ih hnodup.2 (fun u hu ↦ hunit u (List.mem_cons_of_mem t hu)) hl' hg'
    refine ⟨Function.update f t.1 b, hf.update_right hb, ?_⟩
    -- The other terms do not name the variable whose value is changed.
    have hrest : (ts.map fun u ↦ if Function.update f t.1 b u.1 then u.2 else 0) =
        ts.map fun u ↦ if f u.1 then u.2 else 0 := by
      apply List.map_congr_left
      intro u hu
      have hne : u.1 ≠ t.1 := fun he ↦ hnodup.1 (he ▸ List.mem_map_of_mem hu)
      rw [Function.update_of_ne hne]
    rw [List.map_cons, List.sum_cons, hrest, hlhs, Function.update_self]
    exact add_sub_cancel _ _

/-- An inequality is satisfied by its best completion. An equation may have no completion between the two
extremes, unless its coefficients are units. -/
theorem IsCompatible.isAchievable (hc : c.WellFormed k) {σ : ℕ → Option Bool} (h : c.IsCompatible σ)
    (hunit : c.comparison = .equal → ∀ t ∈ c.terms, |t.2| = 1) : c.IsAchievable σ := by
  obtain ⟨hupper, hlower⟩ := (Comparison.admits_iff ..).1 ((isCompatible_iff hc).1 h)
  obtain ⟨f, hf, hleast⟩ := (isLeast_achievable hc σ).1
  obtain ⟨g, hg, hgreatest⟩ := (isGreatest_achievable hc σ).1
  cases hcmp : c.comparison with
  | atMost =>
    rw [hcmp, ← hleast] at hupper
    exact ⟨f, hf, by rw [hcmp]; exact decide_eq_true (hupper rfl)⟩
  | equal =>
    rw [hcmp] at hupper hlower
    obtain ⟨e, he, hlhs⟩ := exists_completes_lhs_eq_of_unit hc (hunit hcmp) (hupper rfl) (hlower rfl)
    exact ⟨e, he, by rw [hcmp]; exact decide_eq_true hlhs⟩
  | atLeast =>
    rw [hcmp, ← hgreatest] at hlower
    exact ⟨g, hg, by rw [hcmp]; exact decide_eq_true (hlower rfl)⟩

variable {R : Type} {n : Node R}

theorem admits_of_forcedBy? {a : Activity} {t : ℕ × ℤ} (h : c.forcedBy? n a t = some [])
    (ht : n.isFree t.1) (b : Bool) : c.admits a t.2 b = true := by
  rw [forcedBy?, if_pos ht] at h
  cases h₀ : c.admits a t.2 false <;> cases h₁ : c.admits a t.2 true <;> simp [h₀, h₁] at h
  cases b with
  | false => exact h₀
  | true => exact h₁

theorem isBoundConsistent_of_forced? (hc : c.WellFormed k) (hk : n.values.size = k)
    (h : forced? n c (c.activityUnder n.valueOf) = some []) : c.IsBoundConsistent n.valueOf := by
  unfold forced? at h
  split at h
  · next hadmits =>
    refine ⟨(isCompatible_iff hc).2 hadmits, ?_⟩
    intro t ht hnone b
    have hfree : n.isFree t.1 = true := Node.isFree_iff.2 ⟨hk ▸ hc.lt t ht, hnone⟩
    rw [isCompatible_iff hc, ← admits_eq hc ht hnone]
    exact admits_of_forcedBy? (collect?_eq_some_nil h ht) hfree b
  · cases h

end Constraint

namespace Node

variable {R : Type} {m : Model R} {n : Node R}

theorem Settled.isBoundConsistent (hm : m.WellFormed) (ht : n.Tracks m) (hn : n.Settled m)
    {c : Constraint} (hc : c ∈ m.constraints) : c.IsBoundConsistent n.valueOf :=
  Constraint.isBoundConsistent_of_forced? (hm.constraints c hc) ht.size_values (hn.forced? ht hc)

variable [Scalar R]

/-- So many rounds of collecting what is forced lead from a node to the outcome. -/
inductive PropagatesIn (m : Model R) : ℕ → Node R → Node R × Bool → Prop
  | conflict {n : Node R} : n.forced? m = none → PropagatesIn m 1 n (n, false)
  | settled {n : Node R} : n.Settled m → PropagatesIn m 1 n (n, true)
  | clash {n n' : Node R} {f : Forced} {fs : List Forced} : n.forced? m = some (f :: fs) →
      n.assignAll m (f :: fs) = (n', false) → PropagatesIn m 1 n (n', false)
  | round {n n' : Node R} {f : Forced} {fs : List Forced} {k : ℕ} {p : Node R × Bool} :
      n.forced? m = some (f :: fs) → n.assignAll m (f :: fs) = (n', true) →
      PropagatesIn m k n' p → PropagatesIn m (k + 1) n p

/-- Every round but the last fixes a free variable. -/
theorem exists_propagatesIn (m : Model R) (n : Node R) :
    ∃ k ≤ n.freeCount + 1, PropagatesIn m k n (n.propagate m) := by
  fun_induction propagate m n with
  | case1 n h => exact ⟨1, by omega, .conflict h⟩
  | case2 n h => exact ⟨1, by omega, .settled h⟩
  | case3 n f fs h n' h' ih =>
    obtain ⟨k, hk, hp⟩ := ih
    have hlt : (n.assignAll m (f :: fs)).1.freeCount < n.freeCount :=
      freeCount_assignAll_lt m (isFree_of_forced? h List.mem_cons_self)
    rw [h'] at hlt
    dsimp only at hlt
    exact ⟨k + 1, by omega, .round h h' hp⟩
  | case4 n f fs h n' h' => exact ⟨1, by omega, .clash h h'⟩

/-- Propagation comes to an end, keeps the values there are and every feasible completion, finds a conflict
only where there is none, and otherwise leaves every constraint bound consistent. Inequalities, and equations
with unit coefficients, stay achievable with either value of each free variable then, and without free
variables the values are feasible. -/
theorem propagate_isBoundConsistent (hm : m.Built) (hn : n.Reachable m) :
    (∃ k ≤ n.freeCount + 1, PropagatesIn m k n (n.propagate m)) ∧
    (∀ v b, n.valueOf v = some b → (n.propagate m).1.valueOf v = some b) ∧
    (∀ y, m.isFeasible y = true → Completes n.valueOf (truth y) →
      Completes (n.propagate m).1.valueOf (truth y)) ∧
    ((n.propagate m).2 = false → ∀ y, m.isFeasible y = true → ¬ Completes n.valueOf (truth y)) ∧
    ((n.propagate m).2 = true →
      (∀ c ∈ m.constraints, c.IsBoundConsistent (n.propagate m).1.valueOf ∧
        ((c.comparison = .equal → ∀ t ∈ c.terms, |t.2| = 1) → ∀ t ∈ c.terms,
          (n.propagate m).1.valueOf t.1 = none → ∀ b,
          c.IsAchievable (Function.update (n.propagate m).1.valueOf t.1 (some b)))) ∧
      ((∀ v < m.numVars, (n.propagate m).1.valueOf v ≠ none) →
        m.isFeasible ((n.propagate m).1.values.map (·.getD false)) = true)) := by
  have hwf := hm.wellFormed
  have hreaches := reaches_propagate m n
  have ht := hreaches.tracks hn.tracks
  have hsound (y : Array Bool) (hy : m.isFeasible y = true) (hf : Completes n.valueOf (truth y)) :=
    propagate_sound hwf hn.tracks hf ((Model.isFeasible_iff hwf).1 hy).2
  refine ⟨exists_propagatesIn m n, fun v b ↦ hreaches.valueOf, fun y hy hf ↦ (hsound y hy hf).2,
    fun hconflict y hy hf ↦ ?_, fun hdone ↦ ⟨fun c hc ↦ ?_, fun hfixed ↦ ?_⟩⟩
  · exact absurd (hconflict.symm.trans (hsound y hy hf).1) Bool.false_ne_true
  · have hcons := (settled_propagate hdone).isBoundConsistent hwf ht hc
    exact ⟨hcons, fun hunit t htm hnone b ↦
      (hcons.isCompatible_update t htm hnone b).isAchievable (hwf.constraints c hc) hunit⟩
  · refine (settled_propagate hdone).isFeasible hwf ht fun v hv ↦ ?_
    exact hfixed v (ht.lt_numVars hv) (isFree_iff.1 hv).2

end Node

def Model.chained : Model ℚ :=
  { names := #["x", "y", "z"], objective := #[-1, -1, 2],
    constraints := [⟨[(0, 1), (1, -1)], .atLeast, 0⟩, ⟨[(1, 1), (2, 1)], .equal, 1⟩] }

/-- Setting the second variable fixes both others. -/
theorem Node.propagate_isBoundConsistent_chained :
    ∃ n : Node ℚ, n.Reachable Model.chained ∧ (n.propagate Model.chained).2 = true ∧
      (n.propagate Model.chained).1.values = #[some true, some true, some false] ∧
      Model.chained.isFeasible #[true, true, false] = true := by
  have hn : ((Node.root Model.chained).assign Model.chained 1 true).Reachable Model.chained :=
    .assign true .root (by decide)
  have hdone : (((Node.root Model.chained).assign Model.chained 1 true).propagate
      Model.chained).2 = true := by decide +kernel
  have hvalues : (((Node.root Model.chained).assign Model.chained 1 true).propagate
      Model.chained).1.values = #[some true, some true, some false] := by decide +kernel
  obtain ⟨-, -, -, -, hexit⟩ :=
    propagate_isBoundConsistent (Model.built_iff_wellFormed.2 (by decide)) hn
  have hfixed : ∀ v < 3, #[some true, some true, some false].getD v none ≠ none := by decide
  have hfeas := (hexit hdone).2 fun v hv ↦ by
    rw [valueOf, hvalues]
    exact hfixed v hv
  rw [hvalues] at hfeas
  exact ⟨_, hn, hdone, hvalues, by simpa using hfeas⟩

def Model.evenTotal : Model ℚ :=
  { names := #["x", "y", "z"], objective := #[0, 0, 0],
    constraints := [⟨[(0, 2), (1, 2), (2, 2)], .equal, 3⟩] }

/-- Propagation finds no conflict at the root, although the equation is achievable with neither value of any
of its variables, all of which are free. -/
theorem Node.not_isAchievable_evenTotal :
    Model.evenTotal.Built ∧ (Node.root Model.evenTotal).Reachable Model.evenTotal ∧
    ((Node.root Model.evenTotal).propagate Model.evenTotal).2 = true ∧
    ∀ c ∈ Model.evenTotal.constraints, ∀ t ∈ c.terms,
      ((Node.root Model.evenTotal).propagate Model.evenTotal).1.valueOf t.1 = none ∧
      ∀ b, ¬ c.IsAchievable (Function.update
        ((Node.root Model.evenTotal).propagate Model.evenTotal).1.valueOf t.1 (some b)) := by
  refine ⟨Model.built_iff_wellFormed.2 (by decide), .root, by decide +kernel, ?_⟩
  intro c hc t ht
  obtain rfl := List.mem_singleton.1 hc
  refine ⟨?_, fun b ↦ ?_⟩
  · have hall : ∀ t ∈ [((0 : ℕ), (2 : ℤ)), (1, 2), (2, 2)],
        ((Node.root Model.evenTotal).propagate Model.evenTotal).1.valueOf t.1 = none := by
      decide +kernel
    exact hall t ht
  · rintro ⟨f, -, hf⟩
    have hlhs : (if f 0 then (2 : ℤ) else 0) + ((if f 1 then 2 else 0) + ((if f 2 then 2 else 0) + 0)) = 3 :=
      of_decide_eq_true hf
    split_ifs at hlhs
    all_goals omega

end NoisyDNF.ZeroOne
