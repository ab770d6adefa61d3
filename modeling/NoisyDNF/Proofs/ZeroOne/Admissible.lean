import Mathlib.Algebra.Order.Field.Basic
import Mathlib.Algebra.Order.BigOperators.Group.List
import NoisyDNF.Proofs.ZeroOne.Tracking
import NoisyDNF.ZeroOne.Bound

namespace NoisyDNF.ZeroOne

theorem sum_update {M : Type} [AddCommGroup M] {k v : ℕ} (hv : v < k) (F : ℕ → Option Bool → M)
    (σ : ℕ → Option Bool) (o : Option Bool) :
    ∑ w ∈ Finset.range k, F w (Function.update σ v o w) =
      ∑ w ∈ Finset.range k, F w (σ w) + (F v o - F v (σ v)) := by
  have h (w : ℕ) : F w (Function.update σ v o w) =
      F w (σ w) + if w = v then F v o - F v (σ v) else 0 := by
    by_cases hw : w = v
    · subst hw
      simp
    · simp [hw]
  simp_rw [h]
  rw [Finset.sum_add_distrib, Finset.sum_ite_eq', if_pos (Finset.mem_range.2 hv)]

theorem sum_range_getD {α M : Type} [AddCommMonoid M] (g : α → M) (as : List α) (d : α) :
    ∑ i ∈ Finset.range as.length, g (as.getD i d) = (as.map g).sum := by
  induction as with
  | nil => rfl
  | cons a as ih =>
    rw [List.length_cons, Finset.sum_range_succ', List.map_cons, List.sum_cons, add_comm, ← ih]
    rfl

section Objective

variable {K : Type} [Field K] [LinearOrder K] {m : Model K} {n : Node K}

structure Node.TracksObjective (m : Model K) (n : Node K) : Prop where
  fixedObjective : n.fixedObjective =
    ∑ v ∈ Finset.range m.numVars, if n.valueOf v = some true then m.gain v else 0
  freeGain : n.freeGain =
    ∑ v ∈ Finset.range m.numVars, if n.valueOf v = none then max (m.gain v) 0 else 0

theorem Node.tracksObjective_root (hm : m.WellFormed) : (Node.root m).TracksObjective m := by
  have hlen : m.objective.toList.length = m.numVars := by simpa using hm.size_objective
  constructor
  · simp only [valueOf_root, reduceCtorEq, if_false, Finset.sum_const_zero]
    rfl
  simp only [valueOf_root, if_true, Model.gain_eq]
  rw [← hlen, sum_range_getD (fun a : K ↦ max a 0)]
  simp only [Node.root, Scalar.sum_eq_sum]
  rw [← List.map_id' (List.filter _ _), sum_map_filter]
  congr 1
  apply List.map_congr_left
  intro a _
  simp only [decide_eq_true_eq]
  split
  · next h => rw [max_eq_left h.le]
  · next h => rw [max_eq_right (not_lt.1 h)]

theorem Node.TracksObjective.assign (ht : n.Tracks m) (h : n.TracksObjective m) {v : ℕ} (b : Bool)
    (hv : n.isFree v) : (n.assign m v b).TracksObjective m := by
  obtain ⟨hlt, hnone⟩ := isFree_iff.1 hv
  rw [ht.size_values] at hlt
  have hval := valueOf_assign m (isFree_iff.1 hv).1 b
  constructor
  · rw [hval, sum_update hlt fun w o ↦ if o = some true then m.gain w else 0, ← h.fixedObjective]
    cases b <;> simp [Node.assign, hnone]
  · rw [hval, sum_update hlt fun w o ↦ if o = none then max (m.gain w) 0 else 0, ← h.freeGain]
    by_cases hg : 0 < m.gain v
    · simp [Node.assign, hnone, hg, hg.le, sub_eq_add_neg]
    · simp [Node.assign, hnone, hg, not_lt.1 hg]

theorem Node.TracksObjective.undo (ht : n.Tracks m) (h : n.TracksObjective m) :
    (n.undo m).TracksObjective m := by
  obtain htr | ⟨v, l, htr⟩ : n.trail = [] ∨ ∃ v l, n.trail = v :: l := by
    cases n.trail <;> simp
  · simpa [Node.undo, htr] using h
  obtain ⟨b, hv⟩ := Option.ne_none_iff_exists'.1 ((ht.mem_trail_iff v).1 (by simp [htr]))
  have hlt : v < m.numVars := ht.size_values ▸ lt_size_of_valueOf hv
  have hval := valueOf_undo (m := m) htr hv
  constructor
  · rw [hval, sum_update hlt fun w o ↦ if o = some true then m.gain w else 0, ← h.fixedObjective]
    cases b <;> simp [Node.undo, htr, hv, sub_eq_add_neg]
  · rw [hval, sum_update hlt fun w o ↦ if o = none then max (m.gain w) 0 else 0, ← h.freeGain]
    by_cases hg : 0 < m.gain v
    · simp [Node.undo, htr, hv, hg, hg.le]
    · simp [Node.undo, htr, hv, hg, not_lt.1 hg]

end Objective

namespace Constraint

variable {R : Type} [Scalar R] {m : Model R} {n : Node R} {c : Constraint} {f : ℕ → Bool}

theorem sumOfCoeffs_filter (p : ℕ × ℤ → Bool) (ts : List (ℕ × ℤ)) :
    sumOfCoeffs (ts.filter p) = (ts.map fun t ↦ if p t then t.2 else 0).sum := by
  rw [sumOfCoeffs_eq, sum_map_filter]

/-- The left-hand side differs from the preferred one by the free variables off their preference. -/
theorem lhs_eq_preferredLhs_add {k : ℕ} (hc : c.WellFormed k) (hk : n.values.size = k)
    (hf : Completes n.valueOf f) :
    c.lhs f = c.preferredLhs m n (c.activityUnder n.valueOf) +
      ((c.freeTerms n).map fun t ↦
        (if f t.1 then t.2 else 0) - (if m.prefers t.1 then t.2 else 0)).sum := by
  rw [preferredLhs, fixed_activityUnder, sumOfCoeffs_filter, freeTerms, sum_map_filter, sum_map_filter, lhs,
    add_assoc, ← List.sum_map_add, ← List.sum_map_add]
  congr 1
  apply List.map_congr_left
  intro t ht
  cases hv : n.valueOf t.1 with
  | none =>
    have hfree : n.isFree t.1 := Node.isFree_iff.2 ⟨hk ▸ hc.lt t ht, hv⟩
    simp [hfree]
  | some b =>
    have hfree : n.isFree t.1 = false := by
      rw [Bool.eq_false_iff]
      intro h
      rw [(Node.isFree_iff.1 h).2] at hv
      cases hv
    rw [hf t.1 b hv]
    simp [hfree]

theorem move_nonneg (t : ℕ × ℤ) {b : Bool} (h : direction m t = .lower → b = m.prefers t.1) :
    0 ≤ (if b then t.2 else 0) - (if m.prefers t.1 then t.2 else 0) := by
  unfold direction at h
  cases hp : m.prefers t.1 <;> cases b <;> rw [hp] at h <;> simp at h ⊢ <;> omega

theorem move_nonpos (t : ℕ × ℤ) {b : Bool} (h : direction m t = .raise → b = m.prefers t.1) :
    (if b then t.2 else 0) - (if m.prefers t.1 then t.2 else 0) ≤ 0 := by
  unfold direction at h
  cases hp : m.prefers t.1 <;> cases b <;> rw [hp] at h <;> simp at h ⊢ <;> omega

/-- Whoever satisfies a constraint that the preferred values violate has moved one of its free
variables off its preference, and in the direction that mends the constraint. -/
theorem exists_repair {k : ℕ} (hc : c.WellFormed k) (hk : n.values.size = k)
    (hf : Completes n.valueOf f) (hs : c.comparison.holds (c.lhs f) c.rhs = true) {d : Direction}
    (hd : c.repair? (c.preferredLhs m n (c.activityUnder n.valueOf)) = some d) :
    ∃ t ∈ c.freeTerms n, direction m t = d ∧ f t.1 ≠ m.prefers t.1 := by
  by_contra hno
  push Not at hno
  have heq := lhs_eq_preferredLhs_add (m := m) hc hk hf
  unfold repair? at hd
  split at hd
  · next hup =>
    cases hd
    have hnonneg : 0 ≤ ((c.freeTerms n).map fun t ↦
        (if f t.1 then t.2 else 0) - (if m.prefers t.1 then t.2 else 0)).sum := by
      apply List.sum_nonneg
      intro x hx
      obtain ⟨t, ht, rfl⟩ := List.mem_map.1 hx
      exact move_nonneg t (hno t ht)
    cases hcmp : c.comparison <;> simp_all [Comparison.isUpper, Comparison.holds] <;> omega
  · split at hd
    · next hlow =>
      cases hd
      have hnonpos : ((c.freeTerms n).map fun t ↦
          (if f t.1 then t.2 else 0) - (if m.prefers t.1 then t.2 else 0)).sum ≤ 0 := by
        refine (List.sum_le_card_nsmul _ 0 fun x hx ↦ ?_).trans_eq (nsmul_zero _)
        obtain ⟨t, ht, rfl⟩ := List.mem_map.1 hx
        exact move_nonpos t (hno t ht)
      cases hcmp : c.comparison <;> simp_all [Comparison.isLower, Comparison.holds] <;> omega
    · cases hd

end Constraint

section Cheapest

variable {R : Type} [Scalar R]

def cheaper (best : Option R) (cost : R) : Option R :=
  match best with
  | none => some cost
  | some b => if cost < b then some cost else some b

theorem cheapest?_eq (costs : List R) :
    cheapest? costs = (costs.filter Scalar.isFinite).foldl cheaper none := rfl

theorem cheaper_eq (best : Option R) (cost : R) :
    cheaper best cost = best ∨ cheaper best cost = some cost := by
  cases best with
  | none => exact .inr rfl
  | some b =>
    unfold cheaper
    dsimp only
    split
    · exact .inr rfl
    · exact .inl rfl

theorem mem_of_cheapest?_eq {costs : List R} {b : R} (h : cheapest? costs = some b) : b ∈ costs := by
  have hfold (cs : List R) (best : Option R) (hb : cs.foldl cheaper best = some b) :
      best = some b ∨ b ∈ cs := by
    induction cs generalizing best with
    | nil => exact .inl hb
    | cons c cs ih =>
      rcases ih _ hb with hb | hb
      · rcases cheaper_eq best c with he | he <;> rw [he] at hb
        · exact .inl hb
        · exact .inr (Option.some_inj.1 hb ▸ List.mem_cons_self)
      · exact .inr (List.mem_cons_of_mem c hb)
  rcases hfold _ none h with h | h
  · cases h
  · exact (List.mem_filter.1 h).1

end Cheapest

section Bound

variable {K : Type} [Field K] [LinearOrder K]

theorem exists_cheaper_le (best : Option K) (c : K) {x : K} (hx : x ∈ best ∨ x = c) :
    ∃ b, cheaper best c = some b ∧ b ≤ x := by
  cases best with
  | none =>
    obtain rfl := hx.resolve_left nofun
    exact ⟨x, rfl, le_rfl⟩
  | some b =>
    unfold cheaper
    dsimp only
    split
    · next hlt =>
      refine ⟨c, rfl, ?_⟩
      rcases hx with hx | rfl
      · obtain rfl := Option.some_inj.1 hx
        exact hlt.le
      · exact le_rfl
    · next hlt =>
      refine ⟨b, rfl, ?_⟩
      rcases hx with hx | rfl
      · obtain rfl := Option.some_inj.1 hx
        exact le_rfl
      · exact not_lt.1 hlt

theorem exists_cheapest?_le {costs : List K} {x : K} (hx : x ∈ costs) :
    ∃ b, cheapest? costs = some b ∧ b ≤ x := by
  have h (cs : List K) (best : Option K) (x : K) (hx : x ∈ best ∨ x ∈ cs) :
      ∃ b, cs.foldl cheaper best = some b ∧ b ≤ x := by
    induction cs generalizing best x with
    | nil =>
      rcases hx with hx | hx
      · exact ⟨x, hx, le_rfl⟩
      · cases hx
    | cons c cs ih =>
      rw [List.mem_cons, ← or_assoc] at hx
      rcases hx with hx | hx
      · obtain ⟨z, hz, hzx⟩ := exists_cheaper_le best c hx
        obtain ⟨b, hb, hbz⟩ := ih _ z (.inl hz)
        exact ⟨b, hb, hbz.trans hzx⟩
      · exact ih _ x (.inr hx)
  rw [cheapest?_eq]
  exact h _ none x (.inr (by simpa using hx))

variable [IsStrictOrderedRing K] {m : Model K} {n : Node K} {f : ℕ → Bool}

def Node.shortfall (m : Model K) (n : Node K) (f : ℕ → Bool) (v : ℕ) : K :=
  if n.valueOf v = none ∧ f v ≠ m.prefers v then |m.gain v| else 0

theorem Node.shortfall_nonneg (m : Model K) (n : Node K) (f : ℕ → Bool) (v : ℕ) :
    0 ≤ n.shortfall m f v := by
  unfold shortfall
  split
  · exact abs_nonneg _
  · exact le_rfl

theorem Node.objectiveValue_eq (hm : m.WellFormed) (ho : n.TracksObjective m) {y : Array Bool}
    (hy : y.size = m.numVars) (hf : Completes n.valueOf (truth y)) :
    m.objectiveValue y = n.fixedObjective + n.freeGain -
      ∑ v ∈ Finset.range m.numVars, n.shortfall m (truth y) v := by
  rw [Model.objectiveValue_eq hm hy, ho.fixedObjective, ho.freeGain, ← Finset.sum_add_distrib,
    ← Finset.sum_sub_distrib]
  refine Finset.sum_congr rfl ?_
  intro v _
  unfold shortfall
  cases hv : n.valueOf v with
  | some b => simp [hf v b hv]
  | none =>
    by_cases hg : 0 < m.gain v
    · cases truth y v <;> simp [Model.prefers, hg, hg.le, abs_of_pos]
    · cases truth y v <;> simp [Model.prefers, hg, not_lt.1 hg, abs_of_nonpos]

/-- The loss charged so far is one that the completion really has, at the charged variables. -/
structure Charge.Covers (m : Model K) (n : Node K) (f : ℕ → Bool) (k : Charge K) : Prop where
  size_charged : k.charged.size = m.numVars
  loss_nonneg : 0 ≤ k.loss
  loss_le : k.loss ≤
    ∑ v ∈ Finset.range m.numVars, if k.isCharged v then n.shortfall m f v else 0

theorem Charge.covers_start (m : Model K) (n : Node K) (f : ℕ → Bool) :
    (Charge.start m).Covers m n f := by
  refine ⟨Array.size_replicate, le_rfl, Finset.sum_nonneg ?_⟩
  intro v _
  split
  · exact n.shortfall_nonneg m f v
  · exact le_rfl

theorem size_foldl_setIfInBounds {α : Type} (ts : List (ℕ × ℤ)) (ch : Array α) (x : α) :
    (ts.foldl (fun ch t ↦ ch.setIfInBounds t.1 x) ch).size = ch.size := by
  induction ts generalizing ch with
  | nil => rfl
  | cons t ts ih => rw [List.foldl_cons, ih, Array.size_setIfInBounds]

theorem getD_setIfInBounds {α : Type} (a : Array α) (i v : ℕ) (x d : α) :
    (a.setIfInBounds i x).getD v d = if v < a.size ∧ v = i then x else a.getD v d := by
  simp only [Array.getD_eq_getD_getElem?, Array.getElem?_setIfInBounds]
  by_cases hi : i = v
  · subst hi
    by_cases hlt : i < a.size
    · simp [hlt]
    · simp [hlt]
  · rw [if_neg hi, if_neg fun h ↦ hi h.2.symm]

theorem getD_foldl_setIfInBounds {α : Type} (ts : List (ℕ × ℤ)) (ch : Array α) (x d : α) (v : ℕ) :
    (ts.foldl (fun ch t ↦ ch.setIfInBounds t.1 x) ch).getD v d =
      if v < ch.size ∧ v ∈ ts.map Prod.fst then x else ch.getD v d := by
  induction ts generalizing ch with
  | nil => simp
  | cons t ts ih =>
    rw [List.foldl_cons, ih, Array.size_setIfInBounds, getD_setIfInBounds, List.map_cons]
    simp only [List.mem_cons, and_or_left]
    split_ifs <;> tauto

/-- A variable that was not charged before pays for the new loss. -/
theorem Charge.Covers.charge {k : Charge K} (hk : k.Covers m n f) {charged : Array Bool} {b : K}
    {u : ℕ} (hsize : charged.size = m.numVars)
    (hold : ∀ v, k.isCharged v = true → charged.getD v false = true)
    (hnew : charged.getD u false = true) (hfresh : k.isCharged u = false) (hu : u < m.numVars)
    (hb : 0 ≤ b) (hpay : b ≤ n.shortfall m f u) : Covers m n f ⟨k.loss + b, charged⟩ := by
  refine ⟨hsize, add_nonneg hk.loss_nonneg hb, ?_⟩
  have hone : n.shortfall m f u =
      ∑ v ∈ Finset.range m.numVars, if v = u then n.shortfall m f v else 0 := by
    rw [Finset.sum_ite_eq', if_pos (Finset.mem_range.2 hu)]
  calc k.loss + b ≤ _ := add_le_add hk.loss_le (hpay.trans_eq hone)
    _ = _ := Finset.sum_add_distrib.symm
    _ ≤ _ := Finset.sum_le_sum fun v _ ↦ ?_
  by_cases hv : k.isCharged v = true
  · have hvu : v ≠ u := by
      rintro rfl
      exact Bool.false_ne_true (hfresh.symm.trans hv)
    have hv' : Charge.isCharged ⟨k.loss + b, charged⟩ v = true := hold v hv
    rw [if_pos hv, if_neg hvu, if_pos hv', add_zero]
  · by_cases hvu : v = u
    · have hv' : Charge.isCharged ⟨k.loss + b, charged⟩ v = true := hvu ▸ hnew
      rw [if_neg hv, if_pos hvu, if_pos hv', zero_add]
    · rw [if_neg hv, if_neg hvu, add_zero]
      split
      · exact n.shortfall_nonneg m f v
      · exact le_rfl

theorem Charge.covers_add (hm : m.WellFormed) (ht : n.Tracks m) {c : Constraint}
    (hc : c ∈ m.constraints) (hf : Completes n.valueOf f) (hs : m.SatisfiedBy f) {k : Charge K}
    (hk : k.Covers m n f) :
    ∃ k', k.add? m n c (c.activityUnder n.valueOf) = some k' ∧ k'.Covers m n f := by
  unfold add?
  cases hd : c.repair? (c.preferredLhs m n (c.activityUnder n.valueOf)) with
  | none => exact ⟨k, rfl, hk⟩
  | some d =>
    obtain ⟨t, htf, htd, hoff⟩ :=
      Constraint.exists_repair (hm.constraints c hc) ht.size_values hf (hs c hc) hd
    have hfree : n.isFree t.1 = true := by simpa using (List.mem_filter.1 htf).2
    obtain ⟨b, hb, hle⟩ : ∃ b, c.repairCost? m n d = some b ∧ b ≤ m.cost t.1 :=
      exists_cheapest?_le (List.mem_map_of_mem (List.mem_filter.2 ⟨htf, by simpa using htd⟩))
    by_cases hskip : (c.freeTerms n).any (fun t ↦ k.isCharged t.1) || decide (b ≤ 0)
    · exact ⟨k, by simp [hb, hskip], hk⟩
    refine ⟨_, by simp only [hb]; rw [if_neg hskip], ?_⟩
    obtain ⟨hfresh, hpos⟩ : (∀ t ∈ c.freeTerms n, k.isCharged t.1 = false) ∧ 0 < b := by
      simpa using hskip
    have hlt : t.1 < m.numVars := ht.lt_numVars hfree
    have hpay : b ≤ n.shortfall m f t.1 := by
      rw [Node.shortfall, if_pos ⟨(Node.isFree_iff.1 hfree).2, hoff⟩]
      exact hle.trans_eq (Scalar.magnitude_eq_abs _)
    have hcharged := getD_foldl_setIfInBounds (c.freeTerms n) k.charged true false
    refine hk.charge ((size_foldl_setIfInBounds ..).trans hk.size_charged) (fun v hv ↦ ?_) ?_
      (hfresh t htf) hlt hpos.le hpay
    · rw [hcharged]
      split
      · rfl
      · exact hv
    · rw [hcharged, if_pos ⟨hk.size_charged ▸ hlt, List.mem_map_of_mem htf⟩]

/-- In exact arithmetic no feasible completion of a node beats its bound. -/
theorem Node.objectiveValue_le_bound (hm : m.WellFormed) (ht : n.Tracks m)
    (ho : n.TracksObjective m) {y : Array Bool} (hy : m.isFeasible y = true)
    (hf : Completes n.valueOf (truth y)) :
    ∃ b, n.bound? m = some b ∧ m.objectiveValue y ≤ b ∧ b ≤ n.fixedObjective + n.freeGain := by
  obtain ⟨hsize, hs⟩ := (Model.isFeasible_iff hm).1 hy
  have hall (cs : List Constraint) (hcs : ∀ c ∈ cs, c ∈ m.constraints) (k : Charge K)
      (hk : k.Covers m n (truth y)) :
      ∃ k', (cs.map fun c ↦ (c, c.activityUnder n.valueOf)).foldlM
        (fun k p ↦ k.add? m n p.1 p.2) k = some k' ∧ k'.Covers m n (truth y) := by
    induction cs generalizing k with
    | nil => exact ⟨k, rfl, hk⟩
    | cons c cs ih =>
      obtain ⟨k', hk', hcov⟩ := k.covers_add hm ht (hcs c List.mem_cons_self) hf hs hk
      rw [List.map_cons, List.foldlM_cons, hk', Option.bind_eq_bind, Option.bind_some]
      exact ih (fun d hd ↦ hcs d (List.mem_cons_of_mem c hd)) k' hcov
  obtain ⟨k, hk, hcov⟩ := hall m.constraints (fun _ ↦ id) _ (Charge.covers_start m n (truth y))
  refine ⟨_, by rw [bound?, ht.zip_activities, hk, Option.map_some], ?_, ?_⟩
  · rw [Node.objectiveValue_eq hm ho hsize hf]
    refine sub_le_sub_left (hcov.loss_le.trans (Finset.sum_le_sum fun v _ ↦ ?_)) _
    split
    · exact le_rfl
    · exact n.shortfall_nonneg m _ v
  · exact sub_le_self _ hcov.loss_nonneg

theorem Node.objectiveValue_of_leaf (hm : m.WellFormed) (ho : n.TracksObjective m)
    {y : Array Bool} (hy : y.size = m.numVars) (hf : Completes n.valueOf (truth y))
    (hfree : ∀ v < m.numVars, n.valueOf v ≠ none) :
    m.objectiveValue y = n.fixedObjective + n.freeGain := by
  rw [Node.objectiveValue_eq hm ho hy hf, Finset.sum_eq_zero, sub_zero]
  intro v hv
  rw [shortfall, if_neg fun h ↦ hfree v (Finset.mem_range.1 hv) h.1]

end Bound

end NoisyDNF.ZeroOne
