import NoisyDNF.Proofs.ZeroOne.ExactSums

namespace NoisyDNF.ZeroOne

open Binary64

theorem map_cheaper {best : Option Float} (hb : ∀ b, best = some b → b.isFinite = true) {x : Float}
    (hx : x.isFinite = true) : (cheaper best x).map value = cheaper (best.map value) (value x) := by
  cases best with
  | none => rfl
  | some b =>
    have hiff := lt_iff hx (hb b rfl)
    simp only [cheaper, Option.map_some]
    by_cases hlt : x < b
    · rw [if_pos hlt, if_pos (hiff.1 hlt), Option.map_some]
    · rw [if_neg hlt, if_neg fun h ↦ hlt (hiff.2 h), Option.map_some]

theorem map_cheapest? {xs : List Float} (hfin : ∀ x ∈ xs, x.isFinite = true) :
    (cheapest? xs).map value = cheapest? (xs.map value) := by
  have hfold (xs : List Float) (hfin : ∀ x ∈ xs, x.isFinite = true) (best : Option Float)
      (hb : ∀ b, best = some b → b.isFinite = true) :
      (xs.foldl cheaper best).map value = (xs.map value).foldl cheaper (best.map value) := by
    induction xs generalizing best with
    | nil => rfl
    | cons x xs ih =>
      have hx := hfin x List.mem_cons_self
      rw [List.foldl_cons, List.map_cons, List.foldl_cons, ← map_cheaper hb hx]
      refine ih (fun y hy ↦ hfin y (List.mem_cons_of_mem x hy)) _ ?_
      intro b hb'
      rcases cheaper_eq best x with he | he <;> rw [he] at hb'
      · exact hb b hb'
      · exact Option.some_inj.1 hb' ▸ hx
  have hall : xs.filter Scalar.isFinite = xs := List.filter_eq_self.2 hfin
  have hall' : (xs.map value).filter Scalar.isFinite = xs.map value :=
    List.filter_eq_self.2 fun _ _ ↦ rfl
  rw [cheapest?_eq, cheapest?_eq, hall, hall', hfold xs hfin none nofun, Option.map_none]

variable {g : Grid} {m : Model Float} {n : Node Float} {y : Array Bool}

structure Charge.StandsFor (g : Grid) (k : Charge Float) (k' : Charge ℚ) : Prop where
  loss : Denotes k.loss k'.loss
  charged : k.charged = k'.charged
  mem_points : k'.loss ∈ g.points

section Carries

variable (hg : g.Carries m.objective.toList)
include hg

theorem Model.denotes_cost (v : ℕ) : Denotes (m.cost v) (m.exact.cost v) := by
  have h := (denotes_gain hg v).magnitude
  rwa [← Scalar.magnitude_eq_abs] at h

theorem Model.prefers_exact (v : ℕ) : m.exact.prefers v = m.prefers v :=
  decide_eq_decide.2 (denotes_zero.lt_iff (denotes_gain hg v)).symm

theorem Constraint.preferredLhs_exact (c : Constraint) (a : Activity) :
    c.preferredLhs m.exact n.exact a = c.preferredLhs m n a := by
  simp only [preferredLhs, Model.prefers_exact hg]
  rfl

theorem Constraint.map_repairCost? (c : Constraint) (d : Direction) :
    (c.repairCost? m n d).map value = c.repairCost? m.exact n.exact d := by
  rw [repairCost?, repairCost?, map_cheapest?, List.map_map]
  · simp only [direction, Model.prefers_exact hg]
    congr 1
    exact List.map_congr_left fun t _ ↦ (Model.denotes_cost hg t.1).value_eq
  · intro x hx
    obtain ⟨t, -, rfl⟩ := List.mem_map.1 hx
    exact (Model.denotes_cost hg t.1).isFinite

theorem Constraint.repairCost?_mem {c : Constraint} {d : Direction} {b : Float}
    (h : c.repairCost? m n d = some b) : b.isFinite = true ∧ value b ∈ g.points := by
  obtain ⟨t, -, rfl⟩ := List.mem_map.1 (mem_of_cheapest?_eq h)
  have hd := Model.denotes_cost hg t.1
  refine ⟨hd.isFinite, ?_⟩
  rw [hd.value_eq, Model.cost, Scalar.magnitude_eq_abs]
  rcases abs_choice (m.exact.gain t.1) with h | h <;> rw [h]
  · exact Model.gain_mem_points hg t.1
  · exact neg_mem (Model.gain_mem_points hg t.1)

theorem Charge.exists_add?_eq {k : Charge Float} {k' l' : Charge ℚ} (hk : k.StandsFor g k')
    {c : Constraint} {a : Activity} (h : k'.add? m.exact n.exact c a = some l')
    (hcap : |l'.loss| ≤ g.capacity) : ∃ l, k.add? m n c a = some l ∧ l.StandsFor g l' := by
  unfold add? at h ⊢
  rw [Constraint.preferredLhs_exact hg] at h
  cases hd : c.repair? (c.preferredLhs m n a) with
  | none =>
    rw [hd] at h
    obtain rfl := Option.some_inj.1 h
    exact ⟨k, rfl, hk⟩
  | some d =>
    simp only [hd] at h ⊢
    rw [← Constraint.map_repairCost? hg] at h
    cases hb : c.repairCost? m n d with
    | none =>
      rw [hb] at h
      cases h
    | some b =>
      obtain ⟨hfin, hmem⟩ := Constraint.repairCost?_mem hg hb
      rw [hb, Option.map_some] at h
      have hiff : b ≤ 0 ↔ value b ≤ 0 := by rw [le_iff hfin isFinite_zero, value_zero]
      have hcharged (v : ℕ) : k.isCharged v = k'.isCharged v := by rw [isCharged, hk.charged, isCharged]
      simp only [hiff, hcharged]
      have hfree : c.freeTerms n.exact = c.freeTerms n := rfl
      simp only [hfree] at h
      split at h
      · next hskip =>
        obtain rfl := Option.some_inj.1 h
        exact ⟨k, by rw [if_pos hskip], hk⟩
      · next hskip =>
        obtain rfl := Option.some_inj.1 h
        have hadd := add_mem hk.mem_points hmem
        exact ⟨_, by rw [if_neg hskip], hk.loss.add ⟨hfin, rfl⟩ hadd hcap, by simp only [hk.charged],
          hadd⟩

variable (hm : m.WellFormed)
include hm

theorem Charge.Covers.abs_loss_le {f : ℕ → Bool} {k : Charge ℚ} (h : k.Covers m.exact n.exact f) :
    |k.loss| ≤ g.capacity := by
  rw [abs_of_nonneg h.loss_nonneg]
  refine (h.loss_le.trans (Finset.sum_le_sum fun v _ ↦ ?_)).trans (Model.sum_abs_gain_le hg hm)
  unfold Node.shortfall
  split
  · split
    · exact le_rfl
    · exact abs_nonneg _
  · exact abs_nonneg _

theorem Node.abs_fixedObjective_add_freeGain_le (hn : n.SumsExactly m) :
    |value n.fixedObjective + value n.freeGain| ≤ g.capacity := by
  rw [hn.fixedObjective.value_eq, hn.freeGain.value_eq, ← Finset.sum_add_distrib]
  refine Model.abs_sum_le_capacity hg hm ?_
  intro v
  cases n.valueOf v with
  | none =>
    rcases le_total 0 (m.exact.gain v) with h | h
    · simp [max_eq_left h]
    · simp [max_eq_right h]
  | some b => cases b <;> simp

theorem Model.abs_objectiveValue_le (hy : y.size = m.numVars) :
    |m.exact.objectiveValue y| ≤ g.capacity := by
  rw [objectiveValue_eq (wellFormed_exact hm) hy]
  refine abs_sum_le_capacity hg hm ?_
  intro v
  split
  · exact le_rfl
  · exact abs_zero.trans_le (abs_nonneg _)

/-- Charging the constraints one after the other goes the same way with and without rounding. -/
theorem Charge.exists_foldlM_eq (ht : n.Tracks m) (hy : m.isFeasible y = true)
    (hf : Completes n.valueOf (truth y)) {cs : List Constraint} (hcs : ∀ c ∈ cs, c ∈ m.constraints)
    {k : Charge Float} {k' : Charge ℚ} (hk : k.StandsFor g k')
    (hcov : k'.Covers m.exact n.exact (truth y)) :
    ∃ l l', (cs.map fun c ↦ (c, c.activityUnder n.valueOf)).foldlM
        (fun k p ↦ k.add? m n p.1 p.2) k = some l ∧
      (cs.map fun c ↦ (c, c.activityUnder n.valueOf)).foldlM
        (fun k p ↦ k.add? m.exact n.exact p.1 p.2) k' = some l' ∧
      l.StandsFor g l' := by
  obtain ⟨-, hs⟩ := (Model.isFeasible_iff hm).1 hy
  induction cs generalizing k k' with
  | nil => exact ⟨k, k', rfl, rfl, hk⟩
  | cons c cs ih =>
    obtain ⟨j', hj', hcov'⟩ := k'.covers_add (Model.wellFormed_exact hm) (Node.tracks_exact ht)
      (hcs c List.mem_cons_self) hf hs hcov
    obtain ⟨j, hj, hst⟩ := Charge.exists_add?_eq hg hk hj' (hcov'.abs_loss_le hg hm)
    change k'.add? m.exact n.exact c (c.activityUnder n.valueOf) = some j' at hj'
    change k.add? m n c (c.activityUnder n.valueOf) = some j at hj
    rw [List.map_cons, List.foldlM_cons, List.foldlM_cons, hj, hj']
    exact ih (fun d hd ↦ hcs d (List.mem_cons_of_mem c hd)) hst hcov'

/-- Above a feasible assignment the bound is what exact arithmetic gives. -/
theorem Node.exists_bound?_eq (ht : n.Tracks m) (hn : n.SumsExactly m) (hy : m.isFeasible y = true)
    (hf : Completes n.valueOf (truth y)) :
    ∃ b, n.bound? m = some b ∧ b.isFinite = true ∧ value (m.objectiveValue y) ≤ value b ∧
      value b ≤ value n.fixedObjective + value n.freeGain := by
  have ht' := tracks_exact ht
  have hstart : (Charge.start m).StandsFor g (Charge.start m.exact) := ⟨denotes_zero, rfl, zero_mem _⟩
  obtain ⟨l, l', hl, hl', hst⟩ := Charge.exists_foldlM_eq hg hm ht hy hf (fun _ ↦ id) hstart
    (Charge.covers_start m.exact n.exact (truth y))
  obtain ⟨q, hq, hle, hge⟩ :=
    objectiveValue_le_bound (Model.wellFormed_exact hm) ht' hn.tracksObjective hy hf
  have hbound : n.exact.bound? m.exact = some (value n.fixedObjective + value n.freeGain - l'.loss) := by
    rw [bound?, ht'.zip_activities]
    exact congrArg _ hl'
  obtain rfl := Option.some_inj.1 (hbound.symm.trans hq)
  obtain ⟨hp, -, hp', -⟩ := objective_mem_points hg hm hn.tracksObjective
  have hsum := abs_fixedObjective_add_freeGain_le hg hm hn
  have hobj := Model.abs_objectiveValue_le hg hm ((Model.isFeasible_iff hm).1 hy).1
  have hadd : Denotes (n.fixedObjective + n.freeGain) (value n.fixedObjective + value n.freeGain) :=
    Denotes.add ⟨hn.fixedObjective.isFinite, rfl⟩ ⟨hn.freeGain.isFinite, rfl⟩ (add_mem hp hp') hsum
  have hb := hadd.sub hst.loss (sub_mem (add_mem hp hp') hst.mem_points)
    (abs_le.2 ⟨(abs_le.1 hobj).1.trans hle, hge.trans (abs_le.1 hsum).2⟩)
  refine ⟨_, by rw [bound?, ht.zip_activities, hl, Option.map_some], hb.isFinite, ?_, ?_⟩
  · rw [hb.value_eq, (Model.denotes_objectiveValue hg y).value_eq]
    exact hle
  · rw [hb.value_eq]
    exact hge

end Carries

end NoisyDNF.ZeroOne
