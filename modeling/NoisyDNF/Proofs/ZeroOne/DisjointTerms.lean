import Mathlib.Data.List.Nodup
import NoisyDNF.Proofs.ZeroOne.BoundConsistency
import NoisyDNF.Proofs.ZeroOne.Optimality

namespace NoisyDNF.ZeroOne

namespace Constraint

def notAll (g : List ℕ) : Constraint := ⟨g.map (·, 1), .atMost, g.length - 1⟩

theorem lhs_notAll (g : List ℕ) (f : ℕ → Bool) : (notAll g).lhs f = g.countP f := by
  simp only [lhs, notAll, List.map_map]
  induction g with
  | nil => rfl
  | cons v g ih =>
    rw [List.map_cons, List.sum_cons, ih, List.countP_cons]
    cases hv : f v <;> simp [hv, add_comm]

theorem lhs_notAll_le_iff {g : List ℕ} {f : ℕ → Bool} :
    (notAll g).lhs f ≤ (notAll g).rhs ↔ ∃ v ∈ g, f v = false := by
  rw [← List.countP_lt_length_iff, lhs_notAll]
  change (g.countP f : ℤ) ≤ g.length - 1 ↔ _
  omega

theorem mem_terms_notAll {g : List ℕ} {t : ℕ × ℤ} : t ∈ (notAll g).terms ↔ t.1 ∈ g ∧ t.2 = 1 := by
  obtain ⟨v, k⟩ := t
  simp [notAll, eq_comm]

/-- A group that is compatible with the values has a variable that is not set. -/
theorem IsCompatible.exists_ne_true {k : ℕ} {g : List ℕ} (hc : (notAll g).WellFormed k)
    {σ : ℕ → Option Bool} (h : (notAll g).IsCompatible σ) : ∃ v ∈ g, σ v ≠ some true := by
  obtain ⟨f, hf, hs⟩ := h.isAchievable hc nofun
  obtain ⟨v, hv, hfalse⟩ := lhs_notAll_le_iff.1 (of_decide_eq_true hs)
  refine ⟨v, hv, fun htrue ↦ ?_⟩
  exact Bool.false_ne_true (hfalse.symm.trans (hf v true htrue))

end Constraint

variable {K : Type} [Field K] [LinearOrder K]

namespace Model

/-- The variables fall into groups, the variables of no group may all be set, and setting any of them pays. -/
structure DisjointTerms (m : Model K) (groups : List (List ℕ)) : Prop where
  partition : groups.flatten.Perm (List.range m.numVars)
  nonempty : ∀ g ∈ groups, g ≠ []
  constraints : m.constraints = groups.map Constraint.notAll
  gain_pos : ∀ v < m.numVars, 0 < m.gain v

def leastGain (m : Model K) (g : List ℕ) : K := (g.map m.gain).min?.getD 0

def sumLessLeast (m : Model K) (groups : List (List ℕ)) : K :=
  ∑ v ∈ Finset.range m.numVars, m.gain v - (groups.map m.leastGain).sum

theorem isLeast_leastGain (m : Model K) {g : List ℕ} (hg : g ≠ []) :
    IsLeast {a | ∃ v ∈ g, m.gain v = a} (m.leastGain g) := by
  have hsome : (g.map m.gain).min?.isSome := List.isSome_min?_iff.2 (by simpa using hg)
  obtain ⟨a, ha⟩ := Option.isSome_iff_exists.1 hsome
  obtain ⟨hmem, hle⟩ := List.min?_eq_some_iff.1 ha
  rw [leastGain, ha, Option.getD_some]
  refine ⟨by simpa using hmem, ?_⟩
  rintro b ⟨v, hv, rfl⟩
  exact hle _ (List.mem_map_of_mem hv)

end Model

theorem none_or_false_of_ne_true {o : Option Bool} (h : o ≠ some true) : o = none ∨ o = some false := by
  cases o with
  | none => exact .inl rfl
  | some b =>
    cases b with
    | false => exact .inr rfl
    | true => exact absurd rfl h

theorem ne_of_update_eq {σ : ℕ → Option Bool} {u v : ℕ} {o o' : Option Bool}
    (h : Function.update σ v o u = o') (ho : o' ≠ o) : u ≠ v := by
  rintro rfl
  exact ho (h.symm.trans (Function.update_self ..))

def Spares (groups : List (List ℕ)) (σ : ℕ → Option Bool) : Prop := ∀ g ∈ groups, ∃ v ∈ g, σ v ≠ some true

/-- Where every group of a variable has another one that is not set, every group has such another one. -/
theorem Spares.exists_ne {groups : List (List ℕ)} {σ : ℕ → Option Bool} (hs : Spares groups σ) {v : ℕ}
    (hv : ∀ g ∈ groups, v ∈ g → ∃ u ∈ g, u ≠ v ∧ σ u ≠ some true) {g : List ℕ} (hg : g ∈ groups) :
    ∃ u ∈ g, u ≠ v ∧ σ u ≠ some true := by
  by_cases hvg : v ∈ g
  · exact hv g hg hvg
  · obtain ⟨u, hu, hne⟩ := hs g hg
    exact ⟨u, hu, fun he ↦ hvg (he ▸ hu), hne⟩

theorem Spares.update_false {groups : List (List ℕ)} {σ : ℕ → Option Bool} (hs : Spares groups σ) (v : ℕ) :
    Spares groups (Function.update σ v (some false)) := by
  intro g hg
  obtain ⟨u, hu, hne⟩ := hs g hg
  refine ⟨u, hu, ?_⟩
  by_cases huv : u = v
  · rw [huv, Function.update_self]
    nofun
  · rwa [Function.update_of_ne huv]

/-- The values after propagation: of the free variables those have become false without which their group would
be set, and no others; and none is left that would have to be. -/
structure Settles (groups : List (List ℕ)) (σ τ : ℕ → Option Bool) : Prop where
  kept : ∀ {v : ℕ} {b : Bool}, σ v = some b → τ v = some b
  fixed : ∀ {v : ℕ} {b : Bool}, σ v = none → τ v = some b →
    b = false ∧ ∃ g ∈ groups, v ∈ g ∧ ∀ u ∈ g, u ≠ v → σ u = some true
  spared : ∀ g ∈ groups, ∀ v ∈ g, τ v = none → ∃ u ∈ g, u ≠ v ∧ τ u ≠ some true

namespace Settles

variable {groups : List (List ℕ)} {σ τ : ℕ → Option Bool} (h : Settles groups σ τ) {v : ℕ}
include h

theorem true_of_true (hv : τ v = some true) : σ v = some true := by
  cases hσ : σ v with
  | none => cases (h.fixed hσ hv).1
  | some b => rw [← h.kept hσ, hv]

theorem none_of_none (hv : τ v = none) : σ v = none := by
  by_contra hne
  obtain ⟨b, hb⟩ := Option.ne_none_iff_exists'.1 hne
  rw [h.kept hb] at hv
  cases hv

theorem spares (hs : Spares groups σ) : Spares groups τ := by
  intro g hg
  obtain ⟨v, hv, hne⟩ := hs g hg
  exact ⟨v, hv, fun htrue ↦ hne (h.true_of_true htrue)⟩

end Settles

namespace Model.DisjointTerms

variable {m : Model K} {groups : List (List ℕ)} (h : m.DisjointTerms groups)
include h

theorem nodup_flatten : groups.flatten.Nodup := h.partition.nodup_iff.2 List.nodup_range

theorem lt_numVars {g : List ℕ} (hg : g ∈ groups) {v : ℕ} (hv : v ∈ g) : v < m.numVars :=
  List.mem_range.1 (h.partition.subset (List.mem_flatten_of_mem hg hv))

theorem eq_of_mem {g g' : List ℕ} (hg : g ∈ groups) (hg' : g' ∈ groups) {v : ℕ} (hv : v ∈ g) (hv' : v ∈ g') :
    g = g' := by
  have hsymm : Std.Symm (List.Disjoint : List ℕ → List ℕ → Prop) := ⟨fun _ _ hd ↦ hd.symm⟩
  by_contra hne
  exact (List.nodup_flatten.1 h.nodup_flatten).2.forall hg hg' hne hv hv'

theorem mem_constraints {g : List ℕ} (hg : g ∈ groups) : Constraint.notAll g ∈ m.constraints :=
  h.constraints ▸ List.mem_map_of_mem hg

theorem sum_range {M : Type} [AddCommMonoid M] (F : ℕ → M) :
    ∑ v ∈ Finset.range m.numVars, F v = (groups.map fun g ↦ (g.map F).sum).sum := by
  calc ∑ v ∈ Finset.range m.numVars, F v = ((List.range m.numVars).map F).sum := rfl
    _ = (groups.flatten.map F).sum := (h.partition.map F).sum_eq.symm
    _ = (groups.map fun g ↦ (g.map F).sum).sum := by
      rw [List.map_flatten, List.sum_flatten, List.map_map]
      rfl

theorem satisfiedBy_iff {f : ℕ → Bool} : m.SatisfiedBy f ↔ ∀ g ∈ groups, ∃ v ∈ g, f v = false := by
  rw [SatisfiedBy, h.constraints]
  simp only [List.forall_mem_map]
  refine forall₂_congr fun g _ ↦ ?_
  rw [← Constraint.lhs_notAll_le_iff]
  exact decide_eq_true_iff

theorem gain_pos_of_mem {g : List ℕ} (hg : g ∈ groups) {v : ℕ} (hv : v ∈ g) : 0 < m.gain v :=
  h.gain_pos v (h.lt_numVars hg hv)

section Propagation

variable {n : Node K} (hm : m.WellFormed)
include hm

/-- With all free variables false, and with any one of them true that its group can spare, the groups are still
satisfied; so propagation fixes no other one. -/
theorem settles_propagate (ht : n.Tracks m) (hs : Spares groups n.valueOf) :
    (n.propagate m).2 = true ∧ Settles groups n.valueOf (n.propagate m).1.valueOf := by
  -- The free variables are false here.
  have hlow : Completes n.valueOf fun v ↦ decide (n.valueOf v = some true) := by
    intro v b hv
    cases b <;> simp [hv]
  have hlow' : m.SatisfiedBy fun v ↦ decide (n.valueOf v = some true) := by
    refine h.satisfiedBy_iff.2 fun g hg ↦ ?_
    obtain ⟨v, hv, hne⟩ := hs g hg
    exact ⟨v, hv, decide_eq_false hne⟩
  obtain ⟨hdone, hcomp⟩ := Node.propagate_sound hm ht hlow hlow'
  refine ⟨hdone, (Node.reaches_propagate m n).valueOf, fun {v b} hv hb ↦ ?_, fun g hg v hv hnone ↦ ?_⟩
  · obtain rfl : b = false := by simpa [hv] using (hcomp v b hb).symm
    refine ⟨rfl, ?_⟩
    by_contra hno
    push Not at hno
    -- If every group could spare `v`, it might as well be true.
    have hhigh : Completes n.valueOf (Function.update (fun v ↦ decide (n.valueOf v = some true)) v true) :=
      hlow.update_right (by rw [hv]; rfl)
    have hhigh' : m.SatisfiedBy (Function.update (fun v ↦ decide (n.valueOf v = some true)) v true) := by
      refine h.satisfiedBy_iff.2 fun g hg ↦ ?_
      obtain ⟨u, hu, huv, hne⟩ := hs.exists_ne hno hg
      exact ⟨u, hu, by rw [Function.update_of_ne huv, decide_eq_false hne]⟩
    have htrue := (Node.propagate_sound hm ht hhigh hhigh').2 v false hb
    rw [Function.update_self] at htrue
    cases htrue
  · have hmem := h.mem_constraints hg
    have hcons := (Node.settled_propagate hdone).isBoundConsistent hm
      ((Node.reaches_propagate m n).tracks ht) hmem
    obtain ⟨u, hu, hne⟩ := (hcons.isCompatible_update (v, 1) (Constraint.mem_terms_notAll.2 ⟨hv, rfl⟩) hnone
      true).exists_ne_true (hm.constraints _ hmem)
    have huv := ne_of_update_eq rfl hne
    exact ⟨u, hu, huv, by rwa [Function.update_of_ne huv] at hne⟩

end Propagation

end Model.DisjointTerms

section Bound

variable {m : Model K} {n : Node K} {g : List ℕ}

namespace Constraint

/-- With preferred values for the free variables, only those are false that are false already. -/
theorem preferredLhs_notAll {k : ℕ} (hc : (notAll g).WellFormed k) (hk : n.values.size = k)
    (hpos : ∀ v ∈ g, 0 < m.gain v) : (notAll g).preferredLhs m n ((notAll g).activityUnder n.valueOf) =
      (notAll g).lhs fun v ↦ (n.valueOf v).getD true := by
  have hcomp : Completes n.valueOf fun v ↦ (n.valueOf v).getD true := by
    intro v b hv
    simp only [hv, Option.getD_some]
  rw [lhs_eq_preferredLhs_add (m := m) hc hk hcomp, left_eq_add]
  refine List.sum_eq_zero fun x hx ↦ ?_
  obtain ⟨t, ht, rfl⟩ := List.mem_map.1 hx
  obtain ⟨hmem, hfree⟩ := List.mem_filter.1 ht
  have hprefers : m.prefers t.1 = true := decide_eq_true (hpos t.1 (mem_terms_notAll.1 hmem).1)
  rw [(Node.isFree_iff.1 hfree).2, hprefers, Option.getD_none, sub_self]

theorem repair?_of_atMost {c : Constraint} (h : c.comparison = .atMost) (preferred : ℤ) :
    c.repair? preferred = if preferred ≤ c.rhs then none else some .lower := by
  by_cases hle : preferred ≤ c.rhs
  · simp [repair?, h, Comparison.isUpper, Comparison.isLower, hle]
  · simp [repair?, h, Comparison.isUpper, hle, not_le.1 hle]

/-- A group has to be mended as long as none of its variables is false. -/
theorem repair?_notAll {k : ℕ} (hc : (notAll g).WellFormed k) (hk : n.values.size = k)
    (hpos : ∀ v ∈ g, 0 < m.gain v) :
    (notAll g).repair? ((notAll g).preferredLhs m n ((notAll g).activityUnder n.valueOf)) =
      if ∃ v ∈ g, n.valueOf v = some false then none else some .lower := by
  have hiff : (notAll g).lhs (fun v ↦ (n.valueOf v).getD true) ≤ (notAll g).rhs ↔
      ∃ v ∈ g, n.valueOf v = some false := by
    rw [lhs_notAll_le_iff]
    refine exists_congr fun v ↦ and_congr_right fun _ ↦ ?_
    cases n.valueOf v <;> simp
  rw [preferredLhs_notAll hc hk hpos, repair?_of_atMost rfl]
  exact if_congr hiff rfl rfl

variable [IsStrictOrderedRing K]

/-- Mending a group costs at least what its cheapest variable brings. -/
theorem exists_repairCost?_notAll (hpos : ∀ v ∈ g, 0 < m.gain v) (hfree : ∃ v ∈ g, n.isFree v) :
    ∃ b, (notAll g).repairCost? m n .lower = some b ∧ m.leastGain g ≤ b ∧ 0 < b := by
  have hdir (t : ℕ × ℤ) (ht : t ∈ (notAll g).terms) : direction m t = .lower := by
    obtain ⟨hmem, hone⟩ := mem_terms_notAll.1 ht
    rw [direction, hone, Model.prefers, decide_eq_true (hpos t.1 hmem)]
    rfl
  obtain ⟨v, hv, hvf⟩ := hfree
  have hterm : (v, 1) ∈ (notAll g).terms := mem_terms_notAll.2 ⟨hv, rfl⟩
  obtain ⟨b, hb, -⟩ : ∃ b, (notAll g).repairCost? m n .lower = some b ∧ b ≤ m.cost v :=
    exists_cheapest?_le (List.mem_map_of_mem (List.mem_filter.2
      ⟨List.mem_filter.2 ⟨hterm, hvf⟩, decide_eq_true (hdir _ hterm)⟩))
  obtain ⟨t, ht, rfl⟩ := List.mem_map.1 (mem_of_cheapest?_eq hb)
  have hmem : t.1 ∈ g := (mem_terms_notAll.1 (List.mem_filter.1 (List.mem_filter.1 ht).1).1).1
  have hcost : m.cost t.1 = m.gain t.1 := by
    rw [Model.cost, Scalar.magnitude_eq_abs, abs_of_pos (hpos t.1 hmem)]
  refine ⟨_, hb, ?_, hcost ▸ hpos t.1 hmem⟩
  rw [hcost]
  exact (m.isLeast_leastGain (List.ne_nil_of_mem hv)).2 ⟨t.1, hmem, rfl⟩

end Constraint

variable [IsStrictOrderedRing K]

namespace Charge

/-- What a group has given up already, or else what is charged for it, makes up for its cheapest variable. -/
theorem exists_add?_notAll {k : Charge K} (hc : (Constraint.notAll g).WellFormed m.numVars)
    (hk : n.values.size = m.numVars) (hpos : ∀ v ∈ g, 0 < m.gain v)
    (hspare : ∃ v ∈ g, n.valueOf v ≠ some true) (hfresh : ∀ v ∈ g, k.isCharged v = false) :
    ∃ k', k.add? m n (.notAll g) ((Constraint.notAll g).activityUnder n.valueOf) = some k' ∧
      (∀ v ∉ g, k'.isCharged v = k.isCharged v) ∧ k.loss + m.leastGain g ≤
        k'.loss + (g.map fun v ↦ if n.valueOf v = some false then m.gain v else 0).sum := by
  have hnonneg : ∀ x ∈ g.map fun v ↦ if n.valueOf v = some false then m.gain v else 0, 0 ≤ x := by
    intro x hx
    obtain ⟨v, hv, rfl⟩ := List.mem_map.1 hx
    split
    · exact (hpos v hv).le
    · exact le_rfl
  rw [add?, Constraint.repair?_notAll hc hk hpos]
  by_cases hfalse : ∃ v ∈ g, n.valueOf v = some false
  · rw [if_pos hfalse]
    refine ⟨k, rfl, fun _ _ ↦ rfl, add_le_add_right ?_ _⟩
    obtain ⟨u, hu, huf⟩ := hfalse
    calc m.leastGain g ≤ m.gain u := (m.isLeast_leastGain (List.ne_nil_of_mem hu)).2 ⟨u, hu, rfl⟩
      _ = if n.valueOf u = some false then m.gain u else 0 := (if_pos huf).symm
      _ ≤ _ := List.single_le_sum hnonneg _ (List.mem_map_of_mem hu)
  · have hfree : ∃ v ∈ g, n.isFree v := by
      obtain ⟨v, hv, hne⟩ := hspare
      refine ⟨v, hv, Node.isFree_iff.2 ⟨hk ▸ hc.lt (v, 1) (Constraint.mem_terms_notAll.2 ⟨hv, rfl⟩), ?_⟩⟩
      exact (none_or_false_of_ne_true hne).resolve_right fun hval ↦ hfalse ⟨v, hv, hval⟩
    obtain ⟨b, hb, hle, hpos'⟩ := Constraint.exists_repairCost?_notAll hpos hfree
    have hskip : ¬ (((Constraint.notAll g).freeTerms n).any (fun t ↦ k.isCharged t.1) ||
        decide (b ≤ 0)) = true := by
      simp only [Bool.or_eq_true, List.any_eq_true, decide_eq_true_eq, not_or, not_le]
      refine ⟨?_, hpos'⟩
      rintro ⟨t, ht, hch⟩
      rw [hfresh t.1 (Constraint.mem_terms_notAll.1 (List.mem_filter.1 ht).1).1] at hch
      cases hch
    rw [if_neg hfalse]
    simp only [hb]
    rw [if_neg hskip]
    refine ⟨_, rfl, fun v hv ↦ ?_, ?_⟩
    · rw [isCharged, getD_foldl_setIfInBounds, if_neg, isCharged]
      rintro ⟨-, hmem⟩
      obtain ⟨t, ht, rfl⟩ := List.mem_map.1 hmem
      exact hv (Constraint.mem_terms_notAll.1 (List.mem_filter.1 ht).1).1
    · calc k.loss + m.leastGain g ≤ k.loss + b := add_le_add_right hle _
        _ ≤ _ := le_add_of_nonneg_right (List.sum_nonneg hnonneg)

/-- The groups are charged one after the other, as no two of them share a variable. -/
theorem exists_foldlM_notAll (groups : List (List ℕ)) (hnodup : groups.flatten.Nodup)
    (hc : ∀ g ∈ groups, (Constraint.notAll g).WellFormed m.numVars) (hk : n.values.size = m.numVars)
    (hpos : ∀ g ∈ groups, ∀ v ∈ g, 0 < m.gain v) (hspare : Spares groups n.valueOf) {k : Charge K}
    (hfresh : ∀ v ∈ groups.flatten, k.isCharged v = false) :
    ∃ k', (groups.map fun g ↦ (Constraint.notAll g, (Constraint.notAll g).activityUnder n.valueOf)).foldlM
        (fun k p ↦ k.add? m n p.1 p.2) k = some k' ∧ k.loss + (groups.map m.leastGain).sum ≤
      k'.loss + (groups.map fun g ↦
        (g.map fun v ↦ if n.valueOf v = some false then m.gain v else 0).sum).sum := by
  induction groups generalizing k with
  | nil => exact ⟨k, rfl, le_rfl⟩
  | cons g groups ih =>
    rw [List.flatten_cons, List.nodup_append'] at hnodup
    obtain ⟨-, hnodup, hdisj⟩ := hnodup
    simp only [List.flatten_cons, List.mem_append] at hfresh
    obtain ⟨k₁, hk₁, hsame, hle₁⟩ := exists_add?_notAll (k := k) (hc g List.mem_cons_self) hk
      (hpos g List.mem_cons_self) (hspare g List.mem_cons_self) fun v hv ↦ hfresh v (.inl hv)
    have hfresh₁ : ∀ v ∈ groups.flatten, k₁.isCharged v = false := fun v hv ↦
      (hsame v fun hvg ↦ hdisj hvg hv).trans (hfresh v (.inr hv))
    obtain ⟨k₂, hk₂, hle₂⟩ := ih hnodup (fun g' hg' ↦ hc g' (List.mem_cons_of_mem g hg'))
      (fun g' hg' ↦ hpos g' (List.mem_cons_of_mem g hg'))
      (fun g' hg' ↦ hspare g' (List.mem_cons_of_mem g hg')) hfresh₁
    refine ⟨k₂, ?_, ?_⟩
    · rw [List.map_cons, List.foldlM_cons, hk₁, Option.bind_eq_bind, Option.bind_some, hk₂]
    · simp only [List.map_cons, List.sum_cons]
      linarith

end Charge

/-- As long as every group can be satisfied, no bound is above the sum of the objective coefficients less the
least one of each group. -/
theorem Model.DisjointTerms.exists_bound?_le {groups : List (List ℕ)} (h : m.DisjointTerms groups)
    (hm : m.WellFormed) (ht : n.Tracks m) (ho : n.TracksObjective m) (hs : Spares groups n.valueOf) :
    ∃ b, n.bound? m = some b ∧ b ≤ m.sumLessLeast groups := by
  obtain ⟨k, hk, hle⟩ := Charge.exists_foldlM_notAll (k := .start m) groups h.nodup_flatten
    (fun g hg ↦ hm.constraints _ (h.mem_constraints hg)) ht.size_values
    (fun g hg v hv ↦ h.gain_pos_of_mem hg hv) hs fun v _ ↦ by
      exact Node.getD_replicate_self m.numVars v false
  have hsum : n.fixedObjective + n.freeGain = ∑ v ∈ Finset.range m.numVars, m.gain v -
      ∑ v ∈ Finset.range m.numVars, if n.valueOf v = some false then m.gain v else 0 := by
    rw [ho.fixedObjective, ho.freeGain, ← Finset.sum_add_distrib, ← Finset.sum_sub_distrib]
    refine Finset.sum_congr rfl fun v hv ↦ ?_
    have hpos := (h.gain_pos v (Finset.mem_range.1 hv)).le
    cases n.valueOf v with
    | none => simp [hpos]
    | some b => cases b <;> simp
  refine ⟨n.fixedObjective + n.freeGain - k.loss, ?_, ?_⟩
  · rw [Node.bound?, ht.zip_activities, h.constraints, List.map_map]
    exact congrArg (Option.map _) hk
  · rw [hsum, h.sum_range fun v ↦ if n.valueOf v = some false then m.gain v else 0, sumLessLeast]
    have hstart : (Charge.start m).loss = 0 := rfl
    linarith

end Bound

end NoisyDNF.ZeroOne
