import NoisyDNF.Proofs.ZeroOne.Tracking
import NoisyDNF.ZeroOne.Propagation

namespace NoisyDNF.ZeroOne

namespace Comparison

theorem admits_of_holds {c : Comparison} {lhs rhs least greatest : ℤ} (h : c.holds lhs rhs = true)
    (hl : least ≤ lhs) (hg : lhs ≤ greatest) : c.admits rhs least greatest = true := by
  cases c <;> simp_all [holds, admits, isUpper, isLower] <;> omega

theorem holds_of_admits {c : Comparison} {lhs rhs : ℤ} (h : c.admits rhs lhs lhs = true) :
    c.holds lhs rhs = true := by
  cases c
  all_goals simp_all [holds, admits, isUpper, isLower]
  omega

end Comparison

theorem collect?_eq_none_iff {α β : Type} {f : α → Option (List β)} {xs : List α} :
    collect? f xs = none ↔ ∃ x ∈ xs, f x = none := by
  induction xs with
  | nil => simp [collect?]
  | cons x xs ih =>
    cases hx : f x <;> cases hxs : collect? f xs <;> simp_all [collect?]

theorem collect?_eq_some_nil {α β : Type} {f : α → Option (List β)} {xs : List α}
    (h : collect? f xs = some []) {x : α} (hx : x ∈ xs) : f x = some [] := by
  induction xs with
  | nil => cases hx
  | cons u us ih =>
    cases hu : f u <;> cases hus : collect? f us <;> simp [collect?, hu, hus] at h
    obtain ⟨rfl, rfl⟩ := h
    rcases List.mem_cons.1 hx with rfl | hx
    · exact hu
    · exact ih hus hx

theorem sum_ite_fst {M : Type} [AddCommMonoid M] {ts : List (ℕ × ℤ)}
    (h : (ts.map Prod.fst).Nodup) {t : ℕ × ℤ} (ht : t ∈ ts) (d : ℤ → M) :
    (ts.map fun u ↦ if u.1 = t.1 then d u.2 else 0).sum = d t.2 := by
  induction ts with
  | nil => cases ht
  | cons u us ih =>
    rw [List.map_cons, List.nodup_cons] at h
    rw [List.map_cons, List.sum_cons]
    rcases List.mem_cons.1 ht with rfl | ht
    · have hz : ∀ w ∈ us, (if w.1 = t.1 then d w.2 else 0) = 0 := by
        intro w hw
        rw [if_neg]
        intro he
        exact h.1 (he ▸ List.mem_map_of_mem hw)
      rw [if_pos rfl, List.map_congr_left hz]
      simp
    · have hne : u.1 ≠ t.1 := fun he ↦ h.1 (he ▸ List.mem_map_of_mem ht)
      rw [if_neg hne, zero_add, ih h.2 ht]

namespace Constraint

theorem admits_eq {k : ℕ} {c : Constraint} (hc : c.WellFormed k) {σ : ℕ → Option Bool}
    {t : ℕ × ℤ} (ht : t ∈ c.terms) (hσ : σ t.1 = none) (b : Bool) :
    c.admits (c.activityUnder σ) t.2 b =
      c.comparison.admits c.rhs (c.activityUnder (Function.update σ t.1 (some b))).least
        (c.activityUnder (Function.update σ t.1 (some b))).greatest := by
  have hsum : c.activityUnder (Function.update σ t.1 (some b)) =
      c.activityUnder σ + (Activity.share t.2 (some b) - Activity.share t.2 none) := by
    rw [c.activityUnder_update hσ, c.update_eq fun a k ↦ Activity.fix_eq a k b,
      sum_ite_fst hc.nodup ht fun k ↦ Activity.share k (some b) - Activity.share k none]
  rw [hsum, sub_eq_add_neg]
  simp only [Activity.least_add, Activity.greatest_add, Activity.least_neg, Activity.greatest_neg]
  cases b with
  | true =>
    have hl : max t.2 0 = t.2 + -min t.2 0 := by omega
    have hg : min t.2 0 = t.2 + -max t.2 0 := by omega
    simp [admits, Activity.share, Activity.least, Activity.greatest, ← hl, ← hg]
  | false => simp [admits, Activity.share, Activity.least, Activity.greatest, sub_eq_add_neg]

/-- As far as the activity under `σ` tells, the constraint can be satisfied, and where it cannot bear a value of a
free variable `τ` has the other one. -/
structure Upholds (c : Constraint) (σ τ : ℕ → Option Bool) : Prop where
  admits : c.comparison.admits c.rhs (c.activityUnder σ).least (c.activityUnder σ).greatest = true
  eq_not : ∀ t ∈ c.terms, σ t.1 = none → ∀ b, c.admits (c.activityUnder σ) t.2 b = false →
    τ t.1 = some !b

variable {R : Type} {k : ℕ} {c : Constraint} {n : Node R} {f : ℕ → Bool} {τ : ℕ → Option Bool}

theorem admits_of_completes (hc : c.WellFormed k) {σ : ℕ → Option Bool} {t : ℕ × ℤ}
    (ht : t ∈ c.terms) (hσ : σ t.1 = none) (hf : Completes σ f)
    (hs : c.comparison.holds (c.lhs f) c.rhs = true) :
    c.admits (c.activityUnder σ) t.2 (f t.1) = true := by
  obtain ⟨hl, hg⟩ := c.lhs_mem_activityUnder (hf.update t.1)
  rw [admits_eq hc ht hσ]
  exact Comparison.admits_of_holds hs hl hg

theorem upholds_of_completes (hc : c.WellFormed k) {σ : ℕ → Option Bool} (hf : Completes σ f)
    (hs : c.comparison.holds (c.lhs f) c.rhs = true) : c.Upholds σ fun v ↦ some (f v) where
  admits := Comparison.admits_of_holds hs (c.lhs_mem_activityUnder hf).1 (c.lhs_mem_activityUnder hf).2
  eq_not t ht hσ b hb := by
    have h := admits_of_completes hc ht hσ hf hs
    cases hft : f t.1 <;> cases b <;> simp_all

theorem Upholds.forcedBy? (h : c.Upholds n.valueOf τ) {t : ℕ × ℤ} (ht : t ∈ c.terms) :
    ∃ fs, c.forcedBy? n (c.activityUnder n.valueOf) t = some fs ∧ ∀ p ∈ fs, τ p.1 = some p.2 := by
  unfold Constraint.forcedBy?
  split
  · next hfree =>
    have hnot := h.eq_not t ht (Node.isFree_iff.1 hfree).2
    cases h₀ : c.admits (c.activityUnder n.valueOf) t.2 false <;>
      cases h₁ : c.admits (c.activityUnder n.valueOf) t.2 true
    · exact absurd ((hnot false h₀).symm.trans (hnot true h₁)) nofun
    · exact ⟨_, rfl, by simpa using hnot false h₀⟩
    · exact ⟨_, rfl, by simpa using hnot true h₁⟩
    · exact ⟨_, rfl, by simp⟩
  · exact ⟨[], rfl, by simp⟩

/-- What a constraint forces is what every assignment has that upholds it. -/
theorem Upholds.forced? (h : c.Upholds n.valueOf τ) :
    ∃ fs, Constraint.forced? n c (c.activityUnder n.valueOf) = some fs ∧ ∀ p ∈ fs, τ p.1 = some p.2 := by
  have hnone : collect? (c.forcedBy? n (c.activityUnder n.valueOf)) c.terms ≠ none := by
    intro hn
    obtain ⟨t, ht, hn⟩ := collect?_eq_none_iff.1 hn
    obtain ⟨fs, hfs, -⟩ := h.forcedBy? ht
    rw [hn] at hfs
    cases hfs
  obtain ⟨fs, hfs⟩ := Option.ne_none_iff_exists'.1 hnone
  refine ⟨fs, by rw [Constraint.forced?, if_pos h.admits, hfs], fun p hp ↦ ?_⟩
  obtain ⟨t, ht, gs, hgs, hp⟩ := exists_mem_of_collect? hfs hp
  obtain ⟨gs', hgs', hτ⟩ := h.forcedBy? ht
  rw [hgs, Option.some_inj] at hgs'
  exact hτ p (hgs' ▸ hp)

theorem holds_of_forced? (hn : forced? n c (c.activityUnder n.valueOf) = some [])
    (hf : ∀ t ∈ c.terms, n.valueOf t.1 = some (f t.1)) :
    c.comparison.holds (c.lhs f) c.rhs = true := by
  obtain ⟨hl, hg⟩ := c.activityUnder_total hf
  unfold forced? at hn
  split at hn
  · next h => exact Comparison.holds_of_admits (by rwa [hl, hg] at h)
  · cases hn

end Constraint

namespace Node

variable {R : Type} {m : Model R} {n : Node R} {f : ℕ → Bool} {τ : ℕ → Option Bool}

theorem exists_forced?_eq (ht : n.Tracks m) (h : ∀ c ∈ m.constraints, c.Upholds n.valueOf τ) :
    ∃ fs, n.forced? m = some fs ∧ ∀ p ∈ fs, τ p.1 = some p.2 := by
  have hc (p : Constraint × Activity) (hp : p ∈ m.constraints.zip n.activities) :
      ∃ fs, p.1.forced? n p.2 = some fs ∧ ∀ q ∈ fs, τ q.1 = some q.2 := by
    rw [ht.zip_activities] at hp
    obtain ⟨c, hc, rfl⟩ := List.mem_map.1 hp
    exact (h c hc).forced?
  have hnone : n.forced? m ≠ none := by
    intro hn
    obtain ⟨p, hp, hn⟩ := collect?_eq_none_iff.1 hn
    obtain ⟨fs, hfs, -⟩ := hc p hp
    rw [hn] at hfs
    cases hfs
  obtain ⟨fs, hfs⟩ := Option.ne_none_iff_exists'.1 hnone
  refine ⟨fs, hfs, ?_⟩
  intro q hq
  obtain ⟨p, hp, gs, hgs, hq⟩ := exists_mem_of_collect? hfs hq
  obtain ⟨gs', hgs', hτ⟩ := hc p hp
  rw [hgs, Option.some_inj] at hgs'
  exact hτ q (hgs' ▸ hq)

/-- No constraint is violated for certain, and none forces a free variable. -/
def Settled (m : Model R) (n : Node R) : Prop := n.forced? m = some []

theorem Settled.forced? (ht : n.Tracks m) (hn : n.Settled m) {c : Constraint} (hc : c ∈ m.constraints) :
    c.forced? n (c.activityUnder n.valueOf) = some [] := by
  have hmem : (c, c.activityUnder n.valueOf) ∈ m.constraints.zip n.activities := by
    rw [ht.zip_activities]
    exact List.mem_map_of_mem hc
  exact collect?_eq_some_nil hn hmem

theorem Settled.satisfiedBy (hm : m.WellFormed) (ht : n.Tracks m) (hn : n.Settled m)
    (hfree : ∀ v, ¬ n.isFree v) (hf : Completes n.valueOf f) : m.SatisfiedBy f := by
  intro c hc
  refine Constraint.holds_of_forced? (hn.forced? ht hc) fun t htm ↦ ?_
  cases hv : n.valueOf t.1 with
  | some b => rw [hf t.1 b hv]
  | none =>
    have hlt : t.1 < n.values.size := ht.size_values ▸ (hm.constraints c hc).lt t htm
    exact absurd (isFree_iff.2 ⟨hlt, hv⟩) (hfree t.1)

theorem truth_map_getD (n : Node R) (v : ℕ) :
    truth (n.values.map (·.getD false)) v = (n.valueOf v).getD false := by
  simp only [truth, valueOf, Array.getD_eq_getD_getElem?, Array.getElem?_map]
  cases n.values[v]? <;> rfl

theorem completes_map_getD (n : Node R) :
    Completes n.valueOf (truth (n.values.map (·.getD false))) := by
  intro v b hv
  rw [truth_map_getD, hv, Option.getD_some]

/-- With all variables fixed, the values themselves are a feasible assignment. -/
theorem Settled.isFeasible (hm : m.WellFormed) (ht : n.Tracks m) (hn : n.Settled m)
    (hfree : ∀ v, ¬ n.isFree v) : m.isFeasible (n.values.map (·.getD false)) = true :=
  (Model.isFeasible_iff hm).2
    ⟨by rw [Array.size_map, ht.size_values], hn.satisfiedBy hm ht hfree n.completes_map_getD⟩

theorem lt_size_of_forced? {fs : List Forced} (h : n.forced? m = some fs) :
    ∀ p ∈ fs, p.1 < n.values.size := fun _ hp ↦ (isFree_iff.1 (isFree_of_forced? h hp)).1

variable [Scalar R]

theorem reaches_assignAll (fs : List Forced) (h : ∀ p ∈ fs, p.1 < n.values.size) :
    Reaches m n (n.assignAll m fs).1 := by
  induction fs generalizing n with
  | nil => exact .refl
  | cons p fs ih =>
    have hfs : ∀ q ∈ fs, q.1 < n.values.size := fun q hq ↦ h q (List.mem_cons_of_mem _ hq)
    unfold assignAll
    split
    · next hv =>
      have hfree : n.isFree p.1 := isFree_iff.2 ⟨h p List.mem_cons_self, hv⟩
      exact (Reaches.refl.assign p.2 hfree).trans (ih fun q hq ↦ by simpa [assign] using hfs q hq)
    · split
      · exact ih hfs
      · exact .refl

theorem extends_assignAll (fs : List Forced) (h : ∀ p ∈ fs, p.1 < n.values.size)
    (hτ : Extends τ n.valueOf) (hfs : ∀ p ∈ fs, τ p.1 = some p.2) :
    (n.assignAll m fs).2 = true ∧ Extends τ (n.assignAll m fs).1.valueOf := by
  induction fs generalizing n with
  | nil => exact ⟨rfl, hτ⟩
  | cons p fs ih =>
    have hp : τ p.1 = some p.2 := hfs p List.mem_cons_self
    have hlt : ∀ q ∈ fs, q.1 < n.values.size := fun q hq ↦ h q (List.mem_cons_of_mem _ hq)
    have hfs' : ∀ q ∈ fs, τ q.1 = some q.2 := fun q hq ↦ hfs q (List.mem_cons_of_mem _ hq)
    unfold assignAll
    split
    · refine ih (fun q hq ↦ by simpa [assign] using hlt q hq) ?_ hfs'
      rw [valueOf_assign m (h p List.mem_cons_self)]
      exact hτ.update_left hp
    · next b hv =>
      rw [if_pos (Option.some_inj.1 ((hτ p.1 b hv).symm.trans hp))]
      exact ih hlt hτ hfs'

theorem reaches_propagate (m : Model R) (n : Node R) : Reaches m n (n.propagate m).1 := by
  fun_induction propagate m n with
  | case1 n h => exact .refl
  | case2 n h => exact .refl
  | case3 n p fs h n' h' ih =>
    have hr := reaches_assignAll (m := m) (p :: fs) (lt_size_of_forced? h)
    rw [h'] at hr
    exact hr.trans ih
  | case4 n p fs h n' h' =>
    have hr := reaches_assignAll (m := m) (p :: fs) (lt_size_of_forced? h)
    rwa [h'] at hr

theorem settled_propagate (h : (n.propagate m).2 = true) : (n.propagate m).1.Settled m := by
  fun_induction propagate m n with
  | case1 n h' => cases h
  | case2 n h' => exact h'
  | case3 n p fs _ n' _ ih => exact ih h
  | case4 n p fs _ n' _ => cases h

/-- Values that every constraint upholds, whatever part of them is fixed, survive propagation, and there is no
conflict then. -/
theorem extends_propagate (hupholds : ∀ σ, Extends τ σ → ∀ c ∈ m.constraints, c.Upholds σ τ)
    (ht : n.Tracks m) (hτ : Extends τ n.valueOf) :
    (n.propagate m).2 = true ∧ Extends τ (n.propagate m).1.valueOf := by
  fun_induction propagate m n with
  | case1 n h =>
    obtain ⟨fs, hfs, -⟩ := exists_forced?_eq ht (hupholds _ hτ)
    rw [h] at hfs
    cases hfs
  | case2 n h => exact ⟨rfl, hτ⟩
  | case3 n p fs h n' h' ih =>
    obtain ⟨gs, hgs, hval⟩ := exists_forced?_eq ht (hupholds _ hτ)
    obtain rfl : p :: fs = gs := Option.some_inj.1 (h.symm.trans hgs)
    have hr := reaches_assignAll (m := m) (p :: fs) (lt_size_of_forced? h)
    have ha := extends_assignAll (m := m) (p :: fs) (lt_size_of_forced? h) hτ hval
    rw [h'] at hr ha
    exact ih (hr.tracks ht) ha.2
  | case4 n p fs h n' h' =>
    obtain ⟨gs, hgs, hval⟩ := exists_forced?_eq ht (hupholds _ hτ)
    obtain rfl : p :: fs = gs := Option.some_inj.1 (h.symm.trans hgs)
    have ha := extends_assignAll (m := m) (p :: fs) (lt_size_of_forced? h) hτ hval
    rw [h'] at ha
    exact absurd ha.1 Bool.false_ne_true

/-- A feasible completion survives propagation, and there is no conflict then. -/
theorem propagate_sound (hm : m.WellFormed) (ht : n.Tracks m) (hf : Completes n.valueOf f)
    (hs : m.SatisfiedBy f) :
    (n.propagate m).2 = true ∧ Completes (n.propagate m).1.valueOf f := by
  have hupholds (σ : ℕ → Option Bool) (hσ : Extends (fun v ↦ some (f v)) σ) (c : Constraint)
      (hc : c ∈ m.constraints) : c.Upholds σ fun v ↦ some (f v) :=
    Constraint.upholds_of_completes (hm.constraints c hc) (extends_some_iff.1 hσ) (hs c hc)
  obtain ⟨hdone, hext⟩ := extends_propagate hupholds ht (extends_some_iff.2 hf)
  exact ⟨hdone, extends_some_iff.1 hext⟩

end Node

end NoisyDNF.ZeroOne
