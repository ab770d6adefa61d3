import NoisyDNF.Proofs.ZeroOne.Feasibility
import NoisyDNF.ZeroOne.Node
import Mathlib.Tactic.Abel

namespace NoisyDNF.ZeroOne

attribute [ext] Activity

namespace Activity

instance : Zero Activity := ⟨{}⟩

instance : Add Activity :=
  ⟨fun a b ↦ ⟨a.fixed + b.fixed, a.positive + b.positive, a.negative + b.negative⟩⟩

instance : Neg Activity := ⟨fun a ↦ ⟨-a.fixed, -a.positive, -a.negative⟩⟩

@[simp] theorem fixed_zero : (0 : Activity).fixed = 0 := rfl
@[simp] theorem positive_zero : (0 : Activity).positive = 0 := rfl
@[simp] theorem negative_zero : (0 : Activity).negative = 0 := rfl
@[simp] theorem fixed_add (a b : Activity) : (a + b).fixed = a.fixed + b.fixed := rfl
@[simp] theorem positive_add (a b : Activity) : (a + b).positive = a.positive + b.positive := rfl
@[simp] theorem negative_add (a b : Activity) : (a + b).negative = a.negative + b.negative := rfl
@[simp] theorem fixed_neg (a : Activity) : (-a).fixed = -a.fixed := rfl
@[simp] theorem positive_neg (a : Activity) : (-a).positive = -a.positive := rfl
@[simp] theorem negative_neg (a : Activity) : (-a).negative = -a.negative := rfl

instance : AddCommGroup Activity where
  add_assoc a b c := by ext <;> simp [add_assoc]
  zero_add a := by ext <;> simp
  add_zero a := by ext <;> simp
  neg_add_cancel a := by ext <;> simp
  add_comm a b := by ext <;> simp [add_comm]
  nsmul := nsmulRec
  zsmul := zsmulRec

def fixedHom : Activity →+ ℤ := ⟨⟨fixed, fixed_zero⟩, fixed_add⟩

def positiveHom : Activity →+ ℤ := ⟨⟨positive, positive_zero⟩, positive_add⟩

def negativeHom : Activity →+ ℤ := ⟨⟨negative, negative_zero⟩, negative_add⟩

/-- What a coefficient adds to the activity when its variable is free or has a value. -/
def share (k : ℤ) : Option Bool → Activity
  | none => ⟨0, max k 0, min k 0⟩
  | some true => ⟨k, 0, 0⟩
  | some false => 0

theorem free_eq (a : Activity) (k : ℤ) : a.free k = a + share k none := by
  by_cases hk : 0 < k
  · ext <;> simp [free, share, hk, hk.le]
  · ext <;> simp [free, share, hk, not_lt.1 hk]

theorem fix_eq (a : Activity) (k : ℤ) (b : Bool) :
    a.fix k b = a + (share k (some b) - share k none) := by
  by_cases hk : 0 < k <;> cases b <;> ext <;>
    simp [fix, unfree, share, hk, not_lt.1, le_of_lt, sub_eq_add_neg]

theorem unfix_eq (a : Activity) (k : ℤ) (b : Bool) :
    a.unfix k b = a - (share k (some b) - share k none) := by
  by_cases hk : 0 < k <;> cases b <;> ext <;>
    simp [unfix, free, share, hk, not_lt.1, le_of_lt, sub_eq_add_neg]

@[simp] theorem least_add (a b : Activity) : (a + b).least = a.least + b.least := by
  simp [least, add_add_add_comm]

@[simp] theorem greatest_add (a b : Activity) : (a + b).greatest = a.greatest + b.greatest := by
  simp [greatest, add_add_add_comm]

@[simp] theorem least_neg (a : Activity) : (-a).least = -a.least := by simp [least, add_comm]

@[simp] theorem greatest_neg (a : Activity) : (-a).greatest = -a.greatest := by
  simp [greatest, add_comm]

/-- A value that a variable may still take contributes no less and no more than the share says. -/
theorem share_bounds (k : ℤ) {o : Option Bool} {b : Bool} (h : o.all (· == b)) :
    (share k o).least ≤ (if b then k else 0) ∧ (if b then k else 0) ≤ (share k o).greatest := by
  obtain - | b' := o
  · cases b <;> simp [share, least, greatest]
  · cases b <;> cases b' <;> simp_all [share, least, greatest]

end Activity

def Completes (σ : ℕ → Option Bool) (f : ℕ → Bool) : Prop := ∀ v b, σ v = some b → f v = b

theorem Completes.all {σ : ℕ → Option Bool} {f : ℕ → Bool} (h : Completes σ f) (v : ℕ) :
    (σ v).all (· == f v) := by
  cases hv : σ v with
  | none => rfl
  | some b => simp [h v b hv]

def Extends (τ σ : ℕ → Option Bool) : Prop := ∀ v b, σ v = some b → τ v = some b

theorem extends_some_iff {σ : ℕ → Option Bool} {f : ℕ → Bool} :
    Extends (fun v ↦ some (f v)) σ ↔ Completes σ f :=
  forall₃_congr fun _ _ _ ↦ Option.some_inj

theorem extends_update {σ : ℕ → Option Bool} {v : ℕ} (hv : σ v = none) (o : Option Bool) :
    Extends (Function.update σ v o) σ := by
  intro w b hw
  rwa [Function.update_of_ne]
  rintro rfl
  cases hv.symm.trans hw

namespace Extends

variable {ρ τ σ : ℕ → Option Bool}

theorem refl (σ : ℕ → Option Bool) : Extends σ σ := fun _ _ ↦ id

theorem trans (h : Extends ρ τ) (h' : Extends τ σ) : Extends ρ σ := fun v b hv ↦ h v b (h' v b hv)

theorem antisymm (h : Extends τ σ) (h' : Extends σ τ) : τ = σ :=
  funext fun v ↦ Option.ext fun b ↦ ⟨h' v b, h v b⟩

theorem update (h : Extends τ σ) (v : ℕ) (o : Option Bool) :
    Extends (Function.update τ v o) (Function.update σ v o) := by
  intro w b hw
  by_cases hwv : w = v
  · subst hwv
    rwa [Function.update_self] at hw ⊢
  · rw [Function.update_of_ne hwv] at hw ⊢
    exact h w b hw

theorem update_left (h : Extends τ σ) {v : ℕ} {b : Bool}
    (hv : τ v = some b) : Extends τ (Function.update σ v (some b)) := by
  intro w b' hw
  by_cases hwv : w = v
  · subst hwv
    rwa [Function.update_self, ← hv] at hw
  · exact h w b' (by rwa [Function.update_of_ne hwv] at hw)

end Extends

theorem Completes.update {σ : ℕ → Option Bool} {f : ℕ → Bool} (h : Completes σ f) (v : ℕ) :
    Completes (Function.update σ v (some (f v))) f :=
  extends_some_iff.1 ((extends_some_iff.2 h).update_left rfl)

namespace Constraint

def activityUnder (c : Constraint) (σ : ℕ → Option Bool) : Activity :=
  (c.terms.map fun t ↦ Activity.share t.2 (σ t.1)).sum

/-- The terms add up in each of the sums of the activity. -/
theorem map_activityUnder (π : Activity →+ ℤ) (c : Constraint) (σ : ℕ → Option Bool) :
    π (c.activityUnder σ) = (c.terms.map fun t ↦ π (Activity.share t.2 (σ t.1))).sum := by
  rw [activityUnder, map_list_sum, List.map_map]
  rfl

theorem fixed_activityUnder (c : Constraint) (σ : ℕ → Option Bool) : (c.activityUnder σ).fixed =
    (c.terms.map fun t ↦ if σ t.1 = some true then t.2 else 0).sum := by
  refine (c.map_activityUnder Activity.fixedHom σ).trans (congrArg List.sum (List.map_congr_left ?_))
  intro t _
  cases σ t.1 with
  | none => rfl
  | some b => cases b <;> rfl

theorem activity_eq (c : Constraint) : c.activity = c.activityUnder fun _ ↦ none := by
  have h (ts : List (ℕ × ℤ)) (a : Activity) :
      ts.foldl (fun a t ↦ a.free t.2) a = a + (ts.map fun t ↦ Activity.share t.2 none).sum := by
    induction ts generalizing a with
    | nil => simp
    | cons t ts ih =>
      rw [List.foldl_cons, ih, Activity.free_eq, List.map_cons, List.sum_cons, add_assoc]
  exact (h c.terms 0).trans (zero_add _)

theorem update_eq (c : Constraint) {change : Activity → ℤ → Activity} {d : ℤ → Activity}
    (h : ∀ a k, change a k = a + d k) (v : ℕ) (a : Activity) :
    c.update change v a = a + (c.terms.map fun t ↦ if t.1 = v then d t.2 else 0).sum := by
  unfold update
  induction c.terms generalizing a with
  | nil => simp
  | cons t ts ih =>
    rw [List.foldl_cons, ih, List.map_cons, List.sum_cons]
    split
    · rw [h, add_assoc]
    · rw [zero_add]

theorem update_unfix_update_fix (c : Constraint) (v : ℕ) (b : Bool) (a : Activity) :
    c.update (fun a k ↦ a.unfix k b) v (c.update (fun a k ↦ a.fix k b) v a) = a := by
  rw [c.update_eq fun a k ↦ (Activity.unfix_eq a k b).trans (sub_eq_add_neg _ _),
    c.update_eq fun a k ↦ Activity.fix_eq a k b, add_assoc, ← List.sum_map_add]
  have h : ∀ t ∈ c.terms, ((if t.1 = v then Activity.share t.2 (some b) - Activity.share t.2 none
      else 0) + if t.1 = v then -(Activity.share t.2 (some b) - Activity.share t.2 none) else 0) =
      (0 : Activity) := by
    intro t _
    split
    · exact add_neg_cancel _
    · exact add_zero 0
  rw [List.map_congr_left h]
  simp

theorem activityUnder_update (c : Constraint) {σ : ℕ → Option Bool} {v : ℕ} (hv : σ v = none)
    (b : Bool) : c.activityUnder (Function.update σ v (some b)) =
      c.update (fun a k ↦ a.fix k b) v (c.activityUnder σ) := by
  rw [c.update_eq fun a k ↦ Activity.fix_eq a k b, activityUnder, activityUnder, ← List.sum_map_add]
  congr 1
  apply List.map_congr_left
  intro t _
  by_cases ht : t.1 = v
  · simp [ht, hv]
  · simp [ht]

theorem lhs_mem_activityUnder (c : Constraint) {σ : ℕ → Option Bool} {f : ℕ → Bool}
    (h : Completes σ f) :
    (c.activityUnder σ).least ≤ c.lhs f ∧ c.lhs f ≤ (c.activityUnder σ).greatest := by
  unfold activityUnder lhs
  induction c.terms with
  | nil => simp [Activity.least, Activity.greatest]
  | cons t ts ih =>
    have ht := Activity.share_bounds t.2 (h.all t.1)
    simp only [List.map_cons, List.sum_cons, Activity.least_add, Activity.greatest_add]
    omega

theorem activityUnder_total (c : Constraint) {σ : ℕ → Option Bool} {f : ℕ → Bool}
    (h : ∀ t ∈ c.terms, σ t.1 = some (f t.1)) :
    (c.activityUnder σ).least = c.lhs f ∧ (c.activityUnder σ).greatest = c.lhs f := by
  unfold activityUnder lhs
  generalize c.terms = ts at h
  induction ts with
  | nil => simp [Activity.least, Activity.greatest]
  | cons t ts ih =>
    have ht : (Activity.share t.2 (σ t.1)).least = (if f t.1 then t.2 else 0) ∧
        (Activity.share t.2 (σ t.1)).greatest = (if f t.1 then t.2 else 0) := by
      rw [h t List.mem_cons_self]
      cases f t.1 <;> simp [Activity.share, Activity.least, Activity.greatest]
    have hts := ih fun u hu ↦ h u (List.mem_cons_of_mem _ hu)
    simp only [List.map_cons, List.sum_cons, Activity.least_add, Activity.greatest_add]
    omega

end Constraint

end NoisyDNF.ZeroOne
