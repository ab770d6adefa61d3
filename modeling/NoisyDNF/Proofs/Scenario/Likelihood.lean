import Mathlib.Algebra.Order.Field.Basic
import Mathlib.Algebra.BigOperators.Ring.List
import Mathlib.Algebra.Order.BigOperators.GroupWithZero.List
import Mathlib.Data.Set.Defs
import Mathlib.Tactic.Linarith
import NoisyDNF.Proofs.FirstFailure
import NoisyDNF.Proofs.MonotoneArithmetic
import NoisyDNF.Proofs.Scenario.Validity

namespace NoisyDNF

theorem prod_map_le_one {K α : Type} [Field K] [LinearOrder K] [IsStrictOrderedRing K] {f : α → K}
    {as : List α} (h : ∀ a ∈ as, 0 ≤ f a ∧ f a ≤ 1) : (as.map f).prod ≤ 1 :=
  (List.prod_map_le_prod_map₀ f (fun _ ↦ 1) (fun a ha ↦ (h a ha).1) fun a ha ↦ (h a ha).2).trans_eq
    (by simp)

theorem prod_map_filterMap {M α β : Type} [CommMonoid M] (f : α → Option β) (g : β → M)
    (as : List α) : ((as.filterMap f).map g).prod = (as.map fun a ↦ (f a).elim 1 g).prod := by
  induction as with
  | nil => rfl
  | cons a as ih =>
    rw [List.map_cons, List.prod_cons, ← ih]
    cases hf : f a <;> simp [hf]

namespace Scenario

section Scalar

variable {R : Type} {s : Scenario R} {k : ℕ} {x : Assignment} {v : Var}

def IsTruth (s : Scenario R) (x : Assignment) : Prop := x.keys = s.formula.atoms.keys

theorem IsTruth.exists_value (hx : s.IsTruth x) (hv : v ∈ s.formula.atoms.keys) :
    ∃ b, x.get? v = some b :=
  VarMap.mem_keys_iff.1 (hx ▸ hv)

variable [Scalar R]

/-- The likelihoods of the observation under the truths of a class. -/
def likelihoodsOf (s : Scenario R) (c : Bool) : Set R := fun p ↦
  ∃ x, s.IsTruth x ∧ s.formula.evaluate x = some c ∧ likelihood s.observed x s.noise = .ok p

def factor (s : Scenario R) (x : Assignment) (e : Var × Bool) : R :=
  let p := (s.noise.get? e.1).getD 0
  if x.get? e.1 = some e.2 then 1 - p else p

def likelihoodOf (s : Scenario R) (x : Assignment) : R :=
  Scalar.product (s.observed.entries.map (s.factor x))

theorem Valid.mem_atoms_of_observed (hs : s.Valid k) {b : Bool} (h : s.observed.get? v = some b) :
    v ∈ s.formula.atoms.keys :=
  hs.keys_observed v (VarMap.mem_keys_iff.2 ⟨b, h⟩)

theorem likelihood_eq_of_covers (hn : ∀ v ∈ s.observed.keys, v ∈ s.noise.keys)
    (hx : ∀ v ∈ s.observed.keys, v ∈ x.keys) :
    likelihood s.observed x s.noise = .ok (s.likelihoodOf x) := by
  have hfactor : ∀ e ∈ s.observed.entries, observationFactor x s.noise e = .ok (s.factor x e) := by
    intro e he
    obtain ⟨p, hp⟩ := VarMap.mem_keys_iff.1 (hn e.1 (List.mem_map_of_mem he))
    obtain ⟨b, hb⟩ := VarMap.mem_keys_iff.1 (hx e.1 (List.mem_map_of_mem he))
    simp only [observationFactor, factor, hp, hb, Option.getD_some, Option.some_inj, eq_comm]
  rw [likelihood, mapM_eq_ok hfactor]
  rfl

theorem likelihood_eq (hs : s.Valid k) (hx : s.IsTruth x) :
    likelihood s.observed x s.noise = .ok (s.likelihoodOf x) :=
  likelihood_eq_of_covers hs.noise_covers_observed fun v hv ↦ hx ▸ hs.keys_observed v hv

/-- Only the values of observed variables count. -/
theorem likelihoodOf_congr {z : Assignment}
    (h : ∀ v b, s.observed.get? v = some b → x.get? v = z.get? v) :
    s.likelihoodOf x = s.likelihoodOf z := by
  rw [likelihoodOf, likelihoodOf]
  congr 1
  apply List.map_congr_left
  intro e he
  rw [factor, factor, h e.1 e.2 (VarMap.get?_eq_some_iff.2 he)]

theorem mem_likelihoodsOf (hs : s.Valid k) {c : Bool} {p : R} :
    p ∈ s.likelihoodsOf c ↔
      ∃ x, s.IsTruth x ∧ s.formula.evaluate x = some c ∧ s.likelihoodOf x = p := by
  refine exists_congr fun x ↦ and_congr_right fun hx ↦ and_congr_right fun _ ↦ ?_
  rw [likelihood_eq hs hx, Except.ok.injEq]

def isCertain (s : Scenario R) (v : Var) : Bool := (s.noise.get? v).any Scalar.isZero

def Respects (s : Scenario R) (x : Assignment) : Prop :=
  ∀ v b, s.isCertain v = true → s.observed.get? v = some b → x.get? v = some b

section MonotoneScalar

variable [MonotoneScalar R]

theorem Valid.isLikelihood_factor (hs : s.Valid k) (x : Assignment) {e : Var × Bool}
    (he : e ∈ s.observed.entries) : MonotoneScalar.IsLikelihood (s.factor x e) := by
  obtain ⟨p, hp⟩ := hs.exists_noise (hs.mem_atoms_of_observed (VarMap.get?_eq_some_iff.2 he))
  rw [factor, hp, Option.getD_some]
  split
  · exact MonotoneScalar.isLikelihood_complement (hs.noise_range _ p hp)
  · exact MonotoneScalar.isLikelihood_error (hs.noise_range _ p hp)

theorem Valid.isLikelihood_of_mem (hs : s.Valid k) (x : Assignment) :
    ∀ a ∈ s.observed.entries.map (s.factor x), MonotoneScalar.IsLikelihood a := by
  intro a ha
  obtain ⟨e, he, rfl⟩ := List.mem_map.1 ha
  exact hs.isLikelihood_factor x he

theorem Valid.isLikelihood_likelihoodOf (hs : s.Valid k) (x : Assignment) :
    MonotoneScalar.IsLikelihood (s.likelihoodOf x) :=
  MonotoneScalar.isLikelihood_product (hs.isLikelihood_of_mem x)

end MonotoneScalar

end Scalar

variable {K : Type} [Field K] [LinearOrder K] {s : Scenario K} {k : ℕ} {x : Assignment}

def contribution (s : Scenario K) (x : Assignment) (v : Var) : K :=
  (s.observed.get? v).elim 1 fun b ↦ s.factor x (v, b)

theorem likelihoodOf_eq_prod (ho : ∀ v ∈ s.observed.keys, v ∈ s.formula.atoms.keys) :
    s.likelihoodOf x = (s.formula.atoms.keys.map (s.contribution x)).prod := by
  rw [likelihoodOf, Scalar.product_eq_prod,
    VarMap.entries_eq_filterMap s.formula.atoms.sorted_keys ho, prod_map_filterMap]
  congr 1
  apply List.map_congr_left
  intro v _
  rw [contribution]
  cases s.observed.get? v <;> rfl

theorem Valid.noise_mem (hs : s.Valid k) {v : Var} {p : K} (hp : s.noise.get? v = some p) :
    0 ≤ p ∧ p < 1 / 2 :=
  isErrorProbability_iff.1 (hs.noise_range v p hp)

/-- Each atom has an error probability below one half, and only atoms are observed. -/
structure Measured (s : Scenario K) : Prop where
  exists_noise : ∀ v ∈ s.formula.atoms.keys, ∃ p, s.noise.get? v = some p ∧ 0 ≤ p ∧ p < 1 / 2
  keys_observed : ∀ v ∈ s.observed.keys, v ∈ s.formula.atoms.keys

theorem Valid.measured (hs : s.Valid k) : s.Measured where
  exists_noise v hv := by
    obtain ⟨p, hp⟩ := hs.exists_noise hv
    exact ⟨p, hp, hs.noise_mem hp⟩
  keys_observed := hs.keys_observed

theorem Measured.noise_covers (hs : s.Measured) : ∀ v ∈ s.formula.atoms.keys, v ∈ s.noise.keys := by
  intro v hv
  obtain ⟨p, hp, -⟩ := hs.exists_noise v hv
  exact VarMap.mem_keys_iff.2 ⟨p, hp⟩

theorem isCertain_iff {v : Var} : s.isCertain v = true ↔ s.noise.get? v = some 0 := by
  rw [isCertain]
  cases s.noise.get? v <;> simp

variable [IsStrictOrderedRing K]

theorem Measured.contribution_mem (hs : s.Measured) {v : Var} (hv : v ∈ s.formula.atoms.keys) :
    0 ≤ s.contribution x v ∧ s.contribution x v ≤ 1 := by
  obtain ⟨p, hp, h₀, h₁⟩ := hs.exists_noise v hv
  rw [contribution]
  cases s.observed.get? v with
  | none => exact ⟨zero_le_one, le_rfl⟩
  | some b =>
    simp only [Option.elim_some, factor, hp, Option.getD_some]
    split <;> constructor <;> linarith

theorem Valid.likelihoodOf_nonneg (hs : s.Valid k) : 0 ≤ s.likelihoodOf x :=
  MonotoneScalar.zero_le (hs.isLikelihood_likelihoodOf x)

theorem Measured.likelihoodOf_le_one (hs : s.Measured) : s.likelihoodOf x ≤ 1 := by
  rw [likelihoodOf_eq_prod hs.keys_observed]
  exact prod_map_le_one fun v hv ↦ hs.contribution_mem hv

theorem Valid.contribution_pos (hs : s.Valid k) (hx : s.Respects x) {v : Var}
    (hv : v ∈ s.formula.atoms.keys) : 0 < s.contribution x v := by
  obtain ⟨p, hp⟩ := hs.exists_noise hv
  obtain ⟨h₀, h₁⟩ := hs.noise_mem hp
  rw [contribution]
  cases hb : s.observed.get? v with
  | none => exact one_pos
  | some b =>
    simp only [Option.elim_some, factor, hp, Option.getD_some]
    split
    · linarith
    · next hne =>
      -- A certain observation would agree with the truth.
      refine lt_of_le_of_ne h₀ fun he ↦ hne (hx v b (isCertain_iff.2 ?_) hb)
      rw [hp, ← he]

theorem Valid.likelihoodOf_pos_iff (hs : s.Valid k) : 0 < s.likelihoodOf x ↔ s.Respects x := by
  rw [likelihoodOf_eq_prod hs.keys_observed]
  refine ⟨fun h v b hc hb ↦ ?_, fun hx ↦ List.prod_pos fun c hc ↦ ?_⟩
  · by_contra hne
    refine h.ne' (List.prod_eq_zero (List.mem_map.2 ⟨v, hs.mem_atoms_of_observed hb, ?_⟩))
    rw [contribution, hb, Option.elim_some, factor, isCertain_iff.1 hc, if_neg hne,
      Option.getD_some]
  · obtain ⟨v, hv, rfl⟩ := List.mem_map.1 hc
    exact hs.contribution_pos hx hv

theorem Valid.likelihoodOf_eq_zero (hs : s.Valid k) (hx : ¬ s.Respects x) :
    s.likelihoodOf x = 0 :=
  le_antisymm (not_lt.1 fun h ↦ hx (hs.likelihoodOf_pos_iff.1 h)) hs.likelihoodOf_nonneg

end Scenario

end NoisyDNF
