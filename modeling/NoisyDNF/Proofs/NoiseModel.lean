import Mathlib.Algebra.BigOperators.Ring.Finset
import NoisyDNF.Likelihood
import NoisyDNF.Proofs.ExactArithmetic
import NoisyDNF.Proofs.FirstFailure
import NoisyDNF.Proofs.Formula.Completion
import NoisyDNF.Proofs.Scenario.Validity

namespace NoisyDNF

open Scenario (bothTrue bothObserved varA varB)

instance : Std.Asymm fun v w : Var ↦ v < w := ⟨fun v _ h h' ↦ Var.lt_irrefl v (Var.lt_trans h h')⟩

section Scalar

variable {R : Type} [Scalar R] {observed x y : Assignment} {noise noise' : Noise R} {v : Var} {e : Error R}

/-- The probability to observe a variable with the value of one assignment when it has that of another one. -/
def factorAt (observed x : Assignment) (noise : Noise R) (v : Var) : Except (Error R) R :=
  match observed.get? v, x.get? v, noise.get? v with
  | some b, some c, some p => .ok (if b = c then 1 - p else p)
  | _, _, _ => .error (.outsideDomain v)

theorem likelihood_eq_bind (observed x : Assignment) (noise : Noise R) :
    likelihood observed x noise =
      observed.keys.mapM (factorAt observed x noise) >>= fun ps ↦ pure (Scalar.product ps) := by
  have hfactor : ∀ o ∈ observed.entries,
      observationFactor x noise o = (factorAt observed x noise ∘ Prod.fst) o := by
    intro o ho
    rw [observationFactor, Function.comp_apply, factorAt, VarMap.get?_eq_some_iff.2 ho]
    cases x.get? o.1 <;> cases noise.get? o.1 <;> rfl
  rw [likelihood, mapM_congr hfactor, VarMap.keys, List.mapM_map]

theorem factorAt_comm (x y : Assignment) (noise : Noise R) (v : Var) :
    factorAt x y noise v = factorAt y x noise v := by
  rw [factorAt, factorAt]
  cases x.get? v <;> cases y.get? v <;> cases noise.get? v <;> simp only [eq_comm]

theorem exists_factorAt_iff (hv : v ∈ observed.keys) :
    (∃ p, factorAt observed x noise v = .ok p) ↔ v ∈ x.keys ∧ v ∈ noise.keys := by
  obtain ⟨b, hb⟩ := VarMap.mem_keys_iff.1 hv
  rw [VarMap.mem_keys_iff, VarMap.mem_keys_iff, factorAt, hb]
  cases x.get? v <;> cases noise.get? v <;> simp

theorem factorAt_eq_error_iff (hv : v ∈ observed.keys) :
    factorAt observed x noise v = .error e ↔ (v ∉ x.keys ∨ v ∉ noise.keys) ∧ e = .outsideDomain v := by
  obtain ⟨b, hb⟩ := VarMap.mem_keys_iff.1 hv
  rw [← VarMap.get?_eq_none_iff, ← VarMap.get?_eq_none_iff, factorAt, hb]
  cases x.get? v <;> cases noise.get? v <;> simp [eq_comm]

/-- Values and error probabilities of variables that are not observed do not count. -/
theorem likelihood_congr (hx : ∀ v ∈ observed.keys, x.get? v = y.get? v)
    (hn : ∀ v ∈ observed.keys, noise.get? v = noise'.get? v) :
    likelihood observed x noise = likelihood observed y noise' := by
  have hfactor : ∀ v ∈ observed.keys, factorAt observed x noise v = factorAt observed y noise' v := by
    intro v hv
    rw [factorAt, factorAt, hx v hv, hn v hv]
  rw [likelihood_eq_bind, likelihood_eq_bind, mapM_congr hfactor]

theorem likelihood_comm (h : x.keys = y.keys) (noise : Noise R) :
    likelihood x y noise = likelihood y x noise := by
  rw [likelihood_eq_bind, likelihood_eq_bind, h, mapM_congr fun v _ ↦ factorAt_comm x y noise v]

theorem likelihood_eq_error_iff_mapM :
    likelihood observed x noise = .error e ↔ observed.keys.mapM (factorAt observed x noise) = .error e := by
  rw [likelihood_eq_bind, bind_eq_error_iff]
  exact or_iff_left nofun

/-- The error names the least observed variable without a true value or an error probability. -/
theorem likelihood_eq_error_iff :
    likelihood observed x noise = .error e ↔
      ∃ v ∈ observed.keys, (v ∉ x.keys ∨ v ∉ noise.keys) ∧
        (∀ w ∈ observed.keys, w < v → w ∈ x.keys ∧ w ∈ noise.keys) ∧ e = .outsideDomain v := by
  rw [likelihood_eq_error_iff_mapM, mapM_eq_error_iff_of_sorted observed.sorted_keys]
  refine exists_congr fun v ↦ and_congr_right fun hv ↦ ?_
  rw [factorAt_eq_error_iff hv, and_assoc, and_comm (a := e = _)]
  refine and_congr_right fun _ ↦ and_congr_left fun _ ↦ ?_
  exact forall₃_congr fun w hw _ ↦ exists_factorAt_iff hw

theorem exists_likelihood_eq_error_iff :
    (∃ e, likelihood observed x noise = .error e) ↔
      ∃ v ∈ observed.keys, v ∉ x.keys ∨ v ∉ noise.keys := by
  constructor
  · rintro ⟨e, he⟩
    obtain ⟨v, hv, hmissing, -⟩ := likelihood_eq_error_iff.1 he
    exact ⟨v, hv, hmissing⟩
  · rintro ⟨v, hv, hmissing⟩
    simp only [likelihood_eq_error_iff_mapM]
    cases h : observed.keys.mapM (factorAt observed x noise) with
    | error e => exact ⟨e, rfl⟩
    | ok ps =>
      obtain ⟨p, -, hp⟩ := exists_mem_of_forall₂ (mapM_eq_ok_iff.1 h) hv
      obtain ⟨hx, hn⟩ := (exists_factorAt_iff hv).1 ⟨p, hp⟩
      exact absurd hmissing (not_or.2 ⟨not_not.2 hx, not_not.2 hn⟩)

end Scalar

section Truths

variable {observed x : Assignment} {vs : Finset Var} {v : Var}

def truthWith (observed : Assignment) (vs : Finset Var) : Assignment :=
  observed.map fun v _ ↦ decide (v ∈ vs)

def truths (observed : Assignment) : Finset Assignment :=
  observed.keys.toFinset.powerset.image (truthWith observed)

theorem get?_truthWith (hv : v ∈ observed.keys) :
    (truthWith observed vs).get? v = some (decide (v ∈ vs)) := by
  obtain ⟨b, hb⟩ := VarMap.mem_keys_iff.1 hv
  rw [truthWith, VarMap.get?_map, hb, Option.map_some]

theorem mem_truths : x ∈ truths observed ↔ x.keys = observed.keys := by
  rw [truths, Finset.mem_image]
  constructor
  · rintro ⟨vs, -, rfl⟩
    exact VarMap.keys_map _ observed
  · intro hx
    refine ⟨observed.keys.toFinset.filter (x.holds ·), ?_, VarMap.ext_get? fun v ↦ ?_⟩
    · exact Finset.mem_powerset.2 (Finset.filter_subset _ _)
    by_cases hv : v ∈ observed.keys
    · obtain ⟨b, hb⟩ := VarMap.mem_keys_iff.1 (hx ▸ hv)
      rw [get?_truthWith hv, hb]
      cases b <;> simp [hv, Assignment.holds, hb]
    · have hnone : x.get? v = none := VarMap.get?_eq_none_iff.2 (hx.symm ▸ hv)
      rw [hnone, VarMap.get?_eq_none_iff, truthWith, VarMap.keys_map]
      exact hv

theorem injOn_truthWith :
    Set.InjOn (truthWith observed) (observed.keys.toFinset.powerset : Set (Finset Var)) := by
  have hsub {vs ws : Finset Var} (hvs : vs ⊆ observed.keys.toFinset)
      (h : truthWith observed vs = truthWith observed ws) : vs ⊆ ws := by
    intro v hv
    have hkey : v ∈ observed.keys := List.mem_toFinset.1 (hvs hv)
    have hget := (get?_truthWith hkey).symm.trans ((congrArg (·.get? v) h).trans (get?_truthWith hkey))
    exact of_decide_eq_true ((Option.some_inj.1 hget).symm.trans (decide_eq_true hv))
  intro vs hvs ws hws h
  rw [Finset.mem_coe, Finset.mem_powerset] at hvs hws
  exact (hsub hvs h).antisymm (hsub hws h.symm)

end Truths

section Exact

variable {K : Type} [Field K] [LinearOrder K] {observed x : Assignment} {noise : Noise K} {v : Var}

def share (observed : Assignment) (noise : Noise K) (v : Var) (c : Bool) : K :=
  let p := (noise.get? v).getD 0
  if observed.get? v = some c then 1 - p else p

theorem share_true_add_share_false (hv : v ∈ observed.keys) (noise : Noise K) :
    share observed noise v true + share observed noise v false = 1 := by
  obtain ⟨b, hb⟩ := VarMap.mem_keys_iff.1 hv
  rw [share, share, hb]
  cases b <;> simp

theorem likelihood_eq_prod (hn : ∀ v ∈ observed.keys, v ∈ noise.keys) (hx : x.keys = observed.keys) :
    likelihood observed x noise =
      .ok (∏ v ∈ observed.keys.toFinset, share observed noise v (x.holds v)) := by
  have hfactor : ∀ v ∈ observed.keys,
      factorAt observed x noise v = .ok (share observed noise v (x.holds v)) := by
    intro v hv
    obtain ⟨b, hb⟩ := VarMap.mem_keys_iff.1 hv
    obtain ⟨c, hc⟩ := VarMap.mem_keys_iff.1 (hx ▸ hv)
    obtain ⟨p, hp⟩ := VarMap.mem_keys_iff.1 (hn v hv)
    simp only [factorAt, share, Assignment.holds, hb, hc, hp, Option.getD_some]
    cases c <;> simp
  rw [likelihood_eq_bind, mapM_eq_ok hfactor, List.prod_toFinset _ observed.nodup_keys,
    ← Scalar.product_eq_prod]
  rfl

/-- Every variable is observed in one of two ways, so the sum over all truths is a product of ones. -/
theorem sum_prod_share (observed : Assignment) (noise : Noise K) :
    ∑ x ∈ truths observed, ∏ v ∈ observed.keys.toFinset, share observed noise v (x.holds v) = 1 := by
  have hprod : ∀ vs ∈ observed.keys.toFinset.powerset,
      ∏ v ∈ observed.keys.toFinset, share observed noise v ((truthWith observed vs).holds v) =
        (∏ v ∈ vs, share observed noise v true) *
          ∏ v ∈ observed.keys.toFinset \ vs, share observed noise v false := by
    intro vs hvs
    have hsub := Finset.mem_powerset.1 hvs
    have hholds {v : Var} (hv : v ∈ observed.keys.toFinset) :
        (truthWith observed vs).holds v = decide (v ∈ vs) := by
      rw [Assignment.holds, get?_truthWith (List.mem_toFinset.1 hv)]
      simp
    rw [← Finset.prod_sdiff hsub, mul_comm]
    congr 1
    · refine Finset.prod_congr rfl fun v hv ↦ ?_
      rw [hholds (hsub hv), decide_eq_true hv]
    · refine Finset.prod_congr rfl fun v hv ↦ ?_
      obtain ⟨hmem, hnot⟩ := Finset.mem_sdiff.1 hv
      rw [hholds hmem, decide_eq_false hnot]
  calc ∑ x ∈ truths observed, ∏ v ∈ observed.keys.toFinset, share observed noise v (x.holds v)
      = ∑ vs ∈ observed.keys.toFinset.powerset, (∏ v ∈ vs, share observed noise v true) *
          ∏ v ∈ observed.keys.toFinset \ vs, share observed noise v false := by
        rw [truths, Finset.sum_image injOn_truthWith]
        exact Finset.sum_congr rfl hprod
    _ = ∏ v ∈ observed.keys.toFinset, (share observed noise v true + share observed noise v false) :=
        (Finset.prod_add _ _ _).symm
    _ = 1 := Finset.prod_eq_one fun v hv ↦ share_true_add_share_false (List.mem_toFinset.1 hv) noise

end Exact

/-- In exact arithmetic the likelihoods of the truths of the observed variables sum up to one. In every
arithmetic a likelihood depends on these variables only, is symmetric in truth and observation, and is missing
just when an observed variable has no true value or no error probability, of which the error names the
least. -/
theorem likelihood_isDistribution {K : Type} [Field K] [LinearOrder K] {R : Type} [Scalar R]
    (observed : Assignment) :
    (∀ x, x ∈ truths observed ↔ x.keys = observed.keys) ∧
    (∀ noise : Noise K, (∀ v ∈ observed.keys, v ∈ noise.keys) →
      ∃ p : Assignment → K, (∀ x ∈ truths observed, likelihood observed x noise = .ok (p x)) ∧
        ∑ x ∈ truths observed, p x = 1) ∧
    (∀ (x y : Assignment) (noise noise' : Noise R), (∀ v ∈ observed.keys, x.get? v = y.get? v) →
      (∀ v ∈ observed.keys, noise.get? v = noise'.get? v) →
      likelihood observed x noise = likelihood observed y noise') ∧
    (∀ (x : Assignment) (noise : Noise R), x.keys = observed.keys →
      likelihood observed x noise = likelihood x observed noise) ∧
    ∀ (x : Assignment) (noise : Noise R),
      ((∃ e, likelihood observed x noise = .error e) ↔
        ∃ v ∈ observed.keys, v ∉ x.keys ∨ v ∉ noise.keys) ∧
      ∀ e, likelihood observed x noise = .error e ↔
        ∃ v ∈ observed.keys, (v ∉ x.keys ∨ v ∉ noise.keys) ∧
          (∀ w ∈ observed.keys, w < v → w ∈ x.keys ∧ w ∈ noise.keys) ∧ e = .outsideDomain v := by
  refine ⟨fun x ↦ mem_truths, fun noise hn ↦ ?_, fun x y noise noise' hx hn ↦ likelihood_congr hx hn,
    fun x noise hx ↦ likelihood_comm hx.symm noise, fun x noise ↦ ?_⟩
  · exact ⟨_, fun x hx ↦ likelihood_eq_prod hn (mem_truths.1 hx), sum_prod_share observed noise⟩
  · exact ⟨exists_likelihood_eq_error_iff, fun e ↦ likelihood_eq_error_iff⟩

/-- Two variables observed to be true; in the last part one has no true value and the other no error
probability. -/
theorem likelihood_isDistribution_bothTrue :
    (∃ p : Assignment → ℚ, (∀ x ∈ truths bothTrue,
      likelihood bothTrue x (bothObserved (1 / 4 : ℚ) (1 / 3)).noise = .ok (p x)) ∧
        ∑ x ∈ truths bothTrue, p x = 1) ∧
    likelihood bothTrue bothTrue (bothObserved (1 / 4 : ℚ) (1 / 3)).noise =
      likelihood bothTrue (bothTrue.insert ⟨"c", by decide⟩ true) (bothObserved (1 / 4 : ℚ) (1 / 3)).noise ∧
    likelihood bothTrue (bothTrue.insert varB false) (bothObserved (1 / 4 : ℚ) (1 / 3)).noise =
      likelihood (bothTrue.insert varB false) bothTrue (bothObserved (1 / 4 : ℚ) (1 / 3)).noise ∧
    likelihood bothTrue (.ofList [(varA, true)]) (.ofList [(varB, 1 / 3)] : Noise ℚ) =
      .error (.outsideDomain varA) := by
  obtain ⟨-, hsum, hcongr, hcomm, hfail⟩ := likelihood_isDistribution (K := ℚ) (R := ℚ) bothTrue
  have hkeys : (bothObserved (1 / 4 : ℚ) (1 / 3)).noise.keys = bothTrue.keys := by decide
  refine ⟨hsum _ fun v hv ↦ hkeys ▸ hv, hcongr _ _ _ _ (by decide) fun _ _ ↦ rfl, hcomm _ _ (by decide), ?_⟩
  exact ((hfail _ _).2 _).2 ⟨varA, by decide, .inr (by decide), by decide, rfl⟩

end NoisyDNF
