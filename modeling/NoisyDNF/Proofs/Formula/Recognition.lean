import NoisyDNF.Proofs.Formula.Completion

namespace NoisyDNF.Formula

variable {k : ℕ} {f t : Formula}

inductive IsKTerm : ℕ → Formula → Prop
  | var (v : Var) : IsKTerm 1 (.var v)
  | and {vs : List Var} : 2 ≤ vs.length → vs.Nodup → IsKTerm vs.length (.and (vs.map .var))

inductive IsKDnf (k : ℕ) : Formula → Prop
  | term {t : Formula} : IsKTerm k t → IsKDnf k t
  | or {ts : List Formula} : ts ≠ [] → (∀ t ∈ ts, IsKTerm k t) → IsKDnf k (.or ts)

theorem IsKTerm.pos (h : IsKTerm k t) : 0 < k := by
  cases h with
  | var v => exact Nat.one_pos
  | and hlen _ => exact Nat.two_pos.trans_le hlen

theorem IsKTerm.negationFree (h : IsKTerm k t) : t.NegationFree := by
  cases h with
  | var v => exact .var v
  | and _ _ => exact .and (List.forall_mem_map.2 fun v _ ↦ .var v)

theorem IsKDnf.negationFree (h : IsKDnf k f) : f.NegationFree := by
  cases h with
  | term ht => exact ht.negationFree
  | or _ hts => exact .or fun t ht ↦ (hts t ht).negationFree

theorem termArity?_eq_some_iff : t.termArity? = some k ↔ IsKTerm k t := by
  constructor
  · intro h
    cases t with
    | var v => cases h; exact .var v
    | and fs =>
      obtain ⟨vs, rfl, hlen, hnodup, rfl⟩ := termArity?_and_eq_some_iff.1 h
      exact .and hlen hnodup
    | const | not | or => cases h
  · intro h
    cases h with
    | var v => rfl
    | @and vs hlen hnodup => exact termArity?_and_eq_some_iff.2 ⟨vs, rfl, hlen, hnodup, rfl⟩

theorem isTerm_iff : isTerm k t = true ↔ IsKTerm k t := by
  rw [isTerm_eq_true_iff, termArity?_eq_some_iff]
  exact and_iff_right_of_imp IsKTerm.pos

theorem isKDnf_cons_iff {ts : List Formula} :
    IsKDnf k (.or (t :: ts)) ↔ IsKTerm k t ∧ ∀ u ∈ ts, IsKTerm k u := by
  rw [← List.forall_mem_cons (p := IsKTerm k)]
  constructor
  · intro h
    cases h with
    | term ht => cases ht
    | or _ hts => exact hts
  · exact .or (List.cons_ne_nil t ts)

theorem isKDnf_iff_isKTerm (h : ∀ ts, f ≠ .or ts) : IsKDnf k f ↔ IsKTerm k f := by
  constructor
  · intro hf
    cases hf with
    | term ht => exact ht
    | or => exact absurd rfl (h _)
  · exact .term

theorem dnfArity?_eq_some_iff : f.dnfArity? = some k ↔ IsKDnf k f := by
  cases f with
  | or ts =>
    cases ts with
    | nil =>
      constructor
      · intro h
        cases h
      · intro h
        cases h with
        | term ht => cases ht
        | or hne => exact absurd rfl hne
    | cons t ts =>
      rw [isKDnf_cons_iff, dnfArity?_or_cons_eq_some_iff, List.forall_mem_cons]
      simp only [isTerm_iff]
  | const b => exact (termArity?_eq_some_iff (t := .const b)).trans (isKDnf_iff_isKTerm (by simp)).symm
  | var v => exact (termArity?_eq_some_iff (t := .var v)).trans (isKDnf_iff_isKTerm (by simp)).symm
  | not f => exact (termArity?_eq_some_iff (t := .not f)).trans (isKDnf_iff_isKTerm (by simp)).symm
  | and fs => exact (termArity?_eq_some_iff (t := .and fs)).trans (isKDnf_iff_isKTerm (by simp)).symm

end NoisyDNF.Formula
