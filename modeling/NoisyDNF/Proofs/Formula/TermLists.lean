import NoisyDNF.Proofs.Formula.Splitting

namespace NoisyDNF.Formula

variable {k : ℕ} {vs : List Var} {ts : List (List Var)}

theorem ofTerm_eq_collapsed (vs : List Var) : ofTerm vs = collapsed true .and (vs.map .var) := by
  cases vs <;> rfl

theorem ofTerms_eq_collapsed (ts : List (List Var)) :
    ofTerms ts = collapsed false .or (ts.map ofTerm) := by
  cases ts <;> rfl

theorem occurrences_collapsed {empty : Bool} {node : List Formula → Formula}
    (hnode : ∀ fs, (node fs).occurrences = occurrencesEach fs) (fs : List Formula) :
    (collapsed empty node fs).occurrences = fs.flatMap occurrences := by
  match fs with
  | [] => rfl
  | [f] => exact (List.flatMap_singleton occurrences f).symm
  | f :: g :: fs => rw [collapsed_of_two_le (by simp), hnode, occurrencesEach_eq]

theorem value_collapsed_and (y : Var → Bool) (fs : List Formula) :
    (collapsed true .and fs).value y = fs.all (value y) := by
  match fs with
  | [] => rfl
  | [f] => exact (Bool.and_true _).symm
  | f :: g :: fs => rw [collapsed_of_two_le (by simp), value_and]

theorem value_collapsed_or (y : Var → Bool) (fs : List Formula) :
    (collapsed false .or fs).value y = fs.any (value y) := by
  match fs with
  | [] => rfl
  | [f] => exact (Bool.or_false _).symm
  | f :: g :: fs => rw [collapsed_of_two_le (by simp), value_or]

theorem occurrences_ofTerm (vs : List Var) : (ofTerm vs).occurrences = vs := by
  rw [ofTerm_eq_collapsed, occurrences_collapsed fun fs ↦ by rw [occurrences], ← occurrencesEach_eq,
    occurrencesEach_map_var]

theorem atoms_ofTerm (vs : List Var) : (ofTerm vs).atoms = VarSet.ofList vs := by
  rw [atoms, occurrences_ofTerm]

theorem occurrences_ofTerms (ts : List (List Var)) : (ofTerms ts).occurrences = ts.flatten := by
  rw [ofTerms_eq_collapsed, occurrences_collapsed fun fs ↦ by rw [occurrences], List.flatMap_map]
  simp only [occurrences_ofTerm]
  exact List.flatMap_id

theorem value_ofTerm (y : Var → Bool) (vs : List Var) : (ofTerm vs).value y = vs.all y := by
  rw [ofTerm_eq_collapsed, value_collapsed_and, List.all_map]
  rfl

theorem value_ofTerms (y : Var → Bool) (ts : List (List Var)) :
    (ofTerms ts).value y = ts.any fun t ↦ t.all y := by
  rw [ofTerms_eq_collapsed, value_collapsed_or, List.any_map]
  congr 1
  funext t
  exact value_ofTerm y t

theorem ofTerm_ne_or (vs : List Var) (fs : List Formula) : ofTerm vs ≠ .or fs := by
  match vs with
  | [] => nofun
  | [_] => nofun
  | _ :: _ :: _ => nofun

/-- No name at all stands for true, which is no term, and a single name stands for itself. -/
theorem isKTerm_ofTerm_iff : IsKTerm k (ofTerm vs) ↔ 1 ≤ k ∧ vs.length = k ∧ vs.Nodup := by
  match vs with
  | [] =>
    refine iff_of_false nofun ?_
    rintro ⟨hpos, rfl, -⟩
    cases hpos
  | [v] =>
    constructor
    · intro h
      cases h with
      | var => exact ⟨le_rfl, rfl, List.nodup_singleton v⟩
    · rintro ⟨-, rfl, -⟩
      exact .var v
  | v :: w :: vs =>
    have hand : ofTerm (v :: w :: vs) = .and ((v :: w :: vs).map .var) := rfl
    have hlen : 2 ≤ (v :: w :: vs).length := Nat.le_add_left 2 _
    rw [← termArity?_eq_some_iff, hand, termArity?_and_eq_some_iff]
    constructor
    · rintro ⟨us, hus, -, hnodup, rfl⟩
      obtain rfl : v :: w :: vs = us := (List.map_inj_right fun _ _ ↦ var.inj).1 hus
      exact ⟨Nat.one_le_of_lt hlen, rfl, hnodup⟩
    · rintro ⟨-, rfl, hnodup⟩
      exact ⟨_, rfl, hlen, hnodup, rfl⟩

theorem isKDnf_ofTerms_iff :
    IsKDnf k (ofTerms ts) ↔ ts ≠ [] ∧ ∀ t ∈ ts, IsKTerm k (ofTerm t) := by
  match ts with
  | [] =>
    rw [isKDnf_iff_isKTerm (by nofun)]
    exact iff_of_false nofun fun h ↦ h.1 rfl
  | [t] =>
    have hone : ofTerms [t] = ofTerm t := rfl
    rw [hone, isKDnf_iff_isKTerm (ofTerm_ne_or t), List.forall_mem_singleton]
    exact (and_iff_right (List.cons_ne_nil t [])).symm
  | t :: u :: ts =>
    have hor : ofTerms (t :: u :: ts) = .or (ofTerm t :: (u :: ts).map ofTerm) := rfl
    rw [hor, isKDnf_cons_iff, List.forall_mem_map, ← List.forall_mem_cons (p := fun t ↦ IsKTerm k (ofTerm t))]
    exact (and_iff_right (List.cons_ne_nil t _)).symm

theorem terms?_ofTerms (h : (ofTerms ts).dnfArity? = some k) :
    (ofTerms ts).terms? = some (ts.map ofTerm) := by
  match ts with
  | [] => cases h
  | [t] =>
    rw [terms?, h, Option.map_some]
    · rfl
    · exact ofTerm_ne_or t
  | t :: u :: ts =>
    have hor : ofTerms (t :: u :: ts) = .or ((t :: u :: ts).map ofTerm) := rfl
    rw [hor] at h ⊢
    rw [terms?, h, Option.map_some]

/-- The formula of a list of terms is true when all names of some term are. It is in `k`-DNF when the list has
terms and each consists of `k` distinct names, and then it is split into one term for each of the list. -/
theorem ofTerms_represents (ts : List (List Var)) :
    (∀ a : Assignment, (∀ t ∈ ts, ∀ v ∈ t, v ∈ a.keys) →
      (ofTerms ts).evaluate a = some (ts.any fun t ↦ t.all a.holds)) ∧
    (∀ k, (ofTerms ts).dnfArity? = some k ↔ ts ≠ [] ∧ ∀ t ∈ ts, 1 ≤ k ∧ t.length = k ∧ t.Nodup) ∧
    ∀ k, (ofTerms ts).dnfArity? = some k → ∃ us, (ofTerms ts).terms? = some us ∧
      List.Forall₂ (fun u t ↦ u.atoms = VarSet.ofList t) us ts := by
  refine ⟨fun a ha ↦ ?_, fun k ↦ ?_, fun k hk ↦ ⟨ts.map ofTerm, terms?_ofTerms hk, ?_⟩⟩
  · rw [evaluate_eq_value_holds, value_ofTerms]
    intro v hv
    rw [occurrences_ofTerms, List.mem_flatten] at hv
    obtain ⟨t, ht, hvt⟩ := hv
    exact ha t ht v hvt
  · rw [dnfArity?_eq_some_iff, isKDnf_ofTerms_iff]
    simp only [isKTerm_ofTerm_iff]
  · rw [List.forall₂_map_left_iff, List.forall₂_same]
    exact fun t _ ↦ atoms_ofTerm t

end NoisyDNF.Formula
