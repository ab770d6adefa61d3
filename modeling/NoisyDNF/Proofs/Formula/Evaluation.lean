import NoisyDNF.Formula.Dnf
import NoisyDNF.Proofs.VarMap

namespace NoisyDNF.Formula

theorem conjunction_eq_true_iff {xs : List (Option Bool)} :
    conjunction xs = some true ↔ ∀ x ∈ xs, x = some true := by
  simp only [conjunction, List.contains_iff_mem]
  split
  · next h => simpa using ⟨_, h, by simp⟩
  split
  · next h => simpa using ⟨_, h, by simp⟩
  · next h h' =>
    simp only [true_iff]
    rintro (- | - | -) hx
    · exact absurd hx h'
    · exact absurd hx h
    · rfl

theorem conjunction_eq_false_iff {xs : List (Option Bool)} :
    conjunction xs = some false ↔ some false ∈ xs := by
  simp only [conjunction, List.contains_iff_mem]
  split
  · next h => simp [h]
  split <;> simp_all

theorem disjunction_eq_true_iff {xs : List (Option Bool)} :
    disjunction xs = some true ↔ some true ∈ xs := by
  simp only [disjunction, List.contains_iff_mem]
  split
  · next h => simp [h]
  split <;> simp_all

theorem disjunction_eq_false_iff {xs : List (Option Bool)} :
    disjunction xs = some false ↔ ∀ x ∈ xs, x = some false := by
  simp only [disjunction, List.contains_iff_mem]
  split
  · next h => simpa using ⟨_, h, by simp⟩
  split
  · next h => simpa using ⟨_, h, by simp⟩
  · next h h' =>
    simp only [true_iff]
    rintro (- | - | -) hx
    · exact absurd hx h'
    · rfl
    · exact absurd hx h

theorem conjunction_singleton (x : Option Bool) : conjunction [x] = x := by
  rcases x with - | - | - <;> rfl

theorem disjunction_singleton (x : Option Bool) : disjunction [x] = x := by
  rcases x with - | - | - <;> rfl

theorem occurrencesEach_eq (fs : List Formula) : occurrencesEach fs = fs.flatMap occurrences := by
  induction fs with
  | nil => rfl
  | cons f fs ih => rw [occurrencesEach, ih, List.flatMap_cons]

theorem mem_occurrencesEach {fs : List Formula} {v : Var} :
    v ∈ occurrencesEach fs ↔ ∃ f ∈ fs, v ∈ f.occurrences := by
  rw [occurrencesEach_eq, List.mem_flatMap]

theorem occurrencesEach_map_var (vs : List Var) : occurrencesEach (vs.map .var) = vs := by
  induction vs with
  | nil => rfl
  | cons v vs ih => rw [List.map_cons, occurrencesEach, ih, occurrences, List.singleton_append]

theorem mem_atoms {f : Formula} {v : Var} : v ∈ f.atoms.keys ↔ v ∈ f.occurrences :=
  VarSet.mem_keys_ofList

/-- A term of arity `k`: a variable by itself, or the conjunction of two or more. -/
structure IsTermOf (k : ℕ) (t : Formula) : Prop where
  shape : (∃ v, t = .var v) ∨ t = .and (t.occurrences.map .var)
  nodup : t.occurrences.Nodup
  length : t.occurrences.length = k
  pos : 0 < k

theorem areDistinct_iff {seen : List Var} {fs : List Formula} : areDistinct seen fs = true ↔
    ∃ vs : List Var, fs = vs.map .var ∧ vs.Nodup ∧ ∀ v ∈ vs, v ∉ seen := by
  induction seen, fs using areDistinct.induct with
  | case1 seen =>
    rw [areDistinct]
    exact iff_of_true rfl ⟨[], rfl, List.nodup_nil, nofun⟩
  | case2 seen v fs ih =>
    rw [areDistinct, Bool.and_eq_true, ih, Bool.not_eq_true', List.contains_eq_mem, decide_eq_false_iff_not]
    constructor
    · rintro ⟨hv, vs, rfl, hnodup, hfresh⟩
      have hmem : v ∉ vs := fun hmem ↦ hfresh v hmem List.mem_cons_self
      refine ⟨v :: vs, rfl, List.nodup_cons.2 ⟨hmem, hnodup⟩, List.forall_mem_cons.2 ⟨hv, fun w hw hseen ↦ ?_⟩⟩
      exact hfresh w hw (List.mem_cons_of_mem v hseen)
    · rintro ⟨vs, he, hnodup, hfresh⟩
      obtain ⟨w, ws, rfl, hw, rfl⟩ := List.map_eq_cons_iff.1 he.symm
      cases hw
      obtain ⟨hmem, hnodup⟩ := List.nodup_cons.1 hnodup
      obtain ⟨hv, hfresh⟩ := List.forall_mem_cons.1 hfresh
      refine ⟨hv, ws, rfl, hnodup, fun w hw hseen ↦ ?_⟩
      rcases List.mem_cons.1 hseen with rfl | hseen
      · exact hmem hw
      · exact hfresh w hw hseen
  | case3 seen f fs hf =>
    rw [areDistinct]
    · refine iff_of_false Bool.false_ne_true ?_
      rintro ⟨vs, he, -⟩
      obtain ⟨v, ws, rfl, hv, -⟩ := List.map_eq_cons_iff.1 he.symm
      exact hf v hv.symm
    · exact hf

theorem termArity?_and_eq_some_iff {fs : List Formula} {k : ℕ} : (Formula.and fs).termArity? = some k ↔
    ∃ vs : List Var, fs = vs.map .var ∧ 2 ≤ vs.length ∧ vs.Nodup ∧ vs.length = k := by
  rw [termArity?, Option.ite_none_right_eq_some, Option.some_inj, areDistinct_iff]
  constructor
  · rintro ⟨⟨hlen, vs, rfl, hnodup, -⟩, hk⟩
    rw [List.length_map] at hlen hk
    exact ⟨vs, rfl, hlen, hnodup, hk⟩
  · rintro ⟨vs, rfl, hlen, hnodup, hk⟩
    rw [List.length_map]
    exact ⟨⟨hlen, vs, rfl, hnodup, fun v _ ↦ List.not_mem_nil⟩, hk⟩

theorem isTerm_eq_true_iff {k : ℕ} {t : Formula} : isTerm k t = true ↔ 0 < k ∧ t.termArity? = some k := by
  rw [isTerm, Bool.and_eq_true, decide_eq_true_eq, beq_iff_eq]

theorem isTermOf_of_termArity? {k : ℕ} {t : Formula} (h : t.termArity? = some k) : IsTermOf k t := by
  cases t with
  | var v =>
    cases h
    exact ⟨.inl ⟨v, rfl⟩, List.nodup_singleton v, rfl, Nat.one_pos⟩
  | and fs =>
    obtain ⟨vs, rfl, hlen, hnodup, rfl⟩ := termArity?_and_eq_some_iff.1 h
    have hocc : (Formula.and (vs.map .var)).occurrences = vs := by
      rw [occurrences, occurrencesEach_map_var]
    exact ⟨.inr (by rw [hocc]), hocc.symm ▸ hnodup, by rw [hocc], Nat.two_pos.trans_le hlen⟩
  | const | not | or => cases h

theorem guessedArity_eq {k : ℕ} {t : Formula} (h : t.termArity? = some k) : t.guessedArity = k := by
  cases t with
  | var v => exact Option.some_inj.1 h
  | and fs =>
    obtain ⟨vs, rfl, -, -, rfl⟩ := termArity?_and_eq_some_iff.1 h
    exact List.length_map _
  | const | not | or => cases h

/-- The guess is right whenever any arity is. -/
theorem dnfArity?_or_cons_eq_some_iff {t : Formula} {ts : List Formula} {k : ℕ} :
    (Formula.or (t :: ts)).dnfArity? = some k ↔ ∀ u ∈ t :: ts, isTerm k u = true := by
  rw [dnfArity?, Option.ite_none_right_eq_some, Option.some_inj, List.all_eq_true]
  constructor
  · rintro ⟨h, rfl⟩
    exact h
  · intro h
    obtain rfl := guessedArity_eq (isTerm_eq_true_iff.1 (h t List.mem_cons_self)).2
    exact ⟨h, rfl⟩

namespace IsTermOf

variable {k : ℕ} {t : Formula} {a : Assignment}

theorem evaluate_eq (ht : IsTermOf k t) :
    t.evaluate a = conjunction (t.occurrences.map a.get?) := by
  rcases ht.shape with ⟨v, rfl⟩ | hs
  · rw [evaluate, occurrences, List.map_singleton, conjunction_singleton]
  · conv_lhs => rw [hs, evaluate, evaluateEach_eq_map, List.map_map]
    rfl

theorem evaluate_eq_true_iff (ht : IsTermOf k t) :
    t.evaluate a = some true ↔ ∀ v ∈ t.occurrences, a.get? v = some true := by
  rw [ht.evaluate_eq, conjunction_eq_true_iff, List.forall_mem_map]

theorem evaluate_eq_false_iff (ht : IsTermOf k t) :
    t.evaluate a = some false ↔ ∃ v ∈ t.occurrences, a.get? v = some false := by
  rw [ht.evaluate_eq, conjunction_eq_false_iff, List.mem_map]

theorem keys_atoms_perm (ht : IsTermOf k t) : t.atoms.keys.Perm t.occurrences :=
  (List.perm_ext_iff_of_nodup t.atoms.nodup_keys ht.nodup).2 fun _ ↦ mem_atoms

theorem length_keys_atoms (ht : IsTermOf k t) : t.atoms.keys.length = k := by
  rw [ht.keys_atoms_perm.length_eq, ht.length]

end IsTermOf

structure IsDnfOf (k : ℕ) (f : Formula) (ts : List Formula) : Prop where
  terms : ∀ t ∈ ts, IsTermOf k t
  ne_nil : ts ≠ []
  occurrences : f.occurrences = ts.flatMap Formula.occurrences
  evaluate : ∀ a, f.evaluate a = disjunction (ts.map (Formula.evaluate a))

theorem isDnfOf_singleton {k : ℕ} {t : Formula} (ht : IsTermOf k t) : IsDnfOf k t [t] where
  terms u hu := List.mem_singleton.1 hu ▸ ht
  ne_nil := List.cons_ne_nil _ _
  occurrences := by simp
  evaluate a := by rw [List.map_singleton, disjunction_singleton]

theorem exists_terms {k : ℕ} {f : Formula} (h : f.dnfArity? = some k) :
    ∃ ts, f.terms? = some ts ∧ IsDnfOf k f ts := by
  have hone (ht : f.termArity? = some k) (hf : f.terms? = some [f]) :
      ∃ ts, f.terms? = some ts ∧ IsDnfOf k f ts :=
    ⟨[f], hf, isDnfOf_singleton (isTermOf_of_termArity? ht)⟩
  cases f with
  | or ts =>
    obtain - | ⟨t, ts⟩ := ts
    · cases h
    refine ⟨t :: ts, by rw [terms?, h, Option.map_some], ?_, List.cons_ne_nil _ _, ?_, ?_⟩
    · intro u hu
      exact isTermOf_of_termArity? (isTerm_eq_true_iff.1 (dnfArity?_or_cons_eq_some_iff.1 h u hu)).2
    · rw [occurrences, occurrencesEach_eq]
    · intro a
      rw [evaluate, evaluateEach_eq_map]
  | const b => cases h
  | not f => cases h
  | var v => exact hone h (by simp [terms?, h])
  | and fs => exact hone h (by simp [terms?, h])

namespace IsDnfOf

variable {k : ℕ} {f : Formula} {ts : List Formula} {a b : Assignment}

theorem mem_occurrences (hf : IsDnfOf k f ts) {v : Var} :
    v ∈ f.occurrences ↔ ∃ t ∈ ts, v ∈ t.occurrences := by
  rw [hf.occurrences, List.mem_flatMap]

theorem evaluate_eq_true_iff (hf : IsDnfOf k f ts) :
    f.evaluate a = some true ↔ ∃ t ∈ ts, ∀ v ∈ t.occurrences, a.get? v = some true := by
  rw [hf.evaluate, disjunction_eq_true_iff, List.mem_map]
  exact exists_congr fun t ↦ and_congr_right fun ht ↦ (hf.terms t ht).evaluate_eq_true_iff

theorem evaluate_eq_false_iff (hf : IsDnfOf k f ts) :
    f.evaluate a = some false ↔ ∀ t ∈ ts, ∃ v ∈ t.occurrences, a.get? v = some false := by
  rw [hf.evaluate, disjunction_eq_false_iff, List.forall_mem_map]
  exact forall₂_congr fun t ht ↦ (hf.terms t ht).evaluate_eq_false_iff

/-- Setting fewer variables to true keeps the formula false. -/
theorem evaluate_eq_false_mono (hf : IsDnfOf k f ts) (ha : f.evaluate a = some false)
    (hab : ∀ v ∈ f.occurrences, a.get? v = some false → b.get? v = some false) :
    f.evaluate b = some false := by
  rw [hf.evaluate_eq_false_iff] at ha ⊢
  intro t ht
  obtain ⟨v, hv, hav⟩ := ha t ht
  exact ⟨v, hv, hab v (hf.mem_occurrences.2 ⟨t, ht, hv⟩) hav⟩

theorem arity_pos (hf : IsDnfOf k f ts) : 0 < k := by
  obtain ⟨t, l, rfl⟩ := List.exists_cons_of_ne_nil hf.ne_nil
  exact (hf.terms t List.mem_cons_self).pos

theorem exists_mem_term (hf : IsDnfOf k f ts) {t : Formula} (ht : t ∈ ts) :
    ∃ v, v ∈ t.occurrences :=
  List.exists_mem_of_length_pos ((hf.terms t ht).length ▸ hf.arity_pos)

end IsDnfOf

end NoisyDNF.Formula
