import NoisyDNF.Proofs.Formula.Recognition

namespace NoisyDNF.Formula

variable {k : ℕ} {f t : Formula} {ts us : List Formula} {a : Assignment}

theorem disjunction_map_eq (g : Formula → Option Bool) (ts : List Formula) :
    disjunction (ts.map g) =
      if ∃ t ∈ ts, g t = some true then some true
      else if ∀ t ∈ ts, g t = some false then some false else none := by
  split
  · next h =>
    obtain ⟨t, ht, hgt⟩ := h
    exact disjunction_eq_true_iff.2 (List.mem_map.2 ⟨t, ht, hgt⟩)
  · next htrue =>
    split
    · next hfalse => exact disjunction_eq_false_iff.2 (List.forall_mem_map.2 hfalse)
    · next hfalse =>
      cases h : disjunction (ts.map g) with
      | none => rfl
      | some b =>
        cases b with
        | true => exact absurd (List.mem_map.1 (disjunction_eq_true_iff.1 h)) htrue
        | false => exact absurd (List.forall_mem_map.1 (disjunction_eq_false_iff.1 h)) hfalse

/-- The terms of a formula from left to right, each with `k` variables. The formula is true when a term is
true and false when all terms are; a term is true when all its variables are and false when one of them is
false. -/
structure SplitsInto (k : ℕ) (f : Formula) (ts : List Formula) : Prop where
  shape : f = .or ts ∨ ts = [f]
  isKTerm : ∀ t ∈ ts, IsKTerm k t
  size_atoms : ∀ t ∈ ts, t.atoms.size = k
  mem_atoms : ∀ v, v ∈ f.atoms.keys ↔ ∃ t ∈ ts, v ∈ t.atoms.keys
  evaluate : ∀ a, f.evaluate a =
    if ∃ t ∈ ts, t.evaluate a = some true then some true
    else if ∀ t ∈ ts, t.evaluate a = some false then some false else none
  evaluate_term_true : ∀ a, ∀ t ∈ ts,
    t.evaluate a = some true ↔ ∀ v ∈ t.atoms.keys, a.get? v = some true
  evaluate_term_false : ∀ a, ∀ t ∈ ts,
    t.evaluate a = some false ↔ ∃ v ∈ t.atoms.keys, a.get? v = some false

theorem IsKDnf.pos (h : IsKDnf k f) : 1 ≤ k := by
  cases h with
  | term ht => exact ht.pos
  | or hne hts =>
    obtain ⟨t, ts, rfl⟩ := List.exists_cons_of_ne_nil hne
    exact (hts t List.mem_cons_self).pos

theorem IsKTerm.ne_or (h : IsKTerm k t) (ts : List Formula) : t ≠ .or ts := by
  rintro rfl
  cases h

theorem SplitsInto.unique (h : SplitsInto k f ts) (h' : SplitsInto k f us) : ts = us := by
  rcases h.shape with rfl | rfl <;> rcases h'.shape with hf | rfl
  · exact or.inj hf
  · exact absurd rfl ((h'.isKTerm _ List.mem_cons_self).ne_or ts)
  · exact absurd hf ((h.isKTerm _ List.mem_cons_self).ne_or us)
  · rfl

theorem IsKTerm.isTermOf (h : IsKTerm k t) : IsTermOf k t :=
  isTermOf_of_termArity? (termArity?_eq_some_iff.2 h)

theorem isDnfOf_or (hne : ts ≠ []) (hts : ∀ t ∈ ts, IsKTerm k t) : IsDnfOf k (.or ts) ts where
  terms t ht := (hts t ht).isTermOf
  ne_nil := hne
  occurrences := by rw [occurrences, occurrencesEach_eq]
  evaluate a := by rw [evaluate, evaluateEach_eq_map]

theorem IsDnfOf.splitsInto (hf : IsDnfOf k f ts) (hshape : f = .or ts ∨ ts = [f])
    (hts : ∀ t ∈ ts, IsKTerm k t) : SplitsInto k f ts where
  shape := hshape
  isKTerm := hts
  size_atoms t ht := t.atoms.length_keys.symm.trans (hf.terms t ht).length_keys_atoms
  mem_atoms v := by
    simp only [Formula.mem_atoms]
    exact hf.mem_occurrences
  evaluate a := by rw [hf.evaluate, disjunction_map_eq]
  evaluate_term_true a t ht := by
    simp only [Formula.mem_atoms]
    exact (hf.terms t ht).evaluate_eq_true_iff
  evaluate_term_false a t ht := by
    simp only [Formula.mem_atoms]
    exact (hf.terms t ht).evaluate_eq_false_iff

theorem IsKDnf.exists_splitsInto (h : IsKDnf k f) : ∃ ts, f.terms? = some ts ∧ SplitsInto k f ts := by
  have harity := dnfArity?_eq_some_iff.2 h
  cases h with
  | term ht =>
    refine ⟨[f], ?_, (isDnfOf_singleton ht.isTermOf).splitsInto (.inr rfl) ?_⟩
    · rw [terms?, harity, Option.map_some]
      exact ht.ne_or
    · intro u hu
      exact List.mem_singleton.1 hu ▸ ht
  | @or ts hne hts =>
    refine ⟨ts, ?_, (isDnfOf_or hne hts).splitsInto (.inl rfl) hts⟩
    rw [terms?, harity, Option.map_some]

/-- A formula has an arity exactly when it is in `k`-DNF, and just then it is split, into the one list of
terms that it consists of. -/
theorem terms?_eq_some_iff_splitsInto (f : Formula) :
    (∀ k, f.dnfArity? = some k ↔ 1 ≤ k ∧ f.IsKDnf k) ∧
    ((∃ ts, f.terms? = some ts) ↔ ∃ k, f.IsKDnf k) ∧
    ∀ ts, f.terms? = some ts ↔ ∃ k, f.IsKDnf k ∧ f.SplitsInto k ts := by
  have hsome {ts : List Formula} (hts : f.terms? = some ts) : ∃ k, f.IsKDnf k ∧ f.SplitsInto k ts := by
    obtain ⟨k, hk, -⟩ := Option.map_eq_some_iff.1 hts
    have hf := dnfArity?_eq_some_iff.1 hk
    obtain ⟨us, hus, hsplit⟩ := hf.exists_splitsInto
    obtain rfl : ts = us := Option.some_inj.1 (hts.symm.trans hus)
    exact ⟨k, hf, hsplit⟩
  refine ⟨fun k ↦ ?_, ⟨?_, ?_⟩, fun ts ↦ ⟨hsome, ?_⟩⟩
  · rw [dnfArity?_eq_some_iff]
    exact (and_iff_right_of_imp IsKDnf.pos).symm
  · rintro ⟨ts, hts⟩
    obtain ⟨k, hf, -⟩ := hsome hts
    exact ⟨k, hf⟩
  · rintro ⟨k, hf⟩
    obtain ⟨ts, hts, -⟩ := hf.exists_splitsInto
    exact ⟨ts, hts⟩
  · rintro ⟨k, hf, hsplit⟩
    obtain ⟨us, hus, hsplit'⟩ := hf.exists_splitsInto
    rw [hus, hsplit.unique hsplit']

/-- A conjunction of one operand is no term, and neither is one that names a variable twice. -/
example (v : Var) : (Formula.and [.var v]).terms? = none ∧
    (Formula.or [.and [.var v, .var v]]).terms? = none ∧
    (Formula.or [.var v, .var v]).terms? = some [.var v, .var v] := by
  simp [terms?, dnfArity?, termArity?, isTerm, areDistinct, guessedArity]

end NoisyDNF.Formula
