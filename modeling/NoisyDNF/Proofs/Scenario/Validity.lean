import NoisyDNF.Proofs.Formula.Completion
import NoisyDNF.Scenario.Basic

namespace NoisyDNF.Scenario

variable {R : Type}

theorem checkObserved_eq_ok_iff {s : Scenario R} {allowPartial : Bool} :
    s.checkObserved allowPartial = .ok () ↔
      s.formula.evaluate s.observed ≠ none ∧ (∀ v ∈ s.observed.keys, v ∈ s.formula.atoms.keys) ∧
        (allowPartial = false → s.observed.size = s.formula.atoms.size) := by
  have hstray : s.observed.keys.find? (!s.formula.atoms.contains ·) = none ↔
      ∀ v ∈ s.observed.keys, v ∈ s.formula.atoms.keys := by
    simp [List.find?_eq_none, VarMap.contains_iff]
  rw [checkObserved]
  cases hc : s.formula.evaluate s.observed with
  | none => simp
  | some c =>
    cases hf : s.observed.keys.find? (!s.formula.atoms.contains ·) with
    | none =>
      have hall := hstray.1 hf
      cases allowPartial with
      | true => simpa [hf] using hall
      | false => simpa [hf] using fun _ ↦ hall
    | some v =>
      have hno : ¬ ∀ v ∈ s.observed.keys, v ∈ s.formula.atoms.keys := fun h ↦ by
        rw [hstray.2 h] at hf
        cases hf
      simp only [Option.isNone_some, Bool.false_eq_true, if_false, hno, false_and, and_false]
      exact iff_of_false nofun id

variable [Scalar R]

theorem isNoiseless_eq_false_iff {n : Noise R} :
    n.isNoiseless = false ↔ ∃ v p, n.get? v = some p ∧ Scalar.isZero p = false := by
  simp only [Noise.isNoiseless, List.all_eq_false, Bool.not_eq_true, VarMap.values, List.mem_map,
    VarMap.get?_eq_some_iff]
  constructor
  · rintro ⟨-, ⟨⟨v, p⟩, hmem, rfl⟩, hp⟩
    exact ⟨v, p, hmem, hp⟩
  · rintro ⟨v, p, hmem, hp⟩
    exact ⟨p, ⟨(v, p), hmem, rfl⟩, hp⟩

structure Valid (s : Scenario R) (k : ℕ) : Prop where
  dnfArity?_eq : s.formula.dnfArity? = some k
  keys_noise : s.noise.keys = s.formula.atoms.keys
  noise_range : ∀ v p, s.noise.get? v = some p → isErrorProbability p = true
  isNoiseless_eq : s.noise.isNoiseless = false
  keys_observed : ∀ v ∈ s.observed.keys, v ∈ s.formula.atoms.keys
  determined : s.formula.evaluate s.observed ≠ none

theorem checkNoise_eq_ok_iff {s : Scenario R} : s.checkNoise = .ok () ↔
    s.noise.keys = s.formula.atoms.keys ∧
      (∀ v p, s.noise.get? v = some p → isErrorProbability p = true) ∧
      s.noise.isNoiseless = false := by
  have hmissing : s.formula.atoms.keys.find? (!s.noise.contains ·) = none ↔
      ∀ v ∈ s.formula.atoms.keys, v ∈ s.noise.keys := by
    simp [List.find?_eq_none, VarMap.contains_iff]
  have hstray : s.noise.keys.find? (!s.formula.atoms.contains ·) = none ↔
      ∀ v ∈ s.noise.keys, v ∈ s.formula.atoms.keys := by
    simp [List.find?_eq_none, VarMap.contains_iff]
  have hrange : s.noise.entries.find? (!isErrorProbability ·.2) = none ↔
      ∀ v p, s.noise.get? v = some p → isErrorProbability p = true := by
    simp [List.find?_eq_none, VarMap.get?_eq_some_iff]
  rw [checkNoise]
  split
  · next v _ _ h =>
    refine iff_of_false nofun fun ⟨hk, _⟩ ↦ ?_
    rw [hmissing.2 fun v hv ↦ hk ▸ hv] at h
    cases h
  · next v _ h h' =>
    refine iff_of_false nofun fun ⟨hk, _⟩ ↦ ?_
    rw [hstray.2 fun v hv ↦ hk ▸ hv] at h'
    cases h'
  · next e h h' h'' =>
    refine iff_of_false nofun fun ⟨_, hr, _⟩ ↦ ?_
    rw [hrange.2 hr] at h''
    cases h''
  · next h h' h'' =>
    have hk : s.noise.keys = s.formula.atoms.keys :=
      VarMap.keys_eq_of_mem_iff fun v ↦ ⟨hstray.1 h' v, hmissing.1 h v⟩
    cases hn : s.noise.isNoiseless with
    | true => simp
    | false => simpa [hk] using hrange.1 h''

theorem validate_eq_ok_iff_checks {s : Scenario R} {allowPartial : Bool} {k : ℕ} :
    s.validate allowPartial = .ok k ↔ s.formula.dnfArity? = some k ∧
      s.checkNoise = .ok () ∧ s.checkObserved allowPartial = .ok () := by
  rw [validate, checkFormula]
  cases s.formula.dnfArity? with
  | none => simp [bind, Except.bind]
  | some j =>
    rcases s.checkNoise with e | - <;> rcases s.checkObserved allowPartial with e' | - <;>
      simp [bind, Except.bind, pure, Except.pure]

theorem validate_eq_ok_iff {s : Scenario R} {k : ℕ} : s.validate true = .ok k ↔ s.Valid k := by
  rw [validate_eq_ok_iff_checks, checkNoise_eq_ok_iff, checkObserved_eq_ok_iff]
  exact ⟨fun ⟨h₁, ⟨h₂, h₃, h₄⟩, h₅, h₆, _⟩ ↦ ⟨h₁, h₂, h₃, h₄, h₆, h₅⟩,
    fun h ↦ ⟨h.dnfArity?_eq, ⟨h.keys_noise, h.noise_range, h.isNoiseless_eq⟩, h.determined,
      h.keys_observed, nofun⟩⟩

def withNoise (s : Scenario R) (n : Noise R) : Scenario R := { s with noise := n }

namespace Valid

variable {s : Scenario R} {k : ℕ}

theorem withNoise (hs : s.Valid k) {n : Noise R} (hk : n.keys = s.noise.keys)
    (hr : ∀ v p, n.get? v = some p → isErrorProbability p = true) (hn : n.isNoiseless = false) :
    (s.withNoise n).Valid k :=
  { hs with
    keys_noise := hk.trans hs.keys_noise
    noise_range := hr
    isNoiseless_eq := hn }

theorem noise_covers (hs : s.Valid k) : ∀ v ∈ s.formula.atoms.keys, v ∈ s.noise.keys :=
  fun _ hv ↦ hs.keys_noise ▸ hv

theorem noise_covers_observed (hs : s.Valid k) : ∀ v ∈ s.observed.keys, v ∈ s.noise.keys :=
  fun v hv ↦ hs.noise_covers v (hs.keys_observed v hv)

theorem exists_noise (hs : s.Valid k) {v : Var} (hv : v ∈ s.formula.atoms.keys) :
    ∃ p, s.noise.get? v = some p :=
  VarMap.mem_keys_iff.1 (hs.noise_covers v hv)

theorem exists_terms (hs : s.Valid k) :
    ∃ ts, s.formula.terms? = some ts ∧ s.formula.IsDnfOf k ts :=
  Formula.exists_terms hs.dnfArity?_eq

theorem exists_atom (hs : s.Valid k) : ∃ v, v ∈ s.formula.atoms.keys := by
  obtain ⟨ts, -, hf⟩ := hs.exists_terms
  obtain ⟨t, ht⟩ := List.exists_mem_of_ne_nil ts hf.ne_nil
  obtain ⟨v, hv⟩ := hf.exists_mem_term ht
  exact ⟨v, Formula.mem_atoms.2 (hf.mem_occurrences.2 ⟨t, ht, hv⟩)⟩

end Valid

def varA : Var := ⟨"a", by decide⟩

def varB : Var := ⟨"b", by decide⟩

def bothAtoms : Formula := .and [.var varA, .var varB]

def bothTrue : Assignment := .ofList [(varA, true), (varB, true)]

def bothObserved (p q : R) : Scenario R where
  formula := bothAtoms
  observed := bothTrue
  noise := ⟨[(varA, p), (varB, q)], .cons (by simp only [List.mem_singleton, forall_eq]; decide)
    (List.pairwise_singleton _ _)⟩

theorem valid_bothObserved {p q : R} (hp : isErrorProbability p = true)
    (hq : isErrorProbability q = true) (hne : Scalar.isZero p = false) :
    (bothObserved p q).Valid 2 where
  dnfArity?_eq := show bothAtoms.dnfArity? = some 2 by decide
  keys_noise := show [varA, varB] = bothAtoms.atoms.keys by decide
  noise_range v r hr := by
    have hmem : (v, r) ∈ [(varA, p), (varB, q)] := VarMap.get?_eq_some_iff.1 hr
    simp only [List.mem_cons, Prod.mk.injEq, List.not_mem_nil, or_false] at hmem
    rcases hmem with ⟨-, rfl⟩ | ⟨-, rfl⟩
    · exact hp
    · exact hq
  isNoiseless_eq := by
    change ([p, q].all Scalar.isZero) = false
    rw [List.all_cons, hne, Bool.false_and]
  keys_observed := show ∀ v ∈ bothTrue.keys, v ∈ bothAtoms.atoms.keys by decide
  determined := show bothAtoms.evaluate bothTrue ≠ none by decide

end NoisyDNF.Scenario
