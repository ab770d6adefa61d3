import NoisyDNF.ZeroOne.Model
import Mathlib.Data.Int.Notation
import Mathlib.Data.List.Induction
import Mathlib.Data.List.Nodup

namespace NoisyDNF.ZeroOne

namespace Constraint

theorem map_fst_addTerm (t : ℕ × ℤ) (us : List (ℕ × ℤ)) :
    (addTerm t us).map Prod.fst =
      if t.1 ∈ us.map Prod.fst then us.map Prod.fst else us.map Prod.fst ++ [t.1] := by
  induction us with
  | nil => rfl
  | cons u us ih =>
    by_cases h : u.1 = t.1
    · simp [addTerm, h]
    · simp only [addTerm, if_neg h, List.map_cons, ih, List.mem_cons, Ne.symm h, false_or]
      split <;> rfl

theorem nodup_addTerm {us : List (ℕ × ℤ)} (h : (us.map Prod.fst).Nodup) (t : ℕ × ℤ) :
    ((addTerm t us).map Prod.fst).Nodup := by
  rw [map_fst_addTerm]
  split
  · exact h
  · next ht => exact h.append (List.nodup_singleton _) (by simpa using ht)

theorem fst_mem_addTerm {t u : ℕ × ℤ} {us : List (ℕ × ℤ)} (h : u ∈ addTerm t us) :
    u.1 = t.1 ∨ u.1 ∈ us.map Prod.fst := by
  have hu : u.1 ∈ (addTerm t us).map Prod.fst := List.mem_map_of_mem h
  rw [map_fst_addTerm] at hu
  split at hu
  · exact .inr hu
  · rcases List.mem_append.1 hu with hu | hu
    · exact .inr hu
    · exact .inl (List.mem_singleton.1 hu)

theorem foldl_addTerm (ts us : List (ℕ × ℤ)) (h : (us.map Prod.fst).Nodup) :
    ((ts.foldl (fun us t ↦ addTerm t us) us).map Prod.fst).Nodup ∧
      ∀ u ∈ ts.foldl (fun us t ↦ addTerm t us) us,
        u.1 ∈ us.map Prod.fst ∨ u.1 ∈ ts.map Prod.fst := by
  induction ts generalizing us with
  | nil => exact ⟨h, fun u hu ↦ .inl (List.mem_map_of_mem hu)⟩
  | cons t ts ih =>
    obtain ⟨hn, hm⟩ := ih (addTerm t us) (nodup_addTerm h t)
    refine ⟨hn, ?_⟩
    intro u hu
    rcases hm u hu with hu | hu
    · obtain ⟨w, hw, he⟩ := List.mem_map.1 hu
      rcases fst_mem_addTerm hw with hw | hw
      · exact .inr (by simp [← he, hw])
      · exact .inl (he ▸ hw)
    · exact .inr (List.mem_cons_of_mem _ hu)

theorem nodup_merge (ts : List (ℕ × ℤ)) : ((merge ts).map Prod.fst).Nodup :=
  (foldl_addTerm ts [] List.nodup_nil).1.sublist (List.filter_sublist.map _)

theorem fst_mem_of_mem_merge {ts : List (ℕ × ℤ)} {u : ℕ × ℤ} (h : u ∈ merge ts) :
    u.1 ∈ ts.map Prod.fst := by
  rcases (foldl_addTerm ts [] List.nodup_nil).2 u (List.mem_filter.1 h).1 with h | h
  · cases h
  · exact h

theorem coeff_ne_zero_of_mem_merge {ts : List (ℕ × ℤ)} {u : ℕ × ℤ} (h : u ∈ merge ts) :
    u.2 ≠ 0 := by
  simpa using (List.mem_filter.1 h).2

theorem addTerm_of_not_mem {t : ℕ × ℤ} {us : List (ℕ × ℤ)} (h : t.1 ∉ us.map Prod.fst) :
    addTerm t us = us ++ [t] := by
  induction us with
  | nil => rfl
  | cons u us ih =>
    rw [List.map_cons, List.mem_cons, not_or] at h
    rw [addTerm, if_neg (Ne.symm h.1), ih h.2, List.cons_append]

theorem foldl_addTerm_of_nodup (ts us : List (ℕ × ℤ)) (h : ((us ++ ts).map Prod.fst).Nodup) :
    ts.foldl (fun us t ↦ addTerm t us) us = us ++ ts := by
  induction ts generalizing us with
  | nil => rw [List.foldl_nil, List.append_nil]
  | cons t ts ih =>
    have ht : t.1 ∉ us.map Prod.fst := by
      rw [List.map_append, List.map_cons] at h
      exact fun hmem ↦ List.disjoint_of_nodup_append h hmem List.mem_cons_self
    rw [List.append_cons] at h
    rw [List.foldl_cons, addTerm_of_not_mem ht, ih _ h, ← List.append_cons]

/-- Terms with distinct variables and coefficients other than zero are merged into themselves. -/
theorem merge_eq_self {ts : List (ℕ × ℤ)} (h : (ts.map Prod.fst).Nodup) (h₀ : ∀ t ∈ ts, t.2 ≠ 0) :
    merge ts = ts := by
  rw [merge, foldl_addTerm_of_nodup ts [] h, List.nil_append]
  exact List.filter_eq_self.2 fun t ht ↦ decide_eq_true (h₀ t ht)

/-- Every variable occurs once, is one of the first `n`, and has a coefficient other than zero. -/
structure WellFormed (n : ℕ) (c : Constraint) : Prop where
  nodup : (c.terms.map Prod.fst).Nodup
  lt : ∀ t ∈ c.terms, t.1 < n
  coeff_ne_zero : ∀ t ∈ c.terms, t.2 ≠ 0

instance decidableWellFormed (n : ℕ) (c : Constraint) : Decidable (c.WellFormed n) :=
  decidable_of_iff ((c.terms.map Prod.fst).Nodup ∧ (∀ t ∈ c.terms, t.1 < n) ∧ ∀ t ∈ c.terms, t.2 ≠ 0)
    ⟨fun h ↦ ⟨h.1, h.2.1, h.2.2⟩, fun h ↦ ⟨h.nodup, h.lt, h.coeff_ne_zero⟩⟩

theorem wellFormed_merge {n : ℕ} {ts : List (ℕ × ℤ)} (hts : ∀ t ∈ ts, t.1 < n) (c : Comparison)
    (rhs : ℤ) : WellFormed n ⟨merge ts, c, rhs⟩ := by
  refine ⟨nodup_merge ts, fun u hu ↦ ?_, fun u ↦ coeff_ne_zero_of_mem_merge⟩
  obtain ⟨t, ht, he⟩ := List.mem_map.1 (fst_mem_of_mem_merge hu)
  exact he ▸ hts t ht

theorem WellFormed.mono {n n' : ℕ} {c : Constraint} (h : c.WellFormed n) (hn : n ≤ n') :
    c.WellFormed n' :=
  ⟨h.nodup, fun t ht ↦ Nat.lt_of_lt_of_le (h.lt t ht) hn, h.coeff_ne_zero⟩

end Constraint

namespace Model

variable {R : Type}

structure WellFormed (m : Model R) : Prop where
  size_objective : m.objective.size = m.numVars
  constraints : ∀ c ∈ m.constraints, c.WellFormed m.numVars

instance decidableWellFormed (m : Model R) : Decidable m.WellFormed :=
  decidable_of_iff (m.objective.size = m.numVars ∧ ∀ c ∈ m.constraints, c.WellFormed m.numVars)
    ⟨fun h ↦ ⟨h.1, h.2⟩, fun h ↦ ⟨h.size_objective, h.constraints⟩⟩

theorem WellFormed.setObjective {m : Model R} (h : m.WellFormed) (ts : List (ℕ × R)) :
    (m.setObjective ts).1.WellFormed := by
  induction ts generalizing m with
  | nil => exact h
  | cons t ts ih =>
    unfold Model.setObjective
    split
    · exact ih ⟨by simpa [numVars] using h.size_objective, h.constraints⟩
    · exact h

theorem WellFormed.addConstraint {m m' : Model R} (h : m.WellFormed) {ts : List (ℕ × ℤ)}
    {c : Comparison} {rhs : ℤ} (ha : m.addConstraint ts c rhs = .ok m') : m'.WellFormed := by
  unfold Model.addConstraint at ha
  split at ha
  · cases ha
  · next hn =>
    cases ha
    refine ⟨h.size_objective, ?_⟩
    intro d hd
    rcases List.mem_append.1 hd with hd | hd
    · exact h.constraints d hd
    · rw [List.mem_singleton.1 hd]
      refine Constraint.wellFormed_merge (n := m.numVars) (fun t ht ↦ ?_) c rhs
      simpa using List.find?_eq_none.1 hn t ht

theorem find?_unknown_eq_none {m : Model R} {ts : List (ℕ × ℤ)} (hts : ∀ t ∈ ts, t.1 < m.numVars) :
    ts.find? (fun t ↦ decide (m.numVars ≤ t.1)) = none := by
  rw [List.find?_eq_none]
  intro t ht
  rw [decide_eq_true_eq, Nat.not_le]
  exact hts t ht

/-- A well-formed constraint is taken as it stands. -/
theorem addConstraint_eq {m : Model R} {c : Constraint} (hc : c.WellFormed m.numVars) :
    m.addConstraint c.terms c.comparison c.rhs = .ok { m with constraints := m.constraints ++ [c] } := by
  rw [addConstraint, find?_unknown_eq_none hc.lt, Constraint.merge_eq_self hc.nodup hc.coeff_ne_zero]

/-- Well-formed constraints are taken one after the other. -/
theorem foldlM_addConstraint {m : Model R} (cs : List Constraint) (hcs : ∀ c ∈ cs, c.WellFormed m.numVars) :
    cs.foldlM (fun m c ↦ m.addConstraint c.terms c.comparison c.rhs) m =
      .ok { m with constraints := m.constraints ++ cs } := by
  induction cs generalizing m with
  | nil => rw [List.append_nil]; rfl
  | cons c cs ih =>
    obtain ⟨hc, hcs⟩ := List.forall_mem_cons.1 hcs
    have h := @ih { m with constraints := m.constraints ++ [c] } hcs
    rw [List.append_assoc, List.singleton_append] at h
    rw [List.foldlM_cons, addConstraint_eq hc]
    exact h

variable [Scalar R]

/-- Going through the variables in order, after those that have the coefficients `ps`, and setting some of them. -/
theorem setObjective_filterMap (gs : List (Option R)) (ps : List R) {m : Model R}
    (hm : m.objective = (ps ++ .replicate gs.length 0).toArray) (hn : m.numVars = ps.length + gs.length) :
    m.setObjective ((gs.zipIdx ps.length).filterMap fun g ↦ g.1.map (g.2, ·)) =
      ({ m with objective := (ps ++ gs.map (·.getD 0)).toArray }, none) := by
  induction gs generalizing ps m with
  | nil =>
    rw [List.length_nil, List.replicate_zero] at hm
    rw [List.map_nil, ← hm]
    rfl
  | cons g gs ih =>
    rw [List.length_cons, List.replicate_succ] at hm
    rw [List.length_cons] at hn
    have hn' (x : R) : m.numVars = (ps ++ [x]).length + gs.length := by
      rw [hn, List.length_append, List.length_singleton]
      omega
    rw [List.zipIdx_cons]
    cases g with
    | none =>
      have h := ih (ps ++ [0]) (by rwa [List.append_assoc]) (hn' 0)
      rw [List.length_append, List.length_singleton, List.append_assoc] at h
      exact h
    | some x =>
      have hset : m.objective.setIfInBounds ps.length x = ((ps ++ [x]) ++ .replicate gs.length 0).toArray := by
        rw [hm]
        simp
      have h := @ih (ps ++ [x]) { m with objective := m.objective.setIfInBounds ps.length x } hset (hn' x)
      rw [List.length_append, List.length_singleton, List.append_assoc] at h
      have hlt : ps.length < m.numVars := by omega
      simp only [List.filterMap_cons, Option.map_some, setObjective, if_pos hlt]
      exact h

theorem WellFormed.addBinary {m : Model R} (h : m.WellFormed) (name : String) :
    (m.addBinary name).WellFormed := by
  have hn : (m.addBinary name).numVars = m.numVars + 1 := Array.size_push _
  refine ⟨?_, fun c hc ↦ (h.constraints c hc).mono (by omega)⟩
  rw [hn, ← h.size_objective]
  exact Array.size_push _

/-- The models that can be built. A call that is refused leaves the model as it was, apart from the
objective coefficients before the first unknown variable. -/
inductive Built : Model R → Prop
  | empty : Built {}
  | addBinary {m : Model R} (name : String) : Built m → Built (m.addBinary name)
  | addConstraint {m m' : Model R} {ts : List (ℕ × ℤ)} {c : Comparison} {rhs : ℤ} :
      Built m → m.addConstraint ts c rhs = .ok m' → Built m'
  | setObjective {m : Model R} (ts : List (ℕ × R)) : Built m → Built (m.setObjective ts).1

theorem Built.wellFormed {m : Model R} (h : m.Built) : m.WellFormed := by
  induction h with
  | empty => exact ⟨rfl, by simp⟩
  | addBinary name _ ih => exact ih.addBinary name
  | addConstraint _ ha ih => exact ih.addConstraint ha
  | setObjective ts _ ih => exact ih.setObjective ts

theorem foldl_addBinary (names : List String) :
    names.foldl addBinary {} = (⟨names.toArray, .replicate names.length 0, []⟩ : Model R) := by
  induction names using List.reverseRecOn with
  | nil => rfl
  | append_singleton names name ih =>
    rw [List.foldl_append, ih, List.foldl_cons, List.foldl_nil, addBinary, List.push_toArray,
      ← Array.replicate_succ, List.length_append, List.length_singleton]

theorem built_objective {names : Array String} {objective : Array R}
    (h : objective.size = names.size) : Built (⟨names, objective, []⟩ : Model R) := by
  have hnames : Built (names.toList.foldl addBinary {} : Model R) :=
    List.foldlRecOn names.toList addBinary .empty fun _ hm name _ ↦ hm.addBinary name
  have hset := setObjective_filterMap (m := names.toList.foldl addBinary {}) (objective.toList.map some) []
    (by rw [foldl_addBinary]; simp [h]) (by rw [foldl_addBinary]; simp [numVars, h])
  have hbuilt := hnames.setObjective
    (((objective.toList.map some).zipIdx 0).filterMap fun g ↦ g.1.map (g.2, ·))
  have hgs : (objective.toList.map some).map (·.getD 0) = objective.toList := by
    rw [List.map_map]
    exact List.map_id _
  rw [List.length_nil, hgs, List.nil_append, Array.toArray_toList] at hset
  rw [hset, foldl_addBinary, Array.toArray_toList] at hbuilt
  exact hbuilt

/-- A model can be built exactly when it is well formed. -/
theorem built_iff_wellFormed {m : Model R} : m.Built ↔ m.WellFormed := by
  refine ⟨Built.wellFormed, fun h ↦ ?_⟩
  obtain ⟨names, objective, constraints⟩ := m
  induction constraints using List.reverseRecOn with
  | nil => exact built_objective h.size_objective
  | append_singleton cs c ih =>
    have hcs : (⟨names, objective, cs⟩ : Model R).WellFormed :=
      ⟨h.size_objective, fun d hd ↦ h.constraints d (List.mem_append_left _ hd)⟩
    exact (ih hcs).addConstraint (addConstraint_eq (h.constraints c (by simp)))

end Model

end NoisyDNF.ZeroOne
