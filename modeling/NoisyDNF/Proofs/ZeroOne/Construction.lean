import NoisyDNF.Proofs.ZeroOne.Marks

namespace NoisyDNF.ZeroOne

namespace Constraint

theorem sum_addTerm (f : ℕ → Bool) (t : ℕ × ℤ) (us : List (ℕ × ℤ)) :
    ((addTerm t us).map fun u ↦ if f u.1 then u.2 else 0).sum =
      (us.map fun u ↦ if f u.1 then u.2 else 0).sum + if f t.1 then t.2 else 0 := by
  induction us with
  | nil => simp [addTerm]
  | cons u us ih =>
    unfold addTerm
    split
    · next h =>
      simp only [List.map_cons, List.sum_cons, h]
      split <;> omega
    · rw [List.map_cons, List.sum_cons, ih, List.map_cons, List.sum_cons, add_assoc]

theorem sum_foldl_addTerm (f : ℕ → Bool) (ts us : List (ℕ × ℤ)) :
    ((ts.foldl (fun us t ↦ addTerm t us) us).map fun u ↦ if f u.1 then u.2 else 0).sum =
      (us.map fun u ↦ if f u.1 then u.2 else 0).sum +
        (ts.map fun t ↦ if f t.1 then t.2 else 0).sum := by
  induction ts generalizing us with
  | nil => simp
  | cons t ts ih => rw [List.foldl_cons, ih, sum_addTerm, List.map_cons, List.sum_cons, add_assoc]

/-- Merging adds up what a variable has, and drops only what counts for nothing. -/
theorem sum_merge (f : ℕ → Bool) (ts : List (ℕ × ℤ)) :
    ((merge ts).map fun t ↦ if f t.1 then t.2 else 0).sum =
      (ts.map fun t ↦ if f t.1 then t.2 else 0).sum := by
  have hfold := sum_foldl_addTerm f ts []
  rw [List.map_nil, List.sum_nil, zero_add] at hfold
  rw [merge, sum_map_filter, ← hfold]
  congr 1
  apply List.map_congr_left
  intro t _
  by_cases ht : t.2 = 0 <;> simp [ht]

end Constraint

namespace Model

variable {R : Type} {m : Model R}

/-- A constraint that names only variables of the model is taken, and means what its terms mean. -/
theorem exists_addConstraint_eq {ts : List (ℕ × ℤ)} (hts : ∀ t ∈ ts, t.1 < m.numVars)
    (cmp : Comparison) (rhs : ℤ) :
    ∃ c, m.addConstraint ts cmp rhs = .ok { m with constraints := m.constraints ++ [c] } ∧
      ∀ y : Array Bool, m.numVars ≤ y.size → c.isSatisfied? y =
        some (cmp.holds (ts.map fun t ↦ if truth y t.1 then t.2 else 0).sum rhs) := by
  refine ⟨⟨Constraint.merge ts, cmp, rhs⟩, by rw [addConstraint, find?_unknown_eq_none hts],
    fun y hy ↦ ?_⟩
  have hc := Constraint.wellFormed_merge (n := y.size) (fun t ht ↦ (hts t ht).trans_le hy) cmp rhs
  rw [Constraint.isSatisfied?_eq hc rfl, Constraint.lhs, Constraint.sum_merge]

/-- The first variable that the model does not have is the one that is reported. -/
theorem addConstraint_eq_error {us ts : List (ℕ × ℤ)} {t : ℕ × ℤ} (hus : ∀ u ∈ us, u.1 < m.numVars)
    (ht : m.numVars ≤ t.1) (cmp : Comparison) (rhs : ℤ) :
    m.addConstraint (us ++ t :: ts) cmp rhs = .error t.1 := by
  have hfind : (us ++ t :: ts).find? (fun u ↦ decide (m.numVars ≤ u.1)) = some t := by
    rw [List.find?_append, find?_unknown_eq_none hus, Option.none_or]
    exact List.find?_cons_of_pos (decide_eq_true ht)
  rw [addConstraint, hfind]

theorem setObjective_append {us : List (ℕ × R)} (hus : ∀ u ∈ us, u.1 < m.numVars) (ts : List (ℕ × R)) :
    m.setObjective (us ++ ts) = setObjective
      { m with objective := us.foldl (fun o u ↦ o.setIfInBounds u.1 u.2) m.objective } ts := by
  induction us generalizing m with
  | nil => rfl
  | cons u us ih =>
    rw [List.cons_append, setObjective, if_pos (hus u List.mem_cons_self)]
    exact ih fun w hw ↦ hus w (List.mem_cons_of_mem u hw)

inductive Call (R : Type) where
  | addBinary (name : String)
  | addConstraint (terms : List (ℕ × ℤ)) (comparison : Comparison) (rhs : ℤ)
  | setObjective (terms : List (ℕ × R))

variable [Scalar R]

def call (m : Model R) : Call R → Model R × Option ℕ
  | .addBinary name => (m.addBinary name, none)
  | .addConstraint ts cmp rhs =>
    match m.addConstraint ts cmp rhs with
    | .ok m' => (m', none)
    | .error v => (m, some v)
  | .setObjective ts => m.setObjective ts

def afterCalls (calls : List (Call R)) : Model R := calls.foldl (fun m c ↦ (m.call c).1) {}

theorem Built.call (h : m.Built) (c : Call R) : (m.call c).1.Built := by
  cases c with
  | addBinary name => exact h.addBinary name
  | setObjective ts => exact h.setObjective ts
  | addConstraint ts cmp rhs =>
    rw [Model.call]
    cases ha : m.addConstraint ts cmp rhs with
    | ok m' => exact h.addConstraint ha
    | error v => exact h

theorem built_afterCalls (calls : List (Call R)) : (afterCalls calls).Built := by
  induction calls using List.reverseRecOn with
  | nil => exact .empty
  | append_singleton calls c ih =>
    rw [afterCalls, List.foldl_append]
    exact ih.call c

/-- The built models are those that calls can leave. -/
theorem built_iff_exists_afterCalls : m.Built ↔ ∃ calls, afterCalls calls = m := by
  refine ⟨fun h ↦ ?_, fun ⟨calls, h⟩ ↦ h ▸ built_afterCalls calls⟩
  have hlast {m : Model R} {calls : List (Call R)} (h : afterCalls calls = m) (c : Call R) :
      afterCalls (calls ++ [c]) = (m.call c).1 := by
    rw [afterCalls, List.foldl_append, ← h]
    rfl
  induction h with
  | empty => exact ⟨[], rfl⟩
  | addBinary name _ ih =>
    obtain ⟨calls, h⟩ := ih
    exact ⟨_, hlast h (.addBinary name)⟩
  | @addConstraint _ _ ts cmp rhs _ ha ih =>
    obtain ⟨calls, h⟩ := ih
    refine ⟨_, (hlast h (.addConstraint ts cmp rhs)).trans ?_⟩
    rw [Model.call, ha]
  | setObjective ts _ ih =>
    obtain ⟨calls, h⟩ := ih
    exact ⟨_, hlast h (.setObjective ts)⟩

end Model

variable {R : Type} [Scalar R] {m : Model R}

/-- Whatever a search looks up by number is there. It looks up constraints and their activities by the place of
the constraint, and coefficients, values and marks by the variables that constraints name, that are forced, that
are on the trail, or that it branches on. -/
structure MarkedNode.InRange (m : Model R) (s : MarkedNode R) : Prop where
  size_objective : m.objective.size = m.numVars
  size_values : s.node.values.size = m.numVars
  size_charged : s.marks.charged.size = m.numVars
  length_activities : s.node.activities.length = m.constraints.length
  lt_of_named : ∀ c ∈ m.constraints, ∀ t ∈ c.terms, t.1 < m.numVars
  lt_of_forced : ∀ fs, s.node.forced? m = some fs → ∀ f ∈ fs, f.1 < m.numVars
  lt_of_trail : ∀ v ∈ s.node.trail, v < m.numVars
  lt_of_branch : ∀ v ∈ m.branchingOrder, v < m.numVars

theorem MarkedNode.Reachable.inRange (hm : m.WellFormed) {s : MarkedNode R} (hs : s.Reachable m) :
    s.InRange m := by
  have ht := hs.node.tracks
  refine ⟨hm.size_objective, ht.size_values, hs.valid_marks.size_charged, ?_,
    fun c hc ↦ (hm.constraints c hc).lt, fun fs hfs f hf ↦ ?_, fun v hv ↦ ?_,
    fun v ↦ (Search.mem_branchingOrder m v).1⟩
  · rw [ht.activities, List.length_map]
  · exact ht.size_values ▸ Node.lt_size_of_forced? hfs f hf
  · obtain ⟨b, hb⟩ := Option.ne_none_iff_exists'.1 ((ht.mem_trail_iff v).1 hv)
    exact ht.size_values ▸ Node.lt_size_of_valueOf hb

/-- Calls keep a model well formed whatever variables they name, and a stored constraint means what its terms
mean. A refused constraint leaves no trace, and refused coefficients leave those before the unknown variable.
So no constraint and no search asks for a variable that is not there. -/
theorem afterCalls_wellFormed (calls : List (Model.Call R)) (hm : Model.afterCalls calls = m) :
    (m.objective.size = m.names.size ∧ ∀ c ∈ m.constraints, (c.terms.map Prod.fst).Nodup ∧
      ∀ t ∈ c.terms, t.1 < m.numVars ∧ t.2 ≠ 0) ∧
    (∀ ts cmp rhs, (∀ t ∈ ts, t.1 < m.numVars) →
      ∃ c, m.call (.addConstraint ts cmp rhs) = ({ m with constraints := m.constraints ++ [c] }, none) ∧
        ∀ y : Array Bool, m.numVars ≤ y.size → c.isSatisfied? y =
          some (cmp.holds (ts.map fun t ↦ if truth y t.1 then t.2 else 0).sum rhs)) ∧
    (∀ us t ts cmp rhs, (∀ u ∈ us, u.1 < m.numVars) → m.numVars ≤ t.1 →
      m.call (.addConstraint (us ++ t :: ts) cmp rhs) = (m, some t.1)) ∧
    (∀ us t ts, (∀ u ∈ us, u.1 < m.numVars) → m.numVars ≤ t.1 →
      m.call (.setObjective us) =
        ({ m with objective := us.foldl (fun o u ↦ o.setIfInBounds u.1 u.2) m.objective }, none) ∧
      m.call (.setObjective (us ++ t :: ts)) = ((m.call (.setObjective us)).1, some t.1)) ∧
    (∀ y : Array Bool, y.size = m.numVars → ∀ c ∈ m.constraints, ∃ b, c.isSatisfied? y = some b) ∧
    ∀ s : MarkedNode R, s.Reachable m → s.InRange m := by
  have hwf : m.WellFormed := hm ▸ (Model.built_afterCalls calls).wellFormed
  refine ⟨⟨hwf.size_objective, fun c hc ↦ ?_⟩, fun ts cmp rhs hts ↦ ?_, fun us t ts cmp rhs hus ht ↦ ?_,
    fun us t ts hus ht ↦ ?_, fun y hy c hc ↦ ?_, fun s hs ↦ hs.inRange hwf⟩
  · have h := hwf.constraints c hc
    exact ⟨h.nodup, fun t ht ↦ ⟨h.lt t ht, h.coeff_ne_zero t ht⟩⟩
  · obtain ⟨c, hadd, hc⟩ := Model.exists_addConstraint_eq hts cmp rhs
    exact ⟨c, by rw [Model.call, hadd], hc⟩
  · rw [Model.call, Model.addConstraint_eq_error hus ht]
  · have hset : m.call (.setObjective us) =
        ({ m with objective := us.foldl (fun o u ↦ o.setIfInBounds u.1 u.2) m.objective }, none) := by
      have h := Model.setObjective_append hus []
      rwa [List.append_nil] at h
    refine ⟨hset, ?_⟩
    rw [hset, Model.call, Model.setObjective_append hus, Model.setObjective]
    exact if_neg (not_lt.2 ht)
  · exact ⟨_, Constraint.isSatisfied?_eq (hwf.constraints c hc) hy⟩

def Model.hasty : Model ℚ :=
  afterCalls [.addBinary "x", .addConstraint [(0, 1), (1, 1)] .atMost 1, .addBinary "y",
    .setObjective [(1, 5), (2, 7), (0, 3)], .addConstraint [(0, 1), (1, 2), (0, 1), (1, -2)] .atMost 1]

/-- Of the refused calls only the coefficient before the unknown variable is left, and so it is with refused calls
that follow. -/
theorem afterCalls_wellFormed_hasty :
    Model.hasty = ⟨#["x", "y"], #[0, 5], [⟨[(0, 2)], .atMost, 1⟩]⟩ ∧
      (∃ c : Constraint, Model.hasty.call (.addConstraint [(1, 3), (0, 1), (1, -3)] .equal 1) =
          ({ Model.hasty with constraints := Model.hasty.constraints ++ [c] }, none) ∧
        c.isSatisfied? #[true, false] = some true ∧ c.isSatisfied? #[false, true] = some false) ∧
      Model.hasty.call (.addConstraint [(0, 1), (5, 1)] .atLeast 1) = (Model.hasty, some 5) ∧
      Model.hasty.call (.setObjective [(0, 2), (9, 1), (1, 1)]) =
        ((Model.hasty.call (.setObjective [(0, 2)])).1, some 9) ∧
      MarkedNode.InRange Model.hasty ⟨.root Model.hasty, .start Model.hasty⟩ := by
  obtain ⟨-, hadd, hrefused, hset, -, hrange⟩ := afterCalls_wellFormed (m := Model.hasty) _ rfl
  obtain ⟨c, hc, hmeaning⟩ := hadd [(1, 3), (0, 1), (1, -3)] .equal 1 (by decide)
  refine ⟨rfl, ⟨c, hc, ?_, ?_⟩, hrefused [(0, 1)] (5, 1) [] .atLeast 1 (by decide) (by decide),
    (hset [(0, 2)] (9, 1) [(1, 1)] (by decide) (by decide)).2, hrange _ .root⟩
  · exact (hmeaning #[true, false] (by decide)).trans (by decide)
  · exact (hmeaning #[false, true] (by decide)).trans (by decide)

end NoisyDNF.ZeroOne
