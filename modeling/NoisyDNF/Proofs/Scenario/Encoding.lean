import NoisyDNF.Proofs.Scenario.LeastTruth
import NoisyDNF.Proofs.ZeroOne.Feasibility
import Mathlib.Algebra.Order.Group.Int

namespace NoisyDNF

open ZeroOne

theorem sum_ite_one {α : Type} (p : α → Bool) (as : List α) :
    (as.map fun a ↦ if p a then (1 : ℤ) else 0).sum = as.countP p := by
  induction as with
  | nil => rfl
  | cons a as ih =>
    rw [List.map_cons, List.sum_cons, ih, List.countP_cons]
    by_cases h : p a <;> simp [h, add_comm]

def Encoding.Reading.gain? {R : Type} [LogScalar R] (r : Reading R) : Option R :=
  if r.isCertain then none
  else r.value.map fun value ↦ if value then logLikelihoodRatio r.noise else -logLikelihoodRatio r.noise

theorem Encoding.Reading.gain_eq {R : Type} [LogScalar R] (r : Reading R) : r.gain = r.gain?.getD 0 := by
  rw [gain, gain?]
  split
  · rfl
  · cases r.value with
    | none => rfl
    | some value => cases value <;> rfl

namespace Scenario

variable {R : Type} {s : Scenario R} {k : ℕ} {v w : Var} {i : ℕ}

def columns (s : Scenario R) : VarMap ℕ := s.formula.atoms.numbering

def column (s : Scenario R) (v : Var) : ℕ := (s.columns.get? v).getD 0

theorem mem_columns_iff : (v, i) ∈ s.columns.entries ↔ s.formula.atoms.keys[i]? = some v := by
  rw [← VarMap.get?_eq_some_iff]
  exact VarMap.get?_numbering

theorem getElem?_column (hv : v ∈ s.formula.atoms.keys) :
    s.formula.atoms.keys[s.column v]? = some v := by
  have hmem : v ∈ s.columns.keys := by rwa [columns, VarMap.keys_numbering]
  obtain ⟨i, hi⟩ := VarMap.mem_keys_iff.1 hmem
  rw [column, hi, Option.getD_some]
  exact VarMap.get?_numbering.1 hi

theorem column_eq (h : (v, i) ∈ s.columns.entries) : s.column v = i := by
  rw [column, VarMap.get?_eq_some_iff.2 h, Option.getD_some]

theorem column_lt (hv : v ∈ s.formula.atoms.keys) : s.column v < s.formula.atoms.size := by
  have h := (List.getElem?_eq_some_iff.1 (getElem?_column hv)).1
  rwa [VarMap.length_keys] at h

theorem column_inj (hv : v ∈ s.formula.atoms.keys) (hw : w ∈ s.formula.atoms.keys)
    (h : s.column v = s.column w) : v = w := by
  have hvw := getElem?_column hv
  rw [h, getElem?_column hw] at hvw
  exact (Option.some_inj.1 hvw).symm

def decode (s : Scenario R) (y : Array Bool) : Assignment := s.columns.map fun _ i ↦ y.getD i false

theorem isTruth_decode (s : Scenario R) (y : Array Bool) : s.IsTruth (s.decode y) := by
  rw [IsTruth, decode, VarMap.keys_map, columns, VarMap.keys_numbering]

theorem get?_decode (hv : v ∈ s.formula.atoms.keys) (y : Array Bool) :
    (s.decode y).get? v = some (truth y (s.column v)) := by
  have hmem : v ∈ s.columns.keys := by rwa [columns, VarMap.keys_numbering]
  obtain ⟨i, hi⟩ := VarMap.mem_keys_iff.1 hmem
  rw [decode, VarMap.get?_map, hi, Option.map_some, column, hi]
  rfl

theorem values_decode {y : Array Bool} (hy : y.size = s.formula.atoms.size) :
    (s.decode y).values = y.toList := by
  have hvals : (s.decode y).values = s.columns.values.map fun i ↦ y.getD i false := by
    rw [decode, VarMap.values, VarMap.values, VarMap.map, List.map_map, List.map_map]
    rfl
  rw [hvals, columns, VarMap.values_numbering, ← hy]
  apply List.ext_getElem
  · rw [List.length_map, List.length_range, Array.length_toList]
  · intro i _ hi
    rw [List.getElem_map, List.getElem_range, Array.getElem_toList, Array.getD_eq_getD_getElem?,
      Array.getElem?_eq_getElem hi, Option.getD_some]

theorem exists_decode_eq {x : Assignment} (hx : s.IsTruth x) :
    ∃ y : Array Bool, y.size = s.formula.atoms.size ∧ s.decode y = x := by
  have hlen : x.values.length = s.formula.atoms.size := by
    rw [VarMap.length_values, ← VarMap.length_keys, ← VarMap.length_keys, show x.keys = _ from hx]
  exact ⟨x.values.toArray, hlen,
    VarMap.ext_keys_values ((isTruth_decode s _).trans hx.symm) (values_decode hlen)⟩

theorem decode?_eq {m : Model R} {o : R} {y : Array Bool} (hy : y.size = s.formula.atoms.size) :
    (⟨m, s.columns, o⟩ : Encoding R).decode? y = some (s.decode y) := by
  refine if_pos (List.all_eq_true.2 fun i hi ↦ decide_eq_true ?_)
  rw [columns, VarMap.values_numbering, List.mem_range] at hi
  rwa [hy]

/-- The constraint of a term asks for one of its atoms to be false. -/
theorem holds_termConstraint {t : Formula} (ht : t.IsTermOf k) (y : ℕ → Bool) :
    (termConstraint s.columns k t).comparison.holds ((termConstraint s.columns k t).lhs y)
      (termConstraint s.columns k t).rhs = true ↔ ∃ v ∈ t.occurrences, y (s.column v) = false := by
  have hlhs : (termConstraint s.columns k t).lhs y =
      t.atoms.keys.countP fun v ↦ y (s.column v) := by
    rw [← sum_ite_one, Constraint.lhs, termConstraint, List.map_map]
    rfl
  have hall : t.atoms.keys.countP (fun v ↦ y (s.column v)) = k ↔
      ∀ v ∈ t.occurrences, y (s.column v) = true := by
    rw [← ht.length_keys_atoms, List.countP_eq_length]
    exact forall_congr' fun v ↦ imp_congr_left Formula.mem_atoms
  have hle := List.countP_le_length (p := fun v ↦ y (s.column v)) (l := t.atoms.keys)
  rw [ht.length_keys_atoms] at hle
  rw [hlhs]
  simp only [termConstraint, Comparison.holds, decide_eq_true_eq]
  constructor
  · intro h
    by_contra hno
    push Not at hno
    have := hall.2 fun v hv ↦ Bool.eq_true_of_not_eq_false (hno v hv)
    omega
  · rintro ⟨v, hv, hfalse⟩
    have hne : t.atoms.keys.countP (fun v ↦ y (s.column v)) ≠ k := fun h ↦ by
      rw [hall.1 h v hv] at hfalse
      cases hfalse
    omega

theorem holds_pin (r : Encoding.Reading R) (y : ℕ → Bool) :
    r.pin.comparison.holds (r.pin.lhs y) r.pin.rhs = true ↔ y r.column = r.value.getD false := by
  obtain ⟨i, p, value⟩ := r
  rcases value with - | - | - <;> cases hy : y i <;>
    simp [Encoding.Reading.pin, Comparison.holds, Constraint.lhs, hy]

variable [LogScalar R]

def readingOf (s : Scenario R) (c : Var × ℕ) : Encoding.Reading R :=
  ⟨c.2, (s.noise.get? c.1).getD 0, s.observed.get? c.1⟩

def readings (s : Scenario R) : List (Encoding.Reading R) := s.columns.entries.map s.readingOf

def modelOf (s : Scenario R) (k : ℕ) (ts : List Formula) : Model R where
  names := (s.columns.keys.map Var.name).toArray
  objective := (s.readings.map Encoding.Reading.gain).toArray
  constraints := ts.map (termConstraint s.columns k) ++
    (s.readings.filter Encoding.Reading.isCertain).map Encoding.Reading.pin

def offsetOf (s : Scenario R) : R := Scalar.sum (s.readings.filterMap Encoding.Reading.offset?)

theorem encode_eq_of_covers (hn : ∀ v ∈ s.formula.atoms.keys, v ∈ s.noise.keys) {ts : List Formula}
    (hts : s.formula.terms? = some ts) (hf : s.formula.IsDnfOf k ts) :
    s.encode k = .ok ⟨s.modelOf k ts, s.columns, s.offsetOf⟩ := by
  have hk : k ≠ 0 := hf.arity_pos.ne'
  have hread : ∀ c ∈ s.columns.entries, s.reading c = .ok (s.readingOf c) := by
    intro c hc
    have hv : c.1 ∈ s.formula.atoms.keys := by
      rw [← VarMap.keys_numbering]
      exact List.mem_map_of_mem hc
    obtain ⟨p, hp⟩ := VarMap.mem_keys_iff.1 (hn c.1 hv)
    rw [reading, readingOf, hp]
    rfl
  have hall : s.formula.atoms.numbering.entries.mapM s.reading = .ok s.readings := mapM_eq_ok hread
  simp only [encode, hk, if_false, hts, hall]
  rfl

theorem encode_eq (hs : s.Valid k) {ts : List Formula} (hts : s.formula.terms? = some ts) :
    s.encode k = .ok ⟨s.modelOf k ts, s.columns, s.offsetOf⟩ := by
  obtain ⟨us, hus, hf⟩ := hs.exists_terms
  obtain rfl := Option.some_inj.1 (hus.symm.trans hts)
  exact encode_eq_of_covers hs.noise_covers hts hf

theorem numVars_modelOf (s : Scenario R) (k : ℕ) (ts : List Formula) :
    (s.modelOf k ts).numVars = s.formula.atoms.size := by
  simp [modelOf, Model.numVars, columns, VarMap.numbering, VarMap.keys, VarMap.size]

theorem wellFormed_modelOf {ts : List Formula} {j : ℕ} (hf : s.formula.IsDnfOf j ts) :
    (s.modelOf k ts).WellFormed := by
  refine ⟨?_, fun c hc ↦ ?_⟩
  · simp [modelOf, Model.numVars, readings, VarMap.keys]
  rw [numVars_modelOf]
  rcases List.mem_append.1 hc with hc | hc
  · obtain ⟨t, ht, rfl⟩ := List.mem_map.1 hc
    have hatom {v : Var} (hv : v ∈ t.atoms.keys) : v ∈ s.formula.atoms.keys :=
      Formula.mem_atoms.2 (hf.mem_occurrences.2 ⟨t, ht, Formula.mem_atoms.1 hv⟩)
    refine ⟨?_, ?_, ?_⟩
    · rw [termConstraint, List.map_map]
      exact t.atoms.nodup_keys.map_on fun v hv w hw ↦ column_inj (hatom hv) (hatom hw)
    · intro u hu
      obtain ⟨v, hv, rfl⟩ := List.mem_map.1 hu
      exact column_lt (hatom hv)
    · intro u hu
      obtain ⟨v, -, rfl⟩ := List.mem_map.1 hu
      exact one_ne_zero
  · obtain ⟨r, hr, rfl⟩ := List.mem_map.1 hc
    obtain ⟨e, he, rfl⟩ := List.mem_map.1 (List.mem_filter.1 hr).1
    refine ⟨List.nodup_singleton _, ?_, ?_⟩
    · intro u hu
      rw [List.mem_singleton.1 hu]
      have h := (List.getElem?_eq_some_iff.1 (mem_columns_iff.1 he)).1
      rwa [VarMap.length_keys] at h
    · intro u hu
      rw [List.mem_singleton.1 hu]
      exact one_ne_zero

theorem eq_readings_of_mapM {rs : List (Encoding.Reading R)}
    (h : s.formula.atoms.numbering.entries.mapM s.reading = .ok rs) : rs = s.readings := by
  have hread (c : Var × ℕ) (r : Encoding.Reading R) (hr : s.reading c = .ok r) : s.readingOf c = r := by
    rw [reading] at hr
    split at hr
    · next p hp =>
      cases hr
      rw [readingOf, hp, Option.getD_some]
    · cases hr
  have hall := (mapM_eq_ok_iff.1 h).imp hread
  rw [readings, columns, ← List.forall₂_eq_eq_eq, List.forall₂_map_right_iff]
  exact hall.flip.imp fun _ _ ↦ Eq.symm

/-- The calls that build the model: a variable for each atom, a constraint for each term and for each certain
atom, and the coefficients. -/
def assemble (s : Scenario R) (k : ℕ) (ts : List Formula) : Except ℕ (Model R × Option ℕ) := do
  let m : Model R := s.formula.atoms.keys.foldl (fun m v ↦ m.addBinary v.name) {}
  let m ← ts.foldlM (fun m t ↦ m.addConstraint (t.atoms.keys.map fun v ↦ (s.column v, 1)) .atMost (k - 1)) m
  let m ← (s.readings.filter Encoding.Reading.isCertain).foldlM
    (fun m r ↦ m.addConstraint [(r.column, 1)] .equal (if r.value = some true then 1 else 0)) m
  return m.setObjective (s.readings.filterMap fun r ↦ r.gain?.map (r.column, ·))

theorem foldl_addBinary_atoms (s : Scenario R) :
    s.formula.atoms.keys.foldl (fun m v ↦ m.addBinary v.name) {} =
      (⟨(s.columns.keys.map Var.name).toArray, .replicate s.formula.atoms.size 0, []⟩ : Model R) := by
  have h := Model.foldl_addBinary (R := R) (s.formula.atoms.keys.map Var.name)
  rw [List.foldl_map, List.length_map, VarMap.length_keys] at h
  rw [h, columns, VarMap.keys_numbering]

theorem length_readings (s : Scenario R) : s.readings.length = s.formula.atoms.size := by
  rw [readings, List.length_map, ← VarMap.length_keys, ← VarMap.keys_numbering, VarMap.keys, List.length_map,
    columns]

theorem zipIdx_map_gain? (s : Scenario R) :
    (s.readings.map Encoding.Reading.gain?).zipIdx = s.readings.map fun r ↦ (r.gain?, r.column) := by
  refine List.ext_getElem (by simp) fun i hi _ ↦ ?_
  simp [readings, readingOf, columns, VarMap.numbering]

theorem setObjective_gain? {m : Model R} (hm : m.objective = .replicate s.formula.atoms.size 0)
    (hn : m.numVars = s.formula.atoms.size) :
    m.setObjective (s.readings.filterMap fun r ↦ r.gain?.map (r.column, ·)) =
      ({ m with objective := (s.readings.map Encoding.Reading.gain).toArray }, none) := by
  have hlen : (s.readings.map Encoding.Reading.gain?).length = s.formula.atoms.size := by
    rw [List.length_map, length_readings]
  have hgain : (s.readings.map Encoding.Reading.gain?).map (·.getD 0) =
      s.readings.map Encoding.Reading.gain := by
    rw [List.map_map]
    exact List.map_congr_left fun r _ ↦ r.gain_eq.symm
  have h := Model.setObjective_filterMap (m := m) (s.readings.map Encoding.Reading.gain?) []
    (by rw [hm, hlen, List.nil_append, List.toArray_replicate]) (by rw [hn, hlen, List.length_nil, Nat.zero_add])
  rwa [List.length_nil, zipIdx_map_gain?, List.filterMap_map, hgain, List.nil_append] at h

/-- No call is refused, and they leave the model that is written down as a whole. -/
theorem assemble_eq {ts : List Formula} {j : ℕ} (hf : s.formula.IsDnfOf j ts) :
    s.assemble k ts = .ok (s.modelOf k ts, none) := by
  have hwf := wellFormed_modelOf (k := k) hf
  have hnum := numVars_modelOf s k ts
  have hterms := Model.foldlM_addConstraint (R := R) (ts.map (termConstraint s.columns k))
    (m := ⟨(s.modelOf k ts).names, .replicate s.formula.atoms.size 0, []⟩)
    fun c hc ↦ hwf.constraints c (List.mem_append_left _ hc)
  have hpins := Model.foldlM_addConstraint (R := R)
    ((s.readings.filter Encoding.Reading.isCertain).map Encoding.Reading.pin)
    (m := ⟨(s.modelOf k ts).names, .replicate s.formula.atoms.size 0, ts.map (termConstraint s.columns k)⟩)
    fun c hc ↦ hwf.constraints c (List.mem_append_right _ hc)
  rw [List.foldlM_map] at hterms hpins
  have hset := setObjective_gain? (s := s)
    (m := ⟨(s.modelOf k ts).names, .replicate s.formula.atoms.size 0, (s.modelOf k ts).constraints⟩) rfl hnum
  rw [assemble, foldl_addBinary_atoms]
  exact bind_eq_ok_iff.2 ⟨_, hterms, bind_eq_ok_iff.2 ⟨_, hpins, congrArg Except.ok hset⟩⟩

/-- The model of a scenario is what the calls leave. -/
theorem exists_assemble_eq {e : Encoding R} (he : s.encode k = .ok e) :
    ∃ ts, s.formula.terms? = some ts ∧ s.assemble k ts = .ok (e.model, none) := by
  have hk : k ≠ 0 := by
    rintro rfl
    cases he
  simp only [encode, hk, if_false] at he
  cases hts : s.formula.terms? with
  | none =>
    rw [hts] at he
    cases he
  | some ts =>
    obtain ⟨j, hj, -⟩ := Option.map_eq_some_iff.1 hts
    obtain ⟨us, hus, hf⟩ := Formula.exists_terms hj
    obtain rfl := Option.some_inj.1 (hus.symm.trans hts)
    rw [hts] at he
    obtain ⟨rs, hrs, he⟩ := bind_eq_ok_iff.1 he
    obtain rfl := eq_readings_of_mapM hrs
    cases he
    exact ⟨us, rfl, assemble_eq hf⟩

/-- Feasible assignments are the truths that falsify the formula and pin the certain atoms. -/
theorem isFeasible_modelOf_iff (hn : ∀ v ∈ s.formula.atoms.keys, v ∈ s.noise.keys)
    {ts : List Formula} (hf : s.formula.IsDnfOf k ts) {y : Array Bool} :
    (s.modelOf k ts).isFeasible y = true ↔ y.size = s.formula.atoms.size ∧
      s.formula.evaluate (s.decode y) = some false ∧ s.Pinned (s.decode y) := by
  rw [Model.isFeasible_iff (wellFormed_modelOf hf), numVars_modelOf]
  apply and_congr_right
  intro _
  rw [Model.SatisfiedBy, modelOf, List.forall_mem_append, List.forall_mem_map, List.forall_mem_map,
    hf.evaluate_eq_false_iff]
  refine and_congr (forall₂_congr fun t ht ↦ ?_) ⟨fun h v hv hc ↦ ?_, fun h r hr ↦ ?_⟩
  · rw [holds_termConstraint (hf.terms t ht)]
    refine exists_congr fun v ↦ and_congr_right fun hv ↦ ?_
    rw [get?_decode (Formula.mem_atoms.2 (hf.mem_occurrences.2 ⟨t, ht, hv⟩)), Option.some_inj]
  · have hcol : (v, s.column v) ∈ s.columns.entries := mem_columns_iff.2 (getElem?_column hv)
    have hpin := h (s.readingOf (v, s.column v)) (List.mem_filter.2 ⟨List.mem_map_of_mem hcol, ?_⟩)
    · rw [get?_decode hv]
      exact congrArg some ((holds_pin _ _).1 hpin)
    · obtain ⟨p, hp⟩ := VarMap.mem_keys_iff.1 (hn v hv)
      rw [isCertain, hp, Option.any_some] at hc
      rwa [Encoding.Reading.isCertain, readingOf, hp]
  · obtain ⟨hmem, hcert⟩ := List.mem_filter.1 hr
    obtain ⟨⟨v, i⟩, he, rfl⟩ := List.mem_map.1 hmem
    have hv : v ∈ s.formula.atoms.keys := List.mem_of_getElem? (mem_columns_iff.1 he)
    obtain ⟨p, hp⟩ := VarMap.mem_keys_iff.1 (hn v hv)
    have hc : s.isCertain v = true := by
      rw [isCertain, hp, Option.any_some]
      rwa [Encoding.Reading.isCertain, readingOf, hp] at hcert
    have hval := h v hv hc
    rw [get?_decode hv, column_eq he] at hval
    exact (holds_pin _ _).2 (Option.some_inj.1 hval)

/-- The program numbers the atoms in order, and its feasible assignments are the truths that falsify the
formula and pin the certain atoms. -/
theorem encode_isFeasible_iff (hk : s.formula.dnfArity? = some k)
    (hn : ∀ v ∈ s.formula.atoms.keys, v ∈ s.noise.keys) :
    ∃ e, s.encode k = .ok e ∧ e.model.Built ∧ e.model.numVars = s.formula.atoms.size ∧
      e.columns.keys = s.formula.atoms.keys ∧ e.columns.values = List.range e.model.numVars ∧
      ∀ y : Array Bool, y.size = e.model.numVars → ∃ x, e.decode? y = some x ∧
        x.keys = s.formula.atoms.keys ∧ x.values = y.toList ∧
        (e.model.isFeasible y = true ↔ s.formula.evaluate x = some false ∧ s.Pinned x) := by
  obtain ⟨ts, hts, hf⟩ := Formula.exists_terms hk
  have hnum := numVars_modelOf s k ts
  refine ⟨_, encode_eq_of_covers hn hts hf, Model.built_iff_wellFormed.2 (wellFormed_modelOf hf),
    hnum, VarMap.keys_numbering _, hnum ▸ VarMap.values_numbering _, ?_⟩
  intro y hy
  have hsize : y.size = s.formula.atoms.size := hy.trans hnum
  refine ⟨s.decode y, decode?_eq hsize, isTruth_decode s y, values_decode hsize, ?_⟩
  rw [isFeasible_modelOf_iff hn hf]
  exact and_iff_right hsize

def varC : Var := ⟨"c", by decide⟩

def varD : Var := ⟨"d", by decide⟩

def twoPairs : Formula := .or [.and [.var varA, .var varB], .and [.var varC, .var varD]]

theorem sorted_varsABCD : [varA, varB, varC, varD].Pairwise (· < ·) := by decide

def pairsObserved (p q : R) : Scenario R where
  formula := twoPairs
  observed := .ofList [(varA, true), (varB, true), (varC, false)]
  noise := ⟨[(varA, 0), (varB, p), (varC, q), (varD, 0)], List.pairwise_map.1 sorted_varsABCD⟩

theorem keys_atoms_twoPairs : twoPairs.atoms.keys = [varA, varB, varC, varD] := by decide

theorem get?_noise_pairsObserved (p q : R) :
    (pairsObserved p q).noise.get? varA = some 0 ∧ (pairsObserved p q).noise.get? varB = some p ∧
      (pairsObserved p q).noise.get? varC = some q ∧ (pairsObserved p q).noise.get? varD = some 0 :=
  ⟨rfl, rfl, rfl, rfl⟩

def pairsTruth (a b c d : Bool) : Assignment :=
  ⟨[(varA, a), (varB, b), (varC, c), (varD, d)], List.pairwise_map.1 sorted_varsABCD⟩

theorem eq_pairsTruth {x : Assignment} {a b c d : Bool} (hk : x.keys = twoPairs.atoms.keys)
    (hv : x.values = [a, b, c, d]) : x = pairsTruth a b c d :=
  VarMap.ext_keys_values (hk.trans keys_atoms_twoPairs) hv

theorem decode_pairsObserved (p q : R) (a b c d : Bool) :
    (pairsObserved p q).decode #[a, b, c, d] = pairsTruth a b c d :=
  eq_pairsTruth (isTruth_decode _ _) (values_decode rfl)

theorem evaluate_pairsTruth (a b c d : Bool) :
    twoPairs.evaluate (pairsTruth a b c d) = some (a && b || c && d) := by
  decide +revert

theorem pinned_pairsTruth_iff {p q : R} (h₀ : Scalar.isZero (0 : R) = true)
    (hp : Scalar.isZero p = false) (hq : Scalar.isZero q = false) {a b c d : Bool} :
    (pairsObserved p q).Pinned (pairsTruth a b c d) ↔ a = true ∧ d = false := by
  have hkeys : (pairsObserved p q).formula.atoms.keys = [varA, varB, varC, varD] := keys_atoms_twoPairs
  have ha : (pairsObserved p q).observed.get? varA = some true := rfl
  have hd : (pairsObserved p q).observed.get? varD = none := rfl
  have hta : (pairsTruth a b c d).get? varA = some a := rfl
  have htd : (pairsTruth a b c d).get? varD = some d := rfl
  simp [Pinned, isCertain, hkeys, get?_noise_pairsObserved, h₀, hp, hq, ha, hd, hta, htd]

theorem falsifies_pairsTruth_iff {p q : R} (h₀ : Scalar.isZero (0 : R) = true)
    (hp : Scalar.isZero p = false) (hq : Scalar.isZero q = false) {a b c d : Bool} :
    (pairsObserved p q).formula.evaluate (pairsTruth a b c d) = some false ∧
      (pairsObserved p q).Pinned (pairsTruth a b c d) ↔ a = true ∧ b = false ∧ d = false := by
  have hfalse : twoPairs.evaluate (pairsTruth a b c d) = some false ↔ (a && b || c && d) = false := by
    rw [evaluate_pairsTruth, Option.some_inj]
  rw [pinned_pairsTruth_iff h₀ hp hq]
  refine (and_congr_left fun _ ↦ hfalse).trans ?_
  cases a <;> cases d <;> simp

theorem encode_isFeasible_iff_pairsObserved :
    ∃ e, (pairsObserved (0.25 : Float) 0.125).encode 2 = .ok e ∧ ∀ a b c d,
      e.model.isFeasible #[a, b, c, d] = true ↔ a = true ∧ b = false ∧ d = false := by
  obtain ⟨e, he, -, hnum, -, -, h⟩ := encode_isFeasible_iff (s := pairsObserved (0.25 : Float) 0.125)
    (k := 2) (by decide) (by decide)
  refine ⟨e, he, ?_⟩
  intro a b c d
  obtain ⟨x, -, hkeys, hvals, hiff⟩ := h #[a, b, c, d] hnum.symm
  obtain rfl := eq_pairsTruth hkeys hvals
  exact hiff.trans
    (falsifies_pairsTruth_iff (by decide +kernel) (by decide +kernel) (by decide +kernel))

theorem exists_feasible (hs : s.Valid k) {ts : List Formula} (hf : s.formula.IsDnfOf k ts)
    {x : Assignment} (hx : s.IsTruth x) (hp : s.Pinned x) (hfalse : s.formula.evaluate x = some false) :
    ∃ y, (s.modelOf k ts).isFeasible y = true ∧ s.decode y = x := by
  obtain ⟨y, hsize, rfl⟩ := exists_decode_eq hx
  exact ⟨y, (isFeasible_modelOf_iff hs.noise_covers hf).2 ⟨hsize, hfalse, hp⟩, rfl⟩

/-- The program of a scenario that the short circuit lets through is feasible. -/
theorem exists_feasible_of_canFalsify (hs : s.Valid k) {ts : List Formula}
    (hf : s.formula.IsDnfOf k ts) (hcan : s.canFalsify = .ok true) :
    ∃ y, (s.modelOf k ts).isFeasible y = true := by
  rw [canFalsify_eq hs, Except.ok.injEq, Bool.and_eq_true, decide_eq_true_eq] at hcan
  obtain ⟨y, hy, -⟩ :=
    exists_feasible hs hf s.isTruth_leastTruth (pinned_leastTruth s) hcan.1
  exact ⟨y, hy⟩

/-- The maximum risk is read off an optimal solution. -/
theorem maximumRisk_eq_probability (hs : s.Valid k) {ts : List Formula}
    (hts : s.formula.terms? = some ts) (ht : s.formula.evaluate s.observed = some true)
    (hcan : s.canFalsify = .ok true) {solve : Solver R}
    (hstatus : (solve (s.modelOf k ts)).status = .optimal) :
    s.maximumRisk solve = .ok ((solve (s.modelOf k ts)).objective.elim 0
      (Encoding.probability ⟨s.modelOf k ts, s.columns, s.offsetOf⟩)) := by
  rw [maximumRisk_eq_falsifyingRisk hs ht, falsifyingRisk, hcan, encode_eq hs hts]
  exact if_pos hstatus

end Scenario

end NoisyDNF
