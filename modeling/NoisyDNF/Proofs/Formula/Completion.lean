import NoisyDNF.Proofs.Formula.Normal

namespace NoisyDNF

namespace Assignment

variable {a b : Assignment}

def Extends (a b : Assignment) : Prop := ∀ v c, b.get? v = some c → a.get? v = some c

theorem agrees_iff :
    a.agrees b = true ↔ ∀ v c d, a.get? v = some c → b.get? v = some d → c = d := by
  simp only [agrees, List.all_eq_true, Option.all_eq_true, beq_iff_eq]
  constructor
  · intro h v c d hc hd
    exact (h (v, c) (VarMap.get?_eq_some_iff.1 hc) d hd).symm
  · intro h e he d hd
    exact (h e.1 e.2 d (VarMap.get?_eq_some_iff.2 he) hd).symm

def holds (a : Assignment) (v : Var) : Bool := a.get? v == some true

def filled (a : Assignment) (d : Bool) (v : Var) : Bool := (a.get? v).getD d

end Assignment

namespace Formula

variable {f : Formula} {fs : List Formula} {a a' x : Assignment} {y z : Var → Bool} {b d : Bool}

mutual

def value (y : Var → Bool) : Formula → Bool
  | .const b => b
  | .var v => y v
  | .not f => !value y f
  | .and fs => (valueEach y fs).all id
  | .or fs => (valueEach y fs).any id

def valueEach (y : Var → Bool) : List Formula → List Bool
  | [] => []
  | f :: fs => value y f :: valueEach y fs

end

theorem valueEach_eq_map (y : Var → Bool) (fs : List Formula) : valueEach y fs = fs.map (value y) := by
  induction fs with
  | nil => rfl
  | cons f fs ih => rw [valueEach, ih, List.map_cons]

theorem value_and (y : Var → Bool) (fs : List Formula) : (and fs).value y = fs.all (value y) := by
  rw [value, valueEach_eq_map, List.all_map]
  rfl

theorem value_or (y : Var → Bool) (fs : List Formula) : (or fs).value y = fs.any (value y) := by
  rw [value, valueEach_eq_map, List.any_map]
  rfl

theorem evaluate_and_eq_true_iff :
    (and fs).evaluate a = some true ↔ ∀ f ∈ fs, f.evaluate a = some true := by
  rw [evaluate, evaluateEach_eq_map, conjunction_eq_true_iff, List.forall_mem_map]

theorem evaluate_and_eq_false_iff :
    (and fs).evaluate a = some false ↔ ∃ f ∈ fs, f.evaluate a = some false := by
  rw [evaluate, evaluateEach_eq_map, conjunction_eq_false_iff, List.mem_map]

theorem evaluate_or_eq_true_iff :
    (or fs).evaluate a = some true ↔ ∃ f ∈ fs, f.evaluate a = some true := by
  rw [evaluate, evaluateEach_eq_map, disjunction_eq_true_iff, List.mem_map]

theorem evaluate_or_eq_false_iff :
    (or fs).evaluate a = some false ↔ ∀ f ∈ fs, f.evaluate a = some false := by
  rw [evaluate, evaluateEach_eq_map, disjunction_eq_false_iff, List.forall_mem_map]

theorem mem_occurrences_and {v : Var} :
    v ∈ (and fs).occurrences ↔ ∃ f ∈ fs, v ∈ f.occurrences := by
  rw [occurrences, mem_occurrencesEach]

theorem mem_occurrences_or {v : Var} : v ∈ (or fs).occurrences ↔ ∃ f ∈ fs, v ∈ f.occurrences := by
  rw [occurrences, mem_occurrencesEach]

/-- Further values of its variables do not change what is decided about a formula. -/
theorem evaluate_of_extends (h : ∀ v ∈ f.occurrences, ∀ c, a.get? v = some c → a'.get? v = some c)
    (hf : f.evaluate a = some b) : f.evaluate a' = some b := by
  induction f generalizing b with
  | const c => exact hf
  | var v => exact h v (by rw [occurrences]; exact List.mem_singleton_self v) b hf
  | not f ih =>
    obtain ⟨c, hc, rfl⟩ := Option.map_eq_some_iff.1 hf
    exact Option.map_eq_some_iff.2 ⟨c, ih h hc, rfl⟩
  | and fs ih =>
    have hfs {f : Formula} (hmem : f ∈ fs) {c : Bool} : f.evaluate a = some c → f.evaluate a' = some c :=
      ih f hmem fun v hv ↦ h v (mem_occurrences_and.2 ⟨f, hmem, hv⟩)
    cases b with
    | true => exact evaluate_and_eq_true_iff.2 fun f hmem ↦ hfs hmem (evaluate_and_eq_true_iff.1 hf f hmem)
    | false =>
      obtain ⟨f, hmem, hfalse⟩ := evaluate_and_eq_false_iff.1 hf
      exact evaluate_and_eq_false_iff.2 ⟨f, hmem, hfs hmem hfalse⟩
  | or fs ih =>
    have hfs {f : Formula} (hmem : f ∈ fs) {c : Bool} : f.evaluate a = some c → f.evaluate a' = some c :=
      ih f hmem fun v hv ↦ h v (mem_occurrences_or.2 ⟨f, hmem, hv⟩)
    cases b with
    | true =>
      obtain ⟨f, hmem, htrue⟩ := evaluate_or_eq_true_iff.1 hf
      exact evaluate_or_eq_true_iff.2 ⟨f, hmem, hfs hmem htrue⟩
    | false => exact evaluate_or_eq_false_iff.2 fun f hmem ↦ hfs hmem (evaluate_or_eq_false_iff.1 hf f hmem)

/-- An assignment of all variables of a formula decides its classical value. -/
theorem evaluate_eq_value (h : ∀ v ∈ f.occurrences, a.get? v = some (y v)) :
    f.evaluate a = some (f.value y) := by
  induction f with
  | const c => rfl
  | var v => exact h v (by rw [occurrences]; exact List.mem_singleton_self v)
  | not f ih => rw [evaluate, ih h, value, Option.map_some]
  | and fs ih =>
    have hfs : ∀ f ∈ fs, f.evaluate a = some (f.value y) := fun f hmem ↦
      ih f hmem fun v hv ↦ h v (mem_occurrences_and.2 ⟨f, hmem, hv⟩)
    rw [value_and]
    cases hall : fs.all (value y) with
    | true =>
      refine evaluate_and_eq_true_iff.2 fun f hmem ↦ ?_
      rw [hfs f hmem, List.all_eq_true.1 hall f hmem]
    | false =>
      obtain ⟨f, hmem, hfalse⟩ := List.all_eq_false.1 hall
      refine evaluate_and_eq_false_iff.2 ⟨f, hmem, ?_⟩
      rw [hfs f hmem, Bool.eq_false_iff.2 hfalse]
  | or fs ih =>
    have hfs : ∀ f ∈ fs, f.evaluate a = some (f.value y) := fun f hmem ↦
      ih f hmem fun v hv ↦ h v (mem_occurrences_or.2 ⟨f, hmem, hv⟩)
    rw [value_or]
    cases hany : fs.any (value y) with
    | true =>
      obtain ⟨f, hmem, htrue⟩ := List.any_eq_true.1 hany
      refine evaluate_or_eq_true_iff.2 ⟨f, hmem, ?_⟩
      rw [hfs f hmem, htrue]
    | false =>
      refine evaluate_or_eq_false_iff.2 fun f hmem ↦ ?_
      rw [hfs f hmem, Bool.eq_false_iff.2 (List.any_eq_false.1 hany f hmem)]

/-- Only the values of its variables count. -/
theorem evaluate_congr (h : ∀ v ∈ f.occurrences, a.get? v = a'.get? v) :
    f.evaluate a = f.evaluate a' :=
  Option.ext fun _ ↦
    ⟨evaluate_of_extends fun v hv _ hc ↦ (h v hv).symm.trans hc,
      evaluate_of_extends fun v hv _ hc ↦ (h v hv).trans hc⟩

def truthOf (f : Formula) (y : Var → Bool) : Assignment := f.atoms.map fun v _ ↦ y v

theorem keys_truthOf (f : Formula) (y : Var → Bool) : (f.truthOf y).keys = f.atoms.keys :=
  VarMap.keys_map _ _

theorem get?_truthOf {v : Var} (hv : v ∈ f.occurrences) : (f.truthOf y).get? v = some (y v) := by
  obtain ⟨u, hu⟩ := VarMap.mem_keys_iff.1 (mem_atoms.2 hv)
  rw [truthOf, VarMap.get?_map, hu, Option.map_some]

theorem value_congr (h : ∀ v ∈ f.occurrences, y v = z v) : f.value y = f.value z :=
  Option.some_inj.1 <| (evaluate_eq_value fun _ ↦ get?_truthOf).symm.trans <|
    evaluate_eq_value fun v hv ↦ (get?_truthOf hv).trans (congrArg some (h v hv))

theorem evaluate_eq_value_holds (h : ∀ v ∈ f.occurrences, v ∈ a.keys) :
    f.evaluate a = some (f.value a.holds) := by
  refine evaluate_eq_value fun v hv ↦ ?_
  obtain ⟨c, hc⟩ := VarMap.mem_keys_iff.1 (h v hv)
  rw [Assignment.holds, hc]
  cases c <;> rfl

structure Completes (f : Formula) (a x : Assignment) : Prop where
  keys_eq : x.keys = f.atoms.keys
  agrees : a.agrees x = true

theorem Completes.extends (h : f.Completes a x) {v : Var} (hv : v ∈ f.occurrences) {c : Bool}
    (hc : a.get? v = some c) : x.get? v = some c := by
  obtain ⟨d, hd⟩ := VarMap.mem_keys_iff.1 (h.keys_eq ▸ mem_atoms.2 hv)
  rw [hd, Assignment.agrees_iff.1 h.agrees v c d hc hd]

theorem Completes.value_eq (h : f.Completes a x) (hf : f.evaluate a = some b) :
    f.value x.holds = b := by
  have hx := evaluate_of_extends (fun _ hv _ ↦ h.extends hv) hf
  rw [evaluate_eq_value_holds fun v hv ↦ h.keys_eq ▸ mem_atoms.2 hv] at hx
  exact Option.some_inj.1 hx

/-- The completion in which all further variables have the value `d`. -/
theorem completes_truthOf_filled (f : Formula) (a : Assignment) (d : Bool) :
    f.Completes a (f.truthOf (a.filled d)) where
  keys_eq := f.keys_truthOf _
  agrees := by
    refine Assignment.agrees_iff.2 fun v c e hc he ↦ ?_
    have hv : v ∈ f.occurrences := mem_atoms.1 (f.keys_truthOf _ ▸ VarMap.mem_keys_iff.2 ⟨e, he⟩)
    rw [get?_truthOf hv, Assignment.filled, hc] at he
    exact Option.some_inj.1 he

theorem value_holds_truthOf (f : Formula) (y : Var → Bool) :
    f.value (f.truthOf y).holds = f.value y :=
  value_congr fun v hv ↦ by rw [Assignment.holds, get?_truthOf hv]; cases y v <;> rfl

inductive NegationFree : Formula → Prop
  | const (b : Bool) : NegationFree (.const b)
  | var (v : Var) : NegationFree (.var v)
  | and {fs : List Formula} : (∀ f ∈ fs, NegationFree f) → NegationFree (.and fs)
  | or {fs : List Formula} : (∀ f ∈ fs, NegationFree f) → NegationFree (.or fs)

/-- A formula without negations that has a value even if all further variables have the other one. -/
theorem NegationFree.evaluate_eq (h : f.NegationFree) (hv : f.value (a.filled !b) = b) :
    f.evaluate a = some b := by
  induction h generalizing b with
  | const c => exact congrArg some hv
  | var v =>
    rw [value, Assignment.filled] at hv
    rw [evaluate]
    cases hc : a.get? v with
    | none => rw [hc] at hv; exact absurd hv (Bool.not_ne_self b)
    | some c => rw [hc] at hv; exact congrArg some hv
  | and _ ih =>
    rw [value_and] at hv
    cases b with
    | true => exact evaluate_and_eq_true_iff.2 fun f hmem ↦ ih f hmem (List.all_eq_true.1 hv f hmem)
    | false =>
      obtain ⟨f, hmem, hfalse⟩ := List.all_eq_false.1 hv
      exact evaluate_and_eq_false_iff.2 ⟨f, hmem, ih f hmem (Bool.eq_false_iff.2 hfalse)⟩
  | or _ ih =>
    rw [value_or] at hv
    cases b with
    | true =>
      obtain ⟨f, hmem, htrue⟩ := List.any_eq_true.1 hv
      exact evaluate_or_eq_true_iff.2 ⟨f, hmem, ih f hmem htrue⟩
    | false =>
      exact evaluate_or_eq_false_iff.2 fun f hmem ↦
        ih f hmem (Bool.eq_false_iff.2 (List.any_eq_false.1 hv f hmem))

/-- Without negations the completion that is most in favour of the other value tells whether a value is
decided. -/
theorem NegationFree.evaluate_eq_of_completes (h : f.NegationFree)
    (hx : ∀ x, f.Completes a x → f.value x.holds = b) : f.evaluate a = some b := by
  refine h.evaluate_eq ?_
  rw [← value_holds_truthOf]
  exact hx _ (completes_truthOf_filled f a !b)

theorem NegationFree.evaluate_ne_none_iff (h : f.NegationFree) :
    f.evaluate a ≠ none ↔ ∃ c, ∀ x, f.Completes a x → f.value x.holds = c := by
  constructor
  · intro hne
    obtain ⟨c, hc⟩ := Option.ne_none_iff_exists'.1 hne
    exact ⟨c, fun x hx ↦ hx.value_eq hc⟩
  · rintro ⟨c, hc⟩
    rw [h.evaluate_eq_of_completes hc]
    exact Option.some_ne_none c

/-- What is decided holds in every completion and stays decided, a total assignment decides everything, and
only the variables of the formula count. Without negations, what holds in every completion is decided. -/
theorem evaluate_spec (f : Formula) (a : Assignment) :
    (∀ b, f.evaluate a = some b → (∀ x, f.Completes a x → f.value x.holds = b) ∧
      ∀ a' : Assignment, a'.Extends a → f.evaluate a' = some b) ∧
    ((∀ v ∈ f.atoms.keys, v ∈ a.keys) → f.evaluate a = some (f.value a.holds)) ∧
    (∀ a' : Assignment, (∀ v ∈ f.atoms.keys, a.get? v = a'.get? v) → f.evaluate a = f.evaluate a') ∧
    (f.NegationFree → ∀ b, (∀ x, f.Completes a x → f.value x.holds = b) → f.evaluate a = some b) := by
  refine ⟨fun b hb ↦ ⟨fun x hx ↦ hx.value_eq hb, fun a' ha' ↦ ?_⟩, fun h ↦ ?_, fun a' h ↦ ?_, fun h b ↦ ?_⟩
  · exact evaluate_of_extends (fun v _ ↦ ha' v) hb
  · exact evaluate_eq_value_holds fun v hv ↦ h v (mem_atoms.2 hv)
  · exact evaluate_congr fun v hv ↦ h v (mem_atoms.2 hv)
  · exact h.evaluate_eq_of_completes

/-- With negations a formula can have the same value in every completion and yet not be decided. -/
example (v : Var) : (Formula.or [.var v, .not (.var v)]).evaluate .empty = none ∧
    ∀ h, (Formula.or [.var v, .not (.var v)]).value h = true := by
  refine ⟨rfl, fun h ↦ ?_⟩
  rw [value_or]
  cases hv : h v <;> simp [value, hv]

end Formula

end NoisyDNF
