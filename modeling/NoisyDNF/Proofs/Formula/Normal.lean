import NoisyDNF.Proofs.Formula.Evaluation

namespace NoisyDNF.Formula

@[elab_as_elim, induction_eliminator]
theorem induction {motive : Formula → Prop} (const : ∀ b, motive (.const b))
    (var : ∀ v, motive (.var v)) (not : ∀ f, motive f → motive (.not f))
    (and : ∀ fs, (∀ f ∈ fs, motive f) → motive (.and fs))
    (or : ∀ fs, (∀ f ∈ fs, motive f) → motive (.or fs)) (f : Formula) : motive f :=
  @Formula.rec motive (fun fs ↦ ∀ f ∈ fs, motive f) const var not and or (List.forall_mem_nil _)
    (fun _ _ hf hfs ↦ List.forall_mem_cons.2 ⟨hf, hfs⟩) f

/-- A chain, where a single operand stands for itself and an empty chain for its value. -/
def collapsed (empty : Bool) (node : List Formula → Formula) : List Formula → Formula
  | [] => .const empty
  | fs => joined node fs

mutual

def normal : Formula → Formula
  | .const b => .const b
  | .var v => .var v
  | .not f => .not (normal f)
  | .and fs => collapsed true .and (normalEach fs)
  | .or fs => collapsed false .or (normalEach fs)

def normalEach : List Formula → List Formula
  | [] => []
  | f :: fs => normal f :: normalEach fs

end

theorem normalEach_eq_map (fs : List Formula) : normalEach fs = fs.map normal := by
  induction fs with
  | nil => rfl
  | cons f fs ih => rw [normalEach, ih, List.map_cons]

inductive IsNormal : Formula → Prop
  | const (b : Bool) : IsNormal (.const b)
  | var (v : Var) : IsNormal (.var v)
  | not {f : Formula} : IsNormal f → IsNormal (.not f)
  | and {fs : List Formula} : 2 ≤ fs.length → (∀ f ∈ fs, IsNormal f) → IsNormal (.and fs)
  | or {fs : List Formula} : 2 ≤ fs.length → (∀ f ∈ fs, IsNormal f) → IsNormal (.or fs)

section Collapsed

variable {empty : Bool} {node : List Formula → Formula} {fs : List Formula}

theorem collapsed_of_two_le (h : 2 ≤ fs.length) : collapsed empty node fs = node fs := by
  match fs, h with
  | _ :: _ :: _, _ => rfl

theorem isNormal_collapsed
    (hnode : ∀ fs : List Formula, 2 ≤ fs.length → (∀ f ∈ fs, IsNormal f) → IsNormal (node fs))
    (h : ∀ f ∈ fs, IsNormal f) : IsNormal (collapsed empty node fs) := by
  match fs, h with
  | [], _ => exact .const empty
  | [f], h => exact h f List.mem_cons_self
  | f :: g :: fs, h => exact hnode _ (by simp) h

theorem evaluate_collapsed_and (a : Assignment) (fs : List Formula) :
    (collapsed true .and fs).evaluate a = conjunction (fs.map (evaluate a)) := by
  match fs with
  | [] => rw [collapsed, evaluate]; rfl
  | [f] => rw [List.map_singleton, conjunction_singleton]; rfl
  | f :: g :: fs => rw [collapsed_of_two_le (by simp), evaluate, evaluateEach_eq_map]

theorem evaluate_collapsed_or (a : Assignment) (fs : List Formula) :
    (collapsed false .or fs).evaluate a = disjunction (fs.map (evaluate a)) := by
  match fs with
  | [] => rw [collapsed, evaluate]; rfl
  | [f] => rw [List.map_singleton, disjunction_singleton]; rfl
  | f :: g :: fs => rw [collapsed_of_two_le (by simp), evaluate, evaluateEach_eq_map]

end Collapsed

theorem isNormal_normal (f : Formula) : f.normal.IsNormal := by
  induction f with
  | const b => rw [normal]; exact .const b
  | var v => rw [normal]; exact .var v
  | not f ih => rw [normal]; exact .not ih
  | and fs ih =>
    rw [normal, normalEach_eq_map]
    exact isNormal_collapsed (fun _ ↦ .and) (List.forall_mem_map.2 ih)
  | or fs ih =>
    rw [normal, normalEach_eq_map]
    exact isNormal_collapsed (fun _ ↦ .or) (List.forall_mem_map.2 ih)

theorem IsNormal.normal_eq {f : Formula} (h : f.IsNormal) : f.normal = f := by
  have heach {fs : List Formula} (ih : ∀ f ∈ fs, f.normal = f) : normalEach fs = fs := by
    rw [normalEach_eq_map]
    exact (List.map_congr_left ih).trans fs.map_id
  induction h with
  | const b => rw [normal]
  | var v => rw [normal]
  | not _ ih => rw [normal, ih]
  | and hlen _ ih => rw [normal, heach ih, collapsed_of_two_le hlen]
  | or hlen _ ih => rw [normal, heach ih, collapsed_of_two_le hlen]

theorem normal_eq_self_iff {f : Formula} : f.normal = f ↔ f.IsNormal :=
  ⟨fun h ↦ h ▸ f.isNormal_normal, IsNormal.normal_eq⟩

theorem evaluate_normal (a : Assignment) (f : Formula) : f.normal.evaluate a = f.evaluate a := by
  induction f with
  | const b => rw [normal]
  | var v => rw [normal]
  | not f ih => rw [normal, evaluate, evaluate, ih]
  | and fs ih =>
    rw [normal, evaluate_collapsed_and, normalEach_eq_map, List.map_map, evaluate, evaluateEach_eq_map]
    exact congrArg conjunction (List.map_congr_left ih)
  | or fs ih =>
    rw [normal, evaluate_collapsed_or, normalEach_eq_map, List.map_map, evaluate, evaluateEach_eq_map]
    exact congrArg disjunction (List.map_congr_left ih)

end NoisyDNF.Formula
