import NoisyDNF.Assignment

namespace NoisyDNF

/-- The empty conjunction is true and the empty disjunction is false. -/
inductive Formula where
  | const (value : Bool)
  | var (v : Var)
  | not (f : Formula)
  | and (fs : List Formula)
  | or (fs : List Formula)

namespace Formula

instance : Inhabited Formula := ⟨.const false⟩

mutual

def same : Formula → Formula → Bool
  | .const a, .const b => a == b
  | .var v, .var w => v == w
  | .not f, .not g => same f g
  | .and fs, .and gs => sameEach fs gs
  | .or fs, .or gs => sameEach fs gs
  | _, _ => false

def sameEach : List Formula → List Formula → Bool
  | [], [] => true
  | f :: fs, g :: gs => same f g && sameEach fs gs
  | _, _ => false

end

mutual

theorem eq_of_same : ∀ {f g : Formula}, same f g = true → f = g
  | .const _, .const _, h => by simpa [same] using h
  | .var _, .var _, h => by simpa [same] using h
  | .not _, .not _, h => by rw [same] at h; rw [eq_of_same h]
  | .and _, .and _, h => by rw [same] at h; rw [eq_of_sameEach h]
  | .or _, .or _, h => by rw [same] at h; rw [eq_of_sameEach h]

theorem eq_of_sameEach : ∀ {fs gs : List Formula}, sameEach fs gs = true → fs = gs
  | [], [], _ => rfl
  | _ :: _, _ :: _, h => by
    rw [sameEach, Bool.and_eq_true] at h
    rw [eq_of_same h.1, eq_of_sameEach h.2]

end

mutual

theorem same_self : ∀ f : Formula, same f f = true
  | .const _ => by simp [same]
  | .var _ => by simp [same]
  | .not f => by rw [same]; exact same_self f
  | .and fs => by rw [same]; exact sameEach_self fs
  | .or fs => by rw [same]; exact sameEach_self fs

theorem sameEach_self : ∀ fs : List Formula, sameEach fs fs = true
  | [] => rfl
  | f :: fs => by rw [sameEach, same_self f, sameEach_self fs]; rfl

end

instance : DecidableEq Formula := fun f g ↦
  decidable_of_iff (same f g = true) ⟨eq_of_same, fun h ↦ h ▸ same_self f⟩

mutual

def occurrences : Formula → List Var
  | .const _ => []
  | .var v => [v]
  | .not f => occurrences f
  | .and fs => occurrencesEach fs
  | .or fs => occurrencesEach fs

def occurrencesEach : List Formula → List Var
  | [] => []
  | f :: fs => occurrences f ++ occurrencesEach fs

end

def atoms (f : Formula) : VarSet := VarSet.ofList f.occurrences

def conjunction (xs : List (Option Bool)) : Option Bool :=
  if xs.contains (some false) then some false
  else if xs.contains none then none
  else some true

def disjunction (xs : List (Option Bool)) : Option Bool :=
  if xs.contains (some true) then some true
  else if xs.contains none then none
  else some false

mutual

def evaluate (a : Assignment) : Formula → Option Bool
  | .const b => some b
  | .var v => a.get? v
  | .not f => (evaluate a f).map (!·)
  | .and fs => conjunction (evaluateEach a fs)
  | .or fs => disjunction (evaluateEach a fs)

def evaluateEach (a : Assignment) : List Formula → List (Option Bool)
  | [] => []
  | f :: fs => evaluate a f :: evaluateEach a fs

end

theorem evaluateEach_eq_map (a : Assignment) (fs : List Formula) :
    evaluateEach a fs = fs.map (evaluate a) := by
  induction fs with
  | nil => rfl
  | cons f fs ih => rw [evaluateEach, ih, List.map_cons]

def joined (node : List Formula → Formula) : List Formula → Formula
  | [f] => f
  | fs => node fs

/-- The conjunction of some variables; a single one stands for itself, and none for true. -/
def ofTerm : List Var → Formula
  | [] => .const true
  | vs => joined .and (vs.map .var)

/-- The disjunction of some terms; a single one stands for itself, and none for false. -/
def ofTerms : List (List Var) → Formula
  | [] => .const false
  | ts => joined .or (ts.map ofTerm)

end Formula

end NoisyDNF
