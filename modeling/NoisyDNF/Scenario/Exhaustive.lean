import NoisyDNF.Scenario.Basic

namespace NoisyDNF.Scenario

variable {R : Type} [Scalar R]

def maxExhaustiveAtoms : Nat := 20

def truthOfBits (columns : VarMap Nat) (bits : Nat) : Assignment :=
  columns.map fun _ i ↦ bits.testBit i

def considerTruth (s : Scenario R) (observedClass : Option Bool) (best : R) (truth : Assignment) :
    Except (Error R) R :=
  if s.formula.evaluate truth = observedClass then .ok best
  else (likelihood s.observed truth s.noise).map (Scalar.larger best)

def exhaustiveRisk (s : Scenario R) : Except (Error R) R := do
  let _ ← s.validate true
  let columns := s.formula.atoms.numbering
  let observedClass := s.formula.evaluate s.observed
  if maxExhaustiveAtoms < columns.size then .error (.tooManyAtoms columns.size maxExhaustiveAtoms)
  else
    (1 <<< columns.size).fold (fun bits _ best ↦ do
      s.considerTruth observedClass (← best) (truthOfBits columns bits)) (.ok 0)

end NoisyDNF.Scenario
