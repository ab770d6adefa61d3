import NoisyDNF.Formula.Dnf
import NoisyDNF.Likelihood

namespace NoisyDNF

structure Scenario (R : Type) where
  formula : Formula
  observed : Assignment
  noise : Noise R

namespace Scenario

variable {R : Type} [Scalar R]

def isErrorProbability (p : R) : Bool := decide (0 ≤ p) && decide (p < Scalar.half)

def checkFormula (s : Scenario R) : Except (Error R) Nat :=
  match s.formula.dnfArity? with
  | some k => .ok k
  | none => .error .notDnf

def checkNoise (s : Scenario R) : Except (Error R) Unit :=
  let atoms := s.formula.atoms
  match atoms.keys.find? (!s.noise.contains ·), s.noise.keys.find? (!atoms.contains ·),
    s.noise.entries.find? (!isErrorProbability ·.2) with
  | some v, _, _ => .error (.missingNoise v)
  | none, some v, _ => .error (.strayNoise v)
  | none, none, some e => .error (.noiseOutOfRange e.1 e.2)
  | none, none, none => if s.noise.isNoiseless then .error .noiseless else .ok ()

def checkObserved (s : Scenario R) (allowPartial : Bool) : Except (Error R) Unit :=
  let atoms := s.formula.atoms
  if (s.formula.evaluate s.observed).isNone then .error .undetermined
  else
    match s.observed.keys.find? (!atoms.contains ·) with
    | some v => .error (.strayObservation v)
    | none =>
      if !allowPartial && s.observed.size != atoms.size then
        .error (.partialObservation atoms.size s.observed.size)
      else .ok ()

/-- The arity of the terms of a valid scenario. Unless partial observations are allowed, all variables
have to be observed. -/
def validate (s : Scenario R) (allowPartial : Bool) : Except (Error R) Nat := do
  let k ← s.checkFormula
  s.checkNoise
  s.checkObserved allowPartial
  pure k

end Scenario

end NoisyDNF
