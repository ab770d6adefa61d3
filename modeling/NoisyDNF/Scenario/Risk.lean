import NoisyDNF.Scenario.Encoding

namespace NoisyDNF.Scenario

open ZeroOne

variable {R : Type}

section Scalar

variable [Scalar R]

/-- The truth that falsifies the most without contradicting an observation that is certain: certain
observations are kept, and all other atoms are false. -/
def leastTruth (s : Scenario R) : Assignment :=
  s.formula.atoms.map fun v _ ↦
    match s.observed.get? v, s.noise.get? v with
    | some value, some p => if Scalar.isZero p then value else false
    | _, _ => false

def canFalsify (s : Scenario R) : Except (Error R) Bool :=
  match s.formula.evaluate s.leastTruth with
  | some false => do
    let p ← likelihood s.observed s.leastTruth s.noise
    pure (decide (0 < p))
  | some true => .ok false
  | none => .error .undeterminedByTruth

def termRisk (s : Scenario R) (term : Formula) : Except (Error R) R :=
  likelihood s.observed (s.observed.force term.atoms.keys) s.noise

def satisfyingRisk (s : Scenario R) : Except (Error R) R :=
  match s.formula.terms? with
  | none => .error .notDnf
  | some terms => do
    let risks ← terms.mapM s.termRisk
    pure (risks.foldl Scalar.larger 0)

end Scalar

variable [LogScalar R]

def falsifyingRisk (solve : Solver R) (s : Scenario R) (k : Nat) : Except (Error R) R := do
  if !(← s.canFalsify) then pure 0
  else
    let e ← s.encode k
    let solution := solve e.model
    if solution.status = .optimal then pure (solution.objective.elim 0 e.probability)
    else .error (.notOptimal solution.status)

/-- The greatest likelihood of the observation among the truths of the other class. -/
def maximumRisk (solve : Solver R) (s : Scenario R) : Except (Error R) R := do
  let k ← s.validate true
  match s.formula.evaluate s.observed with
  | some true => s.falsifyingRisk solve k
  | some false => s.satisfyingRisk
  | none => .error .undetermined

end NoisyDNF.Scenario
