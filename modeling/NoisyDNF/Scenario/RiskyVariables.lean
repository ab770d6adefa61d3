import NoisyDNF.Scenario.Risk

namespace NoisyDNF.Scenario

open ZeroOne

variable {R : Type} [LogScalar R]

def silence (s : Scenario R) (v : Var) : Scenario R := { s with noise := s.noise.silence v }

def riskWithout (solve : Solver R) (s : Scenario R) (v : Var) : Except (Error R) R :=
  if (s.silence v).noise.isNoiseless then .ok 0 else (s.silence v).maximumRisk solve

/-- Whether the risk without the noise of a variable is greater than the given one. The noise of a
variable that is not observed never counts. -/
def exceedsWithout (solve : Solver R) (s : Scenario R) (baseline : R) (v : Var) :
    Except (Error R) Bool :=
  if s.observed.contains v then
    (s.riskWithout solve v).map fun risk ↦ decide (baseline < risk)
  else .ok false

def isRisky (solve : Solver R) (s : Scenario R) (v : Var) : Except (Error R) Bool := do
  let _ ← s.validate true
  if !s.formula.atoms.contains v then .error (.outsideDomain v)
  let baseline ← s.maximumRisk solve
  s.exceedsWithout solve baseline v

def isRiskyAgainst (solve : Solver R) (s : Scenario R) (baseline : R) (v : Var) :
    Except (Error R) Bool :=
  if (s.noise.get? v).any Scalar.isZero then .ok false
  else s.exceedsWithout solve baseline v

def riskyVariables (solve : Solver R) (s : Scenario R) : Except (Error R) VarSet := do
  let _ ← s.validate true
  let baseline ← s.maximumRisk solve
  let risky ← s.formula.atoms.keys.filterM (s.isRiskyAgainst solve baseline)
  pure (.ofList risky)

end NoisyDNF.Scenario
