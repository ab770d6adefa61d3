import NoisyDNF.Scalar

namespace NoisyDNF.ZeroOne

inductive Comparison where
  | atMost
  | equal
  | atLeast
  deriving DecidableEq

namespace Comparison

def symbol : Comparison → String
  | .atMost => "<="
  | .equal => "=="
  | .atLeast => ">="

def isUpper : Comparison → Bool
  | .atLeast => false
  | _ => true

def isLower : Comparison → Bool
  | .atMost => false
  | _ => true

def holds : Comparison → (lhs rhs : Int) → Bool
  | .atMost, lhs, rhs => decide (lhs ≤ rhs)
  | .equal, lhs, rhs => decide (lhs = rhs)
  | .atLeast, lhs, rhs => decide (rhs ≤ lhs)

end Comparison

/-- The sum of the coefficients of the variables that are set, compared with a constant. -/
structure Constraint where
  terms : List (Nat × Int)
  comparison : Comparison
  rhs : Int
  deriving DecidableEq

namespace Constraint

def sumOfCoeffs (ts : List (Nat × Int)) : Int := ts.foldr (fun t sum ↦ t.2 + sum) 0

def addTerm (t : Nat × Int) : List (Nat × Int) → List (Nat × Int)
  | [] => [t]
  | u :: us => if u.1 = t.1 then (u.1, u.2 + t.2) :: us else u :: addTerm t us

/-- One term for each variable, at its first place, without those that cancel out. -/
def merge (ts : List (Nat × Int)) : List (Nat × Int) :=
  (ts.foldl (fun us t ↦ addTerm t us) []).filter fun t ↦ t.2 ≠ 0

def lhs? (c : Constraint) (values : Array Bool) : Option Int :=
  if c.terms.all fun t ↦ decide (t.1 < values.size) then
    some (sumOfCoeffs (c.terms.filter fun t ↦ values.getD t.1 false))
  else none

def isSatisfied? (c : Constraint) (values : Array Bool) : Option Bool :=
  (c.lhs? values).map fun lhs ↦ c.comparison.holds lhs c.rhs

end Constraint

structure Model (R : Type) where
  names : Array String := #[]
  objective : Array R := #[]
  constraints : List Constraint := []

namespace Model

variable {R : Type}

def numVars (m : Model R) : Nat := m.names.size

def addConstraint (m : Model R) (terms : List (Nat × Int)) (comparison : Comparison) (rhs : Int) :
    Except Nat (Model R) :=
  match terms.find? fun t ↦ decide (m.numVars ≤ t.1) with
  | some t => .error t.1
  | none =>
    .ok { m with constraints := m.constraints ++ [⟨Constraint.merge terms, comparison, rhs⟩] }

/-- Sets objective coefficients one after the other, up to the first variable that the model does not
have; that variable is returned. -/
def setObjective (m : Model R) : List (Nat × R) → Model R × Option Nat
  | [] => (m, none)
  | t :: ts =>
    if t.1 < m.numVars then
      setObjective { m with objective := m.objective.setIfInBounds t.1 t.2 } ts
    else (m, some t.1)

variable [Scalar R]

def addBinary (m : Model R) (name : String) : Model R :=
  { m with names := m.names.push name, objective := m.objective.push 0 }

def gain (m : Model R) (v : Nat) : R := m.objective.getD v 0

def objectiveValue (m : Model R) (values : Array Bool) : R :=
  Scalar.sum <| (m.objective.toList.zip values.toList).filterMap fun p ↦
    if p.2 then some p.1 else none

def isFeasible (m : Model R) (values : Array Bool) : Bool :=
  values.size == m.numVars && m.constraints.all fun c ↦ c.isSatisfied? values == some true

end Model

end NoisyDNF.ZeroOne
