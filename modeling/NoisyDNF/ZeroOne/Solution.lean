import NoisyDNF.ZeroOne.Model

namespace NoisyDNF.ZeroOne

inductive Status where
  /-- The search was complete, and no feasible assignment is better. -/
  | optimal
  /-- The search was cut short after it had found a feasible assignment. -/
  | feasible
  /-- The search was complete and found no feasible assignment. -/
  | infeasible
  /-- The search was cut short before it had found a feasible assignment. -/
  | unknown
  deriving DecidableEq

namespace Status

def word : Status → String
  | .optimal => "optimal"
  | .feasible => "feasible"
  | .infeasible => "infeasible"
  | .unknown => "unknown"

def ofSearch (cutShort found : Bool) : Status :=
  match cutShort, found with
  | false, true => .optimal
  | false, false => .infeasible
  | true, true => .feasible
  | true, false => .unknown

end Status

structure Incumbent (R : Type) where
  objective : R
  values : Array Bool

structure Solution (R : Type) where
  status : Status
  /-- Nothing stands for minus infinity: no assignment was found. -/
  objective : Option R
  values : Array Bool
  /-- How many assignments or search nodes were looked at. -/
  nodes : Nat

def Solution.ofSearch {R : Type} (numVars : Nat) (cutShort : Bool) (best : Option (Incumbent R))
    (nodes : Nat) : Solution R where
  status := .ofSearch cutShort best.isSome
  objective := best.map Incumbent.objective
  values := (best.map Incumbent.values).getD (.replicate numVars false)
  nodes := nodes

/-- Whether time is up, once so many assignments or search nodes have been looked at. -/
abbrev Deadline := Nat → Bool

def Deadline.never : Deadline := fun _ ↦ false

def Deadline.passed : Deadline := fun _ ↦ true

abbrev Solver (R : Type) := Model R → Solution R

end NoisyDNF.ZeroOne
