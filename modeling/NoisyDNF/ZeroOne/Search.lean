import NoisyDNF.ZeroOne.Bound

namespace NoisyDNF.ZeroOne

variable {R : Type} [Scalar R]

def Model.branchesBefore (m : Model R) (v w : Nat) : Bool :=
  let a := Scalar.magnitude (m.gain v)
  let b := Scalar.magnitude (m.gain w)
  !Scalar.isDefined a || (Scalar.isDefined b && decide (b ≤ a))

def Model.insertBranch (m : Model R) (v : Nat) : List Nat → List Nat
  | [] => [v]
  | w :: ws => if m.branchesBefore v w then v :: w :: ws else w :: m.insertBranch v ws

def Model.branchingOrder (m : Model R) : List Nat :=
  (List.range m.numVars).foldr m.insertBranch []

structure Search (R : Type) where
  node : Node R
  /-- The assignments reached, the latest first; each replaces the one before. -/
  incumbents : List (Incumbent R) := []
  nodes : Nat := 0
  timedOut : Bool := false

namespace Search

def best? (s : Search R) : Option (Incumbent R) := s.incumbents.head?

/-- What a bound has to exceed for the nodes below to be worth a visit. -/
def threshold (best : R) : R :=
  best + Scalar.tolerance * Scalar.larger (Scalar.magnitude best) 1

def isPruned (m : Model R) (s : Search R) : Bool :=
  match s.best? with
  | none => false
  | some best =>
    match s.node.bound? m with
    | none => Scalar.isDefined (threshold best.objective)
    | some bound => decide (bound ≤ threshold best.objective)

def record (m : Model R) (s : Search R) : Search R :=
  let values := s.node.values.map (·.getD false)
  { s with incumbents := ⟨m.objectiveValue values, values⟩ :: s.incumbents }

/-- Counts the node and, unless time is up or the node is pruned, searches `below` it. -/
def enter (m : Model R) (deadline : Deadline) (below : Search R → Search R) (s : Search R) :
    Search R :=
  let s := { s with nodes := s.nodes + 1 }
  if deadline s.nodes then { s with timedOut := true }
  else if s.isPruned m then s
  else below s

/-- Propagates and, if there is no conflict, enters the node; then goes back up to `level`
assignments. -/
def explore (m : Model R) (deadline : Deadline) (below : Search R → Search R) (level : Nat)
    (s : Search R) : Search R :=
  let p := s.node.propagate m
  let s := { s with node := p.1 }
  let s := if p.2 then s.enter m deadline below else s
  { s with node := s.node.undoTo m level }

def branch (m : Model R) (deadline : Deadline) (below : Search R → Search R) (v : Nat) (value : Bool)
    (s : Search R) : Search R :=
  if s.timedOut then s
  else
    explore m deadline below s.node.trail.length { s with node := s.node.assign m v value }

/-- Branches on the first free variable of the order; without one, all variables have a value. -/
def descend (m : Model R) (deadline : Deadline) : List Nat → Search R → Search R
  | [], s => s.record m
  | v :: order, s =>
    if s.node.isFree v then
      (s.branch m deadline (descend m deadline order) v (m.prefers v)).branch m deadline
        (descend m deadline order) v (!m.prefers v)
    else descend m deadline order s

def run (m : Model R) (deadline : Deadline) : Search R :=
  explore m deadline (descend m deadline m.branchingOrder) 0 { node := .root m }

end Search

def branchAndBound (deadline : Deadline) : Solver R := fun m ↦
  let s := Search.run m deadline
  .ofSearch m.numVars s.timedOut s.best? s.nodes

end NoisyDNF.ZeroOne
