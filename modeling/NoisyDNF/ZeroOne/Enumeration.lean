import NoisyDNF.ZeroOne.Solution

namespace NoisyDNF.ZeroOne

def maxEnumeratedVars : Nat := 24

def valuesOfBits (n bits : Nat) : Array Bool := Array.ofFn fun i : Fin n ↦ bits.testBit i

structure Enumeration (R : Type) where
  best : Option (Incumbent R) := none
  nodes : Nat := 0
  cutShort : Bool := false

namespace Enumeration

variable {R : Type} [Scalar R]

def consider (m : Model R) (values : Array Bool) (best : Option (Incumbent R)) :
    Option (Incumbent R) :=
  if m.isFeasible values then
    let objective := m.objectiveValue values
    if best.all fun b ↦ decide (b.objective < objective) then some ⟨objective, values⟩ else best
  else best

def step (m : Model R) (deadline : Deadline) (e : Enumeration R) (bits : Nat) : Enumeration R :=
  if e.cutShort then e
  else if deadline e.nodes then { e with cutShort := true }
  else { e with
    best := consider m (valuesOfBits m.numVars bits) e.best
    nodes := e.nodes + 1 }

def run (m : Model R) (deadline : Deadline) : Enumeration R :=
  (1 <<< m.numVars).fold (fun bits _ e ↦ e.step m deadline bits) {}

end Enumeration

def enumerate {R : Type} [Scalar R] (deadline : Deadline) : Solver R := fun m ↦
  if maxEnumeratedVars < m.numVars then .ofSearch m.numVars true none 0
  else
    let e := Enumeration.run m deadline
    .ofSearch m.numVars e.cutShort e.best e.nodes

end NoisyDNF.ZeroOne
