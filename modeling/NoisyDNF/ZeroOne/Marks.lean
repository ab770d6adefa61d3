import NoisyDNF.ZeroOne.Bound

namespace NoisyDNF.ZeroOne

variable {R : Type}

structure Marks where
  /-- The number of the latest bound. -/
  epoch : Nat
  /-- For each variable, the latest bound that charged it. -/
  charged : Array Nat

namespace Marks

def start (m : Model R) : Marks := ⟨0, .replicate m.numVars 0⟩

def nextEpoch (k : Marks) : Marks := { k with epoch := k.epoch + 1 }

def isCharged (k : Marks) (v : Nat) : Bool := k.charged.getD v 0 == k.epoch

def charge (k : Marks) (ts : List (Nat × Int)) : Marks :=
  { k with charged := ts.foldl (fun ch t ↦ ch.setIfInBounds t.1 k.epoch) k.charged }

variable [Scalar R]

/-- Adds the losses of constraints, one after the other; nothing if one of them cannot be mended, which ends
the count with the marks as they are by then. -/
def addLosses (m : Model R) (n : Node R) :
    List (Constraint × Activity) → R → Marks → Option R × Marks
  | [], loss, k => (some loss, k)
  | (c, a) :: ps, loss, k =>
    match c.repair? (c.preferredLhs m n a) with
    | none => addLosses m n ps loss k
    | some d =>
      match c.repairCost? m n d with
      | none => (none, k)
      | some cost =>
        if (c.freeTerms n).any (fun t ↦ k.isCharged t.1) || decide (cost ≤ 0) then
          addLosses m n ps loss k
        else addLosses m n ps (loss + cost) (k.charge (c.freeTerms n))

end Marks

/-- A node with the marks that the bounds computed so far have left. Bounds are numbered, and a variable is charged
if it bears the number of the bound that is being computed, so that no marks have to be cleared. -/
structure MarkedNode (R : Type) where
  node : Node R
  marks : Marks

/-- The bound of the node, where nothing stands for minus infinity, and what is left after computing it. -/
def MarkedNode.bound [Scalar R] (m : Model R) (s : MarkedNode R) : Option R × MarkedNode R :=
  let p := s.marks.nextEpoch.addLosses m s.node (m.constraints.zip s.node.activities) 0
  (p.1.map fun loss ↦ s.node.fixedObjective + s.node.freeGain - loss, { s with marks := p.2 })

end NoisyDNF.ZeroOne
