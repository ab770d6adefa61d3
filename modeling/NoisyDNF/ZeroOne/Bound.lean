import NoisyDNF.ZeroOne.Propagation

namespace NoisyDNF.ZeroOne

variable {R : Type} [Scalar R]

def Model.prefers (m : Model R) (v : Nat) : Bool := decide (0 < m.gain v)

def Model.cost (m : Model R) (v : Nat) : R := Scalar.magnitude (m.gain v)

def cheapest? (costs : List R) : Option R :=
  (costs.filter Scalar.isFinite).foldl (fun best cost ↦
    match best with
    | none => some cost
    | some b => if cost < b then some cost else some b) none

inductive Direction where
  | lower
  | raise
  deriving DecidableEq

namespace Constraint

def freeTerms (c : Constraint) (n : Node R) : List (Nat × Int) :=
  c.terms.filter fun t ↦ n.isFree t.1

def preferredLhs (c : Constraint) (m : Model R) (n : Node R) (a : Activity) : Int :=
  a.fixed + sumOfCoeffs ((c.freeTerms n).filter fun t ↦ m.prefers t.1)

def repair? (c : Constraint) (preferred : Int) : Option Direction :=
  if c.comparison.isUpper && decide (c.rhs < preferred) then some .lower
  else if c.comparison.isLower && decide (preferred < c.rhs) then some .raise
  else none

def direction (m : Model R) (t : Nat × Int) : Direction :=
  if decide (0 < t.2) = m.prefers t.1 then .lower else .raise

def repairCost? (c : Constraint) (m : Model R) (n : Node R) (d : Direction) : Option R :=
  cheapest? (((c.freeTerms n).filter fun t ↦ direction m t = d).map fun t ↦ m.cost t.1)

end Constraint

structure Charge (R : Type) where
  loss : R
  charged : Array Bool

namespace Charge

def start (m : Model R) : Charge R := ⟨0, .replicate m.numVars false⟩

def isCharged (k : Charge R) (v : Nat) : Bool := k.charged.getD v false

/-- Adds the loss of one constraint; nothing if the constraint cannot be mended. -/
def add? (m : Model R) (n : Node R) (k : Charge R) (c : Constraint) (a : Activity) :
    Option (Charge R) :=
  match c.repair? (c.preferredLhs m n a) with
  | none => some k
  | some d =>
    match c.repairCost? m n d with
    | none => none
    | some cost =>
      if (c.freeTerms n).any (fun t ↦ k.isCharged t.1) || decide (cost ≤ 0) then some k
      else some
        { loss := k.loss + cost
          charged := (c.freeTerms n).foldl (fun ch t ↦ ch.setIfInBounds t.1 true) k.charged }

end Charge

/-- An upper bound for the objective below a node. Were every free variable to take its preferred value, some
constraints would be violated; mending one loses at least the cheapest move of its free variables, and losses add up
for constraints that share none. Nothing stands for minus infinity, as no assignment below the node is feasible. -/
def Node.bound? (m : Model R) (n : Node R) : Option R :=
  ((m.constraints.zip n.activities).foldlM (fun k p ↦ Charge.add? m n k p.1 p.2) (Charge.start m)).map
    fun k ↦ n.fixedObjective + n.freeGain - k.loss

end NoisyDNF.ZeroOne
