import NoisyDNF.ZeroOne.Solution

namespace NoisyDNF.ZeroOne

/-- The left-hand side of a constraint as far as it is known. -/
structure Activity where
  /-- The coefficients of the variables set to true. -/
  fixed : Int := 0
  /-- The positive coefficients of free variables. -/
  positive : Int := 0
  /-- The negative coefficients of free variables. -/
  negative : Int := 0
  deriving DecidableEq

namespace Activity

def least (a : Activity) : Int := a.fixed + a.negative

def greatest (a : Activity) : Int := a.fixed + a.positive

def free (a : Activity) (coeff : Int) : Activity :=
  if 0 < coeff then { a with positive := a.positive + coeff }
  else { a with negative := a.negative + coeff }

def unfree (a : Activity) (coeff : Int) : Activity :=
  if 0 < coeff then { a with positive := a.positive - coeff }
  else { a with negative := a.negative - coeff }

def fix (a : Activity) (coeff : Int) (value : Bool) : Activity :=
  let a := a.unfree coeff
  if value then { a with fixed := a.fixed + coeff } else a

def unfix (a : Activity) (coeff : Int) (value : Bool) : Activity :=
  let a := a.free coeff
  if value then { a with fixed := a.fixed - coeff } else a

end Activity

namespace Constraint

def activity (c : Constraint) : Activity := c.terms.foldl (fun a t ↦ a.free t.2) {}

def update (c : Constraint) (change : Activity → Int → Activity) (v : Nat) (a : Activity) :
    Activity :=
  c.terms.foldl (fun a t ↦ if t.1 = v then change a t.2 else a) a

end Constraint

structure Node (R : Type) where
  values : Array (Option Bool)
  /-- The variables that have a value, the latest first. -/
  trail : List Nat
  activities : List Activity
  /-- The objective coefficients of the variables set to true. -/
  fixedObjective : R
  /-- The positive objective coefficients of free variables. -/
  freeGain : R

namespace Node

variable {R : Type} [Scalar R]

def root (m : Model R) : Node R where
  values := .replicate m.numVars none
  trail := []
  activities := m.constraints.map Constraint.activity
  fixedObjective := 0
  freeGain := Scalar.sum <| m.objective.toList.filter fun c ↦ decide (0 < c)

def isFree (n : Node R) (v : Nat) : Bool := n.values[v]? == some none

def valueOf (n : Node R) (v : Nat) : Option Bool := n.values.getD v none

def freeCount (n : Node R) : Nat := n.values.count none

def assign (m : Model R) (n : Node R) (v : Nat) (value : Bool) : Node R :=
  let gain := m.gain v
  { values := n.values.setIfInBounds v (some value)
    trail := v :: n.trail
    activities := List.zipWith (fun c a ↦ c.update (fun a k ↦ a.fix k value) v a)
      m.constraints n.activities
    fixedObjective := if value then n.fixedObjective + gain else n.fixedObjective
    freeGain := if 0 < gain then n.freeGain - gain else n.freeGain }

def undo (m : Model R) (n : Node R) : Node R :=
  match n.trail with
  | [] => n
  | v :: trail =>
    match n.valueOf v with
    | none => { n with trail := trail }
    | some value =>
      let gain := m.gain v
      { values := n.values.setIfInBounds v none
        trail := trail
        activities := List.zipWith (fun c a ↦ c.update (fun a k ↦ a.unfix k value) v a)
          m.constraints n.activities
        fixedObjective := if value then n.fixedObjective - gain else n.fixedObjective
        freeGain := if 0 < gain then n.freeGain + gain else n.freeGain }

def undoTo (m : Model R) (level : Nat) (n : Node R) : Node R :=
  (n.trail.length - level).repeat (undo m) n

end Node

end NoisyDNF.ZeroOne
