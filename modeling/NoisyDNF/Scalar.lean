namespace NoisyDNF

/-- No law is asked of the arithmetic: binary64 is one instance, and an exact field is another. -/
class Scalar (R : Type) extends Zero R, One R, Add R, Sub R, Mul R, Neg R, LT R, LE R where
  decidableLT : ∀ a b : R, Decidable (a < b)
  decidableLE : ∀ a b : R, Decidable (a ≤ b)
  /-- Neither infinite nor undefined. -/
  isFinite : R → Bool
  half : R
  /-- The relative gain below which a search does not look for a better solution. -/
  tolerance : R

class LogScalar (R : Type) extends Scalar R where
  ln : R → R
  exp : R → R

namespace Scalar

variable {R : Type} [Scalar R]

instance instDecidableLT (a b : R) : Decidable (a < b) := decidableLT a b

instance instDecidableLE (a b : R) : Decidable (a ≤ b) := decidableLE a b

def isDefined (a : R) : Bool := decide (a ≤ a)

def isZero (a : R) : Bool := decide (a ≤ 0) && decide (0 ≤ a)

def magnitude (a : R) : R := if a < 0 then -a else a

/-- The larger of two values, where an undefined one gives way and the later of two equals stands. -/
def larger (a b : R) : R := if isDefined b && !decide (b < a) then b else a

def clampUnit (a : R) : R := if a < 0 then 0 else if 1 < a then 1 else a

def sum (as : List R) : R := as.foldl (· + ·) 0

def product (as : List R) : R := as.foldl (· * ·) 1

end Scalar

instance : Scalar Float where
  zero := 0
  one := 1
  add := Float.add
  sub := Float.sub
  mul := Float.mul
  neg := Float.neg
  lt a b := a < b
  le a b := a ≤ b
  decidableLT := Float.decLt
  decidableLE := Float.decLe
  isFinite := Float.isFinite
  half := 0.5
  tolerance := 1e-12

instance : LogScalar Float where
  ln := Float.log
  exp := Float.exp

end NoisyDNF
