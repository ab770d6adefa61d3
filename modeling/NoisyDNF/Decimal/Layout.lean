import NoisyDNF.Decimal.Shortest

namespace NoisyDNF

namespace Decimal

def positionalText (x : Decimal) : List Char :=
  let ds := x.digits
  if 0 ≤ x.exponent then ds ++ List.replicate x.exponent.toNat '0'
  else if 0 ≤ x.leading then
    let whole := x.leading.toNat + 1
    ds.take whole ++ '.' :: ds.drop whole
  else '0' :: '.' :: (List.replicate (-x.leading - 1).toNat '0' ++ ds)

def ofInt (i : Int) : List Char :=
  if i < 0 then '-' :: digitsOf i.natAbs else digitsOf i.natAbs

def scientificText (x : Decimal) : List Char :=
  let mantissa := match x.digits with
    | d :: d' :: ds => d :: '.' :: d' :: ds
    | ds => ds
  mantissa ++ 'e' :: ofInt x.leading

end Decimal

/-- How a binary64 number is written. Undefined numbers never have a sign. -/
structure NumberLayout where
  /-- What stands before a number that is not negative. -/
  plus : List Char := []
  zero : List Char
  zeroKeepsSign : Bool := true
  /-- The text of the positive number `m * 2 ^ q`. -/
  positive : (m : Nat) → (q : Int) → List Char

namespace NumberLayout

open Float.Model Decimal

def signText (l : NumberLayout) : UnpackedFloat.Sign → List Char
  | .negative => ['-']
  | .positive => l.plus

def chars (l : NumberLayout) (x : Float) : List Char :=
  match UnpackedFloat.unpack .binary64 x.toBits.toBitVec with
  | .notANumber => ['N', 'a', 'N']
  | .infinity s => l.signText s ++ ['i', 'n', 'f']
  | .zero s => l.signText (if l.zeroKeepsSign then s else .positive) ++ l.zero
  | .finite s m q _ => l.signText s ++ l.positive m q

def render (l : NumberLayout) (x : Float) : String := String.ofList (l.chars x)

def positional : NumberLayout where
  zero := ['0']
  positive m q := positionalText (shortest m q)

def signed : NumberLayout := { positional with plus := ['+'] }

def scientific : NumberLayout where
  zero := ['0', 'e', '0']
  positive m q := scientificText (shortest m q)

def significant (places : Nat) : NumberLayout where
  zero := '0' :: '.' :: List.replicate (places - 1) '0' ++ ['e', '0']
  positive m q := scientificText (ofQuotient places (m <<< q.toNat) (1 <<< (-q).toNat))

end NumberLayout

end NoisyDNF
