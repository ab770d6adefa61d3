namespace NoisyDNF

/-- The number `coefficient * 10 ^ exponent`. -/
structure Decimal where
  coefficient : Nat
  exponent : Int

namespace Decimal

def pow10 (n : Nat) : Nat := Nat.pow 10 n

def digitsOf (n : Nat) : List Char := Nat.toDigits 10 n

def digits (x : Decimal) : List Char := digitsOf x.coefficient

def leading (x : Decimal) : Int := x.exponent + x.digits.length - 1

/-- The same number without the zeros that end its coefficient, looking at `fuel` of them. -/
def dropZeros : (fuel : Nat) → Decimal → Decimal
  | 0, x => x
  | fuel + 1, x =>
    if x.coefficient ≠ 0 ∧ x.coefficient % 10 = 0 then
      dropZeros fuel ⟨x.coefficient / 10, x.exponent + 1⟩
    else x

def divNearest (num den : Nat) : Nat :=
  let q := num / den
  let r := num % den
  if den < 2 * r ∨ (2 * r = den ∧ q % 2 = 1) then q + 1 else q

def leadingOf (num den : Nat) : Int :=
  let e : Int := (digitsOf num).length - (digitsOf den).length
  if den * pow10 e.toNat ≤ num * pow10 (-e).toNat then e else e - 1

/-- The quotient `num / den` to `places` significant digits, a tie going to the even digit. -/
def ofQuotient (places num den : Nat) : Decimal :=
  let e := leadingOf num den - (places - 1 : Nat)
  let c := divNearest (num * pow10 (-e).toNat) (den * pow10 e.toNat)
  if c = pow10 places then ⟨pow10 (places - 1), e + 1⟩ else ⟨c, e⟩

end Decimal

end NoisyDNF
