import NoisyDNF.Decimal.Basic

namespace NoisyDNF.Decimal

def narrowBelow (m : Nat) (q : Int) : Bool := m = 1 <<< 52 && decide (-1074 < q)

/-- The neighbour on the grid `10 ^ e` that rounds to `m * 2 ^ q`: of two the nearer one, and the upper
one in a tie. All is measured in the unit `2 ^ (q - 2)`, made finer until the grid is integral. -/
def neighbour? (m : Nat) (q e : Int) : Option Decimal :=
  let unit := pow10 (-e).toNat <<< (q - 2).toNat
  let step := pow10 e.toNat <<< (2 - q).toNat
  let value := 4 * m * unit
  let low := value - (if narrowBelow m q then 1 else 2) * unit
  let high := value + 2 * unit
  let below := value / step
  let inside (x : Nat) : Bool :=
    if m % 2 = 0 then low ≤ x && x ≤ high else low < x && x < high
  match inside (below * step), inside ((below + 1) * step) with
  | true, true =>
    if value - below * step < (below + 1) * step - value then some ⟨below, e⟩ else some ⟨below + 1, e⟩
  | true, false => some ⟨below, e⟩
  | false, true => some ⟨below + 1, e⟩
  | false, false => none

/-- Seventeen digits tell any two binary64 numbers apart. -/
def maxDigits : Nat := 17

/-- The shortest decimal that rounds to `m * 2 ^ q`. The two neighbours on the grids of decimals with one digit,
two digits and so on are tested, and the first grid with a hit decides. -/
def shortest (m : Nat) (q : Int) : Decimal :=
  let top := leadingOf (m <<< q.toNat) (1 <<< (-q).toNat)
  let hit := (List.range maxDigits).findSome? fun (i : Nat) ↦ neighbour? m q (top - i)
  dropZeros maxDigits (hit.getD ⟨0, 0⟩)

end NoisyDNF.Decimal
