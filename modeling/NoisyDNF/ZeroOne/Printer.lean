import NoisyDNF.Decimal.Layout
import NoisyDNF.ZeroOne.Model

namespace NoisyDNF.ZeroOne

def signedInt (i : Int) : String := if 0 ≤ i then "+" ++ toString i else toString i

namespace Model

def nameOf (m : Model Float) (v : Nat) : String := m.names.getD v ""

def constraintLine (m : Model Float) (c : Constraint) : String :=
  let terms := c.terms.map fun t ↦ " " ++ signedInt t.2 ++ " " ++ m.nameOf t.1
  " " ++ String.join terms ++ " " ++ c.comparison.symbol ++ " " ++ toString c.rhs ++ "\n"

def objectiveLine (m : Model Float) : String :=
  let terms := m.objective.toList.zipIdx.map fun t ↦
    if Scalar.isZero t.1 then ""
    else " " ++ NumberLayout.signed.render t.1 ++ " " ++ m.nameOf t.2
  "maximize" ++ String.join terms ++ "\n"

def render (m : Model Float) : String :=
  m.objectiveLine ++ "subject to\n" ++ String.join (m.constraints.map m.constraintLine)

end Model

end NoisyDNF.ZeroOne
