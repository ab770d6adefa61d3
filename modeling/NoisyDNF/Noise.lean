import NoisyDNF.Decimal.Layout
import NoisyDNF.Scalar
import NoisyDNF.Text.Pairs

namespace NoisyDNF

abbrev Noise (R : Type) := VarMap R

namespace Noise

variable {R : Type} [Scalar R]

def isNoiseless (n : Noise R) : Bool := n.values.all Scalar.isZero

def silence (n : Noise R) (v : Var) : Noise R := n.insert v 0

def same (m n : Noise R) : Bool :=
  m.keys == n.keys &&
    (m.values.zip n.values).all fun p ↦ decide (p.1 ≤ p.2) && decide (p.2 ≤ p.1)

def probability (text : List Char) : Except Text.Problem Float :=
  match Decimal.Literal.ofText text with
  | .error cause => .error (.badProbability text cause)
  | .ok l => .ok l.toFloat

def ofText (text : List Char) : Except Text.ParseError (Noise Float) :=
  Text.Pairs.ofText probability text

def render (n : Noise Float) : String :=
  String.ofList (Text.Pairs.bracedText NumberLayout.positional.chars n)

end Noise

end NoisyDNF
