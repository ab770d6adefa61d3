import NoisyDNF.Formula.Basic

namespace NoisyDNF.Formula

/-- Whether the formulas are distinct variables, none of which has been seen. -/
def areDistinct (seen : List Var) : List Formula → Bool
  | [] => true
  | .var v :: fs => !seen.contains v && areDistinct (v :: seen) fs
  | _ :: _ => false

def termArity? : Formula → Option Nat
  | .var _ => some 1
  | .and fs => if 2 ≤ fs.length ∧ areDistinct [] fs then some fs.length else none
  | _ => none

def isTerm (k : Nat) (f : Formula) : Bool := decide (0 < k) && f.termArity? == some k

/-- The arity that a disjunct has if it is a term. -/
def guessedArity : Formula → Nat
  | .and fs => fs.length
  | _ => 1

def dnfArity? : Formula → Option Nat
  | .or [] => none
  | .or (t :: ts) => if (t :: ts).all (isTerm t.guessedArity) then some t.guessedArity else none
  | f => f.termArity?

def terms? (f : Formula) : Option (List Formula) :=
  f.dnfArity?.map fun _ ↦
    match f with
    | .or ts => ts
    | t => [t]

end NoisyDNF.Formula
