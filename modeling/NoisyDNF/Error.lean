import NoisyDNF.Decimal.Layout
import NoisyDNF.Var
import NoisyDNF.ZeroOne.Solution

namespace NoisyDNF

inductive Error (R : Type) where
  | notDnf
  | zeroArity
  | missingNoise (v : Var)
  | strayNoise (v : Var)
  | noiseOutOfRange (v : Var) (p : R)
  | noiseless
  | undetermined
  | undeterminedByTruth
  | strayObservation (v : Var)
  | partialObservation (expected actual : Nat)
  | outsideDomain (v : Var)
  | notOptimal (status : ZeroOne.Status)
  | tooManyAtoms (atoms limit : Nat)

inductive ErrorKind where
  | format
  | probability
  | assignment
  | domain
  | solver
  | size
  deriving DecidableEq

namespace Error

def kind {R : Type} : Error R → ErrorKind
  | .notDnf | .zeroArity => .format
  | .missingNoise _ | .strayNoise _ | .noiseOutOfRange _ _ | .noiseless => .probability
  | .undetermined | .undeterminedByTruth | .strayObservation _ | .partialObservation _ _ => .assignment
  | .outsideDomain _ => .domain
  | .notOptimal _ => .solver
  | .tooManyAtoms _ _ => .size

def quoted (v : Var) : String := "`" ++ v.name ++ "`"

def notInFormula (v : Var) : String := quoted v ++ " does not occur in the formula"

def formatMessage (detail : String) : String := "formula is not in k-DNF form: " ++ detail

def probabilityMessage (detail : String) : String := "bad probabilities: " ++ detail

def assignmentMessage (detail : String) : String := "bad assignment: " ++ detail

def message : Error Float → String
  | .notDnf => formatMessage "the formula must be in k-DNF form"
  | .zeroArity => formatMessage "term arity must be positive"
  | .missingNoise v => probabilityMessage ("missing probability for " ++ quoted v)
  | .strayNoise v => probabilityMessage (notInFormula v)
  | .noiseOutOfRange v p => probabilityMessage
      ("probability of " ++ quoted v ++ " is " ++ NumberLayout.positional.render p
        ++ ", expected a value in [0, 0.5)")
  | .noiseless => probabilityMessage "all probabilities are zero"
  | .undetermined => assignmentMessage "the assignment does not determine the formula's value"
  | .undeterminedByTruth => assignmentMessage "a total assignment left the formula undetermined"
  | .strayObservation v => assignmentMessage (notInFormula v)
  | .partialObservation expected actual => assignmentMessage
      ("expected a total assignment over " ++ toString expected ++ " variables, got "
        ++ toString actual)
  | .outsideDomain v => "variable " ++ quoted v ++ " is outside the expected domain"
  | .notOptimal status =>
      "integer program was not solved to optimality (status: " ++ status.word ++ ")"
  | .tooManyAtoms atoms limit =>
      "too many atoms for exhaustive enumeration: " ++ toString atoms
        ++ " (limit is " ++ toString limit ++ ")"

end Error

inductive Misuse where
  | emptyName
  | unknownVariable (index : Nat)
  | indexOutOfBounds

def Misuse.message : Misuse → String
  | .emptyName => "Variable names must be non-empty"
  | .unknownVariable index => "Unknown variable v" ++ toString index
  | .indexOutOfBounds => "index out of bounds"

end NoisyDNF
