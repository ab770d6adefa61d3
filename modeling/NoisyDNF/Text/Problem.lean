import NoisyDNF.Decimal.Literal

namespace NoisyDNF.Text

inductive Problem where
  | emptyName
  | unexpectedEnd
  | unexpectedCharacter (c : Char)
  | unclosedParenthesis
  | noEqualsSign (pair : List Char)
  | noName
  | badTruthValue (text : List Char)
  | badProbability (text : List Char) (cause : Decimal.LiteralError)
  | repeatedName (name : String)

def quoted (cs : List Char) : String := "`" ++ String.ofList cs ++ "`"

def Problem.message : Problem → String
  | .emptyName => "variable name must be non-empty"
  | .unexpectedEnd => "unexpected end of input"
  | .unexpectedCharacter c => "unexpected character " ++ quoted [c]
  | .unclosedParenthesis => "expected `)`"
  | .noEqualsSign pair => "expected `name=value`, got " ++ quoted pair
  | .noName => "missing variable name"
  | .badTruthValue text => "invalid truth value " ++ quoted text
  | .badProbability text cause => "invalid probability " ++ quoted text ++ ": " ++ cause.message
  | .repeatedName name => "duplicate variable " ++ quoted name.toList

structure ParseError where
  offset : Nat
  problem : Problem

def ParseError.message (e : ParseError) : String :=
  "parse error at offset " ++ toString e.offset ++ ": " ++ e.problem.message

end NoisyDNF.Text
