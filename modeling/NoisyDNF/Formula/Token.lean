import NoisyDNF.Formula.Basic

namespace NoisyDNF.Formula

inductive Token where
  | word (head : Char) (tail : List Char)
  | symbol (c : Char)

def Token.chars : Token → List Char
  | .word c cs => c :: cs
  | .symbol c => [c]

def Token.head : Token → Char
  | .word c _ => c
  | .symbol c => c

structure Lexeme where
  start : Nat
  token : Token

def startsWord (c : Char) : Bool := c.isAlpha || c == '_'

def continuesWord (c : Char) : Bool := c.isAlphanum || c == '_' || c == '.'

def lexemes (start : Nat) : List Char → List Lexeme
  | [] => []
  | c :: cs =>
    if Text.isBlank c then lexemes (start + c.utf8Size) cs
    else if startsWord c then
      let tail := cs.takeWhile continuesWord
      ⟨start, .word c tail⟩ ::
        lexemes (start + c.utf8Size + Text.byteSize tail) (cs.dropWhile continuesWord)
    else ⟨start, .symbol c⟩ :: lexemes (start + c.utf8Size) cs
  termination_by cs => cs.length
  decreasing_by
    · exact Nat.lt_succ_self _
    · exact Nat.lt_succ_of_le (List.dropWhile_sublist _).length_le
    · exact Nat.lt_succ_self _

def ofWord (head : Char) (tail : List Char) : Formula :=
  let name := String.ofList (head :: tail)
  if name = "true" then .const true
  else if name = "false" then .const false
  else .var ⟨name, by simp [name]⟩

end NoisyDNF.Formula
