import NoisyDNF.Formula.Token

namespace NoisyDNF.Formula

/-- What has been read of a level: the disjuncts before the last bar, the conjuncts before the last ampersand, and
the negations that wait for an operand. -/
structure Level where
  disjuncts : List Formula := []
  conjuncts : List Formula := []
  negations : Nat := 0

def negated (f : Formula) : Nat → Formula
  | 0 => f
  | n + 1 => .not (negated f n)

namespace Level

def addOperand (l : Level) (f : Formula) : Level :=
  { l with conjuncts := l.conjuncts ++ [negated f l.negations], negations := 0 }

def conjunction (l : Level) : Formula := joined .and l.conjuncts

def endConjunction (l : Level) : Level :=
  { disjuncts := l.disjuncts ++ [l.conjunction] }

def formula (l : Level) : Formula := joined .or l.endConjunction.disjuncts

end Level

structure Reader where
  level : Level := {}
  outer : List Level := []
  /-- Whether an operand has just been read, so that an operator or the end may follow. -/
  afterOperand : Bool := false

namespace Reader

def addOperand (r : Reader) (f : Formula) : Reader :=
  { r with level := r.level.addOperand f, afterOperand := true }

def takeOperand? (r : Reader) : Token → Option Reader
  | .word c cs => some (r.addOperand (ofWord c cs))
  | .symbol c =>
    if c == '!' || c == '~' then
      some { r with level := { r.level with negations := r.level.negations + 1 } }
    else if c == '(' then some { outer := r.level :: r.outer }
    else none

def takeOperator? (r : Reader) : Token → Option Reader
  | .word _ _ => none
  | .symbol c =>
    if c == '&' then some { r with afterOperand := false }
    else if c == '|' then some { r with level := r.level.endConjunction, afterOperand := false }
    else if c == ')' then
      match r.outer with
      | [] => none
      | l :: outer => some ({ level := l, outer := outer : Reader }.addOperand r.level.formula)
    else none

def take? (r : Reader) (t : Token) : Option Reader :=
  if r.afterOperand then r.takeOperator? t else r.takeOperand? t

def formula? (r : Reader) : Option Formula :=
  if r.afterOperand && r.outer.isEmpty then some r.level.formula else none

def problem (r : Reader) (t : Option Token) : Text.Problem :=
  if r.afterOperand && !r.outer.isEmpty then .unclosedParenthesis
  else match t with
    | none => .unexpectedEnd
    | some t => .unexpectedCharacter t.head

/-- Reads on to the end of a text, which is at the given byte. -/
def run (stop : Nat) (r : Reader) : List Lexeme → Except Text.ParseError Formula
  | [] => match r.formula? with
    | some f => .ok f
    | none => .error ⟨stop, r.problem none⟩
  | l :: ls => match r.take? l.token with
    | some r => run stop r ls
    | none => .error ⟨l.start, r.problem (some l.token)⟩

end Reader

def ofText (text : List Char) : Except Text.ParseError Formula :=
  Reader.run (Text.byteSize text) {} (lexemes 0 text)

end NoisyDNF.Formula
