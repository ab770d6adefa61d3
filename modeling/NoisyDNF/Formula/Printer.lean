import NoisyDNF.Formula.Basic

namespace NoisyDNF.Formula

def isChain : Formula → Bool
  | .and (_ :: _ :: _) => true
  | .or (_ :: _ :: _) => true
  | _ => false

def parenthesised (cs : List Char) : List Char := '(' :: cs ++ [')']

def operandText (f : Formula) (text : List Char) : List Char :=
  if f.isChain then parenthesised text else text

def chainText (empty operator : List Char) (fs : List Formula) (texts : List (List Char)) :
    List Char :=
  match texts with
  | [] => empty
  | [text] => parenthesised text
  | texts => operator.intercalate (List.zipWith operandText fs texts)

mutual

def text : Formula → List Char
  | .const b => Assignment.truthText b
  | .var v => v.name.toList
  | .not f => '!' :: operandText f (text f)
  | .and fs => chainText (Assignment.truthText true) [' ', '&', ' '] fs (textEach fs)
  | .or fs => chainText (Assignment.truthText false) [' ', '|', ' '] fs (textEach fs)

def textEach : List Formula → List (List Char)
  | [] => []
  | f :: fs => text f :: textEach fs

end

theorem textEach_eq_map (fs : List Formula) : textEach fs = fs.map text := by
  induction fs with
  | nil => rfl
  | cons f fs ih => rw [textEach, ih, List.map_cons]

def render (f : Formula) : String := String.ofList f.text

end NoisyDNF.Formula
