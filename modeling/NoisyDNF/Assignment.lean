import NoisyDNF.VarMap
import NoisyDNF.Text.Pairs

namespace NoisyDNF

abbrev Assignment := VarMap Bool

namespace Assignment

def agrees (a b : Assignment) : Bool :=
  a.entries.all fun e ↦ (b.get? e.1).all (· == e.2)

def union? (a b : Assignment) : Option Assignment :=
  if a.agrees b then some (b.entries.foldl (fun c e ↦ c.insert e.1 e.2) a) else none

def force (a : Assignment) (vs : List Var) : Assignment :=
  vs.foldl (fun b v ↦ b.insert v true) a

def truthValue? (text : List Char) : Option Bool :=
  match String.ofList (text.map Char.toLower) with
  | "true" | "t" | "1" => some true
  | "false" | "f" | "0" => some false
  | _ => none

def truthText (b : Bool) : List Char := (if b then "true" else "false").toList

def ofText (text : List Char) : Except Text.ParseError Assignment :=
  Text.Pairs.ofText (fun cs ↦ (truthValue? cs).elim (.error (.badTruthValue cs)) .ok) text

def render (a : Assignment) : String :=
  String.ofList (Text.Pairs.bracedText truthText a)

end Assignment

end NoisyDNF
