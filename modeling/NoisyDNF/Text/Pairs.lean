import NoisyDNF.VarMap

namespace NoisyDNF.Text.Pairs

structure Chunk where
  start : Nat
  text : List Char

/-- Finds the places of pieces that stand one after the other with one byte between them. -/
def place (start : Nat) : List (List Char) → List Chunk
  | [] => []
  | cs :: rest => ⟨start, cs⟩ :: place (start + byteSize cs + 1) rest

def chunks (text : List Char) : List Chunk :=
  (place 0 (text.splitOn ',')).filter fun c ↦ !c.text.all isBlank

structure Pair where
  start : Nat
  key : Var
  value : List Char

def Pair.ofChunk (c : Chunk) : Except ParseError Pair :=
  match c.text.dropWhile (· != '=') with
  | [] => .error ⟨c.start, .noEqualsSign (trim c.text)⟩
  | _ :: value =>
    match Var.ofText? (c.text.takeWhile (· != '=')) with
    | none => .error ⟨c.start, .noName⟩
    | some key => .ok ⟨c.start, key, trim value⟩

variable {α : Type}

def add (read : List Char → Except Problem α) (m : VarMap α) (p : Pair) :
    Except ParseError (VarMap α) :=
  match read p.value with
  | .error problem => .error ⟨p.start, problem⟩
  | .ok x =>
    if m.contains p.key then .error ⟨p.start, .repeatedName p.key.name⟩ else .ok (m.insert p.key x)

def ofText (read : List Char → Except Problem α) (text : List Char) :
    Except ParseError (VarMap α) := do
  let pairs ← (chunks text).mapM Pair.ofChunk
  pairs.foldlM (add read) VarMap.empty

def pairText (write : α → List Char) (e : Var × α) : List Char :=
  e.1.name.toList ++ '=' :: write e.2

def plainText (write : α → List Char) (m : VarMap α) : List Char :=
  [',', ' '].intercalate (m.entries.map (pairText write))

def bracedText (write : α → List Char) (m : VarMap α) : List Char :=
  '\x7b' :: plainText write m ++ ['\x7d']

end NoisyDNF.Text.Pairs
