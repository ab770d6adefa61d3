import NoisyDNF.Text.Blank
import NoisyDNF.Text.Problem

namespace NoisyDNF

structure Var where
  name : String
  name_ne_empty : name ≠ ""

namespace Var

theorem ext {v w : Var} (h : v.name = w.name) : v = w := by
  cases v; cases w; cases h; rfl

theorem ext_iff {v w : Var} : v = w ↔ v.name = w.name :=
  ⟨congrArg name, ext⟩

instance : DecidableEq Var := fun v w ↦
  decidable_of_iff (v.name = w.name) ext_iff.symm

instance : LT Var := ⟨fun v w ↦ v.name < w.name⟩

instance (v w : Var) : Decidable (v < w) := String.decidableLT v.name w.name

theorem lt_irrefl (v : Var) : ¬ v < v := String.lt_irrefl v.name

theorem lt_trans {u v w : Var} (h : u < v) (h' : v < w) : u < w := String.lt_trans h h'

theorem lt_trichotomy (v w : Var) : v < w ∨ v = w ∨ w < v := by
  by_cases h : v.name < w.name
  · exact .inl h
  by_cases h' : w.name < v.name
  · exact .inr (.inr h')
  exact .inr (.inl (ext (String.le_antisymm (String.not_lt.1 h') (String.not_lt.1 h))))

def ofName? (name : String) : Option Var :=
  if h : name ≠ "" then some ⟨name, h⟩ else none

def ofText? (text : List Char) : Option Var :=
  ofName? (String.ofList (Text.trim text))

def ofText (text : List Char) : Except Text.ParseError Var :=
  (ofText? text).elim (.error ⟨0, .emptyName⟩) .ok

end Var

end NoisyDNF
