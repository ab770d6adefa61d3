import NoisyDNF.Scenario.Basic

namespace NoisyDNF

open ZeroOne

structure Encoding (R : Type) where
  model : Model R
  columns : VarMap Nat
  offset : R

def logLikelihoodRatio {R : Type} [LogScalar R] (p : R) : R := LogScalar.ln (1 - p) - LogScalar.ln p

namespace Encoding

variable {R : Type} [LogScalar R]

def logLikelihood (e : Encoding R) (objective : R) : R := objective + e.offset

def probability (e : Encoding R) (objective : R) : R :=
  Scalar.clampUnit (LogScalar.exp (e.logLikelihood objective))

def decode? (e : Encoding R) (values : Array Bool) : Option Assignment :=
  if e.columns.values.all fun i ↦ decide (i < values.size) then
    some (e.columns.map fun _ i ↦ values.getD i false)
  else none

structure Reading (R : Type) where
  column : Nat
  noise : R
  value : Option Bool

namespace Reading

def isCertain (r : Reading R) : Bool := Scalar.isZero r.noise

def pin (r : Reading R) : Constraint :=
  ⟨[(r.column, 1)], .equal, if r.value = some true then 1 else 0⟩

def gain (r : Reading R) : R :=
  if r.isCertain then 0
  else match r.value with
    | some true => logLikelihoodRatio r.noise
    | some false => -logLikelihoodRatio r.noise
    | none => 0

/-- The part of the logarithm of the likelihood that does not hang on the variable. -/
def offset? (r : Reading R) : Option R :=
  if r.isCertain then none
  else r.value.map fun value ↦
    if value then LogScalar.ln r.noise else LogScalar.ln (1 - r.noise)

end Reading

end Encoding

namespace Scenario

variable {R : Type} [LogScalar R]

def termConstraint (columns : VarMap Nat) (k : Nat) (term : Formula) : Constraint :=
  ⟨term.atoms.keys.map fun v ↦ ((columns.get? v).getD 0, 1), .atMost, (k : Int) - 1⟩

def reading (s : Scenario R) (c : Var × Nat) : Except (Error R) (Encoding.Reading R) :=
  match s.noise.get? c.1 with
  | some p => .ok ⟨c.2, p, s.observed.get? c.1⟩
  | none => .error (.outsideDomain c.1)

/-- The likeliest truth that falsifies the formula, as a 0/1 program. Each term has to leave one of its variables
false, and an atom without noise is pinned to its observed value, or to false when it is not observed. The objective
rewards agreement with the observation, so that with the offset it is the logarithm of the likelihood. -/
def encode (s : Scenario R) (k : Nat) : Except (Error R) (Encoding R) := do
  if k = 0 then .error .zeroArity
  match s.formula.terms? with
  | none => .error .notDnf
  | some terms =>
    let columns := s.formula.atoms.numbering
    let readings ← columns.entries.mapM s.reading
    let model : Model R :=
      { names := (columns.keys.map Var.name).toArray
        objective := (readings.map Encoding.Reading.gain).toArray
        constraints := terms.map (termConstraint columns k) ++
          (readings.filter Encoding.Reading.isCertain).map Encoding.Reading.pin }
    pure ⟨model, columns, Scalar.sum (readings.filterMap Encoding.Reading.offset?)⟩

end Scenario

end NoisyDNF
