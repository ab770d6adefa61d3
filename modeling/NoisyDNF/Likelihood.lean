import NoisyDNF.Error
import NoisyDNF.Noise
import NoisyDNF.Assignment

namespace NoisyDNF

variable {R : Type} [Scalar R]

def observationFactor (truth : Assignment) (noise : Noise R) (e : Var × Bool) :
    Except (Error R) R :=
  match truth.get? e.1, noise.get? e.1 with
  | some value, some p => .ok (if e.2 = value then 1 - p else p)
  | _, _ => .error (.outsideDomain e.1)

/-- The probability to observe `observed` when the variables have the values of `truth`. Variables that
are not observed do not count. -/
def likelihood (observed truth : Assignment) (noise : Noise R) : Except (Error R) R := do
  let factors ← observed.entries.mapM (observationFactor truth noise)
  pure (Scalar.product factors)

end NoisyDNF
