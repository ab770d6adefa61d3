import Mathlib.Analysis.SpecialFunctions.Log.Basic
import NoisyDNF.Proofs.ExactArithmetic

namespace NoisyDNF

noncomputable instance : LogScalar ℝ where
  toScalar := exactScalar
  ln := Real.log
  exp := Real.exp

end NoisyDNF
