import NoisyDNF.Proofs.ZeroOne.BoundConsistency

namespace NoisyDNF.ZeroOne

variable {σ τ ρ : ℕ → Option Bool}

namespace Constraint

variable {c : Constraint} {k : ℕ}

end Constraint

/-- The least extension of `σ` that makes every constraint bound consistent. -/
structure Model.IsLeastConsistent {R : Type} (m : Model R) (σ τ : ℕ → Option Bool) : Prop where
  isExtension : Extends τ σ
  isBoundConsistent : ∀ c ∈ m.constraints, c.IsBoundConsistent τ
  least : ∀ ρ, Extends ρ σ → (∀ c ∈ m.constraints, c.IsBoundConsistent ρ) → Extends ρ τ

theorem Model.IsLeastConsistent.unique {R : Type} {m : Model R} (hτ : m.IsLeastConsistent σ τ)
    (hρ : m.IsLeastConsistent σ ρ) : τ = ρ :=
  (hρ.least τ hτ.isExtension hτ.isBoundConsistent).antisymm (hτ.least ρ hρ.isExtension hρ.isBoundConsistent)

namespace Node

variable {R : Type} [Scalar R] {m : Model R} {n n' : Node R}

end Node

end NoisyDNF.ZeroOne
