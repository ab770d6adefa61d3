import NoisyDNF.Proofs.ZeroOne.Optimality
import NoisyDNF.ZeroOne.Marks

namespace NoisyDNF.ZeroOne

variable {R : Type} {m : Model R}

/-- No variable bears the number of a bound that is still to come. -/
structure Marks.Valid (m : Model R) (k : Marks) : Prop where
  size_charged : k.charged.size = m.numVars
  charged_le : ∀ v, k.charged.getD v 0 ≤ k.epoch

namespace Marks

variable {k : Marks}

theorem valid_start (m : Model R) : (start m).Valid m :=
  ⟨Array.size_replicate, fun v ↦ (Node.getD_replicate_self m.numVars v 0).le⟩

theorem Valid.nextEpoch (h : k.Valid m) : k.nextEpoch.Valid m :=
  ⟨h.size_charged, fun v ↦ Nat.le_succ_of_le (h.charged_le v)⟩

theorem Valid.charge (h : k.Valid m) (ts : List (ℕ × ℤ)) : (k.charge ts).Valid m := by
  refine ⟨(size_foldl_setIfInBounds ..).trans h.size_charged, fun v ↦ ?_⟩
  change (ts.foldl (fun ch t ↦ ch.setIfInBounds t.1 k.epoch) k.charged).getD v 0 ≤ k.epoch
  rw [getD_foldl_setIfInBounds]
  split
  · exact Nat.le_refl _
  · exact h.charged_le v

end Marks

namespace Marks

variable [Scalar R] {n : Node R}

theorem Valid.addLosses (ps : List (Constraint × Activity)) (loss : R) {k : Marks} (h : k.Valid m) :
    (k.addLosses m n ps loss).2.Valid m := by
  fun_induction Marks.addLosses m n ps loss k with
  | case1 loss k => exact h
  | case2 c a ps loss k _ ih => exact ih h
  | case3 c a ps loss k d _ _ => exact h
  | case4 c a ps loss k d _ cost _ _ ih => exact ih h
  | case5 c a ps loss k d _ cost _ _ ih => exact ih (h.charge (c.freeTerms n))

end Marks

namespace MarkedNode

variable [Scalar R] {s : MarkedNode R}

/-- What a search can come to by assigning free variables, taking back the latest assignments and computing
bounds. -/
inductive Reachable (m : Model R) : MarkedNode R → Prop
  | root : Reachable m ⟨.root m, .start m⟩
  | assign {s : MarkedNode R} {v : ℕ} (b : Bool) : Reachable m s → s.node.isFree v →
      Reachable m { s with node := s.node.assign m v b }
  | undo {s : MarkedNode R} : Reachable m s → Reachable m { s with node := s.node.undo m }
  | bound {s : MarkedNode R} : Reachable m s → Reachable m (s.bound m).2

theorem Reachable.node (h : s.Reachable m) : s.node.Reachable m := by
  induction h with
  | root => exact .root
  | assign b _ hv ih => exact ih.assign b hv
  | undo _ ih => exact ih.undo
  | bound _ ih => exact ih

theorem Reachable.valid_marks (h : s.Reachable m) : s.marks.Valid m := by
  induction h with
  | root => exact Marks.valid_start m
  | assign _ _ _ ih => exact ih
  | undo _ ih => exact ih
  | bound _ ih => exact ih.nextEpoch.addLosses _ _

end MarkedNode

def Model.twoPairs : Model ℚ :=
  { names := #["x0", "x1", "x2", "x3"], objective := #[3, 1, 2, 1 / 2],
    constraints := [⟨[(0, 1), (1, 1)], .atMost, 1⟩, ⟨[(2, 1), (3, 1)], .atMost, 1⟩] }

end NoisyDNF.ZeroOne
