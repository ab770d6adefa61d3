import Mathlib.Data.Set.Insert
import NoisyDNF.Proofs.Scenario.Encoding
import NoisyDNF.Proofs.ZeroOne.Enumeration
import NoisyDNF.Scenario.Exhaustive

namespace NoisyDNF.Scenario

open ZeroOne

variable {R : Type} {s : Scenario R} {x : Assignment}

theorem truthOfBits_eq (s : Scenario R) (bits : ℕ) :
    truthOfBits s.columns bits = s.decode (valuesOfBits s.formula.atoms.size bits) := by
  refine VarMap.ext (List.map_congr_left fun c hc ↦ ?_)
  have hlt : c.2 < s.formula.atoms.size := by
    have h := (List.getElem?_eq_some_iff.1 (mem_columns_iff.1 hc)).1
    rwa [VarMap.length_keys] at h
  have hbit : (valuesOfBits s.formula.atoms.size bits).getD c.2 false = bits.testBit c.2 := by
    simp [valuesOfBits, Array.getD_eq_getD_getElem?, hlt]
  exact congrArg (c.1, ·) hbit.symm

theorem exists_truthOfBits_eq (hx : s.IsTruth x) :
    ∃ bits < 2 ^ s.formula.atoms.size, truthOfBits s.columns bits = x := by
  obtain ⟨y, hy, rfl⟩ := exists_decode_eq hx
  obtain ⟨bits, hlt, hbits⟩ := exists_valuesOfBits_eq y
  rw [hy] at hlt hbits
  exact ⟨bits, hlt, by rw [truthOfBits_eq, hbits]⟩

theorem isTruth_truthOfBits (s : Scenario R) (bits : ℕ) : s.IsTruth (truthOfBits s.columns bits) :=
  truthOfBits_eq s bits ▸ isTruth_decode s _

def otherTruths (s : Scenario R) (c : Bool) (count : ℕ) : List Assignment :=
  ((List.range count).map (truthOfBits s.columns)).filter fun x ↦
    decide (s.formula.evaluate x ≠ some c)

variable {c : Bool}

theorem evaluate_ne_iff (hx : s.IsTruth x) :
    s.formula.evaluate x ≠ some c ↔ s.formula.evaluate x = some !c := by
  rcases evaluate_eq_or hx with h | h <;> cases c <;> simp [h]

theorem mem_otherTruths : x ∈ s.otherTruths c (2 ^ s.formula.atoms.size) ↔
    s.IsTruth x ∧ s.formula.evaluate x = some !c := by
  rw [otherTruths, List.mem_filter, List.mem_map, decide_eq_true_eq]
  constructor
  · rintro ⟨⟨bits, -, rfl⟩, hne⟩
    have hx := isTruth_truthOfBits s bits
    exact ⟨hx, (evaluate_ne_iff hx).1 hne⟩
  · rintro ⟨hx, hc⟩
    obtain ⟨bits, hlt, hbits⟩ := exists_truthOfBits_eq hx
    exact ⟨⟨bits, List.mem_range.2 hlt, hbits⟩, (evaluate_ne_iff hx).2 hc⟩

variable [Scalar R] {k : ℕ}

theorem considerTruth_eq (hs : s.Valid k) (hx : s.IsTruth x) (best : R) :
    s.considerTruth (some c) best x = .ok (if s.formula.evaluate x = some c then best
      else Scalar.larger best (s.likelihoodOf x)) := by
  rw [considerTruth, likelihood_eq hs hx]
  split <;> rfl

theorem fold_considerTruth (hs : s.Valid k) (count : ℕ) :
    count.fold (fun bits _ best ↦ do
      s.considerTruth (some c) (← best) (truthOfBits s.columns bits)) (.ok 0) =
        .ok (((s.otherTruths c count).map s.likelihoodOf).foldl Scalar.larger 0) := by
  induction count with
  | zero => rfl
  | succ count ih =>
    rw [Nat.fold_succ, ih]
    refine (considerTruth_eq hs (isTruth_truthOfBits s count) _).trans (congrArg _ ?_)
    simp only [otherTruths, List.range_succ, List.map_append, List.filter_append, List.map_singleton,
      List.filter_singleton]
    by_cases h : s.formula.evaluate (truthOfBits s.columns count) = some c
    · simp [h]
    · simp [h, List.foldl_append]

theorem exhaustiveRisk_eq (hs : s.Valid k) (hc : s.formula.evaluate s.observed = some c) :
    s.exhaustiveRisk = if maxExhaustiveAtoms < s.formula.atoms.size then
        .error (.tooManyAtoms s.formula.atoms.size maxExhaustiveAtoms)
      else .ok (((s.otherTruths c (2 ^ s.formula.atoms.size)).map s.likelihoodOf).foldl
        Scalar.larger 0) := by
  have hcols : s.formula.atoms.numbering.size = s.formula.atoms.size := by
    simp [VarMap.size, VarMap.numbering, VarMap.keys]
  rw [exhaustiveRisk, validate_eq_ok_iff.2 hs, hc, ← fold_considerTruth hs, ← Nat.one_shiftLeft,
    ← hcols]
  rfl

variable [MonotoneScalar R]

theorem exists_exhaustiveRisk_eq (hs : s.Valid k) (hc : s.formula.evaluate s.observed = some c) :
    ∃ m, IsGreatest (insert 0 (s.likelihoodsOf !c)) m ∧
      (s.formula.atoms.size ≤ maxExhaustiveAtoms → s.exhaustiveRisk = .ok m) := by
  refine ⟨_, ?_, fun hsize ↦ (exhaustiveRisk_eq hs hc).trans (if_neg (not_lt.2 hsize))⟩
  have hset : {p | p ∈ 0 :: (s.otherTruths c (2 ^ s.formula.atoms.size)).map s.likelihoodOf} =
      insert 0 (s.likelihoodsOf !c) := by
    ext p
    rw [Set.mem_ofPred_eq, List.mem_cons, List.mem_map, Set.mem_insert_iff, mem_likelihoodsOf hs]
    simp only [mem_otherTruths, and_assoc]
  rw [← hset]
  refine MonotoneScalar.isGreatest_foldl_larger MonotoneScalar.isLikelihood_zero fun p hp ↦ ?_
  obtain ⟨x, -, rfl⟩ := List.mem_map.1 hp
  exact hs.isLikelihood_likelihoodOf x

end NoisyDNF.Scenario
