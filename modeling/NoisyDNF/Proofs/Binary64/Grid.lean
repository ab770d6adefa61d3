import NoisyDNF.Proofs.Binary64.Arithmetic
import Mathlib.Algebra.Group.Subgroup.ZPowers.Basic
import Mathlib.Algebra.Order.BigOperators.Group.List

namespace NoisyDNF.Binary64

/-- The multiples of a power of two, which is neither too small to be represented nor too great. -/
structure Grid where
  exponent : ℤ
  le_exponent : -1074 ≤ exponent
  exponent_le : exponent ≤ 969

namespace Grid

def points (g : Grid) : AddSubgroup ℚ := .zmultiples (2 ^ g.exponent)

def capacity (g : Grid) : ℚ := 2 ^ (53 + g.exponent)

variable {g : Grid} {q : ℚ}

theorem representable (hq : q ∈ g.points) (h : |q| ≤ g.capacity) : Representable q := by
  obtain ⟨c, rfl⟩ := AddSubgroup.mem_zmultiples_iff.1 hq
  have hpos : (0 : ℚ) < 2 ^ g.exponent := zpow_pos two_pos _
  rw [zsmul_eq_mul, abs_mul, abs_of_pos hpos, capacity, zpow_add₀ two_ne_zero] at h
  have hc : |(c : ℚ)| ≤ 2 ^ (53 : ℤ) := le_of_mul_le_mul_right h hpos
  exact ⟨c, g.exponent, by exact_mod_cast hc, g.le_exponent, zsmul_eq_mul _ _⟩

theorem capacity_le_greatest (g : Grid) : g.capacity ≤ greatest :=
  le_greatest (by have := g.exponent_le; omega)

end Grid

structure Denotes (x : Float) (q : ℚ) : Prop where
  isFinite : x.isFinite = true
  value_eq : value x = q

variable {g : Grid} {x y : Float} {p q : ℚ}

theorem denotes_zero : Denotes 0 0 := ⟨isFinite_zero, value_zero⟩

theorem Computes.denotes (h : Computes q x) (hq : Representable q) : Denotes x q :=
  ⟨h.isFinite, h.value_eq hq⟩

namespace Denotes

theorem lt_iff (hx : Denotes x p) (hy : Denotes y q) : x < y ↔ p < q := by
  rw [Binary64.lt_iff hx.isFinite hy.isFinite, hx.value_eq, hy.value_eq]

theorem magnitude (hx : Denotes x p) : Denotes (Scalar.magnitude x) |p| :=
  ⟨isFinite_magnitude hx.isFinite, by rw [value_magnitude hx.isFinite, hx.value_eq]⟩

theorem add (hx : Denotes x p) (hy : Denotes y q) (h : p + q ∈ g.points) (hc : |p + q| ≤ g.capacity) :
    Denotes (x + y) (p + q) := by
  obtain ⟨hx, rfl⟩ := hx
  obtain ⟨hy, rfl⟩ := hy
  exact (computes_add hx hy (hc.trans g.capacity_le_greatest)).denotes (g.representable h hc)

theorem sub (hx : Denotes x p) (hy : Denotes y q) (h : p - q ∈ g.points) (hc : |p - q| ≤ g.capacity) :
    Denotes (x - y) (p - q) := by
  obtain ⟨hx, rfl⟩ := hx
  obtain ⟨hy, rfl⟩ := hy
  exact (computes_sub hx hy (hc.trans g.capacity_le_greatest)).denotes (g.representable h hc)

end Denotes

/-- Summands on a grid that cannot leave what it represents. -/
structure Grid.Carries (g : Grid) (xs : List Float) : Prop where
  isFinite : ∀ x ∈ xs, x.isFinite = true
  mem_points : ∀ x ∈ xs, value x ∈ g.points
  le_capacity : (xs.map fun x ↦ |value x|).sum ≤ g.capacity

theorem Grid.Carries.sublist {xs ys : List Float} (h : g.Carries ys) (hs : xs.Sublist ys) :
    g.Carries xs where
  isFinite x hx := h.isFinite x (hs.subset hx)
  mem_points x hx := h.mem_points x (hs.subset hx)
  le_capacity := by
    refine ((hs.map _).sum_le_sum fun a ha ↦ ?_).trans h.le_capacity
    obtain ⟨x, -, rfl⟩ := List.mem_map.1 ha
    exact abs_nonneg _

theorem Grid.Carries.denotes_sum {xs : List Float} (h : g.Carries xs) :
    Denotes (Scalar.sum xs) (xs.map value).sum := by
  have hfold (xs : List Float) (a : Float) (p : ℚ) (ha : Denotes a p) (hp : p ∈ g.points)
      (hfin : ∀ x ∈ xs, x.isFinite = true) (hmem : ∀ x ∈ xs, value x ∈ g.points)
      (hcap : |p| + (xs.map fun x ↦ |value x|).sum ≤ g.capacity) :
      Denotes (xs.foldl (· + ·) a) (p + (xs.map value).sum) := by
    induction xs generalizing a p with
    | nil => simpa using ha
    | cons x xs ih =>
      rw [List.map_cons, List.sum_cons, ← add_assoc] at hcap
      have htri : |p + value x| + (xs.map fun x ↦ |value x|).sum ≤ g.capacity :=
        (add_le_add_left (abs_add_le p (value x)) _).trans hcap
      have hnonneg : 0 ≤ (xs.map fun x ↦ |value x|).sum := by
        apply List.sum_nonneg
        intro b hb
        obtain ⟨y, -, rfl⟩ := List.mem_map.1 hb
        exact abs_nonneg _
      have hpx := add_mem hp (hmem x List.mem_cons_self)
      have hadd := ha.add ⟨hfin x List.mem_cons_self, rfl⟩ hpx (by linarith)
      rw [List.foldl_cons, List.map_cons, List.sum_cons, ← add_assoc]
      exact ih _ _ hadd hpx (fun y hy ↦ hfin y (List.mem_cons_of_mem x hy))
        (fun y hy ↦ hmem y (List.mem_cons_of_mem x hy)) htri
  have hsum := hfold xs 0 0 denotes_zero (zero_mem _) h.isFinite h.mem_points
    (by simpa using h.le_capacity)
  rwa [zero_add] at hsum

end NoisyDNF.Binary64
