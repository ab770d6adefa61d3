import NoisyDNF.Proofs.Binary64.Grid
import NoisyDNF.Proofs.ZeroOne.Admissible
import NoisyDNF.Proofs.ZeroOne.Coverage
import Mathlib.Algebra.Group.Submonoid.BigOperators

namespace NoisyDNF.ZeroOne

open Binary64

namespace Model

def exact (m : Model Float) : Model ℚ := ⟨m.names, m.objective.map value, m.constraints⟩

variable {g : Grid} {m : Model Float}

theorem wellFormed_exact (hm : m.WellFormed) : m.exact.WellFormed where
  size_objective := (Array.size_map ..).trans hm.size_objective
  constraints := hm.constraints

theorem gain_exact (m : Model Float) (v : ℕ) : m.exact.gain v = value (m.gain v) := by
  simp only [gain, exact, Array.getD_eq_getD_getElem?, Array.getElem?_map]
  cases m.objective[v]? with
  | none => exact value_zero.symm
  | some x => rfl

variable (hg : g.Carries m.objective.toList)
include hg

theorem denotes_gain (v : ℕ) : Denotes (m.gain v) (m.exact.gain v) := by
  refine ⟨?_, (m.gain_exact v).symm⟩
  rw [gain_eq, List.getD_eq_getElem?_getD]
  cases hv : m.objective.toList[v]? with
  | none => exact isFinite_zero
  | some x => exact hg.isFinite x (List.mem_of_getElem? hv)

theorem gain_mem_points (v : ℕ) : m.exact.gain v ∈ g.points := by
  rw [gain_exact, gain_eq, List.getD_eq_getElem?_getD]
  cases hv : m.objective.toList[v]? with
  | none => exact value_zero ▸ zero_mem _
  | some x => exact hg.mem_points x (List.mem_of_getElem? hv)

theorem sum_abs_gain_le (hm : m.WellFormed) :
    ∑ v ∈ Finset.range m.numVars, |m.exact.gain v| ≤ g.capacity := by
  have hlen : m.objective.toList.length = m.numVars := by simpa using hm.size_objective
  refine le_trans (le_of_eq ?_) hg.le_capacity
  rw [← hlen, ← sum_range_getD (fun x : Float ↦ |value x|) _ 0]
  exact Finset.sum_congr rfl fun v _ ↦ by rw [gain_exact, gain_eq]

/-- Sums in which no variable counts for more than its coefficient stay on the grid. -/
theorem abs_sum_le_capacity (hm : m.WellFormed) {F : ℕ → ℚ} (hF : ∀ v, |F v| ≤ |m.exact.gain v|) :
    |∑ v ∈ Finset.range m.numVars, F v| ≤ g.capacity :=
  calc |∑ v ∈ Finset.range m.numVars, F v| ≤ ∑ v ∈ Finset.range m.numVars, |F v| :=
        Finset.abs_sum_le_sum_abs _ _
    _ ≤ ∑ v ∈ Finset.range m.numVars, |m.exact.gain v| := Finset.sum_le_sum fun v _ ↦ hF v
    _ ≤ g.capacity := sum_abs_gain_le hg hm

theorem denotes_objectiveValue (y : Array Bool) :
    Denotes (m.objectiveValue y) (m.exact.objectiveValue y) := by
  have hsub (xs : List Float) (bs : List Bool) :
      ((xs.zip bs).filterMap fun p ↦ if p.2 then some p.1 else none).Sublist xs := by
    induction xs generalizing bs with
    | nil => exact List.nil_sublist _
    | cons x xs ih =>
      obtain - | ⟨b, bs⟩ := bs
      · exact List.nil_sublist _
      · cases b with
        | false => exact (ih bs).cons x
        | true => exact (ih bs).cons_cons x
  have hmap (xs : List Float) (bs : List Bool) :
      ((xs.zip bs).filterMap fun p ↦ if p.2 then some p.1 else none).map value =
        ((xs.map value).zip bs).filterMap fun p ↦ if p.2 then some p.1 else none := by
    induction xs generalizing bs with
    | nil => rfl
    | cons x xs ih =>
      obtain - | ⟨b, bs⟩ := bs
      · rfl
      · cases b with
        | false => exact ih bs
        | true => exact congrArg (value x :: ·) (ih bs)
  have h := (hg.sublist (hsub m.objective.toList y.toList)).denotes_sum
  rw [hmap, ← Scalar.sum_eq_sum, ← Array.toList_map] at h
  exact h

end Model

namespace Node

variable {g : Grid} {m : Model Float} {n : Node Float}

def exact (n : Node Float) : Node ℚ :=
  ⟨n.values, n.trail, n.activities, value n.fixedObjective, value n.freeGain⟩

theorem tracks_exact (h : n.Tracks m) : n.exact.Tracks m.exact :=
  ⟨h.size_values, h.nodup_trail, h.mem_trail_iff, h.activities⟩

structure SumsExactly (m : Model Float) (n : Node Float) : Prop where
  fixedObjective : Denotes n.fixedObjective
    (∑ v ∈ Finset.range m.numVars, if n.valueOf v = some true then m.exact.gain v else 0)
  freeGain : Denotes n.freeGain
    (∑ v ∈ Finset.range m.numVars, if n.valueOf v = none then max (m.exact.gain v) 0 else 0)

theorem SumsExactly.tracksObjective (h : n.SumsExactly m) : n.exact.TracksObjective m.exact :=
  ⟨h.fixedObjective.value_eq, h.freeGain.value_eq⟩

variable (hg : g.Carries m.objective.toList) (hm : m.WellFormed)
include hg hm

theorem objective_mem_points {n' : Node ℚ} (h : n'.TracksObjective m.exact) :
    n'.fixedObjective ∈ g.points ∧ |n'.fixedObjective| ≤ g.capacity ∧
      n'.freeGain ∈ g.points ∧ |n'.freeGain| ≤ g.capacity := by
  have hmax (v : ℕ) : max (m.exact.gain v) 0 ∈ g.points ∧ |max (m.exact.gain v) 0| ≤ |m.exact.gain v| := by
    rcases le_total 0 (m.exact.gain v) with h | h
    · rw [max_eq_left h]
      exact ⟨Model.gain_mem_points hg v, le_rfl⟩
    · rw [max_eq_right h, abs_zero]
      exact ⟨zero_mem _, abs_nonneg _⟩
  rw [h.fixedObjective, h.freeGain]
  refine ⟨sum_mem fun v _ ↦ ?_, Model.abs_sum_le_capacity hg hm fun v ↦ ?_, sum_mem fun v _ ↦ ?_,
    Model.abs_sum_le_capacity hg hm fun v ↦ ?_⟩ <;> split
  · exact Model.gain_mem_points hg v
  · exact zero_mem _
  · exact le_rfl
  · exact abs_zero.trans_le (abs_nonneg _)
  · exact (hmax v).1
  · exact zero_mem _
  · exact (hmax v).2
  · exact abs_zero.trans_le (abs_nonneg _)

theorem sumsExactly_root : (root m).SumsExactly m := by
  have h := tracksObjective_root (Model.wellFormed_exact hm)
  constructor
  · exact h.fixedObjective ▸ denotes_zero
  · have hroot : (root m.exact).freeGain =
        ((m.objective.toList.filter fun c ↦ decide (0 < c)).map value).sum := by
      have hlist : m.exact.objective.toList = m.objective.toList.map value := Array.toList_map ..
      have hpos : ∀ x ∈ m.objective.toList, decide (0 < value x) = decide (0 < x) := by
        intro x hx
        rw [decide_eq_decide, lt_iff isFinite_zero (hg.isFinite x hx), value_zero]
      change Scalar.sum (m.exact.objective.toList.filter fun c ↦ decide (0 < c)) = _
      rw [Scalar.sum_eq_sum, hlist, List.filter_map]
      exact congrArg (fun xs ↦ (xs.map value).sum) (List.filter_congr hpos)
    have hsum := (hg.sublist (List.filter_sublist (p := fun c ↦ decide (0 < c)))).denotes_sum
    rw [← hroot, h.freeGain] at hsum
    exact hsum

theorem SumsExactly.assign (ht : n.Tracks m) (h : n.SumsExactly m) {v : ℕ} (b : Bool)
    (hv : n.isFree v) : (n.assign m v b).SumsExactly m := by
  have h' := h.tracksObjective.assign (tracks_exact ht) b hv
  obtain ⟨hp, hc, hp', hc'⟩ := objective_mem_points hg hm h'
  have hgain := Model.denotes_gain hg v
  have hfixed : Denotes (n.assign m v b).fixedObjective (n.exact.assign m.exact v b).fixedObjective := by
    cases b with
    | false => exact ⟨h.fixedObjective.isFinite, rfl⟩
    | true => exact Denotes.add ⟨h.fixedObjective.isFinite, rfl⟩ hgain hp hc
  have hfree : Denotes (n.assign m v b).freeGain (n.exact.assign m.exact v b).freeGain := by
    have hiff := denotes_zero.lt_iff hgain
    simp only [Node.assign, hiff] at hp' hc' ⊢
    split
    · next hpos =>
      rw [if_pos hpos] at hp' hc'
      exact Denotes.sub ⟨h.freeGain.isFinite, rfl⟩ hgain hp' hc'
    · exact ⟨h.freeGain.isFinite, rfl⟩
  exact ⟨h'.fixedObjective ▸ hfixed, h'.freeGain ▸ hfree⟩

theorem SumsExactly.undo (ht : n.Tracks m) (h : n.SumsExactly m) : (n.undo m).SumsExactly m := by
  obtain htr | ⟨v, l, htr⟩ : n.trail = [] ∨ ∃ v l, n.trail = v :: l := by
    cases n.trail <;> simp
  · simpa [Node.undo, htr] using h
  obtain ⟨b, hv⟩ := Option.ne_none_iff_exists'.1 ((ht.mem_trail_iff v).1 (by simp [htr]))
  have h' := h.tracksObjective.undo (tracks_exact ht)
  obtain ⟨hp, hc, hp', hc'⟩ := objective_mem_points hg hm h'
  have hgain := Model.denotes_gain hg v
  have htr' : n.exact.trail = v :: l := htr
  have hv' : n.exact.valueOf v = some b := hv
  have hval : (n.exact.undo m.exact).valueOf = (n.undo m).valueOf :=
    (valueOf_undo htr' hv').trans (valueOf_undo htr hv).symm
  have hfixed : Denotes (n.undo m).fixedObjective (n.exact.undo m.exact).fixedObjective := by
    simp only [Node.undo, htr, hv, htr', hv'] at hp hc ⊢
    cases b with
    | false => exact ⟨h.fixedObjective.isFinite, rfl⟩
    | true => exact Denotes.sub ⟨h.fixedObjective.isFinite, rfl⟩ hgain hp hc
  have hfree : Denotes (n.undo m).freeGain (n.exact.undo m.exact).freeGain := by
    have hiff := denotes_zero.lt_iff hgain
    simp only [Node.undo, htr, hv, htr', hv', hiff] at hp' hc' ⊢
    split
    · next hpos =>
      rw [if_pos hpos] at hp' hc'
      exact Denotes.add ⟨h.freeGain.isFinite, rfl⟩ hgain hp' hc'
    · exact ⟨h.freeGain.isFinite, rfl⟩
  rw [h'.fixedObjective, hval] at hfixed
  rw [h'.freeGain, hval] at hfree
  exact ⟨hfixed, hfree⟩

theorem invariant_sumsExactly : Invariant m fun n ↦ n.SumsExactly m where
  assign b ht h hv := h.assign hg hm ht b hv
  undo ht h := h.undo hg hm ht

end Node

end NoisyDNF.ZeroOne
