import Mathlib.Data.List.Chain
import NoisyDNF.Proofs.ZeroOne.Coverage

namespace NoisyDNF.ZeroOne

theorem Status.ofSearch_eq_optimal_iff {cutShort found : Bool} :
    Status.ofSearch cutShort found = .optimal ↔ cutShort = false ∧ found = true := by
  cases cutShort <;> cases found <;> simp [ofSearch]

namespace Search

variable {R : Type}

def leafValues (s : Search R) : Array Bool := s.node.values.map (·.getD false)

theorem completes_leafValues (s : Search R) : Completes s.node.valueOf (truth s.leafValues) :=
  s.node.completes_map_getD

variable [Scalar R] {m : Model R} {deadline : Deadline}

theorem Entered.isFeasible_leafValues {J : Node R → Prop} {c : Search R} (hm : m.WellFormed)
    (hc : Entered m J c) (hl : c.IsLeaf m) : m.isFeasible c.leafValues = true :=
  hc.settled.isFeasible hm hc.tracks hl.not_isFree

/-- Each incumbent was recorded at a leaf, when the ones below it in the list were there. -/
theorem exists_leaf (hm : m.WellFormed) {J : Node R → Prop} (hJ : Node.Invariant m J)
    (hroot : J (.root m)) {i : Incumbent R} {l : List (Incumbent R)}
    (h : i :: l <:+ (run m deadline).incumbents) :
    ∃ c, Entered m J c ∧ c.IsLeaf m ∧ c.incumbents = l ∧
      i = ⟨m.objectiveValue c.leafValues, c.leafValues⟩ := by
  have ho := outcome_run deadline hm hJ hroot
  rcases ho.recorded i l h with h | ⟨c, hc, hl, he⟩
  · exact absurd h.length_le (by simp)
  · obtain ⟨hi, hl'⟩ := List.cons.inj he
    exact ⟨c, (ho.entered c hc).1, hl, hl', hi.symm⟩

theorem mem_incumbents (hm : m.WellFormed) {i : Incumbent R}
    (hi : i ∈ (run m deadline).incumbents) :
    m.isFeasible i.values = true ∧ i.objective = m.objectiveValue i.values := by
  obtain ⟨k, l, he⟩ := List.append_of_mem hi
  have hs : i :: l <:+ (run m deadline).incumbents := ⟨k, he.symm⟩
  obtain ⟨c, hc, hl, -, rfl⟩ := exists_leaf hm (.trivial m) ⟨⟩ hs
  exact ⟨hc.isFeasible_leafValues hm hl, rfl⟩

theorem timedOut_never (hm : m.WellFormed) : (run m .never).timedOut = false := by
  rw [Bool.eq_false_iff]
  intro h
  rcases (outcome_run .never hm (.trivial m) ⟨⟩).timedOut h with h | ⟨k, hk⟩
  · cases h
  · cases hk

/-- Nothing is pruned before there is an incumbent, so a complete search misses nothing. -/
theorem incumbents_ne_nil (hm : m.WellFormed) (ht : (run m deadline).timedOut = false)
    {y : Array Bool} (hy : m.isFeasible y = true) : (run m deadline).incumbents ≠ [] := by
  have ho := outcome_run deadline hm (.trivial m) ⟨⟩
  intro hnil
  rcases ho.accounts y hy ⟨⟩ with h | ⟨i, hi, -⟩ | ⟨c, hc, hp, -⟩
  · exact absurd (ht.symm.trans h) Bool.false_ne_true
  · rw [hnil] at hi
    cases hi
  · have hci : c.incumbents = [] := List.suffix_nil.1 (hnil ▸ (ho.entered c hc).2)
    simp [isPruned, best?, hci] at hp

theorem isSome_best?_iff (hm : m.WellFormed) (ht : (run m deadline).timedOut = false) :
    (run m deadline).best?.isSome = true ↔ ∃ y, m.isFeasible y = true := by
  constructor
  · intro h
    obtain ⟨i, hi⟩ := Option.isSome_iff_exists.1 h
    exact ⟨i.values, (mem_incumbents hm (List.mem_of_head? hi)).1⟩
  · rintro ⟨y, hy⟩
    obtain ⟨i, l, hl⟩ := List.exists_cons_of_ne_nil (incumbents_ne_nil hm ht hy)
    rw [best?, hl, List.head?_cons, Option.isSome_some]

/-- When every element is at least as good as the next one, the first is the best. -/
theorem le_head_of_suffix {α β : Type} [Preorder β] {f : α → β} {a : α} {as : List α}
    (h : ∀ b c l, b :: c :: l <:+ a :: as → f c ≤ f b) {b : α} (hb : b ∈ a :: as) : f b ≤ f a := by
  have hchain : ((a :: as).map f).IsChain (· ≥ ·) := by
    rw [List.isChain_map, List.isChain_iff_forall_rel_of_append_cons_cons]
    intro b c l l' he
    exact h b c l' ⟨l, he.symm⟩
  exact hchain.pairwise.rel_head (List.mem_map_of_mem hb)

end Search

variable {R : Type} [Scalar R] {m : Model R} {deadline : Deadline}

/-- An answer that is called optimal is feasible and comes with its own objective. -/
theorem isFeasible_values_of_optimal (hm : m.WellFormed)
    (h : (branchAndBound deadline m).status = .optimal) :
    m.isFeasible (branchAndBound deadline m).values = true ∧
      (branchAndBound deadline m).objective =
        some (m.objectiveValue (branchAndBound deadline m).values) := by
  obtain ⟨i, hi⟩ := Option.isSome_iff_exists.1 (Status.ofSearch_eq_optimal_iff.1 h).2
  obtain ⟨hfeas, hobj⟩ := Search.mem_incumbents hm (List.mem_of_head? hi)
  simp only [branchAndBound, Solution.ofSearch, hi, Option.map_some, Option.getD_some]
  exact ⟨hfeas, congrArg some hobj⟩

/-- A feasible model is solved when time does not run out, and the answer is one of its assignments. -/
theorem exists_branchAndBound_eq (hm : m.WellFormed) {y : Array Bool} (hy : m.isFeasible y = true) :
    ∃ z, (branchAndBound .never m).status = .optimal ∧
      (branchAndBound .never m).objective = some (m.objectiveValue z) ∧ m.isFeasible z = true := by
  have ht := Search.timedOut_never hm
  have hstatus : (branchAndBound .never m).status = .optimal :=
    Status.ofSearch_eq_optimal_iff.2 ⟨ht, (Search.isSome_best?_iff hm ht).2 ⟨y, hy⟩⟩
  obtain ⟨hfeas, hobj⟩ := isFeasible_values_of_optimal hm hstatus
  exact ⟨_, hstatus, hobj, hfeas⟩

end NoisyDNF.ZeroOne
