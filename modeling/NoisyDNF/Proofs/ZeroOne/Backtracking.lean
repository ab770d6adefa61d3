import NoisyDNF.Proofs.ZeroOne.Optimality

namespace NoisyDNF.ZeroOne

namespace Constraint

variable {c : Constraint} {σ : ℕ → Option Bool} {a : Activity}

structure SumsUp (c : Constraint) (σ : ℕ → Option Bool) (a : Activity) : Prop where
  fixed : a.fixed = ((c.terms.filter fun t ↦ σ t.1 = some true).map Prod.snd).sum
  positive : a.positive = ((c.terms.filter fun t ↦ σ t.1 = none ∧ 0 < t.2).map Prod.snd).sum
  negative : a.negative = ((c.terms.filter fun t ↦ σ t.1 = none ∧ t.2 < 0).map Prod.snd).sum

theorem sumsUp_activityUnder (c : Constraint) (σ : ℕ → Option Bool) : c.SumsUp σ (c.activityUnder σ) := by
  have hsum (π : Activity →+ ℤ) (p : ℕ × ℤ → Prop) [DecidablePred p]
      (h : ∀ t, π (Activity.share t.2 (σ t.1)) = if p t then t.2 else 0) :
      π (c.activityUnder σ) = ((c.terms.filter fun t ↦ p t).map Prod.snd).sum := by
    rw [c.map_activityUnder π, sum_map_filter]
    simp only [h, decide_eq_true_eq]
  constructor
  · refine hsum Activity.fixedHom _ fun t ↦ ?_
    cases σ t.1 with
    | none => rfl
    | some b => cases b <;> rfl
  · refine hsum Activity.positiveHom _ fun t ↦ ?_
    cases σ t.1 with
    | none =>
      change max t.2 0 = _
      simp only [true_and]
      split <;> omega
    | some b => cases b <;> rfl
  · refine hsum Activity.negativeHom _ fun t ↦ ?_
    cases σ t.1 with
    | none =>
      change min t.2 0 = _
      simp only [true_and]
      split <;> omega
    | some b => cases b <;> rfl

end Constraint

variable {R : Type}

namespace Node

variable {m : Model R} {n n' : Node R}

/-- The trail lists the variables that have a value, each once, and every activity sums up its constraint. -/
structure SumsUp (m : Model R) (n : Node R) : Prop where
  nodup_trail : n.trail.Nodup
  mem_trail_iff : ∀ v, v ∈ n.trail ↔ v < m.numVars ∧ n.valueOf v ≠ none
  activities : List.Forall₂ (fun c a ↦ c.SumsUp n.valueOf a) m.constraints n.activities

theorem Tracks.sumsUp (h : n.Tracks m) : n.SumsUp m := by
  refine ⟨h.nodup_trail, fun v ↦ ?_, ?_⟩
  · rw [h.mem_trail_iff]
    refine ⟨fun hv ↦ ⟨?_, hv⟩, And.right⟩
    obtain ⟨b, hb⟩ := Option.ne_none_iff_exists'.1 hv
    exact h.size_values ▸ lt_size_of_valueOf hb
  · rw [h.activities, List.forall₂_map_right_iff, List.forall₂_same]
    exact fun c _ ↦ c.sumsUp_activityUnder n.valueOf

variable [Scalar R]

theorem Reachable.of_reaches (h : n.Reachable m) (hr : Reaches m n n') : n'.Reachable m :=
  (invariant_reachable m).reaches h.tracks h hr

theorem Reachable.propagate (h : n.Reachable m) : (n.propagate m).1.Reachable m :=
  h.of_reaches (reaches_propagate m n)

theorem Reachable.undoTo (h : n.Reachable m) (level : ℕ) : (n.undoTo m level).Reachable m :=
  (invariant_reachable m).undoTo h.tracks h level

end Node

structure Node.BackFrom [Scalar R] (m : Model R) (n n' : Node R) : Prop where
  sameState : Node.SameState n' n
  reachable : n'.Reachable m

namespace Search

variable [Scalar R] {m : Model R} (deadline : Deadline) {s : Search R} {below : Search R → Search R}

section Parts

variable (hbelow : ∀ c : Search R, c.node.Reachable m → c.node.BackFrom m (below c).node)
include hbelow

theorem backFrom_enter (hs : s.node.Reachable m) : s.node.BackFrom m (s.enter m deadline below).node := by
  unfold enter
  dsimp only
  split
  · exact ⟨.refl _, hs⟩
  · split
    · exact ⟨.refl _, hs⟩
    · exact hbelow { s with nodes := s.nodes + 1 } hs

/-- Whatever propagation has fixed by the time it ends is above the level to go back to. -/
theorem backFrom_explore {n : Node R} (hn : n.Reachable m) (hr : Node.Reaches m n s.node) :
    n.BackFrom m (explore m deadline below n.trail.length s).node := by
  have hrp := hr.trans (Node.reaches_propagate m s.node)
  have hp := hn.of_reaches hrp
  unfold explore
  dsimp only
  split
  · have h := backFrom_enter deadline hbelow (s := { s with node := (s.node.propagate m).1 }) hp
    exact ⟨hrp.undoTo hn.tracks h.sameState, h.reachable.undoTo _⟩
  · exact ⟨hrp.undoTo hn.tracks (.refl _), hp.undoTo _⟩

theorem backFrom_branch (hs : s.node.Reachable m) {v : ℕ} (hv : s.node.isFree v) (b : Bool) :
    s.node.BackFrom m (s.branch m deadline below v b).node := by
  unfold branch
  split
  · exact ⟨.refl _, hs⟩
  · exact backFrom_explore deadline hbelow (s := { s with node := s.node.assign m v b }) hs
      (.assign b .refl hv)

end Parts

theorem backFrom_descend (order : List ℕ) (hs : s.node.Reachable m) :
    s.node.BackFrom m (s.descend m deadline order).node := by
  induction order generalizing s with
  | nil => exact ⟨.refl _, hs⟩
  | cons v order ih =>
    unfold descend
    split
    · next hv =>
      have hbelow (c : Search R) (hc : c.node.Reachable m) :
          c.node.BackFrom m (c.descend m deadline order).node := ih hc
      have h := backFrom_branch deadline hbelow hs hv (m.prefers v)
      have hv' := h.sameState.isFree_eq ▸ hv
      have h' := backFrom_branch deadline hbelow h.reachable hv' (!m.prefers v)
      exact ⟨h'.sameState.trans h.sameState, h'.reachable⟩
    · exact ih hs

theorem backFrom_run (m : Model R) (deadline : Deadline) :
    (Node.root m).BackFrom m (run m deadline).node :=
  backFrom_explore deadline (n := .root m) (fun _ ↦ backFrom_descend deadline m.branchingOrder) .root .refl

end Search

section Exact

variable {K : Type} [Field K] [LinearOrder K] {m : Model K} {n n' : Node K}

theorem Node.Reachable.tracksObjective (hm : m.WellFormed) (h : n.Reachable m) : n.TracksObjective m :=
  (invariant_tracksObjective m).reachable (tracksObjective_root hm) h

/-- In exact arithmetic the objective sums come back as well. -/
theorem Node.BackFrom.eq (hm : m.WellFormed) (hn : n.Reachable m) (h : n.BackFrom m n') : n' = n := by
  have ho := hn.tracksObjective hm
  have ho' := h.reachable.tracksObjective hm
  have hfixed : n'.fixedObjective = n.fixedObjective := by
    rw [ho'.fixedObjective, ho.fixedObjective, h.sameState.valueOf_eq]
  have hgain : n'.freeGain = n.freeGain := by
    rw [ho'.freeGain, ho.freeGain, h.sameState.valueOf_eq]
  obtain ⟨hvalues, htrail, hactivities⟩ := h.sameState
  cases n
  cases n'
  rw [Node.mk.injEq]
  exact ⟨hvalues, htrail, hactivities, hfixed, hgain⟩

end Exact

/-- Whatever is assigned, propagated and taken back, a node says in its trail and its sums what it says in its
values; and a search that is begun at such a node, or at one that is still to be propagated, ends at that node.
In exact arithmetic all of that goes for the sums of the objective as well. -/
theorem searchState_isExact :
    (∀ {R : Type} [Scalar R] {m : Model R}, m.Built → ∀ deadline : Deadline,
      (∀ n : Node R, n.Reachable m → n.SumsUp m ∧ (n.propagate m).1.Reachable m ∧
        ∀ level, (n.undoTo m level).Reachable m) ∧
      (∀ c ∈ Search.entered m deadline, c.node.Reachable m) ∧
      (∀ (order : List ℕ) (s : Search R), s.node.Reachable m →
        (s.enter m deadline (Search.descend m deadline order)).node.SameState s.node ∧
        (s.explore m deadline (Search.descend m deadline order) s.node.trail.length).node.SameState
          s.node) ∧
      (Search.run m deadline).node.SameState (.root m)) ∧
    (∀ {K : Type} [Field K] [LinearOrder K] {m : Model K}, m.Built → ∀ deadline : Deadline,
      (∀ n : Node K, n.Reachable m → n.TracksObjective m) ∧
      (∀ (order : List ℕ) (s : Search K), s.node.Reachable m →
        (s.enter m deadline (Search.descend m deadline order)).node = s.node ∧
        (s.explore m deadline (Search.descend m deadline order) s.node.trail.length).node = s.node) ∧
      (Search.run m deadline).node = .root m) := by
  have henter {R : Type} [Scalar R] {m : Model R} (deadline : Deadline) (order : List ℕ) (s : Search R)
      (hs : s.node.Reachable m) :
      s.node.BackFrom m (s.enter m deadline (Search.descend m deadline order)).node :=
    Search.backFrom_enter deadline (fun _ ↦ Search.backFrom_descend deadline order) hs
  have hexplore {R : Type} [Scalar R] {m : Model R} (deadline : Deadline) (order : List ℕ) (s : Search R)
      (hs : s.node.Reachable m) : s.node.BackFrom m
        (s.explore m deadline (Search.descend m deadline order) s.node.trail.length).node :=
    Search.backFrom_explore deadline (fun _ ↦ Search.backFrom_descend deadline order) hs .refl
  refine ⟨fun hm deadline ↦ ⟨fun n hn ↦ ?_, fun c hc ↦ ?_, fun order s hs ↦ ?_, ?_⟩,
    fun hm deadline ↦ ⟨fun n hn ↦ ?_, fun order s hs ↦ ?_, ?_⟩⟩
  · exact ⟨hn.tracks.sumsUp, hn.propagate, hn.undoTo⟩
  · exact Search.reachable_of_mem_entered hm.wellFormed hc
  · exact ⟨(henter deadline order s hs).sameState, (hexplore deadline order s hs).sameState⟩
  · exact (Search.backFrom_run _ deadline).sameState
  · exact hn.tracksObjective hm.wellFormed
  · exact ⟨(henter deadline order s hs).eq hm.wellFormed hs,
      (hexplore deadline order s hs).eq hm.wellFormed hs⟩
  · exact (Search.backFrom_run _ deadline).eq hm.wellFormed .root

def Model.clashing : Model ℚ :=
  { names := #["a", "b"], objective := #[3, -1],
    constraints := [⟨[(0, 1), (1, -1)], .atMost, 0⟩, ⟨[(0, 1), (1, 1)], .atMost, 1⟩] }

theorem Model.built_clashing : clashing.Built := built_iff_wellFormed.2 (by decide)

/-- Propagation stops between two assignments here, and leaves a node behind that is still in order. -/
theorem searchState_isExact_clashing :
    ∃ n : Node ℚ, n.Reachable Model.clashing ∧ (n.propagate .clashing).2 = false ∧
      (n.propagate .clashing).1.trail = 1 :: n.trail ∧
      (n.propagate .clashing).1.SumsUp Model.clashing ∧
      (n.propagate .clashing).1.TracksObjective Model.clashing ∧
      (Search.run .clashing .never).node = .root Model.clashing := by
  obtain ⟨hnodes, -⟩ := searchState_isExact.1 Model.built_clashing .never
  obtain ⟨hsums, -, hrun⟩ := searchState_isExact.2 Model.built_clashing .never
  have hn : ((Node.root Model.clashing).assign .clashing 0 true).Reachable Model.clashing :=
    .assign true .root (by decide)
  obtain ⟨-, hp, -⟩ := hnodes _ hn
  exact ⟨_, hn, by decide +kernel, by decide +kernel, (hnodes _ hp).1, hsums _ hp, hrun⟩

end NoisyDNF.ZeroOne
