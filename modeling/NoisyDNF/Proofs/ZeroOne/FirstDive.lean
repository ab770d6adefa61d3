import Mathlib.Data.List.Sort
import NoisyDNF.Proofs.ZeroOne.Backtracking
import NoisyDNF.Proofs.ZeroOne.DisjointTerms

namespace NoisyDNF.ZeroOne

variable {K : Type} [Field K] [LinearOrder K] {m : Model K} {groups : List (List ℕ)} {order : List ℕ}
  {σ τ : ℕ → Option Bool} {v : ℕ}

theorem Model.pairwise_branchingOrder [IsStrictOrderedRing K] (m : Model K) :
    m.branchingOrder.Pairwise fun v w ↦ |m.gain w| ≤ |m.gain v| := by
  let r (v w : ℕ) : Prop := |m.gain w| ≤ |m.gain v|
  have hinsert (v : ℕ) (ws : List ℕ) : m.insertBranch v ws = ws.orderedInsert r v := by
    induction ws with
    | nil => rfl
    | cons w ws ih =>
      have hiff : m.branchesBefore v w = true ↔ r v w := by simp [branchesBefore, r]
      rw [insertBranch, List.orderedInsert_cons, ih]
      exact if_congr hiff rfl rfl
  have hsort : m.branchingOrder = (List.range m.numVars).insertionSort r :=
    congrArg (fun f ↦ (List.range m.numVars).foldr f []) (funext₂ hinsert)
  have htotal : Std.Total r := ⟨fun v w ↦ le_total _ _⟩
  have htrans : IsTrans ℕ r := ⟨fun u v w huv hvw ↦ hvw.trans huv⟩
  rw [hsort]
  exact List.pairwise_insertionSort r _

/-- What holds along the first dive. A variable that is set brings no less than those still to come, and one
that is false is the cheapest of its group and the only one that is not set. -/
structure Dive (m : Model K) (groups : List (List ℕ)) (order : List ℕ) (σ : ℕ → Option Bool) : Prop where
  pairwise : order.Pairwise fun v w ↦ m.gain w ≤ m.gain v
  mem_order : ∀ v < m.numVars, σ v = none → v ∈ order
  gain_le : ∀ v, σ v = some true → ∀ w ∈ order, m.gain w ≤ m.gain v
  spares : Spares groups σ
  spared : ∀ g ∈ groups, ∀ v ∈ g, σ v = none → ∃ u ∈ g, u ≠ v ∧ σ u ≠ some true
  given : ∀ g ∈ groups, ∀ v ∈ g, σ v = some false → ∀ w ∈ g, w ≠ v → σ w = some true ∧ m.gain v ≤ m.gain w

def Model.unset (m : Model K) (σ : ℕ → Option Bool) : Finset ℕ :=
  (Finset.range m.numVars).filter fun v ↦ σ v ≠ some true

namespace Dive

theorem tail (hd : Dive m groups (v :: order) σ) (hv : v < m.numVars → σ v ≠ none) :
    Dive m groups order σ where
  pairwise := hd.pairwise.of_cons
  mem_order w hw hnone :=
    (List.mem_cons.1 (hd.mem_order w hw hnone)).resolve_left fun he ↦ hv (he ▸ hw) (he ▸ hnone)
  gain_le u hu w hw := hd.gain_le u hu w (List.mem_cons_of_mem v hw)
  spares := hd.spares
  spared := hd.spared
  given := hd.given

/-- When a free variable is set, every group has another one that is not. -/
theorem spares_update_true (hd : Dive m groups order σ) (hv : σ v = none) :
    Spares groups (Function.update σ v (some true)) := by
  intro g hg
  obtain ⟨u, hu, huv, hne⟩ := hd.spares.exists_ne (fun g' hg' hvg ↦ hd.spared g' hg' v hvg hv) hg
  exact ⟨u, hu, by rwa [Function.update_of_ne huv]⟩

variable (h : m.DisjointTerms groups)
include h

/-- At the root only the variables of groups without another one become false. -/
theorem root [IsStrictOrderedRing K] (hm : m.WellFormed) : ((Node.root m).propagate m).2 = true ∧
    Dive m groups m.branchingOrder ((Node.root m).propagate m).1.valueOf ∧
    m.unset ((Node.root m).propagate m).1.valueOf = Finset.range m.numVars := by
  have hspares : Spares groups (Node.root m).valueOf := by
    intro g hg
    obtain ⟨v, hv⟩ := List.exists_mem_of_ne_nil g (h.nonempty g hg)
    exact ⟨v, hv, by rw [Node.valueOf_root]; nofun⟩
  obtain ⟨hp, hs⟩ := h.settles_propagate hm (Node.tracks_root m) hspares
  have hset (v : ℕ) : ((Node.root m).propagate m).1.valueOf v ≠ some true := by
    intro hv
    have htrue := hs.true_of_true hv
    rw [Node.valueOf_root] at htrue
    cases htrue
  have hgain (v : ℕ) (hv : v ∈ m.branchingOrder) : |m.gain v| = m.gain v :=
    abs_of_pos (h.gain_pos v ((Search.mem_branchingOrder m v).1 hv))
  refine ⟨hp, ⟨?_, fun v hv _ ↦ (Search.mem_branchingOrder m v).2 hv, fun v hv ↦ absurd hv (hset v),
    hs.spares hspares, hs.spared, fun g hg v hv hfalse w hw hwv ↦ ?_⟩,
    Finset.filter_true_of_mem fun v _ ↦ hset v⟩
  · refine m.pairwise_branchingOrder.imp_of_mem fun {v w} hv hw hle ↦ ?_
    rwa [hgain v hv, hgain w hw] at hle
  · obtain ⟨-, g', hg', hv', hothers⟩ := hs.fixed (congrFun (Node.valueOf_root m) v) hfalse
    obtain rfl := h.eq_of_mem hg hg' hv hv'
    have htrue := hothers w hw hwv
    rw [Node.valueOf_root] at htrue
    cases htrue

/-- The next variable of the order is set. If that leaves a group with one variable only, this one becomes
false, and it is the cheapest of the group as it comes last. -/
theorem assign (hd : Dive m groups (v :: order) σ) (hv : σ v = none)
    (hs : Settles groups (Function.update σ v (some true)) τ) : Dive m groups order τ := by
  obtain ⟨hhead, hpairwise⟩ := List.pairwise_cons.1 hd.pairwise
  have hopen {u : ℕ} (hu : u < m.numVars) (hnone : Function.update σ v (some true) u = none) : u ∈ order := by
    have huv : u ≠ v := ne_of_update_eq hnone nofun
    rw [Function.update_of_ne huv] at hnone
    exact (List.mem_cons.1 (hd.mem_order u hu hnone)).resolve_left huv
  have hset {u : ℕ} (hu : Function.update σ v (some true) u = some true) (w : ℕ) (hw : w ∈ order) :
      m.gain w ≤ m.gain u := by
    by_cases huv : u = v
    · exact huv ▸ hhead w hw
    · rw [Function.update_of_ne huv] at hu
      exact hd.gain_le u hu w (List.mem_cons_of_mem v hw)
  refine ⟨hpairwise, fun u hu hnone ↦ hopen hu (hs.none_of_none hnone), fun u hu ↦ hset (hs.true_of_true hu),
    hs.spares (hd.spares_update_true hv), hs.spared, fun g hg u hu hfalse w hw hwu ↦ ?_⟩
  cases hold : Function.update σ v (some true) u with
  | none =>
    obtain ⟨-, g', hg', hu', hothers⟩ := hs.fixed hold hfalse
    obtain rfl := h.eq_of_mem hg hg' hu hu'
    have htrue := hothers w hw hwu
    exact ⟨hs.kept htrue, hset htrue u (hopen (h.lt_numVars hg hu) hold)⟩
  | some b =>
    obtain rfl : b = false := Option.some_inj.1 ((hs.kept hold).symm.trans hfalse)
    have huv : u ≠ v := ne_of_update_eq hold nofun
    rw [Function.update_of_ne huv] at hold
    obtain ⟨htrue, hle⟩ := hd.given g hg u hu hold w hw hwu
    have hwv : w ≠ v := by
      rintro rfl
      rw [hv] at htrue
      cases htrue
    exact ⟨hs.kept (by rwa [Function.update_of_ne hwv]), hle⟩

/-- At the end of the dive the variables that are not set are the cheapest ones, one of each group. -/
theorem sum_unset (hd : Dive m groups [] σ) {M : Type} [AddCommMonoid M] {F : ℕ → M} {G : List ℕ → M}
    (hF : ∀ g ∈ groups, ∀ v ∈ g, (∀ w ∈ g, m.gain v ≤ m.gain w) → F v = G g) :
    ∑ v ∈ m.unset σ, F v = (groups.map G).sum := by
  rw [Model.unset, Finset.sum_filter, h.sum_range]
  refine congrArg List.sum (List.map_congr_left fun g hg ↦ ?_)
  obtain ⟨u, hu, hne⟩ := hd.spares g hg
  have hfalse : σ u = some false := (none_or_false_of_ne_true hne).resolve_left fun hnone ↦
    List.not_mem_nil (hd.mem_order u (h.lt_numVars hg hu) hnone)
  have hrest := hd.given g hg u hu hfalse
  have hleast (w : ℕ) (hw : w ∈ g) : m.gain u ≤ m.gain w := by
    by_cases hwu : w = u
    · rw [hwu]
    · exact (hrest w hw hwu).2
  have hcount : g.count u = 1 :=
    List.count_eq_one_of_mem ((List.nodup_flatten.1 h.nodup_flatten).1 g hg) hu
  rw [List.sum_map_eq_nsmul_single u, hcount, one_nsmul, if_pos hne, hF g hg u hu hleast]
  intro w hwu hw
  exact if_neg fun hno ↦ hno (hrest w hw hwu).1

end Dive

omit [Field K] [LinearOrder K] in
theorem card_unset_add_one (hs : Settles groups (Function.update σ v (some true)) τ) (hlt : v < m.numVars)
    (hv : σ v = none) : (m.unset τ).card + 1 = (m.unset σ).card := by
  have hmem : v ∈ m.unset σ := Finset.mem_filter.2 ⟨Finset.mem_range.2 hlt, by rw [hv]; nofun⟩
  have herase : m.unset τ = (m.unset σ).erase v := by
    ext u
    have hiff : τ u = some true ↔ u = v ∨ σ u = some true := by
      by_cases huv : u = v
      · subst huv
        simpa using hs.kept (Function.update_self ..)
      · have hval : Function.update σ v (some true) u = σ u := Function.update_of_ne huv ..
        rw [or_iff_right huv, ← hval]
        exact ⟨hs.true_of_true, hs.kept⟩
    simp only [Model.unset, Finset.mem_erase, Finset.mem_filter, ne_eq, hiff, not_or]
    tauto
  rw [herase, Finset.card_erase_add_one hmem]

theorem Dive.objectiveValue_leafValues (h : m.DisjointTerms groups) (hm : m.WellFormed) {s : Search K}
    (ht : s.node.Tracks m) (hd : Dive m groups [] s.node.valueOf) :
    m.objectiveValue s.leafValues = m.sumLessLeast groups := by
  have hsize : s.leafValues.size = m.numVars := Array.size_map.trans ht.size_values
  have hleast : ∑ v ∈ m.unset s.node.valueOf, m.gain v = (groups.map m.leastGain).sum := by
    refine hd.sum_unset h fun g hg v hv hle ↦ ?_
    have hv' : IsLeast {a | ∃ w ∈ g, m.gain w = a} (m.gain v) := by
      refine ⟨⟨v, hv, rfl⟩, ?_⟩
      rintro _ ⟨w, hw, rfl⟩
      exact hle w hw
    exact hv'.unique (m.isLeast_leastGain (h.nonempty g hg))
  rw [Model.objectiveValue_eq hm hsize, Model.sumLessLeast, ← hleast, Model.unset, Finset.sum_filter,
    ← Finset.sum_sub_distrib]
  refine Finset.sum_congr rfl fun v _ ↦ ?_
  rw [Search.leafValues, Node.truth_map_getD]
  cases s.node.valueOf v with
  | none => simp
  | some b => cases b <;> simp

namespace Search

variable {s s' : Search K} {below : Search K → Search K}

/-- From the first state to the second the search finds the optimum and enters two nodes for each variable that
is still to be set. -/
structure Finishes (m : Model K) (groups : List (List ℕ)) (σ : ℕ → Option Bool) (s s' : Search K) : Prop where
  timedOut : s'.timedOut = false
  incumbents : ∃ i, s'.incumbents = [i] ∧ i.objective = m.sumLessLeast groups
  nodes : s'.nodes + 2 * groups.length = s.nodes + 2 * (m.unset σ).card

def propagated (m : Model K) (s : Search K) : Search K :=
  { s with node := (s.node.propagate m).1, nodes := s.nodes + 1 }

section Explore

variable (hp : (s.node.propagate m).2 = true) (below : Search K → Search K) (level : ℕ)
include hp

theorem explore_of_isPruned (hc : (s.propagated m).isPruned m = true) :
    ∃ n, explore m .never below level s = { s.propagated m with node := n } := by
  unfold propagated at hc
  simp only [explore, hp, enter, hc, if_true, Deadline.never, Bool.false_eq_true, if_false]
  exact ⟨_, rfl⟩

theorem explore_of_not_isPruned (hc : (s.propagated m).isPruned m = false) :
    ∃ n, explore m .never below level s = { below (s.propagated m) with node := n } := by
  unfold propagated at hc
  simp only [explore, hp, enter, hc, if_true, Deadline.never, Bool.false_eq_true, if_false]
  exact ⟨_, rfl⟩

end Explore

theorem branch_eq_explore {b : Bool} (ht : s.timedOut = false) : s.branch m .never below v b =
    explore m .never below s.node.trail.length { s with node := s.node.assign m v b } := by
  rw [branch, if_neg (Bool.eq_false_iff.1 ht)]

variable (h : m.DisjointTerms groups) (hm : m.WellFormed)
include h hm

theorem finishes_record (hs : s.node.Tracks m) (hd : Dive m groups [] s.node.valueOf)
    (hi : s.incumbents = []) (ht : s.timedOut = false) :
    Finishes m groups s.node.valueOf s (s.record m) := by
  refine ⟨ht, ⟨_, congrArg _ hi, hd.objectiveValue_leafValues h hm hs⟩, ?_⟩
  have hcard : (m.unset s.node.valueOf).card = groups.length := by
    rw [Finset.card_eq_sum_ones, hd.sum_unset h fun _ _ _ _ _ ↦ rfl, List.map_const', List.sum_replicate_nat,
      mul_one]
  rw [hcard]
  rfl

/-- Without an incumbent the node is searched where the next variable is set. -/
theorem branch_true (hs : s.node.Reachable m) (hd : Dive m groups (v :: order) s.node.valueOf)
    (hv : s.node.isFree v) (hi : s.incumbents = []) (ht : s.timedOut = false)
    (hbelow : ∀ c : Search K, c.node.Reachable m → Dive m groups order c.node.valueOf → c.incumbents = [] →
      c.timedOut = false → Finishes m groups c.node.valueOf c (below c)) :
    (s.branch m .never below v true).timedOut = false ∧
      (∃ i, (s.branch m .never below v true).incumbents = [i] ∧ i.objective = m.sumLessLeast groups) ∧
      (s.branch m .never below v true).nodes + 1 + 2 * groups.length =
        s.nodes + 2 * (m.unset s.node.valueOf).card := by
  obtain ⟨hlt, hnone⟩ := Node.isFree_iff.1 hv
  have hval := Node.valueOf_assign m hlt true
  have hna := hs.assign true hv
  obtain ⟨hp, hset⟩ := h.settles_propagate hm hna.tracks (hval ▸ hd.spares_update_true hnone)
  rw [hval] at hset
  let c : Search K := propagated m { s with node := s.node.assign m v true }
  have hpruned : c.isPruned m = false := by simp [isPruned, best?, c, propagated, hi]
  have hc := hbelow c hna.propagate (hd.assign h hnone hset) hi ht
  have hcard := card_unset_add_one hset (hs.tracks.lt_numVars hv) hnone
  have hnodes := hc.nodes
  obtain ⟨n, hn⟩ := explore_of_not_isPruned hp below s.node.trail.length hpruned
  rw [branch_eq_explore ht, hn]
  refine ⟨hc.timedOut, hc.incumbents, ?_⟩
  simp only [c, propagated] at hnodes ⊢
  omega

variable [IsStrictOrderedRing K]

/-- With an optimal incumbent the node is left at once where the next variable is false. -/
theorem branch_false (hs : s.node.Reachable m) (hd : Dive m groups order s.node.valueOf)
    (hv : s.node.isFree v) {i : Incumbent K} (hi : s.incumbents = [i])
    (ho : i.objective = m.sumLessLeast groups) (ht : s.timedOut = false) (below : Search K → Search K) :
    (s.branch m .never below v false).timedOut = false ∧
      (s.branch m .never below v false).incumbents = [i] ∧
      (s.branch m .never below v false).nodes = s.nodes + 1 := by
  have hval := Node.valueOf_assign m (Node.isFree_iff.1 hv).1 false
  have hna := hs.assign false hv
  obtain ⟨hp, hset⟩ := h.settles_propagate hm hna.tracks (hval ▸ hd.spares.update_false v)
  let c : Search K := propagated m { s with node := s.node.assign m v false }
  have hpruned : c.isPruned m = true := by
    -- The incumbent attains what no bound exceeds.
    obtain ⟨b, hb, hle⟩ := h.exists_bound?_le hm hna.propagate.tracks (hna.propagate.tracksObjective hm)
      (hset.spares (hval ▸ hd.spares.update_false v))
    have hbest : c.best? = some i := congrArg List.head? hi
    have hb' : c.node.bound? m = some b := hb
    simp only [isPruned, hbest, hb', decide_eq_true_eq]
    exact (hle.trans_eq ho.symm).trans (lt_threshold _).le
  obtain ⟨n, hn⟩ := explore_of_isPruned hp below s.node.trail.length hpruned
  rw [branch_eq_explore ht, hn]
  exact ⟨ht, hi, rfl⟩

theorem finishes_descend (hs : s.node.Reachable m) (hd : Dive m groups order s.node.valueOf)
    (hi : s.incumbents = []) (ht : s.timedOut = false) :
    Finishes m groups s.node.valueOf s (s.descend m .never order) := by
  induction order generalizing s with
  | nil => exact finishes_record h hm hs.tracks hd hi ht
  | cons v order ih =>
    unfold descend
    by_cases hv : s.node.isFree v
    · have hprefers : m.prefers v = true := decide_eq_true (h.gain_pos v (hs.tracks.lt_numVars hv))
      have hback : s.node.BackFrom m (s.branch m .never (descend m .never order) v true).node :=
        backFrom_branch .never (fun _ ↦ backFrom_descend .never order) hs hv true
      have hnode := hback.eq hm hs
      obtain ⟨ht₁, ⟨i, hi₁, ho⟩, hnodes₁⟩ := branch_true h hm hs hd hv hi ht fun c ↦ ih
      have hfalse := branch_false h hm (hnode ▸ hs) (hnode ▸ hd) (hnode ▸ hv) hi₁ ho ht₁
      obtain ⟨ht₂, hi₂, hnodes₂⟩ := hfalse (descend m .never order)
      rw [if_pos hv, hprefers]
      refine ⟨ht₂, ⟨i, hi₂, ho⟩, ?_⟩
      rw [Bool.not_true, hnodes₂, hnodes₁]
    · rw [if_neg hv]
      refine ih hs (hd.tail fun hlt hnone ↦ hv (Node.isFree_iff.2 ⟨?_, hnone⟩)) hi ht
      rwa [hs.tracks.size_values]

theorem finishes_run : (run m .never).timedOut = false ∧
    (∃ i, (run m .never).incumbents = [i] ∧ i.objective = m.sumLessLeast groups) ∧
    (run m .never).nodes + 2 * groups.length = 1 + 2 * m.numVars := by
  obtain ⟨hp, hd, hunset⟩ := Dive.root h hm
  let c : Search K := propagated m { node := .root m }
  have hc : Finishes m groups c.node.valueOf c (c.descend m .never m.branchingOrder) :=
    finishes_descend h hm Node.Reachable.root.propagate hd rfl rfl
  have hcard : (m.unset c.node.valueOf).card = m.numVars :=
    (congrArg Finset.card hunset).trans (Finset.card_range _)
  obtain ⟨n, hn⟩ :=
    explore_of_not_isPruned (s := { node := .root m }) hp (descend m .never m.branchingOrder) 0 rfl
  rw [run, hn, ← hcard]
  exact ⟨hc.timedOut, hc.incumbents, hc.nodes⟩

end Search

/-- The search calls the model optimal with the objective that is left when every group gives up its cheapest
variable, and enters the root and two nodes for every other variable. -/
theorem branchAndBound_disjointTerms [IsStrictOrderedRing K] (hm : m.Built) (h : m.DisjointTerms groups) :
    (branchAndBound .never m).status = .optimal ∧
    (branchAndBound .never m).objective =
      some (∑ v ∈ Finset.range m.numVars, m.gain v - (groups.map m.leastGain).sum) ∧
    (branchAndBound .never m).nodes = 1 + 2 * (groups.map fun g ↦ g.length - 1).sum := by
  obtain ⟨ht, ⟨i, hi, ho⟩, hnodes⟩ := Search.finishes_run h hm.wellFormed
  have hbest : (Search.run m .never).best? = some i := congrArg List.head? hi
  have hlen : (groups.map fun g ↦ g.length - 1).sum + groups.length = m.numVars := by
    have hone : ∀ g ∈ groups, g.length = g.length - 1 + 1 := fun g hg ↦
      (Nat.sub_add_cancel (List.length_pos_iff.2 (h.nonempty g hg))).symm
    have hperm := h.partition.length_eq
    rw [List.length_range, List.length_flatten, List.map_congr_left hone, List.sum_map_add, List.map_const',
      List.sum_replicate_nat, mul_one] at hperm
    exact hperm
  refine ⟨Status.ofSearch_eq_optimal_iff.2 ⟨ht, congrArg Option.isSome hbest⟩, ?_, ?_⟩
  · exact (congrArg (Option.map Incumbent.objective) hbest).trans (congrArg some ho)
  · change (Search.run m .never).nodes = _
    omega

def Model.interleaved : Model ℚ :=
  { names := #["a", "b", "c", "d", "e", "f"], objective := #[3, 3, 2, 1, 3, 5],
    constraints := [⟨[(4, 1), (0, 1)], .atMost, 1⟩, ⟨[(2, 1)], .atMost, 0⟩,
      ⟨[(5, 1), (1, 1), (3, 1)], .atMost, 2⟩] }

theorem Model.built_interleaved : interleaved.Built := built_iff_wellFormed.2 (by decide)

theorem branchAndBound_disjointTerms_interleaved :
    Model.interleaved.DisjointTerms [[4, 0], [2], [5, 1, 3]] ∧
      (branchAndBound .never Model.interleaved).objective = some 11 ∧
      (branchAndBound .never Model.interleaved).nodes = 7 := by
  have h : Model.interleaved.DisjointTerms [[4, 0], [2], [5, 1, 3]] :=
    ⟨by decide, by decide, by decide, by decide +kernel⟩
  obtain ⟨-, ho, hn⟩ := branchAndBound_disjointTerms Model.built_interleaved h
  exact ⟨h, ho.trans (by decide +kernel), hn.trans (by decide)⟩

end NoisyDNF.ZeroOne
