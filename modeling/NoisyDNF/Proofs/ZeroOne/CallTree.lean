import Mathlib.Data.Tree.Basic
import NoisyDNF.Proofs.ZeroOne.Incumbents

namespace NoisyDNF.ZeroOne

theorem numNodes_lt_two_pow_height {α : Type} (t : BinaryTree α) : t.numNodes < 2 ^ t.height := by
  induction t with
  | nil => exact Nat.one_pos
  | node a l r ihl ihr =>
    have hl : 2 ^ l.height ≤ 2 ^ max l.height r.height := Nat.pow_le_pow_right Nat.two_pos (le_max_left _ _)
    have hr : 2 ^ r.height ≤ 2 ^ max l.height r.height := Nat.pow_le_pow_right Nat.two_pos (le_max_right _ _)
    rw [BinaryTree.numNodes, BinaryTree.height, pow_succ]
    omega

variable {R : Type}

namespace Node

variable {m : Model R} {n n' : Node R}

theorem freeCount_eq_zero_iff : n.freeCount = 0 ↔ ∀ v, ¬ n.isFree v := by
  rw [freeCount, Array.count_eq_zero]
  constructor
  · intro h v hv
    exact h (Array.mem_of_getElem? (eq_of_beq hv))
  · intro h hmem
    obtain ⟨v, hv, he⟩ := Array.mem_iff_getElem.1 hmem
    have hnone : n.valueOf v = none := by
      rw [valueOf, Array.getD_eq_getD_getElem?, Array.getElem?_eq_getElem hv, he, Option.getD_some]
    exact h v (isFree_iff.2 ⟨hv, hnone⟩)

theorem SameState.freeCount_eq (h : SameState n n') : n.freeCount = n'.freeCount := by
  rw [freeCount, h.values, freeCount]

theorem freeCount_root [Scalar R] (m : Model R) : (root m).freeCount = m.numVars := by
  rw [freeCount, root, Array.count_replicate_self]

theorem Reaches.freeCount_le [Scalar R] (h : Reaches m n n') : n'.freeCount ≤ n.freeCount := by
  induction h with
  | refl => exact le_rfl
  | @assign n' v b _ _ ih => exact (freeCount_assign_le m n' v b).trans ih

end Node

namespace Search

def calls : BinaryTree (Node R) → List (Node R)
  | .nil => []
  | .node n left right => n :: (calls left ++ calls right)

/-- The total assignments that the search came to, whether it recorded them or not. -/
def leaves (t : BinaryTree (Node R)) : List (Array Bool) :=
  ((calls t).filter (·.freeCount = 0)).map fun n ↦ n.values.map (·.getD false)

variable {s s' s₁ s₂ : Search R} {t t' : BinaryTree (Node R)}

theorem mem_leaves {x : Array Bool} (hx : x ∈ leaves t) :
    ∃ n ∈ calls t, n.freeCount = 0 ∧ Completes n.valueOf (truth x) := by
  obtain ⟨n, hn, rfl⟩ := List.mem_map.1 hx
  obtain ⟨hn, hfree⟩ := List.mem_filter.1 hn
  exact ⟨n, hn, of_decide_eq_true hfree, n.completes_map_getD⟩

theorem leaves_single (n : Node R) : leaves (.node n .nil .nil) =
    if n.freeCount = 0 then [n.values.map (·.getD false)] else [] := by
  by_cases h : n.freeCount = 0 <;> simp [leaves, calls, h]

theorem leaves_node_of_isFree {n : Node R} {v : ℕ} (hv : n.isFree v) (t t' : BinaryTree (Node R)) :
    leaves (.node n t t') = leaves t ++ leaves t' := by
  have hn : n.freeCount ≠ 0 := fun h ↦ Node.freeCount_eq_zero_iff.1 h v hv
  simp [leaves, calls, hn]

/-- A part of a search that begins above a node with the values `σ`, of which at most `k` variables are to be
branched on: it comes back to the node `n` and enters the nodes of the tree below that one. -/
structure Within (n : Node R) (σ : ℕ → Option Bool) (k : ℕ) (s : Search R) (t : BinaryTree (Node R))
    (s' : Search R) : Prop where
  sameState : Node.SameState s'.node n
  nodes : s'.nodes = s.nodes + t.numNodes
  height : t.height ≤ k
  extends_calls : ∀ c ∈ calls t, Extends c.valueOf σ
  nodup_leaves : (leaves t).Nodup
  incumbents : (s'.incumbents.map Incumbent.values).Sublist
    ((leaves t).reverse ++ s.incumbents.map Incumbent.values)

namespace Within

variable {n n' : Node R} {σ τ : ℕ → Option Bool} {k : ℕ}

/-- No node is entered. -/
theorem nil (h : Node.SameState s'.node n) (hn : s'.nodes = s.nodes) (hi : s'.incumbents = s.incumbents) :
    Within n σ k s .nil s' where
  sameState := h
  nodes := hn
  height := k.zero_le
  extends_calls := nofun
  nodup_leaves := List.nodup_nil
  incumbents := by rw [hi]; exact List.Sublist.refl _

/-- A node is entered, and none below it. -/
theorem single (hn : s'.node = s.node) (hnodes : s'.nodes = s.nodes + 1)
    (hi : (s'.incumbents.map Incumbent.values).Sublist
      ((leaves (.node s.node .nil .nil)).reverse ++ s.incumbents.map Incumbent.values)) :
    Within s.node s.node.valueOf (k + 1) s (.node s.node .nil .nil) s' where
  sameState := hn ▸ .refl _
  nodes := hnodes
  height := Nat.succ_le_succ k.zero_le
  extends_calls c hc := by
    rw [List.mem_singleton.1 hc]
    exact .refl _
  nodup_leaves := by
    rw [leaves_single]
    split
    · exact List.nodup_singleton _
    · exact List.nodup_nil
  incumbents := hi

theorem mono (h : Within n σ k s t s') {k' : ℕ} (hk : k ≤ k') (hσ : Extends σ τ) : Within n τ k' s t s' :=
  { h with
    height := h.height.trans hk
    extends_calls := fun c hc ↦ (h.extends_calls c hc).trans hσ }

/-- Both values of a free variable are tried, one after the other. -/
theorem split {v : ℕ} {b : Bool} (hv : s.node.isFree v)
    (hl : Within s.node (Function.update s.node.valueOf v (some b)) s.node.freeCount
      { s with nodes := s.nodes + 1 } t s₁)
    (hr : Within s₁.node (Function.update s₁.node.valueOf v (some !b)) s₁.node.freeCount s₁ t' s₂) :
    Within s.node s.node.valueOf (s.node.freeCount + 1) s (.node s.node t t') s₂ := by
  rw [hl.sameState.valueOf_eq, hl.sameState.freeCount_eq] at hr
  have hleaves := leaves_node_of_isFree hv t t'
  have hbelow (b : Bool) : Extends (Function.update s.node.valueOf v (some b)) s.node.valueOf :=
    extends_update (Node.isFree_iff.1 hv).2 _
  refine ⟨hr.sameState.trans hl.sameState, ?_, ?_, ?_, ?_, ?_⟩
  · have hnodes := hl.nodes
    rw [hr.nodes, hnodes, BinaryTree.numNodes]
    dsimp only
    omega
  · exact Nat.succ_le_succ (max_le hl.height hr.height)
  · intro c hc
    rcases List.mem_cons.1 hc with rfl | hc
    · exact .refl _
    rcases List.mem_append.1 hc with hc | hc
    · exact (hl.extends_calls c hc).trans (hbelow b)
    · exact (hr.extends_calls c hc).trans (hbelow !b)
  · -- The two sides differ in the variable that was branched on.
    rw [hleaves]
    refine hl.nodup_leaves.append hr.nodup_leaves fun x hx hx' ↦ ?_
    obtain ⟨c, hc, -, hxc⟩ := mem_leaves hx
    obtain ⟨c', hc', -, hxc'⟩ := mem_leaves hx'
    have hb : truth x v = b := hxc v b (hl.extends_calls c hc v b (Function.update_self ..))
    have hb' : truth x v = !b := hxc' v (!b) (hr.extends_calls c' hc' v (!b) (Function.update_self ..))
    exact Bool.self_ne_not b (hb.symm.trans hb')
  · rw [hleaves, List.reverse_append, List.append_assoc]
    exact hr.incumbents.trans (hl.incumbents.append_left _)

end Within

variable [Scalar R]

inductive Part
  | explore (level : ℕ)
  | enter
  | branch (v : ℕ) (value : Bool)

/-- A part of the search goes from one state to the other and enters the nodes of the tree. Every node looks for
the variable to branch on in the whole order, and no bound on the number of steps is given. -/
inductive Runs (m : Model R) (deadline : Deadline) :
    Part → Search R → BinaryTree (Node R) → Search R → Prop
  | conflict {s : Search R} (level : ℕ) : (s.node.propagate m).2 = false →
      Runs m deadline (.explore level) s .nil { s with node := (s.node.propagate m).1.undoTo m level }
  | explore {s s' : Search R} {t : BinaryTree (Node R)} (level : ℕ) : (s.node.propagate m).2 = true →
      Runs m deadline .enter { s with node := (s.node.propagate m).1 } t s' →
      Runs m deadline (.explore level) s t { s' with node := s'.node.undoTo m level }
  | cutShort {s : Search R} : deadline (s.nodes + 1) = true →
      Runs m deadline .enter s (.node s.node .nil .nil) { s with nodes := s.nodes + 1, timedOut := true }
  | prune {s : Search R} : deadline (s.nodes + 1) = false → s.isPruned m = true →
      Runs m deadline .enter s (.node s.node .nil .nil) { s with nodes := s.nodes + 1 }
  | record {s : Search R} : deadline (s.nodes + 1) = false → s.isPruned m = false →
      m.branchingOrder.find? s.node.isFree = none →
      Runs m deadline .enter s (.node s.node .nil .nil) (record m { s with nodes := s.nodes + 1 })
  | split {s s₁ s₂ : Search R} {left right : BinaryTree (Node R)} {v : ℕ} :
      deadline (s.nodes + 1) = false → s.isPruned m = false →
      m.branchingOrder.find? s.node.isFree = some v →
      Runs m deadline (.branch v (m.prefers v)) { s with nodes := s.nodes + 1 } left s₁ →
      Runs m deadline (.branch v (!m.prefers v)) s₁ right s₂ →
      Runs m deadline .enter s (.node s.node left right) s₂
  | skip {s : Search R} (v : ℕ) (b : Bool) : s.timedOut = true → Runs m deadline (.branch v b) s .nil s
  | branch {s s' : Search R} {t : BinaryTree (Node R)} (v : ℕ) (b : Bool) : s.timedOut = false →
      Runs m deadline (.explore s.node.trail.length) { s with node := s.node.assign m v b } t s' →
      Runs m deadline (.branch v b) s t s'

variable {m : Model R} {deadline : Deadline} {p : Part}

/-- There is only one way to go. -/
theorem Runs.unique (h : Runs m deadline p s t s') (h' : Runs m deadline p s t' s₁) : t' = t ∧ s₁ = s' := by
  induction h generalizing t' s₁ with
  | conflict level hp =>
    cases h' with
    | conflict => exact ⟨rfl, rfl⟩
    | explore _ hp' => exact absurd (hp.symm.trans hp') Bool.false_ne_true
  | explore level hp _ ih =>
    cases h' with
    | conflict _ hp' => exact absurd (hp'.symm.trans hp) Bool.false_ne_true
    | explore _ _ h' =>
      obtain ⟨rfl, rfl⟩ := ih h'
      exact ⟨rfl, rfl⟩
  | cutShort hd => cases h' <;> simp_all
  | prune hd hp => cases h' <;> simp_all
  | record hd hp hf => cases h' <;> simp_all
  | split hd hp hf _ _ ihl ihr =>
    cases h' with
    | cutShort hd' => exact absurd (hd.symm.trans hd') Bool.false_ne_true
    | prune _ hp' => exact absurd (hp.symm.trans hp') Bool.false_ne_true
    | record _ _ hf' => cases hf.symm.trans hf'
    | split _ _ hf' hl hr =>
      obtain rfl := Option.some_inj.1 (hf'.symm.trans hf)
      obtain ⟨rfl, rfl⟩ := ihl hl
      obtain ⟨rfl, rfl⟩ := ihr hr
      exact ⟨rfl, rfl⟩
  | skip v b ht =>
    cases h' with
    | skip => exact ⟨rfl, rfl⟩
    | branch _ _ ht' => exact absurd (ht'.symm.trans ht) Bool.false_ne_true
  | branch v b ht _ ih =>
    cases h' with
    | skip _ _ ht' => exact absurd (ht.symm.trans ht') Bool.false_ne_true
    | branch _ _ _ h' => exact ih h'

def Part.Bounded (m : Model R) (s : Search R) (t : BinaryTree (Node R)) (s' : Search R) : Part → Prop
  | .explore level => ∀ n : Node R, n.Tracks m → Node.Reaches m n s.node → level = n.trail.length →
      Within n s.node.valueOf (s.node.freeCount + 1) s t s'
  | .enter => s.node.Tracks m → Within s.node s.node.valueOf (s.node.freeCount + 1) s t s'
  | .branch v b => s.node.Tracks m → s.node.isFree v →
      Within s.node (Function.update s.node.valueOf v (some b)) s.node.freeCount s t s'

/-- The measure is the number of free variables: what is assigned or propagated has one value less to be found. -/
theorem Runs.bounded (h : Runs m deadline p s t s') : p.Bounded m s t s' := by
  induction h with
  | @conflict s level hp =>
    rintro n hn hr rfl
    exact .nil ((hr.trans (Node.reaches_propagate m s.node)).undoTo hn (.refl _)) rfl rfl
  | @explore s s' t level hp _ ih =>
    rintro n hn hr rfl
    have hrp := Node.reaches_propagate m s.node
    have h := ih ((hr.trans hrp).tracks hn)
    have h' := h.mono (Nat.succ_le_succ hrp.freeCount_le) hrp.extends_valueOf
    exact { h' with sameState := (hr.trans hrp).undoTo hn h.sameState }
  | cutShort => exact fun _ ↦ .single rfl rfl (List.sublist_append_right _ _)
  | prune => exact fun _ ↦ .single rfl rfl (List.sublist_append_right _ _)
  | @record s _ _ hf =>
    intro ht
    refine .single rfl rfl ?_
    have hfree : s.node.freeCount = 0 := Node.freeCount_eq_zero_iff.2 fun v hv ↦
      List.find?_eq_none.1 hf v ((mem_branchingOrder m v).2 (ht.lt_numVars hv)) hv
    rw [leaves_single, if_pos hfree]
    exact List.Sublist.refl _
  | split _ _ hf _ _ ihl ihr =>
    intro ht
    have hv := List.find?_some hf
    have hl := ihl ht hv
    exact hl.split hv (ihr (hl.sameState.tracks ht) (hl.sameState.isFree_eq ▸ hv))
  | skip v b _ => exact fun _ _ ↦ .nil (.refl _) rfl rfl
  | @branch s s' t v b _ _ ih =>
    intro ht hv
    have h := ih s.node ht (.assign b .refl hv) rfl
    rw [Node.valueOf_assign m (Node.isFree_iff.1 hv).1] at h
    exact { h with height := h.height.trans (Node.freeCount_assign_lt m b hv) }

section Parts

variable {below : Search R → Search R}

theorem exists_runs_explore (level : ℕ)
    (hbelow : ∀ c : Search R, Node.Reaches m s.node c.node →
      ∃ t, Runs m deadline .enter c t (c.enter m deadline below)) :
    ∃ t, Runs m deadline (.explore level) s t (s.explore m deadline below level) := by
  unfold explore
  dsimp only
  cases hp : (s.node.propagate m).2 with
  | false => exact ⟨_, .conflict level hp⟩
  | true =>
    obtain ⟨t, h⟩ := hbelow { s with node := (s.node.propagate m).1 } (Node.reaches_propagate m s.node)
    exact ⟨t, .explore level hp h⟩

theorem exists_runs_branch {v : ℕ} (b : Bool)
    (hbelow : ∀ c : Search R, Node.Reaches m (s.node.assign m v b) c.node →
      ∃ t, Runs m deadline .enter c t (c.enter m deadline below)) :
    ∃ t, Runs m deadline (.branch v b) s t (s.branch m deadline below v b) := by
  unfold branch
  split
  · next ht => exact ⟨_, .skip v b ht⟩
  · next ht =>
    obtain ⟨t, h⟩ := exists_runs_explore (s := { s with node := s.node.assign m v b }) s.node.trail.length hbelow
    exact ⟨t, .branch v b (Bool.eq_false_of_not_eq_true ht) h⟩

theorem exists_runs_enter_of_below (hbelow : deadline (s.nodes + 1) = false → s.isPruned m = false →
      ∃ t, Runs m deadline .enter s t (below { s with nodes := s.nodes + 1 })) :
    ∃ t, Runs m deadline .enter s t (s.enter m deadline below) := by
  unfold enter
  dsimp only
  split
  · next hd => exact ⟨_, .cutShort hd⟩
  split
  · next hd hpr => exact ⟨_, .prune (Bool.eq_false_of_not_eq_true hd) hpr⟩
  · next hd hpr => exact hbelow (Bool.eq_false_of_not_eq_true hd) (Bool.eq_false_of_not_eq_true hpr)

end Parts

/-- The variables of the order that were passed have a value at the node and everywhere below it. -/
theorem exists_runs_enter (order : List ℕ) {passed : List ℕ} (ho : m.branchingOrder = passed ++ order)
    (hs : s.node.Tracks m) (hp : ∀ v ∈ passed, ¬ s.node.isFree v) :
    ∃ t, Runs m deadline .enter s t (s.enter m deadline (descend m deadline order)) := by
  induction order generalizing passed s with
  | nil =>
    refine exists_runs_enter_of_below fun hd hpr ↦ ⟨_, .record hd hpr ?_⟩
    rwa [ho, List.append_nil, List.find?_eq_none]
  | cons v order ih =>
    have ho' : m.branchingOrder = (passed ++ [v]) ++ order := by rw [ho, List.append_assoc]; rfl
    have hpassed {n : Node R} (h : ∀ w ∈ passed, ¬ n.isFree w) (hv : ¬ n.isFree v) :
        ∀ w ∈ passed ++ [v], ¬ n.isFree w := by
      intro w hw
      rcases List.mem_append.1 hw with hw | hw
      · exact h w hw
      · rwa [List.mem_singleton.1 hw]
    by_cases hv : s.node.isFree v = true
    · -- Whatever is entered below has a value for the variable.
      have hchild {n : Node R} (b : Bool) (hn : n.Tracks m) (hfree : n.isFree = s.node.isFree) (c : Search R)
          (hr : Node.Reaches m (n.assign m v b) c.node) :
          ∃ t, Runs m deadline .enter c t (c.enter m deadline (descend m deadline order)) := by
        have hvn : n.isFree v := hfree ▸ hv
        have hv' : ¬ c.node.isFree v := fun hc ↦ hr.ne_of_isFree hvn hc rfl
        refine ih ho' (hr.tracks (hn.assign hvn b)) (hpassed (fun w hw hc ↦ ?_) hv')
        exact hp w hw (hfree ▸ (Node.Reaches.refl.assign b hvn).isFree hn (hr.isFree (hn.assign hvn b) hc))
      have hf : m.branchingOrder.find? s.node.isFree = some v := by
        rw [ho, List.find?_append, List.find?_eq_none.2 hp, Option.none_or, List.find?_cons_of_pos hv]
      refine exists_runs_enter_of_below fun hd hpr ↦ ?_
      obtain ⟨left, hl⟩ := exists_runs_branch (s := { s with nodes := s.nodes + 1 }) (m.prefers v)
        (hchild (m.prefers v) hs rfl)
      have hback := (hl.bounded hs hv).sameState
      obtain ⟨right, hr⟩ := exists_runs_branch (!m.prefers v)
        (hchild (!m.prefers v) (hback.tracks hs) hback.isFree_eq)
      rw [descend, if_pos hv]
      exact ⟨_, .split hd hpr hf hl hr⟩
    · have hskip : s.enter m deadline (descend m deadline (v :: order)) =
          s.enter m deadline (descend m deadline order) := by
        simp only [enter, descend, if_neg hv]
      rw [hskip]
      exact ih ho' hs (hpassed hp hv)

theorem exists_runs_run (m : Model R) (deadline : Deadline) :
    ∃ t, Runs m deadline (.explore 0) { node := .root m } t (run m deadline) := by
  refine exists_runs_explore 0 fun c hr ↦ ?_
  exact exists_runs_enter m.branchingOrder (List.nil_append _).symm (hr.tracks (Node.tracks_root m)) (by simp)

end Search

/-- Whatever the coefficients of the objective are, its arithmetic and the time there is, the search comes to an
end. The nodes that it enters are those of one binary tree, which it counts; they are at most one level more than
there are variables, no total assignment is reached by two of them, and so none is recorded twice. -/
theorem search_withinBinaryTree [Scalar R] (m : Model R) (deadline : Deadline) :
    ∃ t : BinaryTree (Node R),
      (∀ t' s', Search.Runs m deadline (.explore 0) { node := .root m } t' s' ↔
        t' = t ∧ s' = Search.run m deadline) ∧
      (branchAndBound deadline m).nodes = t.numNodes ∧ t.numNodes ≤ 2 ^ (m.numVars + 1) - 1 ∧
      t.height ≤ m.numVars + 1 ∧ (Search.leaves t).Nodup ∧
      ((Search.run m deadline).incumbents.map Incumbent.values).Nodup := by
  obtain ⟨t, h⟩ := Search.exists_runs_run m deadline
  have hb := h.bounded (.root m) (Node.tracks_root m) .refl rfl
  have hheight : t.height ≤ m.numVars + 1 := Node.freeCount_root m ▸ hb.height
  have hnodes : t.numNodes < 2 ^ (m.numVars + 1) :=
    (numNodes_lt_two_pow_height t).trans_le (Nat.pow_le_pow_right Nat.two_pos hheight)
  refine ⟨t, fun t' s' ↦ ⟨fun h' ↦ h.unique h', ?_⟩, hb.nodes.trans (Nat.zero_add _), Nat.le_sub_one_of_lt hnodes,
    hheight, hb.nodup_leaves, ?_⟩
  · rintro ⟨rfl, rfl⟩
    exact h
  · have hrecorded :
        ((Search.run m deadline).incumbents.map Incumbent.values).Sublist (Search.leaves t).reverse := by
      simpa only [List.map_nil, List.append_nil] using hb.incumbents
    exact hrecorded.nodup (List.nodup_reverse.2 hb.nodup_leaves)

/-- Undefined coefficients let nothing be pruned, so that the whole tree is searched. -/
example : (branchAndBound .never
    { names := #["a", "b"], objective := #[0 / 0, 0 / 0], constraints := [] : Model Float }).nodes =
      2 ^ (2 + 1) - 1 := by
  decide +kernel

end NoisyDNF.ZeroOne
