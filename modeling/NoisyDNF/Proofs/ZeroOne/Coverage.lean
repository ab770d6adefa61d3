import NoisyDNF.Proofs.ZeroOne.Consistency
import NoisyDNF.ZeroOne.Search

namespace NoisyDNF.ZeroOne

variable {R : Type} [Scalar R]

/-- A property that no assignment of a free variable and no undoing destroys. -/
structure Node.Invariant (m : Model R) (J : Node R → Prop) : Prop where
  assign : ∀ {n : Node R} {v : ℕ} (b : Bool), n.Tracks m → J n → n.isFree v → J (n.assign m v b)
  undo : ∀ {n : Node R}, n.Tracks m → J n → J (n.undo m)

namespace Node.Invariant

variable {m : Model R} {J : Node R → Prop} {n n' : Node R}

theorem trivial (m : Model R) : Node.Invariant m fun _ ↦ True := ⟨fun _ _ _ _ ↦ ⟨⟩, fun _ _ ↦ ⟨⟩⟩

theorem reaches (hJ : Node.Invariant m J) (ht : n.Tracks m) (hn : J n) (h : Reaches m n n') :
    J n' := by
  induction h with
  | refl => exact hn
  | assign b hr hv ih => exact hJ.assign b (hr.tracks ht) ih hv

theorem undoTo (hJ : Node.Invariant m J) (ht : n.Tracks m) (hn : J n) (level : ℕ) :
    J (n.undoTo m level) := by
  have h (k : ℕ) : (k.repeat (Node.undo m) n).Tracks m ∧ J (k.repeat (Node.undo m) n) := by
    induction k with
    | zero => exact ⟨ht, hn⟩
    | succ k ih => exact ⟨ih.1.undo, hJ.undo ih.1 ih.2⟩
  exact (h _).2

theorem reachable (hJ : Node.Invariant m J) (hroot : J (.root m)) (h : n.Reachable m) : J n := by
  induction h with
  | root => exact hroot
  | assign b hr hv ih => exact hJ.assign b hr.tracks ih hv
  | undo hr ih => exact hJ.undo hr.tracks ih

end Node.Invariant

theorem Node.invariant_reachable (m : Model R) : Node.Invariant m fun n ↦ n.Reachable m :=
  ⟨fun b _ h hv ↦ h.assign b hv, fun _ h ↦ h.undo⟩

namespace Search

/-- The states in which nodes are entered when `s` is explored and `below` tells those further down. -/
def enteredIn (m : Model R) (deadline : Deadline) (below : Search R → List (Search R))
    (s : Search R) : List (Search R) :=
  let p := s.node.propagate m
  let c : Search R := { s with node := p.1, nodes := s.nodes + 1 }
  if p.2 then c :: (if deadline c.nodes || c.isPruned m then [] else below c) else []

def enteredAt (m : Model R) (deadline : Deadline) (below : Search R → List (Search R)) (v : ℕ)
    (value : Bool) (s : Search R) : List (Search R) :=
  if s.timedOut then []
  else enteredIn m deadline below { s with node := s.node.assign m v value }

def enteredFrom (m : Model R) (deadline : Deadline) : List ℕ → Search R → List (Search R)
  | [], _ => []
  | v :: order, s =>
    if s.node.isFree v then
      enteredAt m deadline (enteredFrom m deadline order) v (m.prefers v) s ++
        enteredAt m deadline (enteredFrom m deadline order) v (!m.prefers v)
          (s.branch m deadline (descend m deadline order) v (m.prefers v))
    else enteredFrom m deadline order s

def entered (m : Model R) (deadline : Deadline) : List (Search R) :=
  enteredIn m deadline (enteredFrom m deadline m.branchingOrder) { node := .root m }

structure IsLeaf (m : Model R) (c : Search R) : Prop where
  not_isFree : ∀ v, ¬ c.node.isFree v
  not_isPruned : c.isPruned m = false

structure Entered (m : Model R) (J : Node R → Prop) (c : Search R) : Prop where
  tracks : c.node.Tracks m
  settled : c.node.Settled m
  invariant : J c.node

/-- An assignment is accounted for: it was recorded, or a node above it was pruned, or time was up. -/
def Accounts (m : Model R) (s : Search R) (es : List (Search R)) (y : Array Bool) : Prop :=
  s.timedOut = true ∨ (∃ i ∈ s.incumbents, i.values = y) ∨
    ∃ c ∈ es, c.isPruned m = true ∧ Completes c.node.valueOf (truth y)

/-- A stretch of a search from `s` to `s'` that enters nodes in the states `es` and has to account for
the feasible assignments in `Y`. -/
structure Outcome (m : Model R) (deadline : Deadline) (J : Node R → Prop) (Y : Array Bool → Prop)
    (s s' : Search R) (es : List (Search R)) : Prop where
  sameState : Node.SameState s'.node s.node
  invariant : J s'.node
  timedOut_of_timedOut : s.timedOut = true → s'.timedOut = true
  timedOut : s'.timedOut = true → s.timedOut = true ∨ ∃ k, deadline k = true
  incumbents : s.incumbents <:+ s'.incumbents
  entered : ∀ c ∈ es, Entered m J c ∧ c.incumbents <:+ s'.incumbents
  recorded : ∀ i l, i :: l <:+ s'.incumbents → i :: l <:+ s.incumbents ∨
    ∃ c ∈ es, c.IsLeaf m ∧ (c.record m).incumbents = i :: l
  accounts : ∀ y, m.isFeasible y = true → Y y → Accounts m s' es y

namespace Outcome

variable {m : Model R} {deadline : Deadline} {J : Node R → Prop} {Y Y' : Array Bool → Prop}
  {s s' s'' : Search R} {es es' : List (Search R)}

theorem refl (hJ : J s.node) (h : ∀ y, m.isFeasible y = true → Y y → s.timedOut = true) :
    Outcome m deadline J Y s s [] where
  sameState := .refl _
  invariant := hJ
  timedOut_of_timedOut := id
  timedOut := .inl
  incumbents := List.suffix_rfl
  entered := by simp
  recorded _ _ := .inl
  accounts y hy hY := .inl (h y hy hY)

theorem mono (h : Outcome m deadline J Y s s' es) (hY : ∀ y, m.isFeasible y = true → Y' y → Y y) :
    Outcome m deadline J Y' s s' es :=
  { h with accounts := fun y hy hy' ↦ h.accounts y hy (hY y hy hy') }

theorem trans (h : Outcome m deadline J Y s s' es) (h' : Outcome m deadline J Y' s' s'' es') :
    Outcome m deadline J (fun y ↦ Y y ∨ Y' y) s s'' (es ++ es') where
  sameState := h'.sameState.trans h.sameState
  invariant := h'.invariant
  timedOut_of_timedOut ht := h'.timedOut_of_timedOut (h.timedOut_of_timedOut ht)
  timedOut ht := (h'.timedOut ht).elim h.timedOut .inr
  incumbents := h.incumbents.trans h'.incumbents
  entered c hc := by
    rcases List.mem_append.1 hc with hc | hc
    · exact ⟨(h.entered c hc).1, (h.entered c hc).2.trans h'.incumbents⟩
    · exact h'.entered c hc
  recorded i l hi := by
    rcases h'.recorded i l hi with hi | ⟨c, hc, hl⟩
    · rcases h.recorded i l hi with hi | ⟨c, hc, hl⟩
      · exact .inl hi
      · exact .inr ⟨c, List.mem_append_left _ hc, hl⟩
    · exact .inr ⟨c, List.mem_append_right _ hc, hl⟩
  accounts y hy hY := by
    rcases hY with hY | hY
    · rcases h.accounts y hy hY with ht | ⟨i, hi, hiy⟩ | ⟨c, hc, hp⟩
      · exact .inl (h'.timedOut_of_timedOut ht)
      · exact .inr (.inl ⟨i, h'.incumbents.subset hi, hiy⟩)
      · exact .inr (.inr ⟨c, List.mem_append_left _ hc, hp⟩)
    · rcases h'.accounts y hy hY with ht | hi | ⟨c, hc, hp⟩
      · exact .inl ht
      · exact .inr (.inl hi)
      · exact .inr (.inr ⟨c, List.mem_append_right _ hc, hp⟩)

/-- The node where the search starts is one of those that it has entered. -/
theorem cons (h : Outcome m deadline J Y s s' es) (hs : Entered m J s) :
    Outcome m deadline J Y s s' (s :: es) :=
  { h with
    entered := fun c hc ↦ by
      rcases List.mem_cons.1 hc with rfl | hc
      · exact ⟨hs, h.incumbents⟩
      · exact h.entered c hc
    recorded := fun i l hi ↦ by
      rcases h.recorded i l hi with hi | ⟨c, hc, hl⟩
      · exact .inl hi
      · exact .inr ⟨c, List.mem_cons_of_mem _ hc, hl⟩
    accounts := fun y hy hY ↦ by
      rcases h.accounts y hy hY with ht | hi | ⟨c, hc, hp⟩
      · exact .inl ht
      · exact .inr (.inl hi)
      · exact .inr (.inr ⟨c, List.mem_cons_of_mem _ hc, hp⟩) }

/-- Going back up from a node to the one above it where the stretch is to begin. -/
theorem goUp (h : Outcome m deadline J Y s s' es) (hJ : Node.Invariant m J) {s₀ : Search R}
    (hr : Node.Reaches m s₀.node s.node) (ht : s₀.node.Tracks m)
    (hi : s₀.incumbents = s.incumbents) (ho : s₀.timedOut = s.timedOut) :
    Outcome m deadline J Y s₀ { s' with node := s'.node.undoTo m s₀.node.trail.length } es where
  sameState := hr.undoTo ht h.sameState
  invariant := hJ.undoTo (h.sameState.tracks (hr.tracks ht)) h.invariant _
  timedOut_of_timedOut := ho ▸ h.timedOut_of_timedOut
  timedOut := ho ▸ h.timedOut
  incumbents := hi ▸ h.incumbents
  entered := h.entered
  recorded := hi ▸ h.recorded
  accounts := h.accounts

end Outcome

def Open (n : Node R) (y : Array Bool) : Prop := Completes n.valueOf (truth y)

variable {m : Model R} {deadline : Deadline} {J : Node R → Prop}

theorem outcome_of_stop {s s' : Search R} {Y : Array Bool → Prop} (hJ : J s.node)
    (hn : s'.node = s.node) (hi : s'.incumbents = s.incumbents)
    (ht : s.timedOut = true → s'.timedOut = true)
    (ht' : s'.timedOut = true → s.timedOut = true ∨ ∃ k, deadline k = true)
    (h : ∀ y, m.isFeasible y = true → Y y → Accounts m s' [] y) :
    Outcome m deadline J Y s s' [] where
  sameState := hn ▸ .refl _
  invariant := hn ▸ hJ
  timedOut_of_timedOut := ht
  timedOut := ht'
  incumbents := hi ▸ List.suffix_rfl
  entered := by simp
  recorded i l h := .inl (hi ▸ h)
  accounts := h

theorem outcome_explore (hm : m.WellFormed) (hJ : Node.Invariant m J)
    {below : Search R → Search R} {belowEntered : Search R → List (Search R)} {s s₀ : Search R}
    (hbelow : ∀ c : Search R, Node.Reaches m s.node c.node → Entered m J c →
      c.isPruned m = false → Outcome m deadline J (Open c.node) c (below c) (c :: belowEntered c))
    (hr : Node.Reaches m s₀.node s.node) (ht : s₀.node.Tracks m) (hs : J s.node)
    (hi : s₀.incumbents = s.incumbents) (ho : s₀.timedOut = s.timedOut) :
    Outcome m deadline J (Open s.node) s₀ (explore m deadline below s₀.node.trail.length s)
      (enteredIn m deadline belowEntered s) := by
  have hts : s.node.Tracks m := hr.tracks ht
  have hrp := Node.reaches_propagate m s.node
  have htp := hrp.tracks hts
  have hJp := hJ.reaches hts hs hrp
  have hsound (y : Array Bool) (hy : m.isFeasible y = true) (hopen : Open s.node y) :=
    Node.propagate_sound hm hts hopen ((Model.isFeasible_iff hm).1 hy).2
  unfold explore enteredIn
  cases hp : (s.node.propagate m).2 with
  | false =>
    -- A conflict: no feasible assignment is left open.
    have h : Outcome m deadline J (Open s.node) { s with node := (s.node.propagate m).1 }
        { s with node := (s.node.propagate m).1 } [] :=
      .refl hJp fun y hy hopen ↦ absurd (hp.symm.trans (hsound y hy hopen).1) Bool.false_ne_true
    simpa [hp] using h.goUp hJ (hr.trans hrp) ht hi ho
  | true =>
    let c : Search R := { s with node := (s.node.propagate m).1, nodes := s.nodes + 1 }
    have hc : Entered m J c := ⟨htp, Node.settled_propagate hp, hJp⟩
    have hopen (y : Array Bool) (hy : m.isFeasible y = true) (h : Open s.node y) : Open c.node y :=
      (hsound y hy h).2
    by_cases hd : deadline c.nodes = true
    · have h : Outcome m deadline J (Open c.node) c { c with timedOut := true } [] :=
        outcome_of_stop hJp rfl rfl (fun _ ↦ rfl) (fun _ ↦ .inr ⟨_, hd⟩) fun _ _ _ ↦ .inl rfl
      simpa [hp, enter, c, hd] using ((h.cons hc).mono hopen).goUp hJ (hr.trans hrp) ht hi ho
    cases hpr : c.isPruned m with
    | true =>
      have h : Outcome m deadline J (Open c.node) c c [c] :=
        { (Outcome.refl (Y := fun _ ↦ False) hJp (by simp)).cons hc with
          accounts := fun y _ hy ↦ .inr (.inr ⟨c, List.mem_singleton_self c, hpr, hy⟩) }
      simpa [hp, enter, c, hd, hpr] using (h.mono hopen).goUp hJ (hr.trans hrp) ht hi ho
    | false =>
      have h := (hbelow c hrp hc hpr).mono hopen
      simpa [hp, enter, c, hd, hpr] using h.goUp hJ (hr.trans hrp) ht hi ho

theorem outcome_branch (hm : m.WellFormed) (hJ : Node.Invariant m J)
    {below : Search R → Search R} {belowEntered : Search R → List (Search R)} {s : Search R}
    {v : ℕ} (b : Bool)
    (hbelow : ∀ c : Search R, Node.Reaches m (s.node.assign m v b) c.node → Entered m J c →
      c.isPruned m = false → Outcome m deadline J (Open c.node) c (below c) (c :: belowEntered c))
    (ht : s.node.Tracks m) (hs : J s.node) (hv : s.node.isFree v) :
    Outcome m deadline J (fun y ↦ Open s.node y ∧ truth y v = b) s
      (s.branch m deadline below v b) (enteredAt m deadline belowEntered v b s) := by
  unfold branch enteredAt
  by_cases ho : s.timedOut = true
  · simpa [ho] using Outcome.refl (Y := fun y ↦ Open s.node y ∧ truth y v = b) hs fun _ _ _ ↦ ho
  · have hopen (y : Array Bool) (_ : m.isFeasible y = true) (h : Open s.node y ∧ truth y v = b) :
        Open (s.node.assign m v b) y := by
      rw [Open, Node.valueOf_assign m (Node.isFree_iff.1 hv).1, ← h.2]
      exact h.1.update v
    have h := outcome_explore (s := { s with node := s.node.assign m v b }) hm hJ hbelow
      (Node.Reaches.refl.assign b hv) ht (hJ.assign b ht hs hv) rfl rfl
    simpa [ho] using h.mono hopen

theorem outcome_record {s : Search R} (hm : m.WellFormed) (hs : Entered m J s)
    (hl : s.IsLeaf m) : Outcome m deadline J (Open s.node) s (s.record m) [s] where
  sameState := .refl _
  invariant := hs.invariant
  timedOut_of_timedOut := id
  timedOut := .inl
  incumbents := List.suffix_cons _ _
  entered c hc := by
    rw [List.mem_singleton.1 hc]
    exact ⟨hs, List.suffix_cons _ _⟩
  recorded i l hi := by
    rcases List.suffix_cons_iff.1 hi with hi | hi
    · exact .inr ⟨s, List.mem_singleton_self s, hl, hi.symm⟩
    · exact .inl hi
  accounts y hy hopen := by
    refine .inr (.inl ⟨_, List.mem_cons_self, ?_⟩)
    obtain ⟨hsize, -⟩ := (Model.isFeasible_iff hm).1 hy
    refine Array.ext (by simp [hs.tracks.size_values, hsize]) fun v hv hv' ↦ ?_
    have hlt : v < s.node.values.size := by simpa using hv
    have hval := Option.ne_none_iff_exists'.1 fun h ↦ hl.not_isFree v (Node.isFree_iff.2 ⟨hlt, h⟩)
    obtain ⟨b, hb⟩ := hval
    have hy' : truth y v = b := hopen v b hb
    rw [Node.valueOf, Array.getD_eq_getD_getElem?, Array.getElem?_eq_getElem hlt] at hb
    rw [truth, Array.getD_eq_getD_getElem?, Array.getElem?_eq_getElem hv'] at hy'
    simp_all

theorem outcome_descend (hm : m.WellFormed) (hJ : Node.Invariant m J) (order : List ℕ)
    {s : Search R} (hs : Entered m J s) (hp : s.isPruned m = false)
    (ho : ∀ v, s.node.isFree v → v ∈ order) :
    Outcome m deadline J (Open s.node) s (descend m deadline order s)
      (s :: enteredFrom m deadline order s) := by
  induction order generalizing s with
  | nil => exact outcome_record hm hs ⟨fun v hv ↦ List.not_mem_nil (ho v hv), hp⟩
  | cons v order ih =>
    unfold descend enteredFrom
    by_cases hv : s.node.isFree v = true
    · -- The free variables of a child are free here as well, and `v` is none of them.
      have hchild {n : Node R} (b : Bool) (hn : n.Tracks m) (hfree : n.isFree = s.node.isFree)
          (c : Search R) (hr : Node.Reaches m (n.assign m v b) c.node) (hc : Entered m J c)
          (hcp : c.isPruned m = false) :
          Outcome m deadline J (Open c.node) c (descend m deadline order c)
            (c :: enteredFrom m deadline order c) := by
        refine ih hc hcp ?_
        intro w hw
        have hvn : n.isFree v := hfree ▸ hv
        have hr' := (Node.Reaches.refl.assign b hvn).trans hr
        have hwn : n.isFree w := hr'.isFree hn hw
        exact (List.mem_cons.1 (ho w (hfree ▸ hwn))).resolve_left (hr.ne_of_isFree hvn hw)
      have h := outcome_branch hm hJ (m.prefers v) (hchild _ hs.tracks rfl) hs.tracks
        hs.invariant hv
      have hfree := h.sameState.isFree_eq
      have ht := h.sameState.tracks hs.tracks
      have h' := outcome_branch hm hJ (!m.prefers v) (hchild _ ht hfree) ht h.invariant (hfree ▸ hv)
      rw [if_pos hv, if_pos hv]
      refine ((h.trans h').mono fun y _ hy ↦ ?_).cons hs
      cases hb : truth y v == m.prefers v with
      | true => exact .inl ⟨hy, eq_of_beq hb⟩
      | false =>
        refine .inr ⟨?_, ?_⟩
        · rw [Open, h.sameState.valueOf_eq]
          exact hy
        · cases hy' : truth y v <;> cases hp' : m.prefers v <;> simp_all
    · rw [if_neg hv, if_neg hv]
      refine ih hs hp fun w hw ↦ (List.mem_cons.1 (ho w hw)).resolve_left ?_
      rintro rfl
      exact hv hw

theorem mem_insertBranch (m : Model R) (v w : ℕ) (ws : List ℕ) :
    w ∈ m.insertBranch v ws ↔ w = v ∨ w ∈ ws := by
  induction ws with
  | nil => simp [Model.insertBranch]
  | cons u us ih =>
    unfold Model.insertBranch
    split
    · simp
    · simp only [List.mem_cons, ih]
      tauto

theorem mem_branchingOrder (m : Model R) (v : ℕ) : v ∈ m.branchingOrder ↔ v < m.numVars := by
  have h (vs : List ℕ) : v ∈ vs.foldr m.insertBranch [] ↔ v ∈ vs := by
    induction vs with
    | nil => simp
    | cons u us ih => rw [List.foldr_cons, mem_insertBranch, ih, List.mem_cons]
  rw [Model.branchingOrder, h, List.mem_range]

theorem outcome_run (deadline : Deadline) (hm : m.WellFormed) (hJ : Node.Invariant m J) (hroot : J (.root m)) :
    Outcome m deadline J (fun _ ↦ True) { node := .root m } (run m deadline)
      (entered m deadline) := by
  have hroot' := Node.tracks_root m
  refine (outcome_explore hm hJ (fun c _ hc hcp ↦ ?_) .refl hroot' hroot rfl rfl).mono ?_
  · refine outcome_descend hm hJ _ hc hcp ?_
    intro v hv
    exact (mem_branchingOrder m v).2 (hc.tracks.lt_numVars hv)
  · exact fun y _ _ ↦ Node.completes_root m (truth y)

/-- A search computes its bounds at nodes that assigning and undoing lead to. -/
theorem reachable_of_mem_entered (hm : m.WellFormed) {c : Search R} (hc : c ∈ entered m deadline) :
    c.node.Reachable m :=
  ((outcome_run deadline hm (Node.invariant_reachable m) .root).entered c hc).1.invariant

end Search

end NoisyDNF.ZeroOne
