import NoisyDNF.ZeroOne.Node

namespace NoisyDNF.ZeroOne

namespace Comparison

def admits (c : Comparison) (rhs least greatest : Int) : Bool :=
  !(c.isUpper && decide (rhs < least)) && !(c.isLower && decide (greatest < rhs))

end Comparison

abbrev Forced := Nat × Bool

def collect? {α β : Type} (f : α → Option (List β)) : List α → Option (List β)
  | [] => some []
  | x :: xs =>
    match f x, collect? f xs with
    | some ys, some zs => some (ys ++ zs)
    | _, _ => none

theorem exists_mem_of_collect? {α β : Type} {f : α → Option (List β)} {xs : List α} {ys : List β}
    (h : collect? f xs = some ys) {y : β} (hy : y ∈ ys) :
    ∃ x ∈ xs, ∃ zs, f x = some zs ∧ y ∈ zs := by
  induction xs generalizing ys with
  | nil => cases h; cases hy
  | cons x xs ih =>
    unfold collect? at h
    split at h
    · next zs zs' hx hxs =>
      cases h
      rcases List.mem_append.1 hy with hy | hy
      · exact ⟨x, List.mem_cons_self, zs, hx, hy⟩
      · obtain ⟨x', hx', r⟩ := ih hxs hy
        exact ⟨x', List.mem_cons_of_mem x hx', r⟩
    · cases h

variable {R : Type}

namespace Constraint

/-- Whether the constraint can still be satisfied when a free variable with the given coefficient takes
the value. -/
def admits (c : Constraint) (a : Activity) (coeff : Int) (value : Bool) : Bool :=
  if value then c.comparison.admits c.rhs (a.least + max coeff 0) (a.greatest + min coeff 0)
  else c.comparison.admits c.rhs (a.least - min coeff 0) (a.greatest - max coeff 0)

/-- What a constraint forces for the variable of one of its terms; nothing stands for a conflict. -/
def forcedBy? (c : Constraint) (n : Node R) (a : Activity) (t : Nat × Int) : Option (List Forced) :=
  if n.isFree t.1 then
    match c.admits a t.2 false, c.admits a t.2 true with
    | true, true => some []
    | false, true => some [(t.1, true)]
    | true, false => some [(t.1, false)]
    | false, false => none
  else some []

def forced? (n : Node R) (c : Constraint) (a : Activity) : Option (List Forced) :=
  if c.comparison.admits c.rhs a.least a.greatest then collect? (c.forcedBy? n a) c.terms else none

theorem isFree_of_forced? {n : Node R} {c : Constraint} {a : Activity} {fs : List Forced}
    (h : forced? n c a = some fs) {f : Forced} (hf : f ∈ fs) : n.isFree f.1 := by
  unfold forced? at h
  split at h
  · obtain ⟨t, -, zs, ht, hz⟩ := exists_mem_of_collect? h hf
    unfold forcedBy? at ht
    split at ht
    · next hfree =>
      split at ht <;> cases ht
      · cases hz
      · cases List.mem_singleton.1 hz; exact hfree
      · cases List.mem_singleton.1 hz; exact hfree
    · cases ht; cases hz
  · cases h

end Constraint

namespace Node

def forced? (m : Model R) (n : Node R) : Option (List Forced) :=
  collect? (fun p : Constraint × Activity ↦ p.1.forced? n p.2) (m.constraints.zip n.activities)

theorem isFree_of_forced? {m : Model R} {n : Node R} {fs : List Forced}
    (h : n.forced? m = some fs) {f : Forced} (hf : f ∈ fs) : n.isFree f.1 := by
  obtain ⟨_, -, _, hp, hz⟩ := exists_mem_of_collect? h hf
  exact Constraint.isFree_of_forced? hp hz

variable [Scalar R]

/-- Fixes forced variables one after the other, up to the first that already has the other value.
Says whether there was none. -/
def assignAll (m : Model R) (n : Node R) : List Forced → Node R × Bool
  | [] => (n, true)
  | f :: fs =>
    match n.valueOf f.1 with
    | none => assignAll m (n.assign m f.1 f.2) fs
    | some value => if value = f.2 then assignAll m n fs else (n, false)

theorem freeCount_assign_le (m : Model R) (n : Node R) (v : Nat) (value : Bool) :
    (n.assign m v value).freeCount ≤ n.freeCount := by
  simp only [freeCount, assign, Array.setIfInBounds_def]
  split
  · rw [Array.count_set, Option.some_beq_none]
    exact Nat.sub_le _ _
  · exact Nat.le_refl _

theorem freeCount_assign_lt (m : Model R) {n : Node R} {v : Nat} (value : Bool)
    (h : n.isFree v) : (n.assign m v value).freeCount < n.freeCount := by
  obtain ⟨hv, hn⟩ := Array.getElem?_eq_some_iff.1 (eq_of_beq h)
  have hpos : 0 < n.values.count none := Array.count_pos_iff.2 (hn ▸ Array.getElem_mem hv)
  have hset : (n.values.set v (some value) hv).count none = n.values.count none - 1 := by
    simp only [Array.count_set, hn, beq_self_eq_true, Option.some_beq_none, if_true,
      Bool.false_eq_true, if_false, Nat.add_zero]
  simp only [freeCount, assign, Array.setIfInBounds_def, hv, dif_pos, hset]
  exact Nat.sub_lt hpos Nat.one_pos

theorem freeCount_assignAll_le (m : Model R) (n : Node R) (fs : List Forced) :
    (n.assignAll m fs).1.freeCount ≤ n.freeCount := by
  induction fs generalizing n with
  | nil => exact Nat.le_refl _
  | cons f fs ih =>
    unfold assignAll
    split
    · exact Nat.le_trans (ih _) (freeCount_assign_le m n f.1 f.2)
    · split
      · exact ih n
      · exact Nat.le_refl _

theorem freeCount_assignAll_lt (m : Model R) {n : Node R} {f : Forced} {fs : List Forced}
    (h : n.isFree f.1) : (n.assignAll m (f :: fs)).1.freeCount < n.freeCount := by
  have hv : n.valueOf f.1 = none := by
    rw [valueOf, Array.getD_eq_getD_getElem?, eq_of_beq h, Option.getD_some]
  rw [assignAll, hv]
  exact Nat.lt_of_le_of_lt (freeCount_assignAll_le m _ fs) (freeCount_assign_lt m f.2 h)

/-- Fixes what is forced until nothing is. Says whether no conflict came up; on a conflict the node is
left as it was reached. -/
def propagate (m : Model R) (n : Node R) : Node R × Bool :=
  match _h : n.forced? m with
  | none => (n, false)
  | some [] => (n, true)
  | some (f :: fs) =>
    match _h' : n.assignAll m (f :: fs) with
    | (n', true) => propagate m n'
    | (n', false) => (n', false)
termination_by n.freeCount
decreasing_by
  have hlt : (n.assignAll m (f :: fs)).1.freeCount < n.freeCount :=
    freeCount_assignAll_lt m (isFree_of_forced? ‹_› List.mem_cons_self)
  rwa [‹n.assignAll m (f :: fs) = (n', true)›] at hlt

end Node

end NoisyDNF.ZeroOne
