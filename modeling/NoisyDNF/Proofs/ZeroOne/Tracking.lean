import NoisyDNF.Proofs.ZeroOne.Activity

namespace NoisyDNF.ZeroOne.Node

variable {R : Type}

theorem isFree_iff {n : Node R} {v : ℕ} :
    n.isFree v = true ↔ v < n.values.size ∧ n.valueOf v = none := by
  simp only [isFree, valueOf, beq_iff_eq, Array.getElem?_eq_some_iff, Array.getD_eq_getD_getElem?]
  constructor
  · rintro ⟨hv, h⟩
    exact ⟨hv, by simp [Array.getElem?_eq_getElem hv, h]⟩
  · rintro ⟨hv, h⟩
    exact ⟨hv, by simpa [Array.getElem?_eq_getElem hv] using h⟩

theorem lt_size_of_valueOf {n : Node R} {v : ℕ} {b : Bool} (h : n.valueOf v = some b) :
    v < n.values.size := by
  by_contra hv
  rw [valueOf, Array.getD_eq_getD_getElem?, Array.getElem?_eq_none (not_lt.1 hv)] at h
  cases h

theorem values_eq_of_valueOf_eq {n n' : Node R} (hsize : n.values.size = n'.values.size)
    (h : n.valueOf = n'.valueOf) : n.values = n'.values := by
  refine Array.ext hsize fun v hv hv' ↦ ?_
  have hval := congrFun h v
  rwa [valueOf, valueOf, Array.getD_eq_getD_getElem?, Array.getD_eq_getD_getElem?,
    Array.getElem?_eq_getElem hv, Array.getElem?_eq_getElem hv'] at hval

/-- The trail lists the variables that have a value, each once, and the activities fit the values. -/
structure Tracks (m : Model R) (n : Node R) : Prop where
  size_values : n.values.size = m.numVars
  nodup_trail : n.trail.Nodup
  mem_trail_iff : ∀ v, v ∈ n.trail ↔ n.valueOf v ≠ none
  activities : n.activities = m.constraints.map fun c ↦ c.activityUnder n.valueOf

theorem Tracks.zip_activities {m : Model R} {n : Node R} (h : n.Tracks m) :
    m.constraints.zip n.activities =
      m.constraints.map fun c ↦ (c, c.activityUnder n.valueOf) := by
  have hz := List.zip_map' (l := m.constraints) (f := id) (g := fun c ↦ c.activityUnder n.valueOf)
  rwa [List.map_id, ← h.activities] at hz

theorem Tracks.lt_numVars {m : Model R} {n : Node R} (h : n.Tracks m) {v : ℕ} (hv : n.isFree v) :
    v < m.numVars :=
  h.size_values ▸ (isFree_iff.1 hv).1

/-- The same values, trail and activities; the objective sums may differ by rounding. -/
structure SameState (n n' : Node R) : Prop where
  values : n.values = n'.values
  trail : n.trail = n'.trail
  activities : n.activities = n'.activities

namespace SameState

variable {m : Model R} {n n' n'' : Node R}

theorem refl (n : Node R) : SameState n n := ⟨rfl, rfl, rfl⟩

theorem trans (h : SameState n n') (h' : SameState n' n'') : SameState n n'' :=
  ⟨h.values.trans h'.values, h.trail.trans h'.trail, h.activities.trans h'.activities⟩

theorem valueOf_eq (h : SameState n n') : n.valueOf = n'.valueOf := by
  funext v
  rw [valueOf, h.values, valueOf]

theorem isFree_eq (h : SameState n n') : n.isFree = n'.isFree := by
  funext v
  rw [isFree, h.values, isFree]

theorem tracks (h : SameState n n') (ht : n'.Tracks m) : n.Tracks m where
  size_values := h.values ▸ ht.size_values
  nodup_trail := h.trail ▸ ht.nodup_trail
  mem_trail_iff v := by rw [h.trail, h.valueOf_eq]; exact ht.mem_trail_iff v
  activities := by rw [h.activities, h.valueOf_eq]; exact ht.activities

end SameState

variable [Scalar R]

theorem valueOf_assign (m : Model R) {n : Node R} {v : ℕ} (hv : v < n.values.size) (b : Bool) :
    (n.assign m v b).valueOf = Function.update n.valueOf v (some b) := by
  funext w
  simp only [valueOf, assign, Array.getD_eq_getD_getElem?, Array.getElem?_setIfInBounds]
  by_cases hw : w = v
  · subst hw
    simp [hv]
  · simp [hw, Ne.symm hw, valueOf]

theorem valueOf_undo {m : Model R} {n : Node R} {v : ℕ} {l : List ℕ} {b : Bool}
    (ht : n.trail = v :: l) (hv : n.valueOf v = some b) :
    (n.undo m).valueOf = Function.update n.valueOf v none := by
  have hlt := lt_size_of_valueOf hv
  funext w
  simp only [undo, ht, hv]
  simp only [valueOf, Array.getD_eq_getD_getElem?, Array.getElem?_setIfInBounds]
  by_cases hw : w = v
  · subst hw
    simp [hlt]
  · simp [hw, Ne.symm hw, valueOf]

theorem getD_replicate_self {α : Type} (k v : ℕ) (a : α) : (Array.replicate k a).getD v a = a := by
  rw [Array.getD_eq_getD_getElem?, Array.getElem?_replicate]
  split <;> rfl

theorem valueOf_root (m : Model R) : (root m).valueOf = fun _ ↦ none :=
  funext fun v ↦ getD_replicate_self m.numVars v none

theorem completes_root (m : Model R) (f : ℕ → Bool) : Completes (root m).valueOf f := by
  intro v b hv
  rw [valueOf_root] at hv
  cases hv

theorem tracks_root (m : Model R) : (root m).Tracks m := by
  refine ⟨Array.size_replicate, List.nodup_nil, fun v ↦ ?_, ?_⟩
  · simp only [valueOf_root, ne_eq, not_true, iff_false]
    exact List.not_mem_nil
  rw [valueOf_root]
  exact List.map_congr_left fun c _ ↦ c.activity_eq

namespace Tracks

variable {m : Model R} {n : Node R}

theorem assign (h : n.Tracks m) {v : ℕ} (hv : n.isFree v) (b : Bool) :
    (n.assign m v b).Tracks m := by
  obtain ⟨hlt, hnone⟩ := isFree_iff.1 hv
  have hval := valueOf_assign m hlt b
  refine ⟨by simpa [Node.assign] using h.size_values, ?_, ?_, ?_⟩
  · refine List.nodup_cons.2 ⟨fun hmem ↦ ?_, h.nodup_trail⟩
    exact (h.mem_trail_iff v).1 hmem hnone
  · intro w
    rw [hval]
    simp only [Node.assign, List.mem_cons, h.mem_trail_iff, Function.update_apply]
    by_cases hw : w = v <;> simp [hw]
  · rw [hval]
    simp only [Node.assign, h.activities, List.zipWith_map_right, List.zipWith_self]
    exact List.map_congr_left fun c _ ↦ (c.activityUnder_update hnone b).symm

theorem undo (h : n.Tracks m) : (n.undo m).Tracks m := by
  obtain ht | ⟨v, l, ht⟩ : n.trail = [] ∨ ∃ v l, n.trail = v :: l := by
    cases n.trail <;> simp
  · simpa [Node.undo, ht] using h
  obtain ⟨b, hv⟩ := Option.ne_none_iff_exists'.1 ((h.mem_trail_iff v).1 (by simp [ht]))
  have hval := valueOf_undo (m := m) ht hv
  have hnd := h.nodup_trail
  rw [ht, List.nodup_cons] at hnd
  refine ⟨?_, ?_, ?_, ?_⟩
  · simpa [Node.undo, ht, hv] using h.size_values
  · simpa [Node.undo, ht, hv] using hnd.2
  · intro w
    have hw := h.mem_trail_iff w
    rw [ht, List.mem_cons] at hw
    rw [hval]
    simp only [Node.undo, ht, hv, Function.update_apply]
    by_cases hwv : w = v
    · simpa [hwv] using hnd.1
    · simpa [hwv] using hw
  · have hback (c : Constraint) : c.update (fun a k ↦ a.unfix k b) v (c.activityUnder n.valueOf) =
        c.activityUnder (Function.update n.valueOf v none) := by
      have he : Function.update (Function.update n.valueOf v none) v (some b) = n.valueOf := by
        rw [Function.update_idem, ← hv, Function.update_eq_self]
      rw [← c.update_unfix_update_fix v b (c.activityUnder (Function.update n.valueOf v none)),
        ← c.activityUnder_update (Function.update_self ..), he]
    rw [hval]
    simp only [Node.undo, ht, hv, h.activities, List.zipWith_map_right, List.zipWith_self, hback]

end Tracks

theorem SameState.undo {m : Model R} {n n' : Node R} (h : SameState n n') :
    SameState (n.undo m) (n'.undo m) := by
  cases ht : n'.trail with
  | nil =>
    have ht' : n.trail = [] := h.trail.trans ht
    simpa only [Node.undo, ht, ht'] using h
  | cons v l =>
    have ht' : n.trail = v :: l := h.trail.trans ht
    cases hv : n'.valueOf v with
    | none =>
      have hv' : n.valueOf v = none := h.valueOf_eq ▸ hv
      simp only [Node.undo, ht, ht', hv, hv']
      exact ⟨h.values, rfl, h.activities⟩
    | some b =>
      have hv' : n.valueOf v = some b := h.valueOf_eq ▸ hv
      simp only [Node.undo, ht, ht', hv, hv', h.values, h.activities]
      exact ⟨rfl, rfl, rfl⟩

theorem undo_assign {m : Model R} {n : Node R} (ht : n.Tracks m) {v : ℕ} (hv : n.isFree v)
    (b : Bool) : SameState ((n.assign m v b).undo m) n := by
  obtain ⟨hlt, hnone⟩ := isFree_iff.1 hv
  have hval : (n.assign m v b).valueOf v = some b := by
    rw [valueOf_assign m hlt, Function.update_self]
  have htrail : (n.assign m v b).trail = v :: n.trail := rfl
  have hback : ((n.assign m v b).undo m).Tracks m := (ht.assign hv b).undo
  have he : ((n.assign m v b).undo m).valueOf = n.valueOf := by
    rw [valueOf_undo htrail hval, valueOf_assign m hlt, Function.update_idem, ← hnone,
      Function.update_eq_self]
  refine ⟨?_, ?_, by rw [hback.activities, ht.activities, he]⟩
  · exact values_eq_of_valueOf_eq (hback.size_values.trans ht.size_values.symm) he
  · simp only [undo, htrail, hval]

theorem undoTo_of_lt {m : Model R} {n : Node R} {level : ℕ} (h : level < n.trail.length)
    (hu : (n.undo m).trail.length + 1 = n.trail.length) :
    n.undoTo m level = (n.undo m).undoTo m level := by
  have hswap (k : ℕ) (x : Node R) : (k + 1).repeat (undo m) x = k.repeat (undo m) (x.undo m) := by
    induction k with
    | zero => rfl
    | succ k ih => exact congrArg (undo m) ih
  have hk : n.trail.length - level = ((n.undo m).trail.length - level) + 1 := by omega
  rw [undoTo, undoTo, hk, hswap]

inductive Reaches (m : Model R) (n : Node R) : Node R → Prop
  | refl : Reaches m n n
  | assign {n' : Node R} {v : ℕ} (b : Bool) :
      Reaches m n n' → n'.isFree v → Reaches m n (n'.assign m v b)

namespace Reaches

variable {m : Model R} {n n' n'' : Node R}

theorem trans (h : Reaches m n n') (h' : Reaches m n' n'') : Reaches m n n'' := by
  induction h' with
  | refl => exact h
  | assign b _ hv ih => exact ih.assign b hv

theorem tracks (h : Reaches m n n') (ht : n.Tracks m) : n'.Tracks m := by
  induction h with
  | refl => exact ht
  | assign b _ hv ih => exact ih.assign hv b

theorem valueOf (h : Reaches m n n') {v : ℕ} {b : Bool} (hv : n.valueOf v = some b) :
    n'.valueOf v = some b := by
  induction h with
  | refl => exact hv
  | assign b' _ hw ih =>
    obtain ⟨hlt, hnone⟩ := isFree_iff.1 hw
    rw [valueOf_assign m hlt, Function.update_of_ne, ih]
    rintro rfl
    rw [ih] at hnone
    cases hnone

theorem extends_valueOf (h : Reaches m n n') : Extends n'.valueOf n.valueOf := fun _ _ ↦ h.valueOf

theorem isFree (h : Reaches m n n') (ht : n.Tracks m) {v : ℕ} (hv : n'.isFree v) : n.isFree v := by
  refine isFree_iff.2 ⟨ht.size_values ▸ (h.tracks ht).lt_numVars hv, ?_⟩
  by_contra hne
  obtain ⟨b, hb⟩ := Option.ne_none_iff_exists'.1 hne
  have hsome := h.valueOf hb
  rw [(isFree_iff.1 hv).2] at hsome
  cases hsome

theorem ne_of_isFree {v w : ℕ} {b : Bool} (h : Reaches m (n.assign m v b) n') (hv : n.isFree v)
    (hw : n'.isFree w) : w ≠ v := by
  rintro rfl
  have hsome : n'.valueOf w = some b := h.valueOf (by
    rw [valueOf_assign m (isFree_iff.1 hv).1, Function.update_self])
  rw [(isFree_iff.1 hw).2] at hsome
  cases hsome

theorem length_trail_le (h : Reaches m n n') : n.trail.length ≤ n'.trail.length := by
  induction h with
  | refl => exact le_rfl
  | assign b _ hv ih => exact ih.trans (Nat.le_succ _)

/-- Going back up to the level of the first node ends in that node. -/
theorem undoTo (h : Reaches m n n') (ht : n.Tracks m) {x : Node R} (hx : SameState x n') :
    SameState (x.undoTo m n.trail.length) n := by
  induction h generalizing x with
  | refl =>
    have hk : x.trail.length - n.trail.length = 0 := by rw [hx.trail, Nat.sub_self]
    rw [Node.undoTo, hk]
    exact hx
  | @assign n' v b hr hv ih =>
    have hu : SameState (x.undo m) n' := hx.undo.trans (undo_assign (hr.tracks ht) hv b)
    have hlen : x.trail.length = n'.trail.length + 1 := by rw [hx.trail]; rfl
    have hle := hr.length_trail_le
    rw [undoTo_of_lt (by omega) (by rw [hu.trail, hlen])]
    exact ih hu

end Reaches

inductive Reachable (m : Model R) : Node R → Prop
  | root : Reachable m (.root m)
  | assign {n : Node R} {v : ℕ} (b : Bool) : Reachable m n → n.isFree v → Reachable m (n.assign m v b)
  | undo {n : Node R} : Reachable m n → Reachable m (n.undo m)

theorem Reachable.tracks {m : Model R} {n : Node R} (h : n.Reachable m) : n.Tracks m := by
  induction h with
  | root => exact tracks_root m
  | assign b _ hv ih => exact ih.assign hv b
  | undo _ ih => exact ih.undo

end NoisyDNF.ZeroOne.Node
