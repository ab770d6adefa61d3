import NoisyDNF.VarMap
import Mathlib.Data.Int.Notation
import Mathlib.Data.List.Sort

namespace NoisyDNF

instance : Std.Irrefl fun v w : Var ↦ v < w := ⟨Var.lt_irrefl⟩

instance : Std.Antisymm fun v w : Var ↦ v < w :=
  ⟨fun v _ h h' ↦ absurd (Var.lt_trans h h') (Var.lt_irrefl v)⟩

namespace VarMap

variable {α β : Type} {m n : VarMap α} {v w : Var} {x : α}

theorem lookup_cons (v w : Var) (x : α) (es : List (Var × α)) :
    ((w, x) :: es).lookup v = if v = w then some x else es.lookup v := by
  rw [List.lookup_cons]
  by_cases hv : v = w
  · rw [beq_iff_eq.2 hv, if_pos hv]
  · rw [beq_eq_false_iff_ne.2 hv, if_neg hv]

theorem lookup_eq_some_iff {es : List (Var × α)} (hs : es.Pairwise fun e f ↦ e.1 < f.1) :
    es.lookup v = some x ↔ (v, x) ∈ es := by
  induction es with
  | nil => simp
  | cons e es ih =>
    obtain ⟨w, z⟩ := e
    obtain ⟨he, hes⟩ := List.pairwise_cons.1 hs
    rw [lookup_cons, List.mem_cons]
    by_cases hv : v = w
    · subst hv
      have hno : (v, x) ∉ es := fun h ↦ Var.lt_irrefl v (he _ h)
      simp [hno, eq_comm]
    · simp [hv, ih hes]

theorem get?_eq_some_iff : m.get? v = some x ↔ (v, x) ∈ m.entries := lookup_eq_some_iff m.sorted

theorem mem_keys_iff : v ∈ m.keys ↔ ∃ x, m.get? v = some x := by
  simp [keys, get?_eq_some_iff]

theorem contains_iff : m.contains v = true ↔ v ∈ m.keys := by
  rw [contains, Option.isSome_iff_exists, mem_keys_iff]

theorem contains_eq_false_iff : m.contains v = false ↔ v ∉ m.keys := by
  rw [← Bool.not_eq_true, contains_iff]

theorem get?_eq_none_iff : m.get? v = none ↔ v ∉ m.keys := by
  rw [mem_keys_iff, ← Option.isSome_iff_exists, Option.not_isSome_iff_eq_none]

theorem sorted_keys (m : VarMap α) : m.keys.Pairwise (· < ·) := List.pairwise_map.2 m.sorted

theorem nodup_keys (m : VarMap α) : m.keys.Nodup := m.sorted_keys.nodup

theorem keys_eq_of_mem_iff {n : VarMap β} (h : ∀ v, v ∈ m.keys ↔ v ∈ n.keys) : m.keys = n.keys :=
  m.sorted_keys.eq_of_mem_iff n.sorted_keys h

theorem entries_eq_filterMap {vs : List Var} (hvs : vs.Pairwise (· < ·)) (h : ∀ v ∈ m.keys, v ∈ vs) :
    m.entries = vs.filterMap fun v ↦ (m.get? v).map (v, ·) := by
  have hfst {e : Var × α} (he : e ∈ vs.filterMap fun v ↦ (m.get? v).map (v, ·)) : e ∈ m.entries := by
    obtain ⟨v, -, hv⟩ := List.mem_filterMap.1 he
    obtain ⟨x, hx, rfl⟩ := Option.map_eq_some_iff.1 hv
    exact get?_eq_some_iff.1 hx
  have hsorted : (vs.filterMap fun v ↦ (m.get? v).map (v, ·)).Pairwise fun e f ↦ e.1 < f.1 := by
    refine hvs.filterMap _ ?_
    intro v w hvw e he f hf
    obtain ⟨x, -, rfl⟩ := Option.map_eq_some_iff.1 he
    obtain ⟨y, -, rfl⟩ := Option.map_eq_some_iff.1 hf
    exact hvw
  have : Std.Irrefl fun e f : Var × α ↦ e.1 < f.1 := ⟨fun e ↦ Var.lt_irrefl e.1⟩
  have : Std.Antisymm fun e f : Var × α ↦ e.1 < f.1 :=
    ⟨fun e _ h h' ↦ absurd (Var.lt_trans h h') (Var.lt_irrefl e.1)⟩
  refine m.sorted.eq_of_mem_iff hsorted fun {e} ↦ ⟨fun he ↦ ?_, hfst⟩
  refine List.mem_filterMap.2 ⟨e.1, h e.1 (List.mem_map_of_mem he), ?_⟩
  rw [get?_eq_some_iff.2 he, Option.map_some]

theorem length_keys (m : VarMap α) : m.keys.length = m.size := List.length_map _

theorem length_values (m : VarMap α) : m.values.length = m.size := List.length_map _

/-- When one map has only keys of another one, their sizes tell whether it has all of them. -/
theorem size_eq_iff_of_keys_subset {n : VarMap β} (h : ∀ v ∈ m.keys, v ∈ n.keys) :
    m.size = n.size ↔ ∀ v ∈ n.keys, v ∈ m.keys := by
  rw [← length_keys, ← length_keys]
  constructor
  · intro hlen v hv
    exact ((List.subperm_of_subset m.nodup_keys h).perm_of_length_le hlen.ge).mem_iff.2 hv
  · intro h'
    rw [keys_eq_of_mem_iff fun v ↦ ⟨h v, h' v⟩]

theorem ext_keys_values {n : VarMap α} (hk : m.keys = n.keys) (hv : m.values = n.values) : m = n :=
  ext ((List.zip_of_prod hk hv).trans (List.zip_of_prod rfl rfl).symm)

theorem ext_get? {n : VarMap α} (h : ∀ v, m.get? v = n.get? v) : m = n := by
  refine ext ?_
  have hkeys : ∀ v, v ∈ n.keys → v ∈ m.keys := by
    intro v hv
    rw [mem_keys_iff, h, ← mem_keys_iff]
    exact hv
  rw [entries_eq_filterMap m.sorted_keys fun _ hv ↦ hv, entries_eq_filterMap m.sorted_keys hkeys]
  simp only [h]

theorem get?_insert (m : VarMap α) (v : Var) (x : α) (w : Var) :
    (m.insert v x).get? w = if w = v then some x else m.get? w := by
  have h (es : List (Var × α)) :
      (insertEntry v x es).lookup w = if w = v then some x else es.lookup w := by
    induction es with
    | nil => by_cases hw : w = v <;> simp [insertEntry, hw]
    | cons e es ih =>
      obtain ⟨u, z⟩ := e
      rw [insertEntry]
      split
      · rw [lookup_cons]
      split
      · next hvu =>
        obtain rfl : v = u := hvu
        by_cases hw : w = v <;> simp [lookup_cons, hw]
      · next hvu =>
        have hne : v ≠ u := hvu
        by_cases hw : w = v
        · subst hw
          simp [lookup_cons, ih, hne]
        · simp [lookup_cons, ih, hw]
  exact h m.entries

theorem get?_insert_eq_some_iff {y : α} (hv : v ∉ m.keys) :
    (m.insert v x).get? w = some y ↔ m.get? w = some y ∨ v = w ∧ x = y := by
  rw [get?_insert]
  split
  · next hw =>
    subst hw
    rw [get?_eq_none_iff.2 hv]
    simp
  · next hw => simp [Ne.symm hw]

theorem mem_keys_insert : w ∈ (m.insert v x).keys ↔ w = v ∨ w ∈ m.keys := by
  simp only [mem_keys_iff, get?_insert]
  by_cases hw : w = v <;> simp [hw]

theorem keys_insert_of_mem (hv : v ∈ m.keys) (x : α) : (m.insert v x).keys = m.keys := by
  refine keys_eq_of_mem_iff fun w ↦ ?_
  rw [mem_keys_iff, get?_insert]
  split
  · next hw => exact iff_of_true ⟨x, rfl⟩ (hw ▸ hv)
  · exact mem_keys_iff.symm

@[simp]
theorem get?_empty (v : Var) : (empty : VarMap α).get? v = none := rfl

@[simp]
theorem keys_empty : (empty : VarMap α).keys = [] := rfl

theorem mem_keys_ofList {es : List (Var × α)} : v ∈ (ofList es).keys ↔ v ∈ es.map Prod.fst := by
  have h (es : List (Var × α)) (m : VarMap α) :
      v ∈ (es.foldl (fun m e ↦ m.insert e.1 e.2) m).keys ↔ v ∈ m.keys ∨ v ∈ es.map Prod.fst := by
    induction es generalizing m with
    | nil => simp
    | cons e es ih =>
      rw [List.foldl_cons, ih, List.map_cons, List.mem_cons, mem_keys_insert, or_assoc, or_left_comm]
  exact (h es empty).trans (by simp [keys, empty])

theorem keys_map (f : Var → α → β) (m : VarMap α) : (m.map f).keys = m.keys := by
  simp [keys, map]

theorem get?_map (f : Var → α → β) (m : VarMap α) (v : Var) :
    (m.map f).get? v = (m.get? v).map (f v) := by
  cases hv : m.get? v with
  | none =>
    rw [Option.map_none, get?_eq_none_iff, keys_map]
    exact get?_eq_none_iff.1 hv
  | some x =>
    rw [Option.map_some, get?_eq_some_iff]
    exact List.mem_map_of_mem (get?_eq_some_iff.1 hv)

theorem keys_numbering (m : VarMap α) : m.numbering.keys = m.keys := by
  simp [keys, numbering]

theorem values_numbering (m : VarMap α) : m.numbering.values = List.range m.size := by
  simp [values, numbering, List.range_eq_range', size, keys]

theorem get?_numbering {i : ℕ} : m.numbering.get? v = some i ↔ m.keys[i]? = some v := by
  rw [get?_eq_some_iff]
  exact List.mem_zipIdx_iff_getElem?

end VarMap

theorem VarSet.mem_keys_ofList {v : Var} {vs : List Var} : v ∈ (VarSet.ofList vs).keys ↔ v ∈ vs := by
  simp [VarSet.ofList, VarMap.mem_keys_ofList, List.map_map]

end NoisyDNF
