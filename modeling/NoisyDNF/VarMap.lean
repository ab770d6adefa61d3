import NoisyDNF.Var

namespace NoisyDNF

structure VarMap (α : Type) where
  entries : List (Var × α)
  sorted : entries.Pairwise fun e f ↦ e.1 < f.1

/-- A set of variables maps each of its members to the one value there is. -/
abbrev VarSet := VarMap Unit

namespace VarMap

variable {α β : Type}

theorem ext {m n : VarMap α} (h : m.entries = n.entries) : m = n := by
  cases m; cases n; cases h; rfl

instance [DecidableEq α] : DecidableEq (VarMap α) := fun m n ↦
  decidable_of_iff (m.entries = n.entries) ⟨ext, congrArg entries⟩

def empty : VarMap α := ⟨[], .nil⟩

instance : Inhabited (VarMap α) := ⟨empty⟩

def insertEntry (v : Var) (x : α) : List (Var × α) → List (Var × α)
  | [] => [(v, x)]
  | e :: es =>
    if v < e.1 then (v, x) :: e :: es
    else if v = e.1 then (v, x) :: es
    else e :: insertEntry v x es

theorem mem_insertEntry {v : Var} {x : α} {es : List (Var × α)} {e : Var × α}
    (h : e ∈ insertEntry v x es) : e = (v, x) ∨ e ∈ es := by
  induction es with
  | nil => simpa [insertEntry] using h
  | cons f es ih =>
    unfold insertEntry at h
    split at h
    · exact List.mem_cons.1 h
    split at h
    · exact (List.mem_cons.1 h).imp_right (List.mem_cons_of_mem f)
    rcases List.mem_cons.1 h with h | h
    · exact .inr (h ▸ List.mem_cons_self)
    · exact (ih h).imp_right (List.mem_cons_of_mem f)

theorem sorted_insertEntry (v : Var) (x : α) {es : List (Var × α)}
    (h : es.Pairwise fun e f ↦ e.1 < f.1) :
    (insertEntry v x es).Pairwise fun e f ↦ e.1 < f.1 := by
  induction es with
  | nil => exact .cons (by simp) .nil
  | cons f es ih =>
    obtain ⟨hf, hes⟩ := List.pairwise_cons.1 h
    unfold insertEntry
    split
    · next hv =>
      refine .cons (fun e he ↦ ?_) h
      rcases List.mem_cons.1 he with rfl | he
      · exact hv
      · exact Var.lt_trans hv (hf e he)
    · next hv =>
      split
      · next hvf => exact .cons (fun e he ↦ hvf ▸ hf e he) hes
      · next hvf =>
        have hfv : f.1 < v :=
          ((Var.lt_trichotomy v f.1).resolve_left hv).resolve_left hvf
        refine .cons (fun e he ↦ ?_) (ih hes)
        rcases mem_insertEntry he with rfl | he
        · exact hfv
        · exact hf e he

def insert (m : VarMap α) (v : Var) (x : α) : VarMap α :=
  ⟨insertEntry v x m.entries, sorted_insertEntry v x m.sorted⟩

def get? (m : VarMap α) (v : Var) : Option α := m.entries.lookup v

def contains (m : VarMap α) (v : Var) : Bool := (m.get? v).isSome

def size (m : VarMap α) : Nat := m.entries.length

def keys (m : VarMap α) : List Var := m.entries.map Prod.fst

def values (m : VarMap α) : List α := m.entries.map Prod.snd

def ofList (es : List (Var × α)) : VarMap α :=
  es.foldl (fun m e ↦ m.insert e.1 e.2) empty

def map (f : Var → α → β) (m : VarMap α) : VarMap β where
  entries := m.entries.map fun e ↦ (e.1, f e.1 e.2)
  sorted := List.pairwise_map.2 m.sorted

def filter (p : Var → α → Bool) (m : VarMap α) : VarMap α where
  entries := m.entries.filter fun e ↦ p e.1 e.2
  sorted := m.sorted.sublist List.filter_sublist

def domain (m : VarMap α) : VarSet := m.map fun _ _ ↦ ()

def numbering (m : VarMap α) : VarMap Nat where
  entries := m.keys.zipIdx
  sorted := by
    have h : (m.keys.zipIdx.map Prod.fst).Pairwise (· < ·) := by
      rw [List.zipIdx_map_fst]
      exact List.pairwise_map.2 m.sorted
    exact List.pairwise_map.1 h

end VarMap

namespace VarSet

def ofList (vs : List Var) : VarSet := VarMap.ofList (vs.map (·, ()))

end VarSet

end NoisyDNF
