import NoisyDNF.Proofs.Formula.Completion

namespace NoisyDNF

/-- Inserting all entries of another map leaves the values of that map where it has one. -/
theorem VarMap.get?_foldl_insert {α : Type} (m n : VarMap α) (v : Var) :
    (n.entries.foldl (fun c e ↦ c.insert e.1 e.2) m).get? v = (n.get? v).or (m.get? v) := by
  have h (es : List (Var × α)) (hs : es.Pairwise fun e f ↦ e.1 < f.1) (m : VarMap α) :
      (es.foldl (fun c e ↦ c.insert e.1 e.2) m).get? v = (es.lookup v).or (m.get? v) := by
    induction es generalizing m with
    | nil => rfl
    | cons e es ih =>
      obtain ⟨w, z⟩ := e
      obtain ⟨he, hes⟩ := List.pairwise_cons.1 hs
      rw [List.foldl_cons, ih hes, get?_insert, lookup_cons]
      split
      · next hv =>
        obtain rfl : v = w := hv
        -- No later entry is for the same variable.
        have hnone : es.lookup v = none := by
          rw [Option.eq_none_iff_forall_ne_some]
          intro x hx
          exact Var.lt_irrefl v (he _ ((lookup_eq_some_iff hes).1 hx))
        rw [hnone]
        rfl
      · rfl
  exact h n.entries n.sorted m

namespace Assignment

variable {x y z u w : Assignment}

def Joins (x y u : Assignment) : Prop :=
  ∀ v b, u.get? v = some b ↔ x.get? v = some b ∨ y.get? v = some b

theorem agrees_of_extends (hx : w.Extends x) (hy : w.Extends y) : x.agrees y = true :=
  agrees_iff.2 fun v c d hc hd ↦ Option.some_inj.1 ((hx v c hc).symm.trans (hy v d hd))

theorem agrees_comm (x y : Assignment) : x.agrees y = y.agrees x := by
  have h {x y : Assignment} (hxy : x.agrees y = true) : y.agrees x = true :=
    agrees_iff.2 fun v c d hc hd ↦ (agrees_iff.1 hxy v d c hd hc).symm
  exact Bool.eq_iff_iff.2 ⟨h, h⟩

namespace Joins

theorem extends_left (h : Joins x y u) : u.Extends x := fun v b hb ↦ (h v b).2 (.inl hb)

theorem extends_right (h : Joins x y u) : u.Extends y := fun v b hb ↦ (h v b).2 (.inr hb)

theorem extends_of_extends (h : Joins x y u) (hx : w.Extends x) (hy : w.Extends y) : w.Extends u :=
  fun v b hb ↦ ((h v b).1 hb).elim (hx v b) (hy v b)

theorem unique (h : Joins x y u) (h' : Joins x y w) : u = w :=
  VarMap.ext_get? fun v ↦ Option.ext fun b ↦ (h v b).trans (h' v b).symm

theorem symm (h : Joins x y u) : Joins y x u := fun v b ↦ (h v b).trans or_comm

theorem mem_keys_iff (h : Joins x y u) (v : Var) : v ∈ u.keys ↔ v ∈ x.keys ∨ v ∈ y.keys := by
  simp only [VarMap.mem_keys_iff, ← exists_or]
  exact exists_congr (h v)

end Joins

theorem exists_joins (h : x.agrees y = true) : ∃ u, x.union? y = some u ∧ Joins x y u := by
  refine ⟨_, if_pos h, fun v b ↦ ?_⟩
  rw [VarMap.get?_foldl_insert]
  cases hy : y.get? v with
  | none => simp
  | some d =>
    rw [Option.some_or]
    refine ⟨.inr, ?_⟩
    rintro (hb | hb)
    · rw [agrees_iff.1 h v b d hb hy]
    · exact hb

theorem union?_eq_some_iff : x.union? y = some u ↔ Joins x y u := by
  constructor
  · intro hu
    have hagrees : x.agrees y = true := by
      by_contra h
      rw [union?, if_neg h] at hu
      cases hu
    obtain ⟨w, hw, hjoins⟩ := exists_joins hagrees
    rwa [Option.some_inj.1 (hu.symm.trans hw)]
  · intro h
    obtain ⟨w, hw, hjoins⟩ := exists_joins (agrees_of_extends h.extends_left h.extends_right)
    rw [hw, hjoins.unique h]

theorem exists_union?_iff : (∃ u, x.union? y = some u) ↔ x.agrees y = true := by
  constructor
  · rintro ⟨u, hu⟩
    have h := union?_eq_some_iff.1 hu
    exact agrees_of_extends h.extends_left h.extends_right
  · intro h
    obtain ⟨u, hu, -⟩ := exists_joins h
    exact ⟨u, hu⟩

theorem union?_comm (x y : Assignment) : x.union? y = y.union? x := by
  refine Option.ext fun u ↦ ?_
  rw [union?_eq_some_iff, union?_eq_some_iff]
  exact ⟨Joins.symm, Joins.symm⟩

/-- Three assignments are put together if they have a common extension, of which the first two have one, too. -/
theorem bind_union?_eq_some_iff : ((x.union? y).bind fun p ↦ p.union? z) = some u ↔
    ∀ v b, u.get? v = some b ↔ x.get? v = some b ∨ y.get? v = some b ∨ z.get? v = some b := by
  simp only [Option.bind_eq_some_iff, union?_eq_some_iff]
  constructor
  · rintro ⟨p, hp, hu⟩ v b
    rw [hu v b, hp v b, or_assoc]
  · intro h
    have hx : u.Extends x := fun v b hb ↦ (h v b).2 (.inl hb)
    have hy : u.Extends y := fun v b hb ↦ (h v b).2 (.inr (.inl hb))
    obtain ⟨p, -, hp⟩ := exists_joins (agrees_of_extends hx hy)
    refine ⟨p, hp, fun v b ↦ ?_⟩
    rw [h v b, hp v b, or_assoc]

theorem union?_assoc (x y z : Assignment) :
    ((x.union? y).bind fun p ↦ p.union? z) = (y.union? z).bind fun p ↦ x.union? p := by
  have hswap : ((y.union? z).bind fun p ↦ x.union? p) = (y.union? z).bind fun p ↦ p.union? x := by
    simp only [union?_comm x]
  rw [hswap]
  refine Option.ext fun u ↦ ?_
  rw [bind_union?_eq_some_iff, bind_union?_eq_some_iff]
  exact forall₂_congr fun v b ↦ iff_congr Iff.rfl or_rotate

/-- Assignments can be put together when they agree, which is symmetric. The result is their least common
extension, neither order nor grouping matters for it, and it keeps what is decided about formulas. -/
theorem union?_isPartialJoin (x y z : Assignment) :
    x.agrees y = y.agrees x ∧
    ((∃ u, x.union? y = some u) ↔ x.agrees y = true) ∧
    (∀ u, x.union? y = some u → (∀ v, v ∈ u.keys ↔ v ∈ x.keys ∨ v ∈ y.keys) ∧
      u.Extends x ∧ u.Extends y ∧ ∀ w : Assignment, w.Extends x → w.Extends y → w.Extends u) ∧
    x.union? y = y.union? x ∧
    (((x.union? y).bind fun p ↦ p.union? z) = (y.union? z).bind fun p ↦ x.union? p) ∧
    ∀ u, x.union? y = some u → ∀ (f : Formula) b, f.evaluate x = some b → f.evaluate u = some b := by
  refine ⟨agrees_comm x y, exists_union?_iff, fun u hu ↦ ?_, union?_comm x y, union?_assoc x y z,
    fun u hu f b hb ↦ ?_⟩
  · have h := union?_eq_some_iff.1 hu
    exact ⟨h.mem_keys_iff, h.extends_left, h.extends_right, fun w ↦ h.extends_of_extends⟩
  · exact Formula.evaluate_of_extends (fun v _ ↦ (union?_eq_some_iff.1 hu).extends_left v) hb

end Assignment

end NoisyDNF
