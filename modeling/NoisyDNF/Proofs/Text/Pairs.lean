import Mathlib.Data.List.Perm.Basic
import NoisyDNF.Assignment
import NoisyDNF.Noise
import NoisyDNF.Proofs.FirstFailure
import NoisyDNF.Proofs.Text.Pieces
import NoisyDNF.Proofs.Text.Spelling
import NoisyDNF.Proofs.VarMap

namespace NoisyDNF.Text.Pairs

variable {α : Type} {read : List Char → Except Problem α} {text piece value : List Char} {v : Var} {start : ℕ}
  {p : Pair} {pairs : List Pair} {m m' : VarMap α} {e : ParseError}

section Add

theorem add_eq_ok_iff :
    add read m p = .ok m' ↔ ∃ x, read p.value = .ok x ∧ p.key ∉ m.keys ∧ m' = m.insert p.key x := by
  unfold add
  cases read p.value with
  | error problem => simp
  | ok x =>
    by_cases hkey : p.key ∈ m.keys
    · simp [VarMap.contains_iff.2 hkey, hkey]
    · simp [VarMap.contains_eq_false_iff.2 hkey, hkey, eq_comm]

theorem add_eq_error_iff :
    add read m p = .error e ↔ e.offset = p.start ∧ (read p.value = .error e.problem ∨
      (∃ x, read p.value = .ok x) ∧ p.key ∈ m.keys ∧ e.problem = .repeatedName p.key.name) := by
  obtain ⟨offset, problem⟩ := e
  unfold add
  cases read p.value with
  | error problem' => simp [eq_comm]
  | ok x =>
    by_cases hkey : p.key ∈ m.keys
    · simp [VarMap.contains_iff.2 hkey, hkey, eq_comm]
    · simp [VarMap.contains_eq_false_iff.2 hkey, hkey]

theorem foldlM_add_eq_ok_iff :
    pairs.foldlM (add read) m = .ok m' ↔
      (∀ p ∈ pairs, p.key ∉ m.keys ∧ ∃ x, read p.value = .ok x) ∧ (pairs.map Pair.key).Nodup ∧
        ∀ v x, m'.get? v = some x ↔
          m.get? v = some x ∨ ∃ p ∈ pairs, p.key = v ∧ read p.value = .ok x := by
  induction pairs generalizing m with
  | nil =>
    rw [List.foldlM_nil, pure_eq_ok_iff]
    constructor
    · rintro rfl
      simp
    · rintro ⟨-, -, hget⟩
      refine (VarMap.ext_get? fun v ↦ Option.ext fun x ↦ ?_).symm
      simpa using hget v x
  | cons p pairs ih =>
    simp only [List.foldlM_cons, bind_eq_ok_iff, add_eq_ok_iff, ih, List.forall_mem_cons, List.map_cons,
      List.nodup_cons, List.exists_mem_cons_iff]
    constructor
    · rintro ⟨_, ⟨x, hx, hkey, rfl⟩, hpairs, hnodup, hget⟩
      simp only [VarMap.mem_keys_insert, not_or] at hpairs
      refine ⟨⟨⟨hkey, x, hx⟩, fun q hq ↦ ⟨(hpairs q hq).1.2, (hpairs q hq).2⟩⟩, ⟨?_, hnodup⟩, ?_⟩
      · intro hmem
        obtain ⟨q, hq, hqp⟩ := List.mem_map.1 hmem
        exact (hpairs q hq).1.1 hqp
      · intro v y
        rw [hget, VarMap.get?_insert_eq_some_iff hkey, or_assoc, hx, Except.ok.injEq]
    · rintro ⟨⟨⟨hkey, x, hx⟩, hpairs⟩, ⟨hnew, hnodup⟩, hget⟩
      refine ⟨_, ⟨x, hx, hkey, rfl⟩, fun q hq ↦ ⟨?_, (hpairs q hq).2⟩, hnodup, fun v y ↦ ?_⟩
      · rw [VarMap.mem_keys_insert, not_or]
        refine ⟨?_, (hpairs q hq).1⟩
        intro hqp
        exact hnew (hqp ▸ List.mem_map_of_mem hq)
      · rw [hget, VarMap.get?_insert_eq_some_iff hkey, or_assoc, hx, Except.ok.injEq]

end Add

section OfText

def PairAt (text : List Char) (start : ℕ) (v : Var) (value : List Char) : Prop :=
  ∃ piece, IsPiece text start piece ∧ Spells piece v value

theorem PairAt.unique {w : Var} {value' : List Char} (h : PairAt text start v value)
    (h' : PairAt text start w value') : (v, value) = (w, value') := by
  obtain ⟨piece, hpiece, hspells⟩ := h
  obtain ⟨piece', hpiece', hspells'⟩ := h'
  obtain rfl := hpiece.unique hpiece'
  exact hspells.unique hspells'

theorem mem_iff_pairAt (h : (chunks text).mapM Pair.ofChunk = .ok pairs) :
    p ∈ pairs ↔ PairAt text p.start p.key p.value := by
  rw [mapM_eq_ok_iff] at h
  constructor
  · intro hp
    obtain ⟨c, hc, hcp⟩ := exists_mem_of_forall₂ h.flip hp
    obtain ⟨hstart, hspells⟩ := ofChunk_eq_ok_iff.1 hcp
    exact ⟨c.text, hstart ▸ mem_chunks_iff.1 hc, hspells⟩
  · rintro ⟨piece, hpiece, hspells⟩
    obtain ⟨q, hq, hcq⟩ := exists_mem_of_forall₂ h (mem_chunks_iff (c := ⟨_, _⟩).2 hpiece)
    obtain rfl : p = q := Except.ok.inj ((ofChunk_eq_ok_iff.2 ⟨rfl, hspells⟩).symm.trans hcq)
    exact hq

theorem sorted_of_mapM_ofChunk_eq_ok (h : (chunks text).mapM Pair.ofChunk = .ok pairs) :
    pairs.Pairwise fun p q ↦ p.start < q.start := by
  rw [mapM_eq_ok_iff] at h
  have hstarts : (chunks text).map Chunk.start = pairs.map Pair.start := by
    rw [← List.forall₂_eq_eq_eq, List.forall₂_map_left_iff, List.forall₂_map_right_iff]
    exact h.imp fun c p hcp ↦ (ofChunk_eq_ok_iff.1 hcp).1.symm
  have hsorted := List.pairwise_map.2 (sorted_chunks text)
  rw [hstarts] at hsorted
  exact List.pairwise_map.1 hsorted

theorem exists_mapM_ofChunk_eq_ok_iff : (∃ pairs, (chunks text).mapM Pair.ofChunk = .ok pairs) ↔
    ∀ start piece, IsPiece text start piece → ∃ v value, Spells piece v value := by
  constructor
  · rintro ⟨pairs, hpairs⟩ start piece hpiece
    rw [mapM_eq_ok_iff] at hpairs
    obtain ⟨p, -, hp⟩ := exists_mem_of_forall₂ hpairs (mem_chunks_iff (c := ⟨_, _⟩).2 hpiece)
    exact ⟨p.key, p.value, (ofChunk_eq_ok_iff.1 hp).2⟩
  · intro h
    refine exists_mapM_eq_ok fun c hc ↦ ?_
    obtain ⟨v, value, hspells⟩ := h _ _ (mem_chunks_iff.1 hc)
    exact ⟨⟨c.start, v, value⟩, ofChunk_eq_ok_iff.2 ⟨rfl, hspells⟩⟩

theorem nodup_keys_iff (h : pairs.Pairwise fun p q ↦ p.start < q.start) :
    (pairs.map Pair.key).Nodup ↔ ∀ p ∈ pairs, ∀ q ∈ pairs, p.key = q.key → p.start = q.start := by
  have hnodup : (pairs.map Pair.start).Nodup := (List.pairwise_map.2 h).imp Nat.ne_of_lt
  rw [List.nodup_map_iff_inj_on (List.Nodup.of_map Pair.start hnodup)]
  refine forall₂_congr fun p hp ↦ forall₂_congr fun q hq ↦ imp_congr_right fun _ ↦ ?_
  exact ⟨congrArg Pair.start, List.inj_on_of_nodup_map hnodup hp hq⟩

structure Lists (read : List Char → Except Problem α) (text : List Char) (m : VarMap α) : Prop where
  exists_spells : ∀ start piece, IsPiece text start piece → ∃ v value, Spells piece v value
  exists_read : ∀ start v value, PairAt text start v value → ∃ x, read value = .ok x
  start_eq : ∀ v start value start' value', PairAt text start v value → PairAt text start' v value' →
    start = start'
  get?_eq_some_iff : ∀ v x, m.get? v = some x ↔
    ∃ start value, PairAt text start v value ∧ read value = .ok x

theorem forall_mem_pairs_iff {P : Pair → Prop} (h : (chunks text).mapM Pair.ofChunk = .ok pairs) :
    (∀ p ∈ pairs, P p) ↔ ∀ start v value, PairAt text start v value → P ⟨start, v, value⟩ := by
  simp only [mem_iff_pairAt h]
  exact ⟨fun hP start v value hp ↦ hP ⟨start, v, value⟩ hp, fun hP p hp ↦ hP _ _ _ hp⟩

theorem exists_mem_pairs_iff {P : Pair → Prop} (h : (chunks text).mapM Pair.ofChunk = .ok pairs) :
    (∃ p ∈ pairs, P p) ↔ ∃ start v value, PairAt text start v value ∧ P ⟨start, v, value⟩ := by
  simp only [mem_iff_pairAt h]
  exact ⟨fun ⟨p, hp, hP⟩ ↦ ⟨p.start, p.key, p.value, hp, hP⟩,
    fun ⟨start, v, value, hp, hP⟩ ↦ ⟨⟨start, v, value⟩, hp, hP⟩⟩

theorem foldlM_add_empty_eq_ok_iff : pairs.foldlM (add read) VarMap.empty = .ok m ↔
    (∀ p ∈ pairs, ∃ x, read p.value = .ok x) ∧ (pairs.map Pair.key).Nodup ∧
      ∀ v x, m.get? v = some x ↔ ∃ p ∈ pairs, p.key = v ∧ read p.value = .ok x := by
  simp [foldlM_add_eq_ok_iff]

theorem ofText_eq_ok_iff : ofText read text = .ok m ↔ Lists read text m := by
  have hlists {pairs : List Pair} (h : (chunks text).mapM Pair.ofChunk = .ok pairs) :
      pairs.foldlM (add read) VarMap.empty = .ok m ↔ Lists read text m := by
    have hspells := exists_mapM_ofChunk_eq_ok_iff.1 ⟨pairs, h⟩
    rw [foldlM_add_empty_eq_ok_iff, nodup_keys_iff (sorted_of_mapM_ofChunk_eq_ok h)]
    simp only [forall_mem_pairs_iff h, exists_mem_pairs_iff h]
    constructor
    · rintro ⟨hread, hstart, hget⟩
      refine ⟨hspells, hread, fun v start value start' value' hp hq ↦ ?_, fun v x ↦ ?_⟩
      · exact hstart start v value hp start' v value' hq rfl
      · simp [hget]
    · rintro ⟨-, hread, hstart, hget⟩
      refine ⟨hread, fun start v value hp start' v' value' hq hkey ↦ ?_, fun v x ↦ ?_⟩
      · exact hstart v start value start' value' hp (hkey ▸ hq)
      · simp [hget]
  unfold ofText
  rw [bind_eq_ok_iff]
  constructor
  · rintro ⟨pairs, hpairs, hfold⟩
    exact (hlists hpairs).1 hfold
  · intro h
    obtain ⟨pairs, hpairs⟩ := exists_mapM_ofChunk_eq_ok_iff.2 h.exists_spells
    exact ⟨pairs, hpairs, (hlists hpairs).2 h⟩

def ShapeFault (text : List Char) (start : ℕ) (problem : Problem) : Prop :=
  ∃ piece, IsPiece text start piece ∧ Misshapen piece problem

/-- What is wrong with the pair that begins at the given byte: its value, or else its name, which an earlier
one has. -/
def ContentFault (read : List Char → Except Problem α) (text : List Char) (start : ℕ) (problem : Problem) :
    Prop :=
  ∃ v value, PairAt text start v value ∧ (read value = .error problem ∨
    (∃ x, read value = .ok x) ∧ problem = .repeatedName v.name ∧
      ∃ start' < start, ∃ value', PairAt text start' v value')

structure IsFirst (fault : ℕ → Problem → Prop) (e : ParseError) : Prop where
  isFault : fault e.offset e.problem
  least : ∀ start < e.offset, ∀ problem, ¬ fault start problem

theorem mapM_ofChunk_eq_error_iff :
    (chunks text).mapM Pair.ofChunk = .error e ↔ IsFirst (ShapeFault text) e := by
  rw [mapM_eq_error_iff_of_sorted (sorted_chunks text)]
  constructor
  · rintro ⟨c, hc, he, hleast⟩
    obtain ⟨hoffset, hshape⟩ := ofChunk_eq_error_iff.1 he
    refine ⟨⟨c.text, hoffset ▸ mem_chunks_iff.1 hc, hshape⟩, ?_⟩
    rintro start hlt problem ⟨piece, hpiece, hshape'⟩
    obtain ⟨p, hp⟩ := hleast ⟨start, piece⟩ (mem_chunks_iff.2 hpiece) (hoffset ▸ hlt)
    exact nomatch hp.symm.trans (ofChunk_eq_error_of_misshapen hshape')
  · rintro ⟨⟨piece, hpiece, hshape⟩, hleast⟩
    refine ⟨⟨_, piece⟩, mem_chunks_iff.2 hpiece, ofChunk_eq_error_of_misshapen hshape, fun c hc hlt ↦ ?_⟩
    cases hp : Pair.ofChunk c with
    | ok p => exact ⟨p, rfl⟩
    | error e' =>
      obtain ⟨-, hshape'⟩ := ofChunk_eq_error_iff.1 hp
      exact absurd ⟨c.text, mem_chunks_iff.1 hc, hshape'⟩ (hleast c.start hlt e'.problem)

theorem not_shapeFault (h : (chunks text).mapM Pair.ofChunk = .ok pairs) (start : ℕ) (problem : Problem) :
    ¬ ShapeFault text start problem := by
  rintro ⟨piece, hpiece, hshape⟩
  obtain ⟨p, -, hp⟩ := exists_mem_of_forall₂ (mapM_eq_ok_iff.1 h) (mem_chunks_iff (c := ⟨_, _⟩).2 hpiece)
  exact nomatch hp.symm.trans (ofChunk_eq_error_of_misshapen hshape)

theorem isFirst_of_foldlM_eq_error (h : (chunks text).mapM Pair.ofChunk = .ok pairs)
    (he : pairs.foldlM (add read) VarMap.empty = .error e) : IsFirst (ContentFault read text) e := by
  obtain ⟨before, p, after, m, rfl, hm, hp⟩ := foldlM_eq_error_iff.1 he
  obtain ⟨hread, hnodup, hget⟩ := foldlM_add_empty_eq_ok_iff.1 hm
  obtain ⟨hoffset, hproblem⟩ := add_eq_error_iff.1 hp
  have hbefore {q : Pair} : q ∈ before ↔ PairAt text q.start q.key q.value ∧ q.start < e.offset := by
    rw [mem_before_iff (sorted_of_mapM_ofChunk_eq_ok h), mem_iff_pairAt h, hoffset]
  constructor
  · have hpair := (mem_iff_pairAt h).1 (List.mem_append_right before List.mem_cons_self)
    refine ⟨p.key, p.value, hoffset ▸ hpair, hproblem.imp_right ?_⟩
    rintro ⟨hx, hkey, hname⟩
    obtain ⟨y, hy⟩ := VarMap.mem_keys_iff.1 hkey
    obtain ⟨q, hq, hqp, -⟩ := (hget p.key y).1 hy
    obtain ⟨hq, hlt⟩ := hbefore.1 hq
    exact ⟨hx, hname, q.start, hlt, q.value, hqp ▸ hq⟩
  · rintro start hlt problem ⟨v, value, hq, hfault⟩
    have hmem := (hbefore (q := ⟨start, v, value⟩)).2 ⟨hq, hlt⟩
    rcases hfault with hfault | ⟨-, -, start', hlt', value', hq'⟩
    · obtain ⟨x, hx⟩ := hread _ hmem
      exact nomatch hx.symm.trans hfault
    · have hmem' := (hbefore (q := ⟨start', v, value'⟩)).2 ⟨hq', hlt'.trans hlt⟩
      have hstart := congrArg Pair.start (List.inj_on_of_nodup_map hnodup hmem hmem' rfl)
      exact hlt'.ne hstart.symm

theorem IsFirst.unique {fault : ℕ → Problem → Prop} {e' : ParseError} (h : IsFirst fault e)
    (h' : IsFirst fault e')
    (hfault : ∀ start problem problem', fault start problem → fault start problem' → problem = problem') :
    e = e' := by
  obtain ⟨start, problem⟩ := e
  obtain ⟨start', problem'⟩ := e'
  have hle : ¬ start < start' := fun hlt ↦ h'.least start hlt problem h.isFault
  have hle' : ¬ start' < start := fun hlt ↦ h.least start' hlt problem' h'.isFault
  obtain rfl : start = start' := by omega
  rw [hfault start problem problem' h.isFault h'.isFault]

theorem Lists.not_contentFault (h : Lists read text m) (start : ℕ) (problem : Problem) :
    ¬ ContentFault read text start problem := by
  rintro ⟨v, value, hpair, hfault | ⟨-, -, start', hlt, value', hpair'⟩⟩
  · obtain ⟨x, hx⟩ := h.exists_read start v value hpair
    exact nomatch hx.symm.trans hfault
  · exact hlt.ne (h.start_eq v start' value' start value hpair' hpair)

theorem contentFault_unique {problem problem' : Problem} (h : ContentFault read text start problem)
    (h' : ContentFault read text start problem') : problem = problem' := by
  obtain ⟨v, value, hpair, hfault⟩ := h
  obtain ⟨v', value', hpair', hfault'⟩ := h'
  obtain ⟨rfl, rfl⟩ := Prod.mk.inj (hpair.unique hpair')
  rcases hfault with hfault | ⟨⟨x, hx⟩, rfl, -⟩ <;> rcases hfault' with hfault' | ⟨⟨x', hx'⟩, rfl, -⟩
  · exact Except.error.inj (hfault.symm.trans hfault')
  · exact nomatch hfault.symm.trans hx'
  · exact nomatch hx.symm.trans hfault'
  · rfl

theorem ofText_eq_error_iff : ofText read text = .error e ↔ IsFirst (ShapeFault text) e ∨
    (∀ start problem, ¬ ShapeFault text start problem) ∧ IsFirst (ContentFault read text) e := by
  unfold ofText
  rw [bind_eq_error_iff, mapM_ofChunk_eq_error_iff]
  refine or_congr_right ?_
  constructor
  · rintro ⟨pairs, hpairs, he⟩
    exact ⟨not_shapeFault hpairs, isFirst_of_foldlM_eq_error hpairs he⟩
  · rintro ⟨hshape, hfirst⟩
    cases hpairs : (chunks text).mapM Pair.ofChunk with
    | error e' => exact absurd (mapM_ofChunk_eq_error_iff.1 hpairs).isFault (hshape _ _)
    | ok pairs =>
      refine ⟨pairs, rfl, ?_⟩
      -- The error there is comes first, and only one error does.
      cases he : pairs.foldlM (add read) VarMap.empty with
      | error e' =>
        have hfirst' := isFirst_of_foldlM_eq_error hpairs he
        have heq : e' = e := hfirst'.unique hfirst fun _ _ _ ↦ contentFault_unique
        rw [heq]
      | ok m =>
        have hlists := ofText_eq_ok_iff.1 (bind_eq_ok_iff.2 ⟨pairs, hpairs, he⟩)
        exact absurd hfirst.isFault (hlists.not_contentFault e.offset e.problem)

def Pair.entry (p : Pair) : Var × List Char := (p.key, p.value)

structure MakeUp (read : List Char → Except Problem α) (es : List (Var × List Char)) (m : VarMap α) :
    Prop where
  exists_read : ∀ e ∈ es, ∃ x, read e.2 = .ok x
  nodup : (es.map Prod.fst).Nodup
  get?_eq_some_iff : ∀ v x, m.get? v = some x ↔ ∃ value, (v, value) ∈ es ∧ read value = .ok x

theorem MakeUp.perm {es es' : List (Var × List Char)} (h : MakeUp read es m) (hperm : es.Perm es') :
    MakeUp read es' m where
  exists_read e he := h.exists_read e (hperm.mem_iff.2 he)
  nodup := (hperm.map Prod.fst).nodup_iff.1 h.nodup
  get?_eq_some_iff v x := by simp only [h.get?_eq_some_iff, hperm.mem_iff]

theorem foldlM_add_empty_eq_ok_iff_makeUp :
    pairs.foldlM (add read) VarMap.empty = .ok m ↔ MakeUp read (pairs.map Pair.entry) m := by
  rw [foldlM_add_empty_eq_ok_iff]
  have hkeys : (pairs.map Pair.entry).map Prod.fst = pairs.map Pair.key := List.map_map
  constructor
  · rintro ⟨hread, hnodup, hget⟩
    exact ⟨by simpa [Pair.entry] using hread, hkeys ▸ hnodup, by simpa [Pair.entry, and_assoc] using hget⟩
  · rintro ⟨hread, hnodup, hget⟩
    exact ⟨by simpa [Pair.entry] using hread, hkeys ▸ hnodup, by simpa [Pair.entry, and_assoc] using hget⟩

theorem forall₂_spells_of_mapM_eq_ok (h : (chunks text).mapM Pair.ofChunk = .ok pairs) :
    List.Forall₂ (fun piece e ↦ Spells piece e.1 e.2) (pieces text) (pairs.map Pair.entry) := by
  rw [← map_text_chunks, List.forall₂_map_left_iff, List.forall₂_map_right_iff]
  exact (mapM_eq_ok_iff.1 h).imp fun c p hp ↦ (ofChunk_eq_ok_iff.1 hp).2

theorem ofText_eq_ok_iff_exists : ofText read text = .ok m ↔
    ∃ es, List.Forall₂ (fun piece e ↦ Spells piece e.1 e.2) (pieces text) es ∧ MakeUp read es m := by
  unfold ofText
  simp only [bind_eq_ok_iff, foldlM_add_empty_eq_ok_iff_makeUp]
  constructor
  · rintro ⟨pairs, hpairs, hm⟩
    exact ⟨pairs.map Pair.entry, forall₂_spells_of_mapM_eq_ok hpairs, hm⟩
  · rintro ⟨es, hes, hm⟩
    obtain ⟨pairs, hpairs⟩ : ∃ pairs, (chunks text).mapM Pair.ofChunk = .ok pairs := by
      refine exists_mapM_eq_ok fun c hc ↦ ?_
      have hpiece : c.text ∈ pieces text := map_text_chunks text ▸ List.mem_map_of_mem hc
      obtain ⟨e, -, he⟩ := exists_mem_of_forall₂ hes hpiece
      exact ⟨⟨c.start, e.1, e.2⟩, ofChunk_eq_ok_iff.2 ⟨rfl, he⟩⟩
    have hunique : Relator.RightUnique fun piece (e : Var × List Char) ↦ Spells piece e.1 e.2 :=
      fun _ _ _ h h' ↦ h.unique h'
    obtain rfl := List.right_unique_forall₂' hunique hes (forall₂_spells_of_mapM_eq_ok hpairs)
    exact ⟨pairs, hpairs, hm⟩

theorem ofText_eq_ok_of_perm {text' : List Char} (hperm : (pieces text).Perm (pieces text'))
    (h : ofText read text = .ok m) : ofText read text' = .ok m := by
  rw [ofText_eq_ok_iff_exists] at h ⊢
  obtain ⟨es, hspells, hes⟩ := h
  obtain ⟨es', hspells', hperm'⟩ := List.perm_comp_forall₂ hperm.symm hspells
  exact ⟨es', hspells', hes.perm hperm'.symm⟩

/-- How a parser reads maps whose values are read in the given way. -/
structure ReadsPairs (read : List Char → Except Problem α)
    (parse : List Char → Except ParseError (VarMap α)) : Prop where
  eq_ok_iff : ∀ text m, parse text = .ok m ↔ Lists read text m
  eq_ok_of_perm : ∀ text text' m, (pieces text).Perm (pieces text') → parse text = .ok m →
    parse text' = .ok m
  eq_error_iff : ∀ text e, parse text = .error e ↔ IsFirst (ShapeFault text) e ∨
    (∀ start problem, ¬ ShapeFault text start problem) ∧ IsFirst (ContentFault read text) e

theorem readsPairs (read : List Char → Except Problem α) : ReadsPairs read (ofText read) where
  eq_ok_iff _ _ := ofText_eq_ok_iff
  eq_ok_of_perm _ _ _ := ofText_eq_ok_of_perm
  eq_error_iff _ _ := ofText_eq_error_iff

def readTruth (cs : List Char) : Except Problem Bool :=
  (Assignment.truthValue? cs).elim (.error (.badTruthValue cs)) .ok

def truthWords (b : Bool) : List String := if b then ["true", "t", "1"] else ["false", "f", "0"]

theorem truthValue?_eq_some_iff {cs : List Char} {b : Bool} :
    Assignment.truthValue? cs = some b ↔ String.ofList (cs.map Char.toLower) ∈ truthWords b := by
  unfold Assignment.truthValue?
  generalize String.ofList (cs.map Char.toLower) = word
  split <;> cases b <;> simp_all [truthWords]

/-- Both kinds of maps are read alike. A name that is kept is never empty, since it is a variable. -/
theorem ofText_readsPairs :
    ReadsPairs readTruth Assignment.ofText ∧ ReadsPairs Noise.probability Noise.ofText ∧
      ∀ cs b, readTruth cs = .ok b ↔ String.ofList (cs.map Char.toLower) ∈ truthWords b := by
  refine ⟨readsPairs readTruth, readsPairs Noise.probability, fun cs b ↦ ?_⟩
  rw [← truthValue?_eq_some_iff]
  unfold readTruth
  cases Assignment.truthValue? cs <;> simp

-- The value of the first pair is wrong too, but all shapes are looked at before the first value.
example : Assignment.ofText "é=2, b,a=1".toList = .error ⟨5, .noEqualsSign ['b']⟩ := rfl

end OfText

end NoisyDNF.Text.Pairs
