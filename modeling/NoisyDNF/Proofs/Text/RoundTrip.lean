import Mathlib.Data.Nat.Digits.Defs
import NoisyDNF.Proofs.Text.Pairs
import NoisyDNF.Proofs.Text.Trimming

namespace NoisyDNF

structure Var.IsPlain (v : Var) : Prop where
  comma_not_mem : ',' ∉ v.name.toList
  equals_not_mem : '=' ∉ v.name.toList
  isTrimmed : Text.IsTrimmed v.name.toList

instance (v : Var) : Decidable v.IsPlain :=
  decidable_of_iff (',' ∉ v.name.toList ∧ '=' ∉ v.name.toList ∧ Text.IsTrimmed v.name.toList)
    ⟨fun h ↦ ⟨h.1, h.2.1, h.2.2⟩, fun h ↦ ⟨h.comma_not_mem, h.equals_not_mem, h.isTrimmed⟩⟩

namespace NumberLayout

open Decimal

variable {P : Char → Prop}

theorem forall_mem_positionalText (hdigit : ∀ c, c.isDigit = true → P c) (hpoint : P '.') (x : Decimal) :
    ∀ c ∈ positionalText x, P c := by
  have hdigits : ∀ c ∈ x.digits, P c := by
    intro c hc
    exact hdigit c (Nat.isDigit_of_mem_toDigits (by decide) (by decide) hc)
  have hzero : P '0' := hdigit '0' (by decide)
  have hzeros (n : ℕ) : ∀ c ∈ List.replicate n '0', P c := List.forall_mem_replicate.2 (.inr hzero)
  unfold positionalText
  dsimp only
  split
  · exact List.forall_mem_append.2 ⟨hdigits, hzeros _⟩
  split
  · refine List.forall_mem_append.2 ⟨fun c hc ↦ ?_, List.forall_mem_cons.2 ⟨hpoint, fun c hc ↦ ?_⟩⟩
    · exact hdigits c (List.mem_of_mem_take hc)
    · exact hdigits c (List.mem_of_mem_drop hc)
  · refine List.forall_mem_cons.2 ⟨hzero, List.forall_mem_cons.2 ⟨hpoint, ?_⟩⟩
    exact List.forall_mem_append.2 ⟨hzeros _, hdigits⟩

/-- Numbers are written with digits, a point and a minus, or as words. -/
theorem forall_mem_positional_chars (hdigit : ∀ c, c.isDigit = true → P c)
    (hother : ∀ c ∈ ['.', '-', 'N', 'a', 'i', 'n', 'f'], P c) (p : Float) :
    ∀ c ∈ positional.chars p, P c := by
  simp only [List.forall_mem_cons] at hother
  obtain ⟨hpoint, hminus, hN, ha, hi, hn, hf, -⟩ := hother
  have hsign (s) : ∀ c ∈ positional.signText s, P c := by
    cases s with
    | negative => exact List.forall_mem_singleton.2 hminus
    | positive => exact nofun
  unfold chars
  split
  · simp [hN, ha]
  · exact List.forall_mem_append.2 ⟨hsign _, by simp [hi, hn, hf]⟩
  · exact List.forall_mem_append.2 ⟨hsign _, List.forall_mem_singleton.2 (hdigit '0' (by decide))⟩
  · exact List.forall_mem_append.2 ⟨hsign _, forall_mem_positionalText hdigit hpoint _⟩

theorem comma_not_mem_positional_chars (p : Float) : ',' ∉ positional.chars p := by
  intro hcomma
  refine forall_mem_positional_chars (P := (· ≠ ',')) ?_ (by simp) p ',' hcomma rfl
  rintro c hc rfl
  exact absurd hc (by decide)

theorem isTrimmed_positional_chars (p : Float) : Text.IsTrimmed (positional.chars p) := by
  apply Text.isTrimmed_of_not_blank
  refine forall_mem_positional_chars (fun c ↦ Text.isBlank_eq_false_of_isDigit) ?_ p
  simp [Text.isBlank, Text.blankRanges]

end NumberLayout

namespace Text.Pairs

variable {α : Type} {read : List Char → Except Problem α} {write : α → List Char} {m : VarMap α}

section Pieces

variable {piece value : List Char} {v : Var} {ts : List (List Char)} {es : List (Var × List Char)}

def spaced : List (List Char) → List (List Char)
  | [] => []
  | t :: ts => t :: ts.map (' ' :: ·)

theorem intercalate_head_cons (c : Char) (t : List Char) (ts : List (List Char)) :
    [','].intercalate ((c :: t) :: ts) = c :: [','].intercalate (t :: ts) := by
  cases ts <;> simp [List.intercalate_cons_cons]

theorem intercalate_spaced (ts : List (List Char)) :
    [',', ' '].intercalate ts = [','].intercalate (spaced ts) := by
  induction ts with
  | nil => rfl
  | cons t ts ih =>
    cases ts with
    | nil => rfl
    | cons t' ts =>
      have hspaced : spaced (t :: t' :: ts) = t :: (' ' :: t') :: ts.map (' ' :: ·) := rfl
      rw [List.intercalate_cons_cons, ih, hspaced, List.intercalate_cons_cons, intercalate_head_cons]
      simp [spaced]

theorem comma_not_mem_spaced (h : ∀ t ∈ ts, ',' ∉ t) : ∀ t ∈ spaced ts, ',' ∉ t := by
  cases ts with
  | nil => exact h
  | cons t ts =>
    obtain ⟨ht, hts⟩ := List.forall_mem_cons.1 h
    refine List.forall_mem_cons.2 ⟨ht, List.forall_mem_map.2 fun t' ht' ↦ ?_⟩
    simpa using hts t' ht'

theorem Spells.not_blank (h : Spells piece v value) : piece.all isBlank = false := by
  obtain ⟨before, after, rfl, -⟩ := h
  have hequals : isBlank '=' = false := by decide
  simp [hequals]

theorem Spells.space_cons (h : Spells piece v value) : Spells (' ' :: piece) v value := by
  obtain ⟨before, after, rfl, hbefore, hname, hvalue⟩ := h
  have hspace : isBlank ' ' = true := by decide
  refine ⟨' ' :: before, after, rfl, ?_, ?_, hvalue⟩
  · simpa using hbefore
  · rw [trim_cons_of_isBlank hspace]
    exact hname

theorem forall₂_spells_spaced (h : List.Forall₂ (fun t e ↦ Spells t e.1 e.2) ts es) :
    List.Forall₂ (fun t e ↦ Spells t e.1 e.2) (spaced ts) es := by
  cases h with
  | nil => exact .nil
  | cons he hes =>
    refine .cons he (List.forall₂_map_left_iff.2 ?_)
    exact hes.imp fun _ _ ↦ Spells.space_cons

theorem pieces_intercalate (hcomma : ∀ t ∈ ts, ',' ∉ t)
    (h : List.Forall₂ (fun t e ↦ Spells t e.1 e.2) ts es) :
    pieces ([',', ' '].intercalate ts) = spaced ts := by
  cases ts with
  | nil => rfl
  | cons t ts =>
    have hspells := forall₂_spells_spaced h
    unfold pieces
    rw [intercalate_spaced,
      List.splitOn_intercalate ',' (comma_not_mem_spaced hcomma) (List.cons_ne_nil t _),
      List.filter_eq_self]
    intro piece hpiece
    obtain ⟨e, -, he⟩ := exists_mem_of_forall₂ hspells hpiece
    rw [he.not_blank]
    rfl

end Pieces

theorem spells_pairText {e : Var × α} (h : e.1.IsPlain) :
    Spells (pairText write e) e.1 (trim (write e.2)) :=
  ⟨e.1.name.toList, write e.2, rfl, h.equals_not_mem, (trim_eq_self h.isTrimmed).symm, rfl⟩

theorem ofText_plainText (hplain : ∀ v ∈ m.keys, v.IsPlain)
    (hwrite : ∀ x ∈ m.values, ',' ∉ write x ∧ read (trim (write x)) = .ok x) :
    ofText read (plainText write m) = .ok m := by
  have hplain : ∀ e ∈ m.entries, e.1.IsPlain := List.forall_mem_map.1 hplain
  have hwrite : ∀ e ∈ m.entries, ',' ∉ write e.2 ∧ read (trim (write e.2)) = .ok e.2 :=
    List.forall_mem_map.1 hwrite
  have hcomma : ∀ t ∈ m.entries.map (pairText write), ',' ∉ t := by
    refine List.forall_mem_map.2 fun e he ↦ ?_
    simp [pairText, (hplain e he).comma_not_mem, (hwrite e he).1]
  have hspells : List.Forall₂ (fun t e ↦ Spells t e.1 e.2) (m.entries.map (pairText write))
      (m.entries.map fun e ↦ (e.1, trim (write e.2))) := by
    rw [List.forall₂_map_left_iff, List.forall₂_map_right_iff, List.forall₂_same]
    exact fun e he ↦ spells_pairText (hplain e he)
  rw [ofText_eq_ok_iff_exists]
  refine ⟨m.entries.map fun e ↦ (e.1, trim (write e.2)), ?_, ?_, ?_, ?_⟩
  · unfold plainText
    rw [pieces_intercalate hcomma hspells]
    exact forall₂_spells_spaced hspells
  · exact List.forall_mem_map.2 fun e he ↦ ⟨e.2, (hwrite e he).2⟩
  · rw [List.map_map]
    exact m.nodup_keys
  · intro v x
    rw [VarMap.get?_eq_some_iff]
    constructor
    · intro hx
      exact ⟨trim (write x), List.mem_map.2 ⟨(v, x), hx, rfl⟩, (hwrite _ hx).2⟩
    · rintro ⟨value, hvalue, hx⟩
      obtain ⟨e, he, heq⟩ := List.mem_map.1 hvalue
      obtain ⟨rfl, rfl⟩ := Prod.mk.inj heq
      rw [← Except.ok.inj ((hwrite e he).2.symm.trans hx)]
      exact he

theorem isPlain_of_ofText_eq_ok {text : List Char} (h : ofText read text = .ok m) :
    ∀ v ∈ m.keys, v.IsPlain := by
  intro v hv
  obtain ⟨x, hx⟩ := VarMap.mem_keys_iff.1 hv
  obtain ⟨start, value, ⟨piece, hpiece, before, after, rfl, hbefore, hname, -⟩, -⟩ :=
    ((ofText_eq_ok_iff.1 h).get?_eq_some_iff v x).1 hx
  refine ⟨?_, ?_, ?_⟩ <;> rw [hname]
  · intro hcomma
    exact hpiece.comma_not_mem (List.mem_append_left _ (mem_of_mem_trim hcomma))
  · intro hequals
    exact hbefore (mem_of_mem_trim hequals)
  · exact isTrimmed_trim before

def ReadsBack (parse : List Char → Except ParseError (VarMap α)) (written : String) (m : VarMap α) : Prop :=
  ∃ text, written.toList = '\x7b' :: text ++ ['\x7d'] ∧ parse text = .ok m

theorem readsBack (hplain : ∀ v ∈ m.keys, v.IsPlain)
    (hwrite : ∀ x ∈ m.values, ',' ∉ write x ∧ read (trim (write x)) = .ok x) :
    ReadsBack (ofText read) (String.ofList (bracedText write m)) m :=
  ⟨plainText write m, String.toList_ofList, ofText_plainText hplain hwrite⟩

theorem readsBack_assignment {a : Assignment} (h : ∀ v ∈ a.keys, v.IsPlain) :
    ReadsBack Assignment.ofText a.render a := by
  refine readsBack h fun b _ ↦ ?_
  cases b
  · exact ⟨by decide, rfl⟩
  · exact ⟨by decide, rfl⟩

theorem readsBack_noise {n : Noise Float} (h : ∀ v ∈ n.keys, v.IsPlain)
    (hread : ∀ p ∈ n.values, Noise.probability (NumberLayout.positional.chars p) = .ok p) :
    ReadsBack Noise.ofText n.render n := by
  refine readsBack h fun p hp ↦ ⟨NumberLayout.comma_not_mem_positional_chars p, ?_⟩
  rw [trim_eq_self (NumberLayout.isTrimmed_positional_chars p)]
  exact hread p hp

/-- That a number is read back is asked only of the numbers in the map. -/
theorem render_readsBack :
    (∀ a : Assignment, (∀ v ∈ a.keys, v.IsPlain) → ReadsBack Assignment.ofText a.render a) ∧
    (∀ n : Noise Float, (∀ v ∈ n.keys, v.IsPlain) →
      (∀ p ∈ n.values, Noise.probability (NumberLayout.positional.chars p) = .ok p) →
        ReadsBack Noise.ofText n.render n) ∧
    (∀ text a, Assignment.ofText text = .ok a → ReadsBack Assignment.ofText a.render a) ∧
    ∀ text n, Noise.ofText text = .ok n →
      (∀ p ∈ n.values, Noise.probability (NumberLayout.positional.chars p) = .ok p) →
        ReadsBack Noise.ofText n.render n := by
  refine ⟨fun a ↦ readsBack_assignment, fun n ↦ readsBack_noise, fun text a h ↦ ?_, fun text n h hread ↦ ?_⟩
  · exact readsBack_assignment (isPlain_of_ofText_eq_ok h)
  · exact readsBack_noise (isPlain_of_ofText_eq_ok h) hread

def oddName : Var := ⟨"naïve \x7bx\x7d", by decide⟩

/-- In the last four parts the maps have been read themselves. -/
theorem render_readsBack_oddName :
    ReadsBack Assignment.ofText (Assignment.render (.ofList [(oddName, true), (⟨"b", by decide⟩, false)]))
      (.ofList [(oddName, true), (⟨"b", by decide⟩, false)]) ∧
    ReadsBack Noise.ofText (Noise.render (.ofList [(oddName, 0.25)])) (.ofList [(oddName, 0.25)]) ∧
    Assignment.ofText " naïve \x7bx\x7d = T ,".toList = .ok (.ofList [(oddName, true)]) ∧
    ReadsBack Assignment.ofText (Assignment.render (.ofList [(oddName, true)])) (.ofList [(oddName, true)]) ∧
    Noise.ofText "naïve \x7bx\x7d=.25".toList = .ok (.ofList [(oddName, 0.25)]) ∧
    ReadsBack Noise.ofText (Noise.render (.ofList [(oddName, 0.25)])) (.ofList [(oddName, 0.25)]) := by
  obtain ⟨hassignment, hnoise, hassignment', hnoise'⟩ := render_readsBack
  have hvalue : ∀ p ∈ (VarMap.ofList [(oddName, (0.25 : Float))]).values,
      Noise.probability (NumberLayout.positional.chars p) = .ok p := List.forall_mem_singleton.2 rfl
  have htruth : Assignment.ofText " naïve \x7bx\x7d = T ,".toList = .ok (.ofList [(oddName, true)]) := rfl
  have hnumber : Noise.ofText "naïve \x7bx\x7d=.25".toList = .ok (.ofList [(oddName, 0.25)]) := rfl
  exact ⟨hassignment _ (by decide), hnoise _ (by decide) hvalue, htruth, hassignment' _ _ htruth, hnumber,
    hnoise' _ _ hnumber hvalue⟩

end Text.Pairs

end NoisyDNF
