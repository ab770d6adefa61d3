import Mathlib.Data.List.Basic
import NoisyDNF.Text.Pairs

namespace NoisyDNF.Text.Pairs

variable {text piece before after value : List Char} {v : Var} {start : ℕ} {c : Chunk} {p : Pair}
  {e : ParseError}

theorem ofName?_eq_some_iff {name : String} : Var.ofName? name = some v ↔ v.name = name := by
  unfold Var.ofName?
  split
  · next h => rw [Option.some_inj, Var.ext_iff, eq_comm]
  · next h =>
    refine iff_of_false nofun ?_
    intro hv
    exact h (hv ▸ v.name_ne_empty)

theorem ofText?_eq_some_iff : Var.ofText? text = some v ↔ v.name.toList = trim text := by
  rw [Var.ofText?, ofName?_eq_some_iff, ← String.toList_inj, String.toList_ofList]

theorem ofText?_eq_none_iff : Var.ofText? text = none ↔ trim text = [] := by
  constructor
  · intro h
    by_contra hne
    have hname : String.ofList (trim text) ≠ "" := by
      intro hempty
      apply hne
      rw [← String.toList_ofList (l := trim text), hempty, String.toList_empty]
    exact nomatch h.symm.trans (ofText?_eq_some_iff (v := ⟨_, hname⟩).2 String.toList_ofList)
  · intro h
    unfold Var.ofText?
    rw [h]
    rfl

/-- The name stands before the first equals sign and the value behind it, both without the white space around
them. -/
def Spells (piece : List Char) (v : Var) (value : List Char) : Prop :=
  ∃ before after, piece = before ++ '=' :: after ∧ '=' ∉ before ∧ v.name.toList = trim before ∧
    value = trim after

inductive Misshapen (piece : List Char) : Problem → Prop
  | noEqualsSign : '=' ∉ piece → Misshapen piece (.noEqualsSign (trim piece))
  | noName {before after : List Char} :
      piece = before ++ '=' :: after → '=' ∉ before → trim before = [] → Misshapen piece .noName

theorem ne_of_not_mem (h : '=' ∉ before) : ∀ c ∈ before, (c != '=') = true := by
  intro c hc
  rw [bne_iff_ne]
  rintro rfl
  exact h hc

theorem takeWhile_eq (h : '=' ∉ before) : (before ++ '=' :: after).takeWhile (· != '=') = before := by
  rw [List.takeWhile_append_of_pos (ne_of_not_mem h), List.takeWhile_cons_of_neg (by simp), List.append_nil]

theorem dropWhile_eq (h : '=' ∉ before) :
    (before ++ '=' :: after).dropWhile (· != '=') = '=' :: after := by
  rw [List.dropWhile_append_of_pos (ne_of_not_mem h), List.dropWhile_cons_of_neg (by simp)]

theorem ofChunk_eq_of_not_mem (h : '=' ∉ piece) :
    Pair.ofChunk ⟨start, piece⟩ = .error ⟨start, .noEqualsSign (trim piece)⟩ := by
  have hdrop : piece.dropWhile (· != '=') = [] := by
    rw [← List.append_nil piece, List.dropWhile_append_of_pos (ne_of_not_mem h), List.dropWhile_nil]
  unfold Pair.ofChunk
  rw [hdrop]

theorem ofChunk_eq (h : '=' ∉ before) :
    Pair.ofChunk ⟨start, before ++ '=' :: after⟩ =
      (Var.ofText? before).elim (.error ⟨start, .noName⟩) fun key ↦ .ok ⟨start, key, trim after⟩ := by
  unfold Pair.ofChunk
  rw [dropWhile_eq h, takeWhile_eq h]
  cases Var.ofText? before <;> rfl

theorem append_inj_of_not_mem {before' after' : List Char} (h : '=' ∉ before) (h' : '=' ∉ before')
    (heq : before ++ '=' :: after = before' ++ '=' :: after') : before = before' ∧ after = after' := by
  have hbefore := congrArg (List.takeWhile (· != '=')) heq
  have hafter := congrArg (List.dropWhile (· != '=')) heq
  rw [takeWhile_eq h, takeWhile_eq h'] at hbefore
  rw [dropWhile_eq h, dropWhile_eq h'] at hafter
  exact ⟨hbefore, (List.cons.inj hafter).2⟩

theorem Spells.unique {w : Var} {value' : List Char} (h : Spells piece v value)
    (h' : Spells piece w value') : (v, value) = (w, value') := by
  obtain ⟨before, after, rfl, hbefore, hname, rfl⟩ := h
  obtain ⟨before', after', hpiece, hbefore', hname', rfl⟩ := h'
  obtain ⟨rfl, rfl⟩ := append_inj_of_not_mem hbefore hbefore' hpiece
  have hvw : v = w := Var.ext (String.toList_inj.1 (hname.trans hname'.symm))
  rw [hvw]

theorem ofChunk_eq_ok_iff :
    Pair.ofChunk c = .ok p ↔ p.start = c.start ∧ Spells c.text p.key p.value := by
  obtain ⟨start, piece⟩ := c
  by_cases h : '=' ∈ piece
  · obtain ⟨before, after, rfl, hbefore⟩ := List.eq_append_cons_of_mem h
    rw [ofChunk_eq hbefore]
    constructor
    · intro hp
      cases hkey : Var.ofText? before with
      | none =>
        rw [hkey] at hp
        cases hp
      | some key =>
        rw [hkey] at hp
        cases hp
        exact ⟨rfl, before, after, rfl, hbefore, ofText?_eq_some_iff.1 hkey, rfl⟩
    · rintro ⟨hstart, before', after', hpiece, hbefore', hname, hvalue⟩
      obtain ⟨rfl, rfl⟩ := append_inj_of_not_mem hbefore hbefore' hpiece
      obtain ⟨start', key, value⟩ := p
      obtain rfl : start' = start := hstart
      obtain rfl : value = trim after := hvalue
      rw [ofText?_eq_some_iff.2 hname]
      rfl
  · rw [ofChunk_eq_of_not_mem h]
    refine iff_of_false nofun ?_
    rintro ⟨-, before, after, hpiece, -⟩
    apply h
    rw [show piece = _ from hpiece]
    exact List.mem_append_right before List.mem_cons_self

theorem ofChunk_eq_error_iff :
    Pair.ofChunk c = .error e ↔ e.offset = c.start ∧ Misshapen c.text e.problem := by
  obtain ⟨start, piece⟩ := c
  obtain ⟨offset, problem⟩ := e
  by_cases h : '=' ∈ piece
  · obtain ⟨before, after, rfl, hbefore⟩ := List.eq_append_cons_of_mem h
    rw [ofChunk_eq hbefore]
    constructor
    · intro he
      cases hkey : Var.ofText? before with
      | none =>
        rw [hkey] at he
        cases he
        exact ⟨rfl, .noName rfl hbefore (ofText?_eq_none_iff.1 hkey)⟩
      | some key =>
        rw [hkey] at he
        cases he
    · rintro ⟨rfl, hshape⟩
      change Misshapen (before ++ '=' :: after) problem at hshape
      cases hshape with
      | noEqualsSign hno => exact absurd h hno
      | noName hpiece hbefore' hempty =>
        obtain ⟨rfl, rfl⟩ := append_inj_of_not_mem hbefore hbefore' hpiece
        rw [ofText?_eq_none_iff.2 hempty]
        rfl
  · rw [ofChunk_eq_of_not_mem h]
    constructor
    · intro he
      cases he
      exact ⟨rfl, .noEqualsSign h⟩
    · rintro ⟨rfl, hshape⟩
      change Misshapen piece problem at hshape
      cases hshape with
      | noEqualsSign => rfl
      | noName hpiece =>
        refine absurd ?_ h
        rw [hpiece]
        exact List.mem_append_right _ List.mem_cons_self

theorem ofChunk_eq_error_of_misshapen {problem : Problem} (h : Misshapen piece problem) :
    Pair.ofChunk ⟨start, piece⟩ = .error ⟨start, problem⟩ :=
  ofChunk_eq_error_iff.2 ⟨rfl, h⟩

end NoisyDNF.Text.Pairs
