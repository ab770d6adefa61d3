import NoisyDNF.Formula.Token
import Mathlib.Data.List.TakeWhile

namespace NoisyDNF.Formula

def symbols : List Char := ['!', '~', '&', '|', '(', ')']

/-- A word goes on for as long as it can, a symbol stands by itself, and white space may surround every
token. -/
inductive Reads : List Char → List Token → Prop
  | nil : Reads [] []
  | blank {c : Char} {cs : List Char} {ts : List Token} :
      Text.isBlank c = true → Reads cs ts → Reads (c :: cs) ts
  | word {c : Char} {cs rest : List Char} {ts : List Token} :
      startsWord c = true → (∀ d ∈ cs, continuesWord d = true) →
      (∀ d ∈ rest.head?, continuesWord d = false) → Reads rest ts →
      Reads (c :: cs ++ rest) (.word c cs :: ts)
  | symbol {c : Char} {cs : List Char} {ts : List Token} :
      c ∈ symbols → Reads cs ts → Reads (c :: cs) (.symbol c :: ts)

theorem toNat_mem_of_startsWord {c : Char} (h : startsWord c = true) :
    65 ≤ c.toNat ∧ c.toNat ≤ 90 ∨ 97 ≤ c.toNat ∧ c.toNat ≤ 122 ∨ c.toNat = 95 := by
  rw [startsWord, Bool.or_eq_true_iff] at h
  rcases h with h | h
  · have hcase : (c.isUpper || c.isLower) = true := h
    rcases Bool.or_eq_true_iff.1 hcase with hupper | hlower
    · exact .inl (of_decide_eq_true hupper)
    · obtain ⟨hge, hle⟩ := Bool.and_eq_true_iff.1 hlower
      exact .inr (.inl ⟨of_decide_eq_true hge, of_decide_eq_true hle⟩)
  · obtain rfl := eq_of_beq h
    exact .inr (.inr rfl)

theorem isBlank_of_startsWord {c : Char} (h : startsWord c = true) : Text.isBlank c = false := by
  have hc := toNat_mem_of_startsWord h
  simp only [Text.isBlank, Text.blankRanges, List.any_cons, List.any_nil, Bool.or_eq_false_iff,
    Bool.and_eq_false_iff, decide_eq_false_iff_not, and_true]
  omega

theorem isBlank_of_mem_symbols {c : Char} (h : c ∈ symbols) : Text.isBlank c = false := by
  have hall : symbols.all (!Text.isBlank ·) = true := by decide
  simpa using List.all_eq_true.1 hall c h

theorem startsWord_of_mem_symbols {c : Char} (h : c ∈ symbols) : startsWord c = false := by
  have hall : symbols.all (!startsWord ·) = true := by decide
  simpa using List.all_eq_true.1 hall c h

theorem head?_of_not_continuesWord {c : Char} {cs : List Char} (h : continuesWord c = false) :
    ∀ d ∈ (c :: cs).head?, continuesWord d = false := by
  rintro d ⟨⟩
  exact h

section Lexemes

variable {c : Char} {cs rest : List Char}

theorem lexemes_of_isBlank (h : Text.isBlank c = true) (start : ℕ) :
    lexemes start (c :: cs) = lexemes (start + c.utf8Size) cs := by
  rw [lexemes, if_pos h]

theorem lexemes_of_startsWord (h : startsWord c = true) (hcs : ∀ d ∈ cs, continuesWord d = true)
    (hrest : ∀ d ∈ rest.head?, continuesWord d = false) (start : ℕ) :
    lexemes start (c :: cs ++ rest) =
      ⟨start, .word c cs⟩ :: lexemes (start + c.utf8Size + Text.byteSize cs) rest := by
  have htake : rest.takeWhile continuesWord = [] := by
    cases rest with
    | nil => rfl
    | cons d rest => rw [List.takeWhile_cons, hrest d rfl]; rfl
  have hdrop : rest.dropWhile continuesWord = rest := by
    cases rest with
    | nil => rfl
    | cons d rest => rw [List.dropWhile_cons, hrest d rfl]; rfl
  rw [List.cons_append, lexemes, isBlank_of_startsWord h, if_neg Bool.false_ne_true, if_pos h,
    List.takeWhile_append_of_pos hcs, List.dropWhile_append_of_pos hcs, htake, hdrop,
    List.append_nil]

theorem lexemes_of_symbol (hb : Text.isBlank c = false) (hc : startsWord c = false) (start : ℕ) :
    lexemes start (c :: cs) = ⟨start, .symbol c⟩ :: lexemes (start + c.utf8Size) cs := by
  rw [lexemes, hb, hc, if_neg Bool.false_ne_true, if_neg Bool.false_ne_true]

theorem lexemes_of_mem_symbols (h : c ∈ symbols) (start : ℕ) :
    lexemes start (c :: cs) = ⟨start, .symbol c⟩ :: lexemes (start + c.utf8Size) cs :=
  lexemes_of_symbol (isBlank_of_mem_symbols h) (startsWord_of_mem_symbols h) start

end Lexemes

namespace Reads

variable {cs ds : List Char} {ts us : List Token}

theorem map_token_lexemes (h : Reads cs ts) (start : ℕ) :
    (lexemes start cs).map Lexeme.token = ts := by
  induction h generalizing start with
  | nil => rw [lexemes]; rfl
  | blank hc _ ih => rw [lexemes_of_isBlank hc, ih]
  | word hc hcs hrest _ ih => rw [lexemes_of_startsWord hc hcs hrest, List.map_cons, ih]
  | symbol hc _ ih => rw [lexemes_of_mem_symbols hc, List.map_cons, ih]

theorem of_lexemes (start : ℕ) (cs : List Char)
    (h : ∀ c, .symbol c ∈ (lexemes start cs).map Lexeme.token → c ∈ symbols) :
    Reads cs ((lexemes start cs).map Lexeme.token) := by
  fun_induction lexemes start cs with
  | case1 => exact .nil
  | case2 start c cs hc ih => exact .blank hc (ih h)
  | case3 start c cs hb hc tail ih =>
    have hrest : ∀ d ∈ (cs.dropWhile continuesWord).head?, continuesWord d = false := by
      intro d hd
      have hnot := List.head?_dropWhile_not continuesWord cs
      rwa [Option.mem_def.1 hd] at hnot
    have hcs : ∀ d ∈ cs.takeWhile continuesWord, continuesWord d = true :=
      List.all_eq_true.1 List.all_takeWhile
    have hword := Reads.word hc hcs hrest (ih fun d hd ↦ h d (List.mem_cons_of_mem _ hd))
    rwa [List.cons_append, List.takeWhile_append_dropWhile] at hword
  | case4 start c cs hb hc ih =>
    exact .symbol (h c List.mem_cons_self) (ih fun d hd ↦ h d (List.mem_cons_of_mem _ hd))

/-- Readings stand one after the other where the second text does not go on a word of the first. -/
theorem append (h : Reads cs ts) (h' : Reads ds us) (hd : ∀ d ∈ ds.head?, continuesWord d = false) :
    Reads (cs ++ ds) (ts ++ us) := by
  induction h with
  | nil => exact h'
  | blank hc _ ih => exact .blank hc ih
  | @word c cs rest ts hc hcs hrest _ ih =>
    rw [List.append_assoc]
    refine .word hc hcs (fun d hmem ↦ ?_) ih
    cases rest with
    | nil => exact hd d hmem
    | cons e rest => exact hrest d hmem
  | symbol hc _ ih => exact .symbol hc ih

end Reads

end NoisyDNF.Formula
