import NoisyDNF.Proofs.Formula.Grammar
import NoisyDNF.Proofs.Text.Pieces

namespace NoisyDNF

namespace Formula

/-- The text can be completed to one that is read as a formula. -/
def IsViable (cs : List Char) : Prop := ∃ rest f, ofText (cs ++ rest) = .ok f

section Splitting

def Token.IsLexed : Token → Prop
  | .word c _ => startsWord c = true
  | .symbol c => startsWord c = false

theorem isLexed_of_mem_lexemes {start : ℕ} {cs : List Char} {l : Lexeme}
    (h : l ∈ lexemes start cs) : l.token.IsLexed := by
  fun_induction lexemes start cs with
  | case1 => cases h
  | case2 start c cs hb ih => exact ih h
  | case3 start c cs hb hc tail ih =>
    rcases List.mem_cons.1 h with rfl | h
    · exact hc
    · exact ih h
  | case4 start c cs hb hc ih =>
    rcases List.mem_cons.1 h with rfl | h
    · exact Bool.eq_false_iff.2 hc
    · exact ih h

/-- Where a character that is not blank starts a token, it is the first of that token. -/
theorem exists_lexemes_cons {c : Char} (hc : Text.isBlank c = false) (start : ℕ) (cs : List Char) :
    ∃ t ls, lexemes start (c :: cs) = ⟨start, t⟩ :: ls ∧ t.head = c := by
  rw [lexemes, hc, if_neg Bool.false_ne_true]
  split
  · exact ⟨_, _, rfl, rfl⟩
  · exact ⟨_, _, rfl, rfl⟩

/-- What is read of a text before one of its tokens depends on no more than the first character of that
token. -/
structure SplitsAt (start : ℕ) (cs : List Char) (ls : List Lexeme) (l : Lexeme)
    (before : List Char) : Prop where
  exists_rest : ∃ rest, cs = before ++ l.token.head :: rest
  start_eq : l.start = start + Text.byteSize before
  isBlank_head : Text.isBlank l.token.head = false
  lexemes_before : lexemes start before = ls
  lexemes_append (rest : List Char) : lexemes start (before ++ l.token.head :: rest) =
    ls ++ lexemes l.start (l.token.head :: rest)

variable {start : ℕ} {c : Char} {cs before : List Char} {ls : List Lexeme} {l : Lexeme}

theorem SplitsAt.here {t : Token} (hb : Text.isBlank t.head = false) (rest : List Char) :
    SplitsAt start (t.head :: rest) [] ⟨start, t⟩ [] where
  exists_rest := ⟨rest, rfl⟩
  start_eq := rfl
  isBlank_head := hb
  lexemes_before := by rw [lexemes]
  lexemes_append _ := rfl

theorem SplitsAt.blank (h : SplitsAt (start + c.utf8Size) cs ls l before)
    (hc : Text.isBlank c = true) : SplitsAt start (c :: cs) ls l (c :: before) where
  exists_rest := by
    obtain ⟨rest, rfl⟩ := h.exists_rest
    exact ⟨rest, rfl⟩
  start_eq := by rw [h.start_eq, Text.byteSize, Nat.add_assoc]
  isBlank_head := h.isBlank_head
  lexemes_before := by rw [lexemes_of_isBlank hc, h.lexemes_before]
  lexemes_append rest := by rw [List.cons_append, lexemes_of_isBlank hc, h.lexemes_append]

theorem SplitsAt.word {tail rest : List Char} (hc : startsWord c = true)
    (htail : ∀ d ∈ tail, continuesWord d = true) (hrest : ∀ d ∈ rest.head?, continuesWord d = false)
    (h : SplitsAt (start + c.utf8Size + Text.byteSize tail) rest ls l before) :
    SplitsAt start (c :: tail ++ rest) (⟨start, .word c tail⟩ :: ls) l (c :: tail ++ before) := by
  obtain ⟨rest', rfl⟩ := h.exists_rest
  -- The word ends where it did, since what follows starts with the same character.
  have hbefore : ∀ d ∈ before.head?, continuesWord d = false := by
    cases before with
    | nil => nofun
    | cons e before => exact hrest
  have hnext (rest : List Char) :
      ∀ d ∈ (before ++ l.token.head :: rest).head?, continuesWord d = false := by
    cases before with
    | nil => exact hrest
    | cons e before => exact hrest
  refine ⟨⟨rest', by rw [List.append_assoc]⟩, ?_, h.isBlank_head, ?_, fun rest ↦ ?_⟩
  · rw [h.start_eq, Text.byteSize_append, Text.byteSize]
    omega
  · rw [lexemes_of_startsWord hc htail hbefore, h.lexemes_before]
  · rw [List.append_assoc, lexemes_of_startsWord hc htail (hnext rest), h.lexemes_append]
    rfl

theorem SplitsAt.symbol (hb : Text.isBlank c = false) (hc : startsWord c = false)
    (h : SplitsAt (start + c.utf8Size) cs ls l before) :
    SplitsAt start (c :: cs) (⟨start, .symbol c⟩ :: ls) l (c :: before) := by
  obtain ⟨rest, rfl⟩ := h.exists_rest
  refine ⟨⟨rest, rfl⟩, ?_, h.isBlank_head, ?_, fun rest ↦ ?_⟩
  · rw [h.start_eq, Text.byteSize, Nat.add_assoc]
  · rw [lexemes_of_symbol hb hc, h.lexemes_before]
  · rw [List.cons_append, lexemes_of_symbol hb hc, h.lexemes_append]
    rfl

theorem exists_splitsAt {ls' : List Lexeme} (h : lexemes start cs = ls ++ l :: ls') :
    ∃ before, SplitsAt start cs ls l before := by
  revert ls
  fun_induction lexemes start cs with
  | case1 =>
    intro ls h
    exact absurd h.symm (List.append_ne_nil_of_right_ne_nil ls (List.cons_ne_nil l ls'))
  | case2 start c cs hb ih =>
    intro ls h
    obtain ⟨before, hbefore⟩ := ih h
    exact ⟨c :: before, hbefore.blank hb⟩
  | case3 start c cs hb hc tail =>
    rename_i ih
    intro ls h
    cases ls with
    | nil =>
      obtain ⟨rfl, -⟩ := List.cons.inj h
      exact ⟨[], .here (t := .word c _) (Bool.eq_false_iff.2 hb) cs⟩
    | cons k ls =>
      obtain ⟨rfl, hls⟩ := List.cons.inj h
      obtain ⟨before, hbefore⟩ := ih hls
      have hrest : ∀ d ∈ (cs.dropWhile continuesWord).head?, continuesWord d = false := by
        intro d hd
        have hnot := List.head?_dropWhile_not continuesWord cs
        rwa [Option.mem_def.1 hd] at hnot
      have hword := hbefore.word hc (List.all_eq_true.1 List.all_takeWhile) hrest
      rw [List.cons_append, List.takeWhile_append_dropWhile] at hword
      exact ⟨_, hword⟩
  | case4 start c cs hb hc ih =>
    intro ls h
    cases ls with
    | nil =>
      obtain ⟨rfl, -⟩ := List.cons.inj h
      exact ⟨[], .here (t := .symbol c) (Bool.eq_false_iff.2 hb) cs⟩
    | cons k ls =>
      obtain ⟨rfl, hls⟩ := List.cons.inj h
      obtain ⟨before, hbefore⟩ := ih hls
      exact ⟨c :: before, hbefore.symbol (Bool.eq_false_iff.2 hb) (Bool.eq_false_iff.2 hc)⟩

end Splitting

namespace Reader

variable {r r' r'' : Reader} {ts us : List Token} {t t' : Token}

/-- Whether a token is refused shows in its first character. -/
theorem take?_eq_none_of_head (ht : t.IsLexed) (ht' : t'.IsLexed) (hhead : t'.head = t.head)
    (h : r.take? t = none) : r.take? t' = none := by
  cases t with
  | word c cs =>
    cases t' with
    | word d ds =>
      cases hafter : r.afterOperand with
      | true => rw [take?, hafter, if_pos rfl, takeOperator?]
      | false =>
        rw [take?, hafter, if_neg Bool.false_ne_true, takeOperand?] at h
        cases h
    | symbol d =>
      obtain rfl : d = c := hhead
      exact absurd (ht.symm.trans ht') (by decide)
  | symbol c =>
    cases t' with
    | word d ds =>
      obtain rfl : d = c := hhead
      exact absurd (ht'.symm.trans ht) (by decide)
    | symbol d =>
      obtain rfl : d = c := hhead
      exact h

theorem Takes.unique (h : r.Takes t r') (h' : r.Takes t r'') : r' = r'' :=
  Option.some_inj.1 ((take?_eq_some_iff.2 h).symm.trans (take?_eq_some_iff.2 h'))

/-- A reader takes tokens in one way only. -/
theorem TakesAll.of_append (h : r.TakesAll ts r') (h' : r.TakesAll (ts ++ us) r'') :
    r'.TakesAll us r'' := by
  induction h with
  | nil => exact h'
  | cons ht _ ih =>
    obtain - | ⟨ht', hrest⟩ := h'
    obtain rfl := ht.unique ht'
    exact ih hrest

/-- An error is at the first token that is refused, or else at the end of the text. -/
theorem exists_of_run_eq_error {stop : ℕ} {ls : List Lexeme} {e : Text.ParseError}
    (h : r.run stop ls = .error e) :
    (∃ r', r.TakesAll (ls.map Lexeme.token) r' ∧ e.offset = stop) ∨
      ∃ ls₁ l ls₂ r', ls = ls₁ ++ l :: ls₂ ∧ r.TakesAll (ls₁.map Lexeme.token) r' ∧
        r'.take? l.token = none ∧ e.offset = l.start := by
  induction ls generalizing r with
  | nil =>
    rw [run] at h
    split at h
    · cases h
    · cases h
      exact .inl ⟨r, .nil r, rfl⟩
  | cons l ls ih =>
    rw [run] at h
    split at h
    · next r₁ ht =>
      have htake := take?_eq_some_iff.1 ht
      rcases ih h with ⟨r', hall, he⟩ | ⟨ls₁, k, ls₂, r', rfl, hall, hn, he⟩
      · exact .inl ⟨r', .cons htake hall, he⟩
      · exact .inr ⟨l :: ls₁, k, ls₂, r', rfl, .cons htake hall, hn, he⟩
    · next hn =>
      cases h
      exact .inr ⟨[], l, ls, r, rfl, .nil r, hn, rfl⟩

section Completion

def completion (r : Reader) : List Token :=
  (if r.afterOperand then [] else [.word 'a' []]) ++ .replicate r.outer.length (.symbol ')')

theorem exists_takesAll_closing (l : Level) (outer : List Level) :
    ∃ l' : Level, TakesAll ⟨l, outer, true⟩ (.replicate outer.length (.symbol ')')) ⟨l', [], true⟩ := by
  induction outer generalizing l with
  | nil => exact ⟨l, .nil _⟩
  | cons l₁ outer ih =>
    obtain ⟨l', h⟩ := ih (l₁.addOperand l.formula)
    exact ⟨l', .cons .closing h⟩

theorem exists_takesAll_completion (r : Reader) :
    ∃ l : Level, r.TakesAll r.completion ⟨l, [], true⟩ := by
  obtain ⟨l, outer, after⟩ := r
  cases after with
  | true => exact exists_takesAll_closing l outer
  | false =>
    obtain ⟨l', h⟩ := exists_takesAll_closing (l.addOperand (ofWord 'a' [])) outer
    exact ⟨l', .cons .word h⟩

theorem reads_closing (n : ℕ) : Reads (.replicate n ')') (.replicate n (.symbol ')')) := by
  induction n with
  | zero => exact .nil
  | succ n ih => exact .symbol (by decide) ih

def completionText (r : Reader) : List Char :=
  ' ' :: (if r.afterOperand then [] else ['a']) ++ .replicate r.outer.length ')'

theorem reads_completionText (r : Reader) : Reads r.completionText r.completion := by
  have hclosing := reads_closing r.outer.length
  refine .blank (by decide) ?_
  rw [completion]
  cases r.afterOperand with
  | true => exact hclosing
  | false =>
    refine Reads.word (by decide) nofun ?_ hclosing
    cases r.outer with
    | nil => nofun
    | cons l outer => exact head?_of_not_continuesWord (by decide)

end Completion

/-- A text whose tokens are all taken can be completed. -/
theorem exists_ofText_append {cs : List Char}
    (h : TakesAll {} ((lexemes 0 cs).map Lexeme.token) r) :
    ∃ f, ofText (cs ++ r.completionText) = .ok f := by
  obtain ⟨l, hl⟩ := r.exists_takesAll_completion
  have hreads : Reads cs ((lexemes 0 cs).map Lexeme.token) :=
    .of_lexemes 0 cs fun c hc ↦ h.mem_symbols hc
  have hall := hreads.append r.reads_completionText (head?_of_not_continuesWord (by decide))
  exact ⟨l.formula, run_eq_ok_iff.2 ⟨l, hall.map_token_lexemes 0 ▸ h.trans hl, rfl⟩⟩

/-- A token that is refused is refused whatever follows its first character. -/
theorem not_isViable {cs before : List Char} {ls ls' : List Lexeme} {l : Lexeme}
    (hlex : lexemes 0 cs = ls ++ l :: ls') (hsplit : SplitsAt 0 cs ls l before)
    (htakes : TakesAll {} (ls.map Lexeme.token) r) (hn : r.take? l.token = none) :
    ¬ IsViable (before ++ [l.token.head]) := by
  rintro ⟨rest, f, hf⟩
  rw [List.append_assoc, List.singleton_append] at hf
  obtain ⟨l', hall, -⟩ := run_eq_ok_iff.1 hf
  obtain ⟨t, ls₁, hcons, hhead⟩ := exists_lexemes_cons hsplit.isBlank_head l.start rest
  rw [hsplit.lexemes_append, hcons, List.map_append, List.map_cons] at hall
  obtain - | ⟨htake, -⟩ := htakes.of_append hall
  have ht : t.IsLexed := isLexed_of_mem_lexemes (hcons ▸ List.mem_cons_self)
  have hl : l.token.IsLexed := isLexed_of_mem_lexemes (hlex ▸ List.mem_append_right ls List.mem_cons_self)
  have hnone := take?_eq_none_of_head hl ht hhead hn
  rw [take?_eq_some_iff.2 htake] at hnone
  cases hnone

end Reader

theorem exists_offset_of_ofText_eq_error {cs : List Char} {e : Text.ParseError}
    (h : ofText cs = .error e) :
    ∃ before rest, cs = before ++ rest ∧ Text.byteSize before = e.offset ∧ IsViable before ∧
      ∀ c ∈ rest.head?, Text.isBlank c = false ∧ ¬ IsViable (before ++ [c]) := by
  rcases Reader.exists_of_run_eq_error h with ⟨r, htakes, he⟩ | ⟨ls, l, ls', r, hlex, htakes, hn, he⟩
  · obtain ⟨f, hf⟩ := Reader.exists_ofText_append htakes
    exact ⟨cs, [], (List.append_nil cs).symm, he.symm, ⟨_, f, hf⟩, nofun⟩
  · obtain ⟨before, hsplit⟩ := exists_splitsAt hlex
    obtain ⟨rest, hrest⟩ := hsplit.exists_rest
    refine ⟨before, _, hrest, by rw [he, hsplit.start_eq, Nat.zero_add], ?_, ?_⟩
    · rw [← hsplit.lexemes_before] at htakes
      exact ⟨_, Reader.exists_ofText_append htakes⟩
    · rintro c ⟨⟩
      exact ⟨hsplit.isBlank_head, Reader.not_isViable hlex hsplit htakes hn⟩

/-- An error stands at a character that is not blank or at the end of the text. The text before it can be
completed, and with the character at it there is no way to complete it any more; at the end, what is missing
is only more text. -/
theorem ofText_eq_error {cs : List Char} {e : Text.ParseError} (h : ofText cs = .error e) :
    e.offset ≤ Text.byteSize cs ∧
    (∃ before rest, cs = before ++ rest ∧ Text.byteSize before = e.offset) ∧
    ∀ before rest, cs = before ++ rest → Text.byteSize before = e.offset →
      (∀ c ∈ rest.head?, Text.isBlank c = false) ∧ IsViable before ∧
      (∀ c ∈ rest.head?, ¬ IsViable (before ++ [c])) ∧
      (rest = [] → ∃ more f, more ≠ [] ∧ ofText (cs ++ more) = .ok f) := by
  obtain ⟨before, rest, rfl, hoffset, hviable, hhead⟩ := exists_offset_of_ofText_eq_error h
  refine ⟨?_, ⟨before, rest, rfl, hoffset⟩, ?_⟩
  · rw [Text.byteSize_append, hoffset]
    exact Nat.le_add_right _ _
  · intro before' rest' hcs hoffset'
    obtain ⟨rfl, rfl⟩ := Text.append_inj_of_byteSize hcs (hoffset.trans hoffset'.symm)
    refine ⟨fun c hc ↦ (hhead c hc).1, hviable, fun c hc ↦ (hhead c hc).2, ?_⟩
    rintro rfl
    rw [List.append_nil] at h ⊢
    obtain ⟨more, f, hf⟩ := hviable
    refine ⟨more, f, ?_, hf⟩
    rintro rfl
    rw [List.append_nil, h] at hf
    cases hf

/-- In parentheses the operator is missing between two operands; the space between them takes two bytes. -/
theorem ofText_eq_error_missingOperator :
    ofText ['(', 'a', '\u00a0', 'b'] = .error ⟨4, .unclosedParenthesis⟩ ∧
      IsViable ['(', 'a', '\u00a0'] ∧ ¬ IsViable ['(', 'a', '\u00a0', 'b'] := by
  have ha : lexemes 1 ['a', '\u00a0', 'b'] = ⟨1, .word 'a' []⟩ :: lexemes 2 ['\u00a0', 'b'] :=
    @lexemes_of_startsWord 'a' [] _ (by decide) nofun (head?_of_not_continuesWord (by decide)) 1
  have hblank : lexemes 2 ['\u00a0', 'b'] = lexemes 4 ['b'] := lexemes_of_isBlank (by decide) 2
  have hb : lexemes 4 ['b'] = ⟨4, .word 'b' []⟩ :: lexemes 5 [] :=
    @lexemes_of_startsWord 'b' [] [] (by decide) nofun nofun 4
  have hlex : lexemes 0 ['(', 'a', '\u00a0', 'b'] = ⟨0, .symbol '('⟩ :: lexemes 1 ['a', '\u00a0', 'b'] :=
    lexemes_of_mem_symbols (by decide) 0
  have h : ofText ['(', 'a', '\u00a0', 'b'] = .error ⟨4, .unclosedParenthesis⟩ := by
    rw [ofText, hlex, ha, hblank, hb, lexemes]
    rfl
  obtain ⟨-, -, hcut⟩ := ofText_eq_error h
  obtain ⟨-, hviable, hnot, -⟩ := hcut ['(', 'a', '\u00a0'] ['b'] rfl (by decide)
  exact ⟨h, hviable, hnot 'b' rfl⟩

end Formula

end NoisyDNF
