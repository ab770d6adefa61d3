import NoisyDNF.Formula.Printer
import NoisyDNF.Proofs.Formula.Grammar
import NoisyDNF.Proofs.Formula.Normal
import Mathlib.Tactic.Choose

namespace NoisyDNF

structure Var.IsWord (v : Var) : Prop where
  exists_chars : ∃ c cs, v.name.toList = c :: cs ∧ Formula.startsWord c = true ∧
    ∀ d ∈ cs, Formula.continuesWord d = true
  ne_true : v.name ≠ "true"
  ne_false : v.name ≠ "false"

namespace Formula

theorem Reads.of_word {c : Char} {cs : List Char} (hc : startsWord c = true)
    (hcs : ∀ d ∈ cs, continuesWord d = true) : Reads (c :: cs) [.word c cs] := by
  have h := Reads.word hc hcs (by simp) .nil
  rwa [List.append_nil] at h

theorem reads_parenthesised {cs : List Char} {ts : List Token} (h : Reads cs ts) :
    Reads (parenthesised cs) (.symbol '(' :: ts ++ [.symbol ')']) :=
  .symbol (by decide) (h.append (.symbol (by decide) .nil) (head?_of_not_continuesWord (by decide)))

/-- The texts of the operands of a chain, with the operator between blanks. -/
theorem reads_intercalate {c : Char} (hc : c ∈ symbols) (ps : List (List Char × List Token))
    (h : ∀ p ∈ ps, Reads p.1 p.2) :
    Reads ([' ', c, ' '].intercalate (ps.map Prod.fst)) ([.symbol c].intercalate (ps.map Prod.snd)) := by
  induction ps with
  | nil => exact .nil
  | cons p ps ih =>
    have hp := h p List.mem_cons_self
    have hps := ih fun q hq ↦ h q (List.mem_cons_of_mem p hq)
    cases ps with
    | nil => simpa using hp
    | cons q ps =>
      have hblank : Text.isBlank ' ' = true := by decide
      have hrest := Reads.blank hblank (.symbol hc (.blank hblank hps))
      have h := hp.append hrest (head?_of_not_continuesWord (by decide))
      simpa [List.intercalate_cons_cons] using h

theorem ReadsAs.ofConjunction {cs : List Char} {f : Formula} (h : ReadsAs .conjunction cs f) :
    ReadsAs .disjunction cs f := h.imp fun _ ↦ And.imp_right .ofConjunction

theorem ReadsAs.ofOperand {cs : List Char} {f : Formula} (h : ReadsAs .operand cs f) :
    ReadsAs .conjunction cs f := h.imp fun _ ↦ And.imp_right .ofOperand

theorem ReadsAs.parenthesised {cs : List Char} {f : Formula} (h : ReadsAs .disjunction cs f) :
    ReadsAs .operand (parenthesised cs) f := by
  obtain ⟨ts, hts, hf⟩ := h
  exact ⟨_, reads_parenthesised hts, .group hf⟩

theorem readsAs_truthText (b : Bool) : ReadsAs .operand (Assignment.truthText b) (.const b) := by
  cases b with
  | true => exact ⟨_, .of_word (by decide) (List.all_eq_true.1 (by decide)), .constTrue⟩
  | false => exact ⟨_, .of_word (by decide) (List.all_eq_true.1 (by decide)), .constFalse⟩

theorem readsAs_name {v : Var} (hv : v.IsWord) : ReadsAs .operand v.name.toList (.var v) := by
  obtain ⟨c, cs, hname, hc, hcs⟩ := hv.exists_chars
  rw [hname]
  exact ⟨_, .of_word hc hcs, .var (by rw [← hname, String.ofList_toList]) hv.ne_true hv.ne_false⟩

structure StandsFor (f g : Formula) : Prop where
  operand : ReadsAs .operand (operandText f f.text) g
  whole : ReadsAs .disjunction f.text g

theorem standsFor_of_operand {f g : Formula} (hf : f.isChain = false) (h : ReadsAs .operand f.text g) :
    f.StandsFor g := by
  refine ⟨?_, h.ofOperand.ofConjunction⟩
  rwa [operandText, hf, if_neg Bool.false_ne_true]

theorem standsFor_of_chain {f g : Formula} (hf : f.isChain = true) (h : ReadsAs .disjunction f.text g) :
    f.StandsFor g := by
  refine ⟨?_, h⟩
  rw [operandText, hf, if_pos rfl]
  exact h.parenthesised

theorem chainText_of_two_le {empty operator : List Char} {fs : List Formula} (h : 2 ≤ fs.length) :
    chainText empty operator fs (textEach fs) =
      operator.intercalate (fs.map fun f ↦ operandText f f.text) := by
  match fs, h with
  | f :: g :: fs, _ =>
    rw [textEach_eq_map, chainText, List.zipWith_map_right, List.zipWith_self]
    all_goals simp

def ChainRule (c : Char) (node : List Formula → Formula) : Prop :=
  ∀ ps : List (List Token × Formula), 2 ≤ ps.length → (∀ p ∈ ps, Derives .operand p.1 p.2) →
    Derives .disjunction ([.symbol c].intercalate (ps.map Prod.fst)) (node (ps.map Prod.snd))

theorem chainRule_and : ChainRule '&' .and := fun _ hlen h ↦ .ofConjunction (.and hlen h)

theorem chainRule_or : ChainRule '|' .or := fun _ hlen h ↦ .or hlen fun p hp ↦ .ofOperand (h p hp)

section Chains

variable {c : Char} {node : List Formula → Formula} {fs : List Formula}

theorem readsAs_chain (hc : c ∈ symbols) (hnode : ChainRule c node)
    (hfs : ∀ f ∈ fs, f.StandsFor f.normal) (hlen : 2 ≤ fs.length) :
    ReadsAs .disjunction ([' ', c, ' '].intercalate (fs.map fun f ↦ operandText f f.text))
      (node (fs.map normal)) := by
  choose! ts hts hderives using fun f hf ↦ (hfs f hf).operand
  have hreads := reads_intercalate hc (fs.map fun f ↦ (operandText f f.text, ts f))
    (List.forall_mem_map.2 hts)
  have hnormal := hnode (fs.map fun f ↦ (ts f, f.normal)) (by simpa using hlen)
    (List.forall_mem_map.2 hderives)
  simp only [List.map_map, Function.comp_def] at hreads hnormal
  exact ⟨_, hreads, hnormal⟩

/-- A chain of any number of operands, written with the given operator and value of the empty chain. -/
theorem standsFor_collapsed (hc : c ∈ symbols) (hnode : ChainRule c node)
    (hfs : ∀ f ∈ fs, f.StandsFor f.normal) {empty : Bool} {f : Formula}
    (hchain : f.isChain = decide (2 ≤ fs.length))
    (htext : f.text = chainText (Assignment.truthText empty) [' ', c, ' '] fs (textEach fs)) :
    f.StandsFor (collapsed empty node (fs.map normal)) := by
  match fs with
  | [] => exact standsFor_of_operand hchain (htext ▸ readsAs_truthText empty)
  | [g] => exact standsFor_of_operand hchain (htext ▸ (hfs g List.mem_cons_self).whole.parenthesised)
  | g :: h :: fs =>
    refine standsFor_of_chain hchain ?_
    rw [htext, chainText_of_two_le (by simp), collapsed_of_two_le (by simp)]
    exact readsAs_chain hc hnode hfs (by simp)

end Chains

theorem standsFor_each {fs : List Formula} (hfs : ∀ v ∈ occurrencesEach fs, v.IsWord)
    (h : ∀ f ∈ fs, (∀ v ∈ f.occurrences, v.IsWord) → f.StandsFor f.normal) :
    ∀ f ∈ fs, f.StandsFor f.normal := by
  intro f hf
  exact h f hf fun v hv ↦ hfs v (mem_occurrencesEach.2 ⟨f, hf, hv⟩)

theorem standsFor_normal (f : Formula) (hf : ∀ v ∈ f.occurrences, v.IsWord) : f.StandsFor f.normal := by
  induction f with
  | const b =>
    rw [normal]
    refine standsFor_of_operand rfl ?_
    rw [text]
    exact readsAs_truthText b
  | var v =>
    rw [normal]
    refine standsFor_of_operand rfl ?_
    rw [text]
    exact readsAs_name (hf v (by simp [occurrences]))
  | not f ih =>
    obtain ⟨ts, hts, hderives⟩ := (ih (by simpa [occurrences] using hf)).operand
    rw [normal]
    refine standsFor_of_operand rfl ⟨_, ?_, .not (.inl rfl) hderives⟩
    rw [text]
    exact .symbol (by decide) hts
  | and fs ih =>
    rw [occurrences] at hf
    rw [normal, normalEach_eq_map]
    refine standsFor_collapsed (by decide) chainRule_and (standsFor_each hf ih) ?_ (by rw [text])
    rcases fs with - | ⟨g, - | ⟨h, fs⟩⟩ <;> simp [isChain]
  | or fs ih =>
    rw [occurrences] at hf
    rw [normal, normalEach_eq_map]
    refine standsFor_collapsed (by decide) chainRule_or (standsFor_each hf ih) ?_ (by rw [text])
    rcases fs with - | ⟨g, - | ⟨h, fs⟩⟩ <;> simp [isChain]

theorem ofText_text_eq (f : Formula) (hf : ∀ v ∈ f.occurrences, v.IsWord) : ofText f.text = .ok f.normal :=
  (standsFor_normal f hf).whole.ofText_eq

theorem Derives.isNormal {k : Category} {ts : List Token} {f : Formula} (h : Derives k ts f) :
    f.IsNormal := by
  induction h with
  | ofConjunction _ ih | ofOperand _ ih | group _ ih => exact ih
  | or hlen _ ih => exact .or (by simpa using hlen) (List.forall_mem_map.2 ih)
  | and hlen _ ih => exact .and (by simpa using hlen) (List.forall_mem_map.2 ih)
  | not _ _ ih => exact .not ih
  | constTrue | constFalse => exact .const _
  | var => exact .var _

theorem subset_intercalate {α : Type} {sep xs : List α} {xss : List (List α)} (h : xs ∈ xss) :
    xs ⊆ sep.intercalate xss := by
  induction xss with
  | nil => cases h
  | cons ys yss ih =>
    cases yss with
    | nil =>
      obtain rfl := List.mem_singleton.1 h
      rw [List.intercalate_singleton]
      exact List.Subset.refl xs
    | cons zs yss =>
      rw [List.intercalate_cons_cons]
      rcases List.mem_cons.1 h with rfl | h
      · exact List.subset_append_of_subset_left _ (List.subset_append_left _ _)
      · exact List.subset_append_of_subset_right _ (ih h)

def AreWords (ts : List Token) : Prop :=
  ∀ c cs, .word c cs ∈ ts → startsWord c = true ∧ ∀ d ∈ cs, continuesWord d = true

theorem AreWords.subset {ts us : List Token} (hts : AreWords ts) (h : us ⊆ ts) : AreWords us :=
  fun c cs hmem ↦ hts c cs (h hmem)

theorem Reads.areWords {cs : List Char} {ts : List Token} (h : Reads cs ts) : AreWords ts := by
  induction h with
  | nil => exact nofun
  | blank _ _ ih => exact ih
  | word hc hcs _ _ ih =>
    intro d ds hmem
    rcases List.mem_cons.1 hmem with he | hmem
    · obtain ⟨rfl, rfl⟩ := Token.word.inj he
      exact ⟨hc, hcs⟩
    · exact ih d ds hmem
  | symbol _ _ ih =>
    intro d ds hmem
    exact ih d ds ((List.mem_cons.1 hmem).resolve_left nofun)

theorem AreWords.operands {c : Char} {ps : List (List Token × Formula)}
    (hts : AreWords ([.symbol c].intercalate (ps.map Prod.fst)))
    (h : ∀ p ∈ ps, AreWords p.1 → ∀ v ∈ p.2.occurrences, v.IsWord) :
    ∀ v ∈ occurrencesEach (ps.map Prod.snd), v.IsWord := by
  intro v hv
  obtain ⟨f, hf, hv⟩ := mem_occurrencesEach.1 hv
  obtain ⟨p, hp, rfl⟩ := List.mem_map.1 hf
  exact h p hp (hts.subset (subset_intercalate (List.mem_map_of_mem hp))) v hv

theorem Derives.isWord {k : Category} {ts : List Token} {f : Formula} (h : Derives k ts f)
    (hts : AreWords ts) : ∀ v ∈ f.occurrences, v.IsWord := by
  induction h with
  | ofConjunction _ ih | ofOperand _ ih => exact ih hts
  | or _ _ ih | and _ _ ih =>
    rw [occurrences]
    exact hts.operands ih
  | not _ _ ih =>
    rw [occurrences]
    exact ih (hts.subset (List.subset_cons_self _ _))
  | group _ ih => exact ih (hts.subset (List.subset_cons_of_subset _ (List.subset_append_left _ _)))
  | constTrue | constFalse =>
    rw [occurrences]
    exact List.forall_mem_nil _
  | @var c cs v hname htrue hfalse =>
    obtain ⟨hc, hcs⟩ := hts c cs List.mem_cons_self
    rw [occurrences]
    intro w hw
    obtain rfl := List.mem_singleton.1 hw
    exact ⟨⟨c, cs, by rw [hname, String.toList_ofList], hc, hcs⟩, htrue, hfalse⟩

theorem isWord_of_ofText {cs : List Char} {f : Formula} (h : ofText cs = .ok f) :
    f.IsNormal ∧ ∀ v ∈ f.occurrences, v.IsWord := by
  obtain ⟨ts, hts, hf⟩ := readsAs_of_ofText h
  exact ⟨hf.isNormal, hf.isWord hts.areWords⟩

/-- The text of a formula is read as its normal form, which is the formula itself when it has no short chain
and has the same value in any case. Formulas that have been read have no short chain. -/
theorem ofText_text (f : Formula) (hf : ∀ v ∈ f.occurrences, v.IsWord) :
    ofText f.text = .ok f.normal ∧ (ofText f.text = .ok f ↔ f.IsNormal) ∧
      (∀ a, f.normal.evaluate a = f.evaluate a) ∧
      ∀ cs g, ofText cs = .ok g → g.IsNormal ∧ ofText g.text = .ok g := by
  refine ⟨ofText_text_eq f hf, ?_, fun a ↦ evaluate_normal a f, ?_⟩
  · rw [ofText_text_eq f hf, Except.ok.injEq, normal_eq_self_iff]
  · intro cs g hg
    obtain ⟨hnormal, hwords⟩ := isWord_of_ofText hg
    refine ⟨hnormal, ?_⟩
    rw [ofText_text_eq g hwords, hnormal.normal_eq]

def shortChains : Formula :=
  .or [.and [.var ⟨"x_1", by decide⟩], .not (.or [.and []]), .and [.var ⟨"y.2", by decide⟩, .or []]]

theorem ofText_text_shortChains : (∀ v ∈ shortChains.occurrences, v.IsWord) ∧
    shortChains.text = "(x_1) | !(true) | (y.2 & false)".toList ∧
    ofText shortChains.text = .ok (.or [.var ⟨"x_1", by decide⟩, .not (.const true),
      .and [.var ⟨"y.2", by decide⟩, .const false]]) ∧
    ofText shortChains.text ≠ .ok shortChains := by
  have hwords : ∀ v ∈ shortChains.occurrences, v.IsWord := by
    intro v hv
    have hv : v ∈ [(⟨"x_1", by decide⟩ : Var), ⟨"y.2", by decide⟩] := hv
    simp only [List.mem_cons, List.not_mem_nil, or_false] at hv
    rcases hv with rfl | rfl
    · exact ⟨⟨'x', ['_', '1'], by decide, by decide, List.all_eq_true.1 (by decide)⟩, by decide, by decide⟩
    · exact ⟨⟨'y', ['.', '2'], by decide, by decide, List.all_eq_true.1 (by decide)⟩, by decide, by decide⟩
  obtain ⟨hread, hself, -, -⟩ := ofText_text shortChains hwords
  refine ⟨hwords, by decide, hread, ?_⟩
  rw [Ne, hself]
  rintro (_ | _ | _ | _ | ⟨-, h⟩)
  obtain _ | _ | _ | ⟨hlen, -⟩ := h _ List.mem_cons_self
  exact absurd hlen (by decide)

end Formula

end NoisyDNF
