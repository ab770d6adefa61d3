import NoisyDNF.Formula.Parser
import NoisyDNF.Proofs.Formula.Tokens

namespace NoisyDNF.Formula

theorem joined_of_two_le {node : List Formula → Formula} {fs : List Formula} (h : 2 ≤ fs.length) :
    joined node fs = node fs := by
  match fs, h with
  | _ :: _ :: _, _ => rfl

inductive Category where
  | disjunction
  | conjunction
  | operand

/-- The formula that a phrase stands for. A chain of two or more operands is one node, a single operand
stands for itself, and parentheses only group. -/
inductive Derives : Category → List Token → Formula → Prop
  | ofConjunction {ts : List Token} {f : Formula} :
      Derives .conjunction ts f → Derives .disjunction ts f
  | or {ps : List (List Token × Formula)} : 2 ≤ ps.length →
      (∀ p ∈ ps, Derives .conjunction p.1 p.2) →
      Derives .disjunction ([.symbol '|'].intercalate (ps.map Prod.fst)) (.or (ps.map Prod.snd))
  | ofOperand {ts : List Token} {f : Formula} : Derives .operand ts f → Derives .conjunction ts f
  | and {ps : List (List Token × Formula)} : 2 ≤ ps.length →
      (∀ p ∈ ps, Derives .operand p.1 p.2) →
      Derives .conjunction ([.symbol '&'].intercalate (ps.map Prod.fst)) (.and (ps.map Prod.snd))
  | not {c : Char} {ts : List Token} {f : Formula} : c = '!' ∨ c = '~' →
      Derives .operand ts f → Derives .operand (.symbol c :: ts) (.not f)
  | group {ts : List Token} {f : Formula} :
      Derives .disjunction ts f → Derives .operand (.symbol '(' :: ts ++ [.symbol ')']) f
  | constTrue : Derives .operand [.word 't' ['r', 'u', 'e']] (.const true)
  | constFalse : Derives .operand [.word 'f' ['a', 'l', 's', 'e']] (.const false)
  | var {c : Char} {cs : List Char} {v : Var} : v.name = String.ofList (c :: cs) →
      v.name ≠ "true" → v.name ≠ "false" → Derives .operand [.word c cs] (.var v)

namespace Derives

variable {ps : List (List Token × Formula)} {ts : List Token} {f : Formula}

theorem joined_or (hps : ps ≠ []) (h : ∀ p ∈ ps, Derives .conjunction p.1 p.2) :
    Derives .disjunction ([.symbol '|'].intercalate (ps.map Prod.fst))
      (joined .or (ps.map Prod.snd)) := by
  match ps, hps with
  | [p], _ =>
    rw [List.map_singleton, List.intercalate_singleton]
    exact .ofConjunction (h p List.mem_cons_self)
  | p :: q :: ps, _ => exact .or (by simp) h

theorem joined_and (hps : ps ≠ []) (h : ∀ p ∈ ps, Derives .operand p.1 p.2) :
    Derives .conjunction ([.symbol '&'].intercalate (ps.map Prod.fst))
      (joined .and (ps.map Prod.snd)) := by
  match ps, hps with
  | [p], _ =>
    rw [List.map_singleton, List.intercalate_singleton]
    exact .ofOperand (h p List.mem_cons_self)
  | p :: q :: ps, _ => exact .and (by simp) h

theorem negated {cs : List Char} (hcs : ∀ c ∈ cs, c = '!' ∨ c = '~') (h : Derives .operand ts f) :
    Derives .operand (cs.map .symbol ++ ts) (negated f cs.length) := by
  induction cs with
  | nil => exact h
  | cons c cs ih =>
    exact .not (hcs c List.mem_cons_self) (ih fun d hd ↦ hcs d (List.mem_cons_of_mem c hd))

theorem ofWord (c : Char) (cs : List Char) : Derives .operand [.word c cs] (ofWord c cs) := by
  have hname (ds : List Char) (h : String.ofList (c :: cs) = String.ofList ds) : c :: cs = ds := by
    simpa using congrArg String.toList h
  rw [Formula.ofWord]
  split
  · next h =>
    obtain ⟨rfl, rfl⟩ := List.cons.inj (hname ['t', 'r', 'u', 'e'] h)
    exact .constTrue
  split
  · next h =>
    obtain ⟨rfl, rfl⟩ := List.cons.inj (hname ['f', 'a', 'l', 's', 'e'] h)
    exact .constFalse
  · next h h' => exact .var rfl h h'

end Derives

namespace Reader

inductive Takes : Reader → Token → Reader → Prop
  | word {l : Level} {outer : List Level} {c : Char} {cs : List Char} :
      Takes ⟨l, outer, false⟩ (.word c cs) ⟨l.addOperand (ofWord c cs), outer, true⟩
  | negation {l : Level} {outer : List Level} {c : Char} : c = '!' ∨ c = '~' →
      Takes ⟨l, outer, false⟩ (.symbol c) ⟨{ l with negations := l.negations + 1 }, outer, false⟩
  | opening {l : Level} {outer : List Level} :
      Takes ⟨l, outer, false⟩ (.symbol '(') ⟨{}, l :: outer, false⟩
  | ampersand {l : Level} {outer : List Level} :
      Takes ⟨l, outer, true⟩ (.symbol '&') ⟨l, outer, false⟩
  | bar {l : Level} {outer : List Level} :
      Takes ⟨l, outer, true⟩ (.symbol '|') ⟨l.endConjunction, outer, false⟩
  | closing {l l' : Level} {outer : List Level} :
      Takes ⟨l', l :: outer, true⟩ (.symbol ')') ⟨l.addOperand l'.formula, outer, true⟩

theorem take?_eq_some_iff {r r' : Reader} {t : Token} : r.take? t = some r' ↔ r.Takes t r' := by
  constructor
  · intro h
    obtain ⟨l, outer, - | -⟩ := r
    · replace h : takeOperand? ⟨l, outer, false⟩ t = some r' := h
      cases t with
      | word c cs => exact Option.some_inj.1 h ▸ .word
      | symbol c =>
        simp only [takeOperand?] at h
        split at h
        · next hc => exact Option.some_inj.1 h ▸ .negation (by simpa using hc)
        split at h
        · next hc =>
          obtain rfl : c = '(' := eq_of_beq hc
          exact Option.some_inj.1 h ▸ .opening
        · cases h
    · replace h : takeOperator? ⟨l, outer, true⟩ t = some r' := h
      cases t with
      | word c cs => cases h
      | symbol c =>
        simp only [takeOperator?] at h
        split at h
        · next hc =>
          obtain rfl : c = '&' := eq_of_beq hc
          exact Option.some_inj.1 h ▸ .ampersand
        split at h
        · next hc =>
          obtain rfl : c = '|' := eq_of_beq hc
          exact Option.some_inj.1 h ▸ .bar
        split at h
        · next hc =>
          obtain rfl : c = ')' := eq_of_beq hc
          cases outer with
          | nil => cases h
          | cons l' outer => exact Option.some_inj.1 h ▸ .closing
        · cases h
  · intro h
    cases h with
    | negation hc => rcases hc with rfl | rfl <;> rfl
    | word | opening | ampersand | bar | closing => rfl

inductive TakesAll : Reader → List Token → Reader → Prop
  | nil (r : Reader) : TakesAll r [] r
  | cons {r r' r'' : Reader} {t : Token} {ts : List Token} :
      Takes r t r' → TakesAll r' ts r'' → TakesAll r (t :: ts) r''

theorem Takes.all {r r' : Reader} {t : Token} (h : r.Takes t r') : r.TakesAll [t] r' :=
  .cons h (.nil r')

theorem TakesAll.trans {r r' r'' : Reader} {ts us : List Token} (h : r.TakesAll ts r')
    (h' : r'.TakesAll us r'') : r.TakesAll (ts ++ us) r'' := by
  induction h with
  | nil => exact h'
  | cons ht _ ih => exact .cons ht (ih h')

theorem TakesAll.mem_symbols {r r' : Reader} {ts : List Token} (h : r.TakesAll ts r') {c : Char}
    (hc : .symbol c ∈ ts) : c ∈ symbols := by
  induction h with
  | nil => cases hc
  | cons ht _ ih =>
    rcases List.mem_cons.1 hc with rfl | hc
    · cases ht with
      | negation hd => rcases hd with rfl | rfl <;> decide
      | opening | ampersand | bar | closing => decide
    · exact ih hc

theorem formula?_eq_some_iff {r : Reader} {f : Formula} :
    r.formula? = some f ↔ ∃ l : Level, r = ⟨l, [], true⟩ ∧ l.formula = f := by
  obtain ⟨l, outer, after⟩ := r
  cases after <;> cases outer <;> simp [formula?]

theorem run_eq_ok_iff {stop : ℕ} {r : Reader} {ls : List Lexeme} {f : Formula} :
    r.run stop ls = .ok f ↔
      ∃ l : Level, r.TakesAll (ls.map Lexeme.token) ⟨l, [], true⟩ ∧ l.formula = f := by
  induction ls generalizing r with
  | nil =>
    have hrun : r.run stop [] = .ok f ↔ r.formula? = some f := by
      rw [run]
      cases r.formula? <;> simp
    rw [hrun, formula?_eq_some_iff]
    refine exists_congr fun l ↦ and_congr_left fun _ ↦ ⟨?_, ?_⟩
    · rintro rfl
      exact .nil _
    · rintro ⟨⟩
      rfl
  | cons l ls ih =>
    rw [run]
    cases ht : r.take? l.token with
    | none =>
      refine iff_of_false nofun ?_
      rintro ⟨l', ⟨⟩ | ⟨hstep, -⟩, -⟩
      rw [take?_eq_some_iff.2 hstep] at ht
      cases ht
    | some r' =>
      refine ih.trans (exists_congr fun l' ↦ and_congr_left fun _ ↦ ⟨?_, ?_⟩)
      · exact .cons (take?_eq_some_iff.1 ht)
      · rintro (⟨⟩ | ⟨hstep, hrest⟩)
        rw [take?_eq_some_iff.2 hstep] at ht
        exact Option.some_inj.1 ht ▸ hrest

section Completeness

variable {ps : List (List Token × Formula)} {ts : List Token} {f : Formula}

/-- What a phrase of each kind does to a reader that waits for an operand. A disjunction starts a level, and
a conjunction starts after the bars of its level. -/
def Accepts : Category → List Token → Formula → Prop
  | .operand, ts, f => ∀ (l : Level) (outer : List Level),
      TakesAll ⟨l, outer, false⟩ ts ⟨l.addOperand f, outer, true⟩
  | .conjunction, ts, f => ∀ (ds : List Formula) (outer : List Level),
      ∃ l : Level, l.endConjunction = { disjuncts := ds ++ [f] } ∧
        TakesAll ⟨{ disjuncts := ds }, outer, false⟩ ts ⟨l, outer, true⟩
  | .disjunction, ts, f => ∀ outer : List Level,
      ∃ l : Level, l.formula = f ∧ TakesAll ⟨{}, outer, false⟩ ts ⟨l, outer, true⟩

theorem takesAll_conjuncts (hps : ps ≠ []) (h : ∀ p ∈ ps, Accepts .operand p.1 p.2)
    (ds cs : List Formula) (outer : List Level) :
    TakesAll ⟨⟨ds, cs, 0⟩, outer, false⟩ ([.symbol '&'].intercalate (ps.map Prod.fst))
      ⟨⟨ds, cs ++ ps.map Prod.snd, 0⟩, outer, true⟩ := by
  induction ps generalizing cs with
  | nil => exact absurd rfl hps
  | cons p ps ih =>
    have hp : TakesAll ⟨⟨ds, cs, 0⟩, outer, false⟩ p.1 ⟨⟨ds, cs ++ [p.2], 0⟩, outer, true⟩ :=
      h p List.mem_cons_self _ _
    cases ps with
    | nil => rwa [List.map_singleton, List.intercalate_singleton]
    | cons q ps =>
      have hrest := ih (List.cons_ne_nil q ps) (fun q hq ↦ h q (List.mem_cons_of_mem p hq))
        (cs ++ [p.2])
      rw [List.append_assoc] at hrest
      rw [List.map_cons, List.map_cons, List.intercalate_cons_cons]
      exact (hp.trans Takes.ampersand.all).trans hrest

theorem takesAll_disjuncts (hps : ps ≠ []) (h : ∀ p ∈ ps, Accepts .conjunction p.1 p.2)
    (ds : List Formula) (outer : List Level) :
    ∃ l : Level, l.endConjunction = { disjuncts := ds ++ ps.map Prod.snd } ∧
      TakesAll ⟨{ disjuncts := ds }, outer, false⟩ ([.symbol '|'].intercalate (ps.map Prod.fst))
        ⟨l, outer, true⟩ := by
  induction ps generalizing ds with
  | nil => exact absurd rfl hps
  | cons p ps ih =>
    obtain ⟨l, hl, hp⟩ := h p List.mem_cons_self ds outer
    cases ps with
    | nil => exact ⟨l, hl, by rwa [List.map_singleton, List.intercalate_singleton]⟩
    | cons q ps =>
      obtain ⟨l', hl', hrest⟩ := ih (List.cons_ne_nil q ps)
        (fun q hq ↦ h q (List.mem_cons_of_mem p hq)) (ds ++ [p.2])
      rw [List.append_assoc] at hl'
      refine ⟨l', hl', ?_⟩
      rw [List.map_cons, List.map_cons, List.intercalate_cons_cons]
      exact (hp.trans (hl ▸ Takes.bar.all)).trans hrest

theorem negated_not (f : Formula) (n : ℕ) : negated (.not f) n = .not (negated f n) := by
  induction n with
  | zero => rfl
  | succ n ih => rw [negated, ih, negated]

theorem accepts_of_derives {c : Category} (h : Derives c ts f) : Accepts c ts f := by
  induction h with
  | ofConjunction _ ih =>
    intro outer
    obtain ⟨l, hl, hts⟩ := ih [] outer
    exact ⟨l, by rw [Level.formula, hl]; rfl, hts⟩
  | @or ps hlen _ ih =>
    intro outer
    obtain ⟨l, hl, hts⟩ := takesAll_disjuncts (List.length_pos_iff.1 (by omega)) ih [] outer
    refine ⟨l, ?_, hts⟩
    rw [Level.formula, hl]
    exact joined_of_two_le (by simpa using hlen)
  | ofOperand _ ih =>
    intro ds outer
    exact ⟨_, rfl, ih { disjuncts := ds } outer⟩
  | @and ps hlen _ ih =>
    intro ds outer
    refine ⟨_, ?_, takesAll_conjuncts (List.length_pos_iff.1 (by omega)) ih ds [] outer⟩
    rw [Level.endConjunction, Level.conjunction, List.nil_append,
      joined_of_two_le (by simpa using hlen)]
  | @not c ts f hc _ ih =>
    intro l outer
    have hl : { l with negations := l.negations + 1 : Level }.addOperand f = l.addOperand (.not f) := by
      rw [Level.addOperand, Level.addOperand, negated_not]
      rfl
    exact .cons (.negation hc) (hl ▸ ih _ outer)
  | group _ ih =>
    intro l outer
    obtain ⟨l', rfl, hts⟩ := ih (l :: outer)
    exact .cons .opening (hts.trans Takes.closing.all)
  | constTrue => exact fun l outer ↦ Takes.word.all
  | constFalse => exact fun l outer ↦ Takes.word.all
  | @var c cs v hname htrue hfalse =>
    intro l outer
    have hv : ofWord c cs = .var v := by
      rw [ofWord]
      simp only [← hname, if_neg htrue, if_neg hfalse]
    exact hv ▸ Takes.word.all

end Completeness

section Soundness

variable {l : Level} {ts us : List Token} {f : Formula}

def followedBy (c : Char) (ps : List (List Token × Formula)) : List Token :=
  ps.flatMap fun p ↦ p.1 ++ [.symbol c]

theorem intercalate_concat (c : Char) (ps : List (List Token × Formula)) (p : List Token × Formula) :
    [.symbol c].intercalate ((ps ++ [p]).map Prod.fst) = followedBy c ps ++ p.1 := by
  induction ps with
  | nil => exact List.intercalate_singleton
  | cons q ps ih =>
    cases ps with
    | nil => simp [followedBy, List.intercalate_cons_cons]
    | cons r ps => simpa [followedBy, List.intercalate_cons_cons] using ih

inductive LevelFrom : Level → Bool → List Token → Prop
  | before {ds cs : List (List Token × Formula)} {ns : List Char} :
      (∀ p ∈ ds, Derives .conjunction p.1 p.2) → (∀ p ∈ cs, Derives .operand p.1 p.2) →
      (∀ c ∈ ns, c = '!' ∨ c = '~') →
      LevelFrom ⟨ds.map Prod.snd, cs.map Prod.snd, ns.length⟩ false
        (followedBy '|' ds ++ followedBy '&' cs ++ ns.map .symbol)
  | after {ds cs : List (List Token × Formula)} {p : List Token × Formula} :
      (∀ p ∈ ds, Derives .conjunction p.1 p.2) → (∀ q ∈ cs ++ [p], Derives .operand q.1 q.2) →
      LevelFrom ⟨ds.map Prod.snd, (cs ++ [p]).map Prod.snd, 0⟩ true
        (followedBy '|' ds ++ followedBy '&' cs ++ p.1)

theorem levelFrom_start : LevelFrom {} false [] := @LevelFrom.before [] [] [] nofun nofun nofun

theorem LevelFrom.addOperand (h : LevelFrom l false us) (hf : Derives .operand ts f) :
    LevelFrom (l.addOperand f) true (us ++ ts) := by
  obtain @⟨ds, cs, ns, hds, hcs, hns⟩ := h
  have hp : ∀ q ∈ cs ++ [(ns.map .symbol ++ ts, Formula.negated f ns.length)],
      Derives .operand q.1 q.2 := by
    intro q hq
    rcases List.mem_append.1 hq with hq | hq
    · exact hcs q hq
    · exact List.mem_singleton.1 hq ▸ hf.negated hns
  have h := LevelFrom.after hds hp
  rw [List.append_assoc _ _ ts]
  simpa [Level.addOperand] using h

theorem LevelFrom.ampersand (h : LevelFrom l true us) :
    LevelFrom l false (us ++ [.symbol '&']) := by
  obtain - | @⟨ds, cs, p, hds, hcs⟩ := h
  have h := @LevelFrom.before ds (cs ++ [p]) [] hds hcs nofun
  simpa [followedBy] using h

/-- At the end of a conjunction its operands are the last disjunct. -/
theorem derives_disjuncts {ds cs : List (List Token × Formula)} {p : List Token × Formula}
    (hds : ∀ q ∈ ds, Derives .conjunction q.1 q.2) (hcs : ∀ q ∈ cs ++ [p], Derives .operand q.1 q.2) :
    ∀ q ∈ ds ++ [(followedBy '&' cs ++ p.1, joined .and ((cs ++ [p]).map Prod.snd))],
      Derives .conjunction q.1 q.2 := by
  intro q hq
  rcases List.mem_append.1 hq with hq | hq
  · exact hds q hq
  · obtain rfl := List.mem_singleton.1 hq
    exact intercalate_concat '&' cs p ▸ .joined_and (by simp) hcs

theorem LevelFrom.bar (h : LevelFrom l true us) :
    LevelFrom l.endConjunction false (us ++ [.symbol '|']) := by
  obtain - | @⟨ds, cs, p, hds, hcs⟩ := h
  have h := @LevelFrom.before _ [] [] (derives_disjuncts hds hcs) nofun nofun
  simpa [followedBy, Level.endConjunction, Level.conjunction] using h

theorem LevelFrom.formula (h : LevelFrom l true us) : Derives .disjunction us l.formula := by
  obtain - | @⟨ds, cs, p, hds, hcs⟩ := h
  have h := Derives.joined_or (by simp) (derives_disjuncts hds hcs)
  rw [intercalate_concat] at h
  simpa [Level.formula, Level.endConjunction, Level.conjunction] using h

inductive OuterFrom : List Level → List Token → Prop
  | nil : OuterFrom [] []
  | cons {l : Level} {outer : List Level} {ts us : List Token} :
      OuterFrom outer ts → LevelFrom l false us → OuterFrom (l :: outer) (ts ++ us ++ [.symbol '('])

inductive ReadFrom : Reader → List Token → Prop
  | intro {l : Level} {outer : List Level} {after : Bool} {ts us : List Token} :
      OuterFrom outer ts → LevelFrom l after us → ReadFrom ⟨l, outer, after⟩ (ts ++ us)

theorem readFrom_start : ReadFrom {} [] := .intro .nil levelFrom_start

theorem ReadFrom.takes {r r' : Reader} {t : Token} (h : r.ReadFrom ts) (ht : r.Takes t r') :
    r'.ReadFrom (ts ++ [t]) := by
  obtain @⟨l, outer, after, ts, us, houter, hl⟩ := h
  cases ht with
  | @word _ _ c cs =>
    rw [List.append_assoc]
    exact .intro houter (hl.addOperand (.ofWord c cs))
  | negation hc =>
    obtain @⟨ds, cs, ns, hds, hcs, hns⟩ := hl
    have hl := LevelFrom.before hds hcs
      (List.forall_mem_append.2 ⟨hns, fun d hd ↦ List.mem_singleton.1 hd ▸ hc⟩)
    have h := ReadFrom.intro houter hl
    simpa using h
  | opening =>
    have h := ReadFrom.intro (.cons houter hl) levelFrom_start
    simpa using h
  | ampersand =>
    rw [List.append_assoc]
    exact .intro houter hl.ampersand
  | bar =>
    rw [List.append_assoc]
    exact .intro houter hl.bar
  | closing =>
    obtain - | @⟨l', outer, ts, us', houter, hl'⟩ := houter
    have h := ReadFrom.intro houter (hl'.addOperand (.group hl.formula))
    simpa using h

theorem ReadFrom.takesAll {r r' : Reader} (h : r.ReadFrom ts) (hus : r.TakesAll us r') :
    r'.ReadFrom (ts ++ us) := by
  induction hus generalizing ts with
  | nil => rwa [List.append_nil]
  | cons ht _ ih => simpa using ih (h.takes ht)

theorem derives_of_takesAll (h : TakesAll {} ts ⟨l, [], true⟩) : Derives .disjunction ts l.formula := by
  obtain @⟨_, _, _, _, _, ⟨⟩, hl⟩ := readFrom_start.takesAll h
  exact hl.formula

end Soundness

end Reader

/-- The text is that of a phrase which stands for the formula. -/
def ReadsAs (k : Category) (cs : List Char) (f : Formula) : Prop :=
  ∃ ts, Reads cs ts ∧ Derives k ts f

theorem ReadsAs.ofText_eq {cs : List Char} {f : Formula} (h : ReadsAs .disjunction cs f) :
    ofText cs = .ok f := by
  obtain ⟨ts, hts, hf⟩ := h
  obtain ⟨l, hl, htakes⟩ := Reader.accepts_of_derives hf []
  exact Reader.run_eq_ok_iff.2 ⟨l, hts.map_token_lexemes 0 ▸ htakes, hl⟩

theorem readsAs_of_ofText {cs : List Char} {f : Formula} (h : ofText cs = .ok f) :
    ReadsAs .disjunction cs f := by
  obtain ⟨l, htakes, rfl⟩ := Reader.run_eq_ok_iff.1 h
  exact ⟨_, .of_lexemes 0 cs fun c hc ↦ htakes.mem_symbols hc, Reader.derives_of_takesAll htakes⟩

/-- Reading accepts exactly the texts of the grammar, each as the formula that it derives, and refuses every
other text with an error. -/
theorem ofText_eq_ok_iff_readsAs (cs : List Char) :
    (∀ f, ofText cs = .ok f ↔ ReadsAs .disjunction cs f) ∧
      ((∃ e, ofText cs = .error e) ↔ ¬ ∃ f, ReadsAs .disjunction cs f) := by
  have hiff (f : Formula) : ofText cs = .ok f ↔ ReadsAs .disjunction cs f :=
    ⟨readsAs_of_ofText, ReadsAs.ofText_eq⟩
  refine ⟨hiff, ?_⟩
  simp only [← hiff]
  cases ofText cs <;> simp

end NoisyDNF.Formula
