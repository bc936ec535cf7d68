import Recognizer.Proofs.Grammar.LongestMatch
import Recognizer.Proofs.Grammar.Notation

/-!
# The grammar of grammar notation

A text is a grammar if each of its lines is well formed and one of them holds a rule. A line is well
formed if it is cut into longest pieces and the tokens among these are none, or a head, an arrow and
alternatives with bars between them, where `ε` stands only alone. The rules of the grammar are the
alternatives in the order of the text. A text that is no grammar is rejected at its first line that
is not well formed or, if there is none, one line after the last.

## Main definitions

* `Grammar.SplitsInto`: the lines of a text.
* `Grammar.Hold`: the rule lines among well-formed lines; `Grammar.IsOfRuleLines`, the grammar that
  they make.
* `Grammar.Fails`, `Grammar.IsFirstError`: why a line is not well formed, and why a text is no
  grammar.

## Main results

* `Grammar.readLine_eq_ok_none_iff`, `Grammar.readLine_eq_ok_some_iff`,
  `Grammar.readLine_eq_error_iff`: reading a line.
* `Grammar.readLines_eq_ok_iff`, `Grammar.readLines_eq_error_iff`: reading the lines of a text.
* `Grammar.ofText_iff`: which texts are read as which grammars, and how the others are rejected.
-/

namespace Recognizer

open LineToken (Lexes LexFails scan)

/-! ### Alternatives and their rules -/

/-- The alternative has `ε` beside another symbol, or beside another `ε`. It has its tokens in the
right places, and still makes no rule. -/
def RuleLine.Mixed (alternative : List Symbol) : Prop :=
  1 < alternative.length ∧ .epsilon ∈ alternative

/-- The rules of a rule line, as heads and bodies: one for each alternative, with `ε` for an
alternative without symbols. -/
def RuleLine.bodies (line : RuleLine) : List (String × List Symbol) :=
  line.alternatives.map fun alternative =>
    (line.head, if alternative = [] then [.epsilon] else alternative)

/-- The head and the body of a rule. -/
def Rule.parts (r : Rule) : String × List Symbol := (r.head, r.body)

theorem Rule.parts_injective : Function.Injective Rule.parts := by
  rintro ⟨head, body, _⟩ ⟨head', body', _⟩ h
  obtain ⟨rfl, rfl⟩ := Prod.mk.inj h
  rfl

variable {name : String} {alternative body : List Symbol} {r : Rule} {rules : List Rule}
  {line : RuleLine} {e : GrammarError}

theorem Rule.ofSymbols_eq_ok_iff :
    ofSymbols (.nonterminal name) body = .ok r ↔ (name, body) = r.parts := by
  constructor
  · intro h
    obtain ⟨rfl, rfl⟩ := eq_of_ofSymbols h
    rfl
  · intro h
    obtain ⟨rfl, rfl⟩ := Prod.mk.inj h
    exact r.ofSymbols_lhs_body

theorem Rule.exists_ofSymbols (name : String) (hend : .endMark ∉ alternative)
    (h : ¬ RuleLine.Mixed alternative) :
    ∃ r, ofSymbols (.nonterminal name) (if alternative = [] then [.epsilon] else alternative) =
      .ok r := by
  split_ifs with hnil
  · exact ⟨_, rfl⟩
  · refine ⟨⟨name, alternative, hnil, fun hlength hmem => h ⟨hlength, hmem⟩, hend⟩, ?_⟩
    exact ofSymbols_eq_ok_iff.mpr rfl

theorem Rule.ofSymbols_of_mixed (name : String) (h : RuleLine.Mixed alternative) :
    ofSymbols (.nonterminal name) (if alternative = [] then [.epsilon] else alternative) =
      .error (.invalidRule (.nonterminal name) alternative .mixedEpsilon) := by
  have hnil : alternative ≠ [] := List.ne_nil_of_mem h.2
  rw [if_neg hnil, ofSymbols, dif_neg hnil]
  exact dif_pos h

namespace Grammar

theorem rulesOfLine_eq_ok_iff :
    rulesOfLine line = .ok rules ↔ line.bodies = rules.map Rule.parts := by
  have heq : line.bodies = rules.map Rule.parts ↔
      List.Forall₂ (· = ·) line.bodies (rules.map Rule.parts) := by
    rw [List.forall₂_eq_eq_eq]
  rw [rulesOfLine, mapM_eq_ok_iff, heq, RuleLine.bodies, List.forall₂_map_left_iff,
    List.forall₂_map_right_iff]
  simp only [Rule.ofSymbols_eq_ok_iff]

/-! ### Lines -/

/-- The text is cut into the lines at its line feeds. What comes after the last of them is a line if
it is not empty. A carriage return at the end of a line stays there, as a blank. -/
inductive SplitsInto : List Char → List (List Char) → Prop
  | nil : SplitsInto [] []
  | last {line : List Char} (hne : line ≠ []) (h : '\n' ∉ line) : SplitsInto line [line]
  | cons {line rest : List Char} {lines : List (List Char)} (h : '\n' ∉ line)
      (hrest : SplitsInto rest lines) : SplitsInto (line ++ '\n' :: rest) (line :: lines)

/-- A rule line is written in the characters: they are cut into the tokens of the rule line, and no
alternative has `ε` mixed in. -/
structure HoldsRules (line : List Char) (said : RuleLine) : Prop where
  exists_tokens : ∃ tokens, Lexes line tokens ∧ said.IsSaidBy tokens
  not_mixed : ∀ alternative ∈ said.alternatives, ¬ RuleLine.Mixed alternative

/-- The lines are well formed, and these are the rule lines among them, in order; the other lines
have no tokens. -/
inductive Hold : List (List Char) → List RuleLine → Prop
  | nil : Hold [] []
  | empty {line : List Char} {lines : List (List Char)} {ruleLines : List RuleLine}
      (h : Lexes line []) (hlines : Hold lines ruleLines) : Hold (line :: lines) ruleLines
  | cons {line : List Char} {said : RuleLine} {lines : List (List Char)}
      {ruleLines : List RuleLine} (h : HoldsRules line said) (hlines : Hold lines ruleLines) :
      Hold (line :: lines) (said :: ruleLines)

/-- The line, which has the given number, is not well formed, and this is why. Tokens are looked at
only if the whole line can be cut, and alternatives only if all tokens are in their places. -/
inductive Fails (line : List Char) (number : Nat) : GrammarError → Prop
  /-- The line has a character with which no piece begins. -/
  | character {c : Char} (h : LexFails line c) :
      Fails line number (.malformedLine number (.unrecognized c))
  /-- A token of the line, or its end, is misplaced. -/
  | token {tokens : List LineToken} {token : LineToken} (h : Lexes line tokens)
      (hmisplaced : RuleLine.FirstMisplaced (tokens ++ [.lineEnd]) token) :
      Fails line number (.malformedLine number (.unexpected (some token)))
  /-- An alternative of the line, the first of this kind, has `ε` mixed in. -/
  | mixed {tokens : List LineToken} {said : RuleLine} {before after : List (List Symbol)}
      {alternative : List Symbol} (h : Lexes line tokens) (hsaid : said.IsSaidBy tokens)
      (halternatives : said.alternatives = before ++ alternative :: after)
      (hbefore : ∀ first ∈ before, ¬ RuleLine.Mixed first) (hmixed : RuleLine.Mixed alternative) :
      Fails line number (.invalidRule (.nonterminal said.head) alternative .mixedEpsilon)

/-- Why the text of these lines is no grammar: the first of them that is not well formed, or that
none holds a rule. Lines before the first malformed one are well formed, whatever they hold. -/
inductive IsFirstError : List (List Char) → GrammarError → Prop
  | line {before after : List (List Char)} {line : List Char} {ruleLines : List RuleLine}
      {e : GrammarError} (hbefore : Hold before ruleLines) (h : Fails line (before.length + 1) e) :
      IsFirstError (before ++ line :: after) e
  | noRules {lines : List (List Char)} (h : Hold lines []) :
      IsFirstError lines (.malformedLine (lines.length + 1) .noRules)

/-- The grammar is made of the rule lines: it has their rules in this order, and the head of the
first of them as its start. -/
structure IsOfRuleLines (g : Grammar) (ruleLines : List RuleLine) : Prop where
  start : ruleLines.head?.map RuleLine.head = some g.start
  rules : ruleLines.flatMap RuleLine.bodies = g.rules.map Rule.parts

variable {text : String} {s chars : List Char} {lines : List (List Char)} {number : Nat}
  {said : RuleLine} {ruleLines : List RuleLine} {g g' : Grammar} {tokens : List LineToken}
  {out : List (String × List Rule)} {p : String × List Rule}

private theorem splitsInto_linesOf (s : List Char) : SplitsInto s (linesOf s) := by
  induction s with
  | nil => exact .nil
  | cons c rest ih =>
    by_cases hc : c = '\n'
    · subst hc
      exact @SplitsInto.cons [] _ _ List.not_mem_nil ih
    · rw [linesOf.eq_3 c rest hc]
      generalize linesOf rest = lines at ih ⊢
      cases ih with
      | nil => exact .last (List.cons_ne_nil _ _) (by simpa using Ne.symm hc)
      | last hne h =>
        exact .last (List.cons_ne_nil _ _) (List.not_mem_cons_of_ne_of_not_mem (Ne.symm hc) h)
      | @cons line rest lines h hrest =>
        exact @SplitsInto.cons (c :: line) _ _
          (List.not_mem_cons_of_ne_of_not_mem (Ne.symm hc) h) hrest

private theorem linesOf_eq_singleton (hne : chars ≠ []) (h : '\n' ∉ chars) :
    linesOf chars = [chars] := by
  induction chars with
  | nil => exact absurd rfl hne
  | cons c rest ih =>
    obtain ⟨hc, hrest⟩ := List.ne_and_not_mem_of_not_mem_cons h
    rw [linesOf.eq_3 c rest (Ne.symm hc)]
    cases rest with
    | nil => rfl
    | cons d rest => rw [ih (List.cons_ne_nil _ _) hrest]

/-- The lines that are read are those that the text is cut into. -/
theorem splitsInto_iff : SplitsInto s lines ↔ lines = linesOf s := by
  constructor
  · intro h
    induction h with
    | nil => rfl
    | last hne h => rw [linesOf_eq_singleton hne h]
    | cons h _ ih => rw [linesOf_append h, ih]
  · rintro rfl
    exact splitsInto_linesOf s

/-! ### Reading a line -/

/-- What is read of a rule line: its head and its rules, which have the bodies of the rule line in
their order. -/
def IsReadAs (said : RuleLine) (p : String × List Rule) : Prop :=
  p.1 = said.head ∧ said.bodies = p.2.map Rule.parts

private theorem readLine_of_scan (h : scan chars = .ok tokens) (number : Nat) :
    readLine chars number = match RuleLine.ofTokens (tokens ++ [.lineEnd]) with
      | .error token => .error (.malformedLine number (.unexpected token))
      | .ok none => .ok none
      | .ok (some line) => (fun rules => some (line.head, rules)) <$> rulesOfLine line := by
  rw [readLine, LineToken.ofLine, h]
  rfl

private theorem exists_scan {out : Option (String × List Rule)}
    (h : readLine chars number = .ok out) : ∃ tokens, scan chars = .ok tokens := by
  cases hscan : scan chars with
  | error c =>
    rw [readLine, LineToken.ofLine, hscan] at h
    cases h
  | ok tokens => exact ⟨tokens, rfl⟩

private theorem lineEnd_not_mem (h : scan chars = .ok tokens) : .lineEnd ∉ tokens := by
  intro hmem
  obtain ⟨l, hl⟩ := LineToken.exists_spelled_of_mem_scan h hmem
  cases hl

private theorem endMark_not_mem (h : said.IsSaidBy tokens)
    (hmem : alternative ∈ said.alternatives) : .endMark ∉ alternative := by
  obtain ⟨-, bodies, hbodies, -⟩ := h
  generalize said.alternatives = alternatives at hbodies hmem
  induction hbodies with
  | nil => cases hmem
  | cons hbody _ ih =>
    rcases List.mem_cons.mp hmem with rfl | hmem
    · exact hbody.endMark_not_mem
    · exact ih hmem

/-- A rule line has rules just if no alternative has `ε` mixed in. -/
theorem exists_rulesOfLine_iff (h : said.IsSaidBy tokens) :
    (∃ rules, rulesOfLine said = .ok rules) ↔
      ∀ alternative ∈ said.alternatives, ¬ RuleLine.Mixed alternative := by
  constructor
  · rintro ⟨rules, hrules⟩ alternative hmem hmixed
    have hbody : (said.head, if alternative = [] then [.epsilon] else alternative) ∈
        said.bodies := List.mem_map_of_mem hmem
    rw [rulesOfLine_eq_ok_iff.mp hrules] at hbody
    obtain ⟨r, -, hr⟩ := List.mem_map.mp hbody
    have hok := Rule.ofSymbols_eq_ok_iff.mpr hr.symm
    rw [Rule.ofSymbols_of_mixed said.head hmixed] at hok
    cases hok
  · intro hmixed
    exact exists_mapM_eq_ok fun alternative hmem =>
      Rule.exists_ofSymbols said.head (endMark_not_mem h hmem) (hmixed alternative hmem)

/-- The rules of a rule line are rejected at the first alternative that has `ε` mixed in. -/
theorem rulesOfLine_eq_error_iff (h : said.IsSaidBy tokens) :
    rulesOfLine said = .error e ↔ ∃ before alternative after,
      said.alternatives = before ++ alternative :: after ∧
        (∀ first ∈ before, ¬ RuleLine.Mixed first) ∧ RuleLine.Mixed alternative ∧
          e = .invalidRule (.nonterminal said.head) alternative .mixedEpsilon := by
  rw [rulesOfLine, mapM_eq_error_iff]
  constructor
  · rintro ⟨before, alternative, after, heq, hbefore, herror⟩
    have hmixed : RuleLine.Mixed alternative := by
      by_contra hnot
      have hmem : alternative ∈ said.alternatives := by simp [heq]
      obtain ⟨r, hr⟩ := Rule.exists_ofSymbols said.head (endMark_not_mem h hmem) hnot
      rw [hr] at herror
      cases herror
    refine ⟨before, alternative, after, heq, fun first hfirst hmixed => ?_, hmixed, ?_⟩
    · obtain ⟨r, hr⟩ := hbefore first hfirst
      rw [Rule.ofSymbols_of_mixed said.head hmixed] at hr
      cases hr
    · rw [Rule.ofSymbols_of_mixed said.head hmixed] at herror
      exact (Except.error.inj herror).symm
  · rintro ⟨before, alternative, after, heq, hbefore, hmixed, rfl⟩
    refine ⟨before, alternative, after, heq, fun first hfirst => ?_,
      Rule.ofSymbols_of_mixed said.head hmixed⟩
    have hmem : first ∈ said.alternatives := by
      rw [heq]
      exact List.mem_append_left _ hfirst
    exact Rule.exists_ofSymbols said.head (endMark_not_mem h hmem) (hbefore first hfirst)

theorem readLine_eq_ok_none_iff : readLine chars number = .ok none ↔ Lexes chars [] := by
  constructor
  · intro h
    obtain ⟨tokens, hscan⟩ := exists_scan h
    rw [readLine_of_scan hscan] at h
    split at h
    · cases h
    · next hline =>
      rw [RuleLine.ofTokens_eq_ok_none_iff.mp hline] at hscan
      exact LineToken.scan_eq_ok_iff.mp hscan
    · obtain ⟨rules, -, hsome⟩ := map_eq_ok_iff.mp h
      cases hsome
  · intro h
    rw [readLine_of_scan (LineToken.scan_eq_ok_iff.mpr h)]
    rfl

theorem readLine_eq_ok_some_iff :
    readLine chars number = .ok (some p) ↔ ∃ said, HoldsRules chars said ∧ IsReadAs said p := by
  constructor
  · intro h
    obtain ⟨tokens, hscan⟩ := exists_scan h
    rw [readLine_of_scan hscan] at h
    split at h
    · cases h
    · cases h
    · next said hline =>
      obtain ⟨rules, hrules, hsome⟩ := map_eq_ok_iff.mp h
      obtain rfl := Option.some.inj hsome
      have hsaid := RuleLine.ofTokens_eq_ok_some_iff.mp hline
      exact ⟨said, ⟨⟨tokens, LineToken.scan_eq_ok_iff.mp hscan, hsaid⟩,
        (exists_rulesOfLine_iff hsaid).mp ⟨rules, hrules⟩⟩, rfl, rulesOfLine_eq_ok_iff.mp hrules⟩
  · rintro ⟨said, ⟨⟨tokens, hlexes, hsaid⟩, -⟩, hhead, hrules⟩
    rw [readLine_of_scan (LineToken.scan_eq_ok_iff.mpr hlexes),
      RuleLine.ofTokens_eq_ok_some_iff.mpr hsaid]
    exact map_eq_ok_iff.mpr ⟨p.2, rulesOfLine_eq_ok_iff.mpr hrules, by rw [← hhead]⟩

/-- A line is rejected if it is not well formed. -/
theorem readLine_eq_error_iff : readLine chars number = .error e ↔ Fails chars number e := by
  constructor
  · intro h
    cases hscan : scan chars with
    | error c =>
      rw [readLine, LineToken.ofLine, hscan] at h
      obtain rfl := Except.error.inj h
      exact .character (LineToken.scan_eq_error_iff.mp hscan)
    | ok tokens =>
      have hlexes := LineToken.scan_eq_ok_iff.mp hscan
      rw [readLine_of_scan hscan] at h
      split at h
      · next hline =>
        obtain rfl := Except.error.inj h
        obtain ⟨token, rfl, hmisplaced⟩ :=
          (RuleLine.ofTokens_eq_error_iff (lineEnd_not_mem hscan)).mp hline
        exact .token hlexes hmisplaced
      · cases h
      · next said hline =>
        have hsaid := RuleLine.ofTokens_eq_ok_some_iff.mp hline
        obtain ⟨before, alternative, after, heq, hbefore, hmixed, rfl⟩ :=
          (rulesOfLine_eq_error_iff hsaid).mp (map_eq_error_iff.mp h)
        exact .mixed hlexes hsaid heq hbefore hmixed
  · intro h
    cases h with
    | character hfails =>
      rw [readLine, LineToken.ofLine, LineToken.scan_eq_error_iff.mpr hfails]
      rfl
    | token hlexes hmisplaced =>
      have hscan := LineToken.scan_eq_ok_iff.mpr hlexes
      rw [readLine_of_scan hscan,
        (RuleLine.ofTokens_eq_error_iff (lineEnd_not_mem hscan)).mpr ⟨_, rfl, hmisplaced⟩]
    | mixed hlexes hsaid heq hbefore hmixed =>
      rw [readLine_of_scan (LineToken.scan_eq_ok_iff.mpr hlexes),
        RuleLine.ofTokens_eq_ok_some_iff.mpr hsaid]
      exact map_eq_error_iff.mpr
        ((rulesOfLine_eq_error_iff hsaid).mpr ⟨_, _, _, heq, hbefore, hmixed, rfl⟩)

/-! ### Reading the lines of a text -/

/-- Well-formed lines are read as the rules of their rule lines. -/
theorem readLines_eq_ok_iff : readLines number lines = .ok out ↔
    ∃ ruleLines, Hold lines ruleLines ∧ List.Forall₂ IsReadAs ruleLines out := by
  constructor
  · intro h
    induction lines generalizing number out with
    | nil =>
      obtain rfl := Except.ok.inj h
      exact ⟨[], .nil, .nil⟩
    | cons line lines ih =>
      obtain ⟨first, hfirst, h⟩ := bind_eq_ok_iff.mp h
      obtain ⟨later, hlater, heq⟩ := bind_eq_ok_iff.mp h
      obtain rfl := Except.ok.inj heq
      obtain ⟨ruleLines, hlines, hread⟩ := ih hlater
      cases first with
      | none => exact ⟨ruleLines, .empty (readLine_eq_ok_none_iff.mp hfirst) hlines, hread⟩
      | some p =>
        obtain ⟨said, hsaid, hp⟩ := readLine_eq_ok_some_iff.mp hfirst
        exact ⟨said :: ruleLines, .cons hsaid hlines, .cons hp hread⟩
  · rintro ⟨ruleLines, hlines, hread⟩
    induction hlines generalizing number out with
    | nil =>
      cases hread
      rfl
    | empty h _ ih =>
      exact bind_eq_ok_iff.mpr ⟨none, readLine_eq_ok_none_iff.mpr h,
        bind_eq_ok_iff.mpr ⟨out, ih hread, rfl⟩⟩
    | cons h _ ih =>
      cases hread with
      | cons hp hread =>
        exact bind_eq_ok_iff.mpr ⟨some _, readLine_eq_ok_some_iff.mpr ⟨_, h, hp⟩,
          bind_eq_ok_iff.mpr ⟨_, ih hread, rfl⟩⟩

theorem HoldsRules.exists_isReadAs (h : HoldsRules chars said) : ∃ p, IsReadAs said p := by
  obtain ⟨⟨tokens, -, hsaid⟩, hmixed⟩ := h
  obtain ⟨rules, hrules⟩ := (exists_rulesOfLine_iff hsaid).mpr hmixed
  exact ⟨(said.head, rules), rfl, rulesOfLine_eq_ok_iff.mp hrules⟩

theorem Hold.exists_isReadAs (h : Hold lines ruleLines) :
    ∃ out, List.Forall₂ IsReadAs ruleLines out := by
  induction h with
  | nil => exact ⟨[], .nil⟩
  | empty _ _ ih => exact ih
  | cons h _ ih =>
    obtain ⟨p, hp⟩ := h.exists_isReadAs
    obtain ⟨out, hout⟩ := ih
    exact ⟨p :: out, .cons hp hout⟩

private theorem exists_hold_cons_iff (number : Nat) :
    (∃ ruleLines, Hold (chars :: lines) ruleLines) ↔
      (∃ first, readLine chars number = .ok first) ∧ ∃ ruleLines, Hold lines ruleLines := by
  constructor
  · rintro ⟨ruleLines, h⟩
    cases h with
    | empty h hlines => exact ⟨⟨none, readLine_eq_ok_none_iff.mpr h⟩, _, hlines⟩
    | cons h hlines =>
      obtain ⟨p, hp⟩ := h.exists_isReadAs
      exact ⟨⟨some p, readLine_eq_ok_some_iff.mpr ⟨_, h, hp⟩⟩, _, hlines⟩
  · rintro ⟨⟨first, hfirst⟩, ruleLines, hlines⟩
    cases first with
    | none => exact ⟨ruleLines, .empty (readLine_eq_ok_none_iff.mp hfirst) hlines⟩
    | some p =>
      obtain ⟨said, hsaid, -⟩ := readLine_eq_ok_some_iff.mp hfirst
      exact ⟨said :: ruleLines, .cons hsaid hlines⟩

/-- Lines are rejected at the first of them that is not well formed, with the number that this line
has. -/
theorem readLines_eq_error_iff : readLines number lines = .error e ↔
    ∃ before chars after, lines = before ++ chars :: after ∧ (∃ ruleLines, Hold before ruleLines) ∧
      Fails chars (number + before.length) e := by
  induction lines generalizing number with
  | nil =>
    constructor
    · intro h
      cases h
    · rintro ⟨before, chars, after, heq, -⟩
      cases before <;> cases heq
  | cons first lines ih =>
    rw [readLines, bind_eq_error_iff]
    constructor
    · rintro (h | ⟨said, hfirst, h⟩)
      · exact ⟨[], first, lines, rfl, ⟨[], .nil⟩, readLine_eq_error_iff.mp h⟩
      · rcases bind_eq_error_iff.mp h with h | ⟨later, -, h⟩
        · obtain ⟨before, chars, after, rfl, hbefore, hfails⟩ := ih.mp h
          rw [Nat.add_assoc, Nat.add_comm 1] at hfails
          exact ⟨first :: before, chars, after, rfl,
            (exists_hold_cons_iff number).mpr ⟨⟨said, hfirst⟩, hbefore⟩, hfails⟩
        · cases h
    · rintro ⟨before, chars, after, heq, hbefore, hfails⟩
      cases before with
      | nil =>
        obtain ⟨rfl, rfl⟩ := List.cons.inj heq
        exact Or.inl (readLine_eq_error_iff.mpr hfails)
      | cons first' before =>
        obtain ⟨rfl, rfl⟩ := List.cons.inj heq
        obtain ⟨⟨said, hfirst⟩, hbefore⟩ := (exists_hold_cons_iff number).mp hbefore
        refine Or.inr ⟨said, hfirst, bind_eq_error_iff.mpr (Or.inl ?_)⟩
        refine ih.mpr ⟨before, chars, after, rfl, hbefore, ?_⟩
        rwa [Nat.add_assoc, Nat.add_comm 1]

/-! ### Reading a text -/

theorem IsOfRuleLines.unique (h : g.IsOfRuleLines ruleLines) (h' : g'.IsOfRuleLines ruleLines) :
    g = g' := by
  obtain ⟨start, rules⟩ := g
  obtain ⟨start', rules'⟩ := g'
  obtain rfl : start = start' := Option.some.inj (h.start.symm.trans h'.start)
  obtain rfl : rules = rules' :=
    List.map_injective_iff.mpr Rule.parts_injective (h.rules.symm.trans h'.rules)
  rfl

private theorem flatMap_bodies (h : List.Forall₂ IsReadAs ruleLines out) :
    ruleLines.flatMap RuleLine.bodies = (out.flatMap Prod.snd).map Rule.parts := by
  induction h with
  | nil => rfl
  | cons hp _ ih => rw [List.flatMap_cons, List.flatMap_cons, List.map_append, hp.2, ih]

private theorem isOfRuleLines_of_isReadAs (h : List.Forall₂ IsReadAs ruleLines (p :: out)) :
    IsOfRuleLines ⟨p.1, p.2 ++ out.flatMap Prod.snd⟩ ruleLines := by
  refine ⟨?_, flatMap_bodies h⟩
  cases h with
  | cons hp _ => exact congrArg some hp.1.symm

/-- A text is read as the grammar of its rule lines, which all of its lines must be well formed
for. -/
theorem ofText_eq_ok_iff : ofText text = .ok g ↔
    ∃ ruleLines, Hold (linesOf text.toList) ruleLines ∧ g.IsOfRuleLines ruleLines := by
  constructor
  · intro h
    obtain ⟨out, hout, h⟩ := bind_eq_ok_iff.mp h
    obtain ⟨ruleLines, hlines, hread⟩ := readLines_eq_ok_iff.mp hout
    cases out with
    | nil => cases h
    | cons p out =>
      obtain rfl := Except.ok.inj h
      exact ⟨ruleLines, hlines, isOfRuleLines_of_isReadAs hread⟩
  · rintro ⟨ruleLines, hlines, hg⟩
    obtain ⟨out, hread⟩ := hlines.exists_isReadAs
    refine bind_eq_ok_iff.mpr ⟨out, readLines_eq_ok_iff.mpr ⟨ruleLines, hlines, hread⟩, ?_⟩
    cases out with
    | nil =>
      cases hread
      cases hg.start
    | cons p out => rw [hg.unique (isOfRuleLines_of_isReadAs hread)]

/-- A text is no grammar where its first line that is not well formed stands, or after its end. -/
theorem ofText_eq_error_iff :
    ofText text = .error e ↔ IsFirstError (linesOf text.toList) e := by
  rw [ofText, bind_eq_error_iff]
  constructor
  · rintro (h | ⟨out, hout, h⟩)
    · obtain ⟨before, chars, after, heq, ⟨ruleLines, hbefore⟩, hfails⟩ :=
        readLines_eq_error_iff.mp h
      rw [Nat.add_comm] at hfails
      rw [heq]
      exact .line hbefore hfails
    · obtain ⟨ruleLines, hlines, hread⟩ := readLines_eq_ok_iff.mp hout
      cases out with
      | nil =>
        cases hread
        obtain rfl := Except.error.inj h
        exact .noRules hlines
      | cons p out => cases h
  · intro h
    generalize linesOf text.toList = lines at h
    cases h with
    | line hbefore hfails =>
      rw [Nat.add_comm] at hfails
      exact Or.inl (readLines_eq_error_iff.mpr ⟨_, _, _, rfl, ⟨_, hbefore⟩, hfails⟩)
    | noRules hlines =>
      exact Or.inr ⟨[], readLines_eq_ok_iff.mpr ⟨[], hlines, .nil⟩, rfl⟩

/-- The notation has a grammar of its own. A text is read just if all its lines are well formed and
one of them holds a rule; it is then the grammar of its rule lines. Otherwise the error is that of
the first line that is not well formed; if all are, it is that no line holds a rule, told for the
line after the last. -/
theorem ofText_iff (text : String) :
    ∃ lines, (∀ cut, SplitsInto text.toList cut ↔ cut = lines) ∧
      ((∃ g, ofText text = .ok g) ↔ ∃ ruleLines, Hold lines ruleLines ∧ ruleLines ≠ []) ∧
      (∀ g, ofText text = .ok g ↔ ∃ ruleLines, Hold lines ruleLines ∧ g.IsOfRuleLines ruleLines) ∧
      ∀ e, ofText text = .error e ↔ IsFirstError lines e := by
  refine ⟨linesOf text.toList, fun cut => splitsInto_iff, ⟨?_, ?_⟩, fun g => ofText_eq_ok_iff,
    fun e => ofText_eq_error_iff⟩
  · rintro ⟨g, hg⟩
    obtain ⟨ruleLines, hlines, hg⟩ := ofText_eq_ok_iff.mp hg
    refine ⟨ruleLines, hlines, ?_⟩
    rintro rfl
    cases hg.start
  · rintro ⟨ruleLines, hlines, hne⟩
    obtain ⟨out, hread⟩ := hlines.exists_isReadAs
    cases out with
    | nil =>
      cases hread
      exact absurd rfl hne
    | cons p out =>
      exact ⟨_, ofText_eq_ok_iff.mpr ⟨ruleLines, hlines, isOfRuleLines_of_isReadAs hread⟩⟩

/-- Of two lines that are not well formed, the first is reported, whatever is wrong with it. -/
example : ofText "S -> T\nT -> b ε | ε -- mixed\n§\n" =
    .error (.invalidRule (.nonterminal "T") [.terminal "b", .epsilon] .mixedEpsilon) := by
  decide +kernel

end Grammar

end Recognizer
