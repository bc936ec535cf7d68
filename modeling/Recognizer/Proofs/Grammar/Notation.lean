import Recognizer.Grammar.Notation
import Recognizer.Proofs.Grammar.RuleLines
import Recognizer.Proofs.Grammar.Spelling

/-!
# Reading grammar notation

A grammar is printed a rule a line, with a blank between two symbols. The tokens of such a line are
those of its symbols, so the line says the one rule that has been printed, and the whole text says
the rules in their order. This works for the grammars whose names can be written in the notation and
whose first rule is headed by the start. Grammars that have been read are of this kind, and they
stay so when they are augmented, because the new start is the old one with primes after it.

## Main definitions

* `Symbol.IsReadable`, `Rule.IsReadable`, `Grammar.IsReadable`: the names can be written in the
  notation, and the first rule is that of the start.
* `GrammarError.IsOfNotation`: the errors that a text can have.

## Main results

* `Grammar.isOfNotation_of_ofText`: why a text is not a grammar.
* `Grammar.IsReadable.ofText_text`: a grammar of this kind is read back from its text.
* `Grammar.isReadable_of_ofText`, `Grammar.IsReadable.augmented`: which grammars are of this kind.
* `Grammar.ofText_text_of_ofText`: printing and reading a grammar that has been read.
-/

namespace Recognizer

open LineToken (Spelled scan)

/-! ### Errors -/

/-- The error says that a line is malformed or that the symbols of a line make no rule. The other
errors come from stages that a text has not reached. -/
def GrammarError.IsOfNotation : GrammarError → Prop
  | .malformedLine _ _ => True
  | .invalidRule _ _ _ => True
  | _ => False

namespace Grammar

variable {text : String} {line : List Char} {lines : List (List Char)} {number : Nat}
  {cause : GrammarError}

private theorem isOfNotation_of_ofSymbols {head : Symbol} {body : List Symbol}
    (h : Rule.ofSymbols head body = .error cause) : cause.IsOfNotation := by
  cases head with
  | nonterminal name =>
    rw [Rule.ofSymbols] at h
    split at h
    · cases h
      trivial
    · split at h
      · cases h
        trivial
      · split at h
        · cases h
          trivial
        · cases h
  | _ =>
    cases h
    trivial

private theorem isOfNotation_of_readLine (h : readLine line number = .error cause) :
    cause.IsOfNotation := by
  rcases bind_eq_error_iff.mp h with h | ⟨tokens, -, h⟩
  · rw [LineToken.ofLine] at h
    split at h
    · cases h
    · cases h
      trivial
  · split at h
    · cases h
      trivial
    · cases h
    · next parsed _ =>
      rcases bind_eq_error_iff.mp h with h | ⟨rules, -, h⟩
      · obtain ⟨alternative, -, h⟩ := exists_of_mapM_eq_error h
        exact isOfNotation_of_ofSymbols h
      · cases h

private theorem isOfNotation_of_readLines (h : readLines number lines = .error cause) :
    cause.IsOfNotation := by
  induction lines generalizing number with
  | nil => cases h
  | cons line lines ih =>
    rcases bind_eq_error_iff.mp h with h | ⟨first, -, h⟩
    · exact isOfNotation_of_readLine h
    · rcases bind_eq_error_iff.mp h with h | ⟨rest, -, h⟩
      · exact ih h
      · cases h

theorem isOfNotation_of_ofText (h : ofText text = .error cause) : cause.IsOfNotation := by
  rcases bind_eq_error_iff.mp h with h | ⟨read, -, h⟩
  · exact isOfNotation_of_readLines h
  · split at h
    · cases h
      trivial
    · cases h

end Grammar

/-! ### What can be written -/

/-- The token that a symbol is written with. The end marker is written like a terminal. -/
def Symbol.token : Symbol → LineToken
  | epsilon => .epsilon
  | terminal name => .terminal name
  | nonterminal name => .nonterminal name
  | endMark => .terminal "$"

/-- The text of the symbol is that of a token which stands for the symbol. The name of a nonterminal
begins with an upper-case letter then, that of a terminal with another letter or an underscore, or
it is a punctuation character. -/
structure Symbol.IsReadable (X : Symbol) : Prop where
  symbol?_token : X.token.symbol? = some X
  spelled : Spelled X.token X.text.toList

/-- The head and the symbols of the body can be written. -/
structure Rule.IsReadable (r : Rule) : Prop where
  head : r.lhs.IsReadable
  body : ∀ X ∈ r.body, X.IsReadable

/-- The rules can be written, and the first of them is headed by the start, since the text of a
grammar does not say otherwise which nonterminal is the start. -/
structure Grammar.IsReadable (g : Grammar) : Prop where
  start : g.rules.head?.map Rule.head = some g.start
  rules : ∀ r ∈ g.rules, r.IsReadable

variable {X : Symbol} {r : Rule} {g : Grammar} {token : LineToken} {l : List Char}

theorem Symbol.isReadable_of_spelled (h : Spelled token l) (hX : token.symbol? = some X) :
    X.IsReadable := by
  cases h with
  | arrow => cases hX
  | bar => cases hX
  | epsilon =>
    cases hX
    exact ⟨rfl, .epsilon⟩
  | nonterminal hc hword hprimes =>
    cases hX
    exact ⟨rfl, by simpa [token, text] using Spelled.nonterminal hc hword hprimes⟩
  | word hc hword =>
    cases hX
    exact ⟨rfl, by simpa [token, text] using Spelled.word hc hword⟩
  | punctuation hc =>
    cases hX
    exact ⟨rfl, by simpa [token, text] using Spelled.punctuation hc⟩

/-- A nonterminal can be written with primes after its name, too. -/
theorem Symbol.IsReadable.primed {name : String} (h : (nonterminal name).IsReadable) (k : Nat) :
    (nonterminal (Grammar.primed name k)).IsReadable := by
  obtain ⟨-, h⟩ := h
  change Spelled (.nonterminal name) name.toList at h
  generalize name.toList = l at h
  cases h with
  | @nonterminal c word primes hc hword hprimes =>
    have hmore : ∀ x ∈ primes ++ List.replicate k '\x27', x = '\x27' := by
      intro x hx
      rcases List.mem_append.mp hx with hx | hx
      · exact hprimes x hx
      · exact (List.mem_replicate.mp hx).2
    have hspelled := Spelled.nonterminal hc hword hmore
    rw [← List.append_assoc, String.ofList_append] at hspelled
    exact isReadable_of_spelled hspelled rfl

/-! ### Rules are read back -/

/-- The tokens that a rule is written with. -/
def Rule.tokens (r : Rule) : List LineToken := r.lhs.token :: .arrow :: r.body.map Symbol.token

private theorem Rule.toList_text (r : Rule) : r.text.toList =
    [' '].intercalate (r.lhs.text.toList :: ['-', '>'] :: r.body.map fun X => X.text.toList) := by
  obtain ⟨X, body, hbody⟩ := List.exists_cons_of_ne_nil r.wellFormed.1
  simp only [text, ruleText, Symbol.joined, String.toList_append, String.toList_intercalate,
    List.map_map, hbody, List.map_cons, List.intercalate_cons_cons, List.append_assoc]
  rfl

namespace Rule.IsReadable

private theorem spelled_tokens (h : r.IsReadable) : List.Forall₂ Spelled r.tokens
    (r.lhs.text.toList :: ['-', '>'] :: r.body.map fun X => X.text.toList) := by
  refine .cons h.head.spelled (.cons .arrow ?_)
  rw [List.forall₂_map_left_iff, List.forall₂_map_right_iff, List.forall₂_same]
  exact fun X hX => (h.body X hX).spelled

theorem scan_text (h : r.IsReadable) : scan r.text.toList = .ok r.tokens := by
  rw [r.toList_text]
  exact LineToken.scan_intercalate h.spelled_tokens

theorem newline_not_mem (h : r.IsReadable) : '\n' ∉ r.text.toList := by
  rw [r.toList_text]
  exact LineToken.newline_not_mem_intercalate h.spelled_tokens

end Rule.IsReadable

theorem Rule.ofSymbols_lhs_body (r : Rule) : ofSymbols r.lhs r.body = .ok r := by
  obtain ⟨hne, hmixed, hend⟩ := r.wellFormed
  rw [lhs, ofSymbols, dif_neg hne, dif_neg fun h => hmixed h.1 h.2, dif_neg hend]

namespace Grammar

/-- The line of a rule says this one rule. -/
theorem readLine_text (h : r.IsReadable) (number : Nat) :
    readLine r.text.toList number = .ok (some (r.head, [r])) := by
  have hline : LineToken.ofLine r.text.toList number = .ok (r.tokens ++ [.lineEnd]) := by
    rw [LineToken.ofLine, h.scan_text]
  have hparsed : RuleLine.ofTokens (r.tokens ++ [.lineEnd]) = .ok (some ⟨r.head, [r.body]⟩) := by
    have hbody : RuleLine.readAlternatives (r.body.map Symbol.token ++ [.lineEnd]) =
        .ok [r.body ++ []] := by
      refine RuleLine.readAlternatives_append ?_ rfl
      rw [RuleLine.StandFor, List.forall₂_map_left_iff, List.forall₂_same]
      exact fun X hX => (h.body X hX).symbol?_token
    rw [List.append_nil] at hbody
    change _ <$> RuleLine.readAlternatives (r.body.map Symbol.token ++ [.lineEnd]) = _
    rw [hbody]
    rfl
  have hrules : rulesOfLine ⟨r.head, [r.body]⟩ = .ok [r] := by
    have hrule := r.ofSymbols_lhs_body
    rw [rulesOfLine, List.mapM_cons, if_neg r.wellFormed.1]
    change (Rule.ofSymbols r.lhs r.body >>= _) = _
    rw [hrule]
    rfl
  rw [readLine]
  refine bind_eq_ok_iff.mpr ⟨_, hline, ?_⟩
  rw [hparsed]
  exact bind_eq_ok_iff.mpr ⟨_, hrules, rfl⟩

theorem readLines_text {rules : List Rule} (h : ∀ r ∈ rules, r.IsReadable) (number : Nat) :
    readLines number (rules.map fun r => r.text.toList) =
      .ok (rules.map fun r => (r.head, [r])) := by
  induction rules generalizing number with
  | nil => rfl
  | cons r rules ih =>
    obtain ⟨hr, hrules⟩ := List.forall_mem_cons.mp h
    rw [List.map_cons, readLines, readLine_text hr]
    change (readLines (number + 1) _ >>= _) = _
    rw [ih hrules]
    rfl

/-! ### Lines -/

theorem linesOf_append {line : List Char} (h : '\n' ∉ line) (rest : List Char) :
    linesOf (line ++ '\n' :: rest) = line :: linesOf rest := by
  induction line with
  | nil => rfl
  | cons c line ih =>
    rw [List.mem_cons, not_or] at h
    rw [List.cons_append, linesOf, ih h.2]
    exact Ne.symm h.1

private theorem linesOf_flatMap {lines : List (List Char)} (h : ∀ line ∈ lines, '\n' ∉ line) :
    linesOf (lines.flatMap (· ++ ['\n'])) = lines := by
  induction lines with
  | nil => rfl
  | cons line lines ih =>
    obtain ⟨hline, hlines⟩ := List.forall_mem_cons.mp h
    rw [List.flatMap_cons, List.append_assoc, List.singleton_append, linesOf_append hline,
      ih hlines]

private theorem toList_text (g : Grammar) :
    g.text.toList = (g.rules.map fun r => r.text.toList).flatMap (· ++ ['\n']) := by
  rw [text, String.toList_join, List.flatMap_map, List.flatMap_map]
  refine List.flatMap_congr fun r _ => ?_
  rw [String.toList_append]
  rfl

/-- A readable grammar is read back from its text. Its rules come back in their order, though rules
of one head may have stood on one line before. -/
theorem IsReadable.ofText_text (h : g.IsReadable) : ofText g.text = .ok g := by
  have hlines : linesOf g.text.toList = g.rules.map fun r => r.text.toList := by
    rw [g.toList_text]
    refine linesOf_flatMap fun line hline => ?_
    obtain ⟨r, hr, rfl⟩ := List.mem_map.mp hline
    exact (h.rules r hr).newline_not_mem
  have hread := readLines_text h.rules 1
  rw [ofText, hlines, hread]
  obtain ⟨start, rules⟩ := g
  obtain ⟨hstart, -⟩ := h
  cases rules with
  | nil => cases hstart
  | cons r rules =>
    obtain rfl : r.head = start := Option.some.inj hstart
    change Except.ok
      (⟨r.head, [r] ++ (rules.map fun r => (r.head, [r])).flatMap Prod.snd⟩ : Grammar) = _
    simp [List.flatMap_map]

end Grammar

/-! ### What has been read is readable -/

namespace RuleLine

variable {tokens : List LineToken} {alternatives : List (List Symbol)} {line : RuleLine}

/-- All symbols of the alternatives are what some of the tokens stand for. -/
def IsOf (tokens : List LineToken) (alternatives : List (List Symbol)) : Prop :=
  ∀ alternative ∈ alternatives, ∀ X ∈ alternative, ∃ token ∈ tokens, token.symbol? = some X

private theorem IsOf.cons (h : IsOf tokens alternatives) (token : LineToken) :
    IsOf (token :: tokens) alternatives := by
  intro alternative halternative X hX
  obtain ⟨token', htoken', hsymbol⟩ := h alternative halternative X hX
  exact ⟨token', List.mem_cons_of_mem _ htoken', hsymbol⟩

private theorem IsOf.consSymbol (h : IsOf tokens alternatives) (hX : token.symbol? = some X) :
    IsOf (token :: tokens) (consSymbol X alternatives) := by
  have hfirst : ∃ token' ∈ token :: tokens, token'.symbol? = some X :=
    ⟨token, List.mem_cons_self, hX⟩
  have hmore := h.cons token
  cases alternatives with
  | nil => simpa [IsOf, RuleLine.consSymbol] using hfirst
  | cons alternative rest =>
    obtain ⟨halternative, hrest⟩ := List.forall_mem_cons.mp hmore
    exact List.forall_mem_cons.mpr ⟨List.forall_mem_cons.mpr ⟨hfirst, halternative⟩, hrest⟩

private theorem isOf_of_readAlternatives (h : readAlternatives tokens = .ok alternatives) :
    alternatives ≠ [] ∧ IsOf tokens alternatives := by
  induction tokens using readAlternatives.induct generalizing alternatives with
  | case1 => cases h
  | case2 =>
    cases h
    simp [IsOf]
  | case3 => cases h
  | case4 rest ih =>
    obtain ⟨later, hlater, rfl⟩ := map_eq_ok_iff.mp h
    have hof := (ih hlater).2.cons .bar
    exact ⟨List.cons_ne_nil _ _, List.forall_mem_cons.mpr ⟨List.forall_mem_nil _, hof⟩⟩
  | case5 token rest _ _ _ X hX ih =>
    rw [readAlternatives_cons hX] at h
    obtain ⟨later, hlater, rfl⟩ := map_eq_ok_iff.mp h
    refine ⟨?_, (ih hlater).2.consSymbol hX⟩
    cases later <;> exact List.cons_ne_nil _ _
  | case6 token rest hend hend' hbar hX =>
    rw [readAlternatives.eq_5 token rest hend hend' hbar, hX] at h
    cases h

end RuleLine

theorem Rule.eq_of_ofSymbols {name : String} {body : List Symbol}
    (h : ofSymbols (.nonterminal name) body = .ok r) : r.head = name ∧ r.body = body := by
  rw [ofSymbols] at h
  split at h
  · cases h
  · split at h
    · cases h
    · split at h
      · cases h
      · cases h
        exact ⟨rfl, rfl⟩

namespace Grammar

variable {name text : String} {line : List Char} {lines : List (List Char)} {number : Nat}
  {rules : List Rule} {out : List (String × List Rule)}

/-- Some rules with this head, all of which can be written. -/
structure IsReadableGroup (name : String) (rules : List Rule) : Prop where
  ne_nil : rules ≠ []
  rules : ∀ r ∈ rules, r.head = name ∧ r.IsReadable

private theorem isReadableGroup_of_readLine (h : readLine line number = .ok (some (name, rules))) :
    IsReadableGroup name rules := by
  obtain ⟨tokens, htokens, h⟩ := bind_eq_ok_iff.mp h
  split at h
  · cases h
  · cases h
  · next parsed hparsed =>
    obtain ⟨made, hmade, heq⟩ := bind_eq_ok_iff.mp h
    cases heq
    obtain ⟨rest, rfl, hrest⟩ := RuleLine.exists_of_ofTokens hparsed
    obtain ⟨hne, hof⟩ := RuleLine.isOf_of_readAlternatives hrest
    -- each token of the line but the last has been scanned
    have hspelled {token : LineToken} {X : Symbol}
        (hmem : token ∈ .nonterminal parsed.head :: .arrow :: rest) (hX : token.symbol? = some X) :
        X.IsReadable := by
      rw [LineToken.ofLine] at htokens
      split at htokens
      · next scanned hscan =>
        rw [← Except.ok.inj htokens] at hmem
        rcases List.mem_append.mp hmem with hmem | hmem
        · obtain ⟨l, hl⟩ := LineToken.exists_spelled_of_mem_scan hscan hmem
          exact Symbol.isReadable_of_spelled hl hX
        · obtain rfl := List.mem_singleton.mp hmem
          cases hX
      · cases htokens
    refine ⟨fun hnil => ?_, fun r hr => ?_⟩
    · rw [hnil, rulesOfLine, mapM_eq_ok_iff, List.forall₂_nil_right_iff] at hmade
      exact hne hmade
    · obtain ⟨alternative, halternative, hrule⟩ := exists_of_mem_mapM hmade hr
      obtain ⟨hhead, hbody⟩ := Rule.eq_of_ofSymbols hrule
      refine ⟨hhead, ?_, fun X hX => ?_⟩
      · rw [Rule.lhs, hhead]
        exact hspelled List.mem_cons_self rfl
      · rw [hbody] at hX
        split at hX
        · rw [List.mem_singleton.mp hX]
          exact Symbol.isReadable_of_spelled .epsilon rfl
        · obtain ⟨token, htoken, hX⟩ := hof alternative halternative X hX
          exact hspelled (List.mem_cons_of_mem _ (List.mem_cons_of_mem _ htoken)) hX

private theorem isReadableGroup_of_readLines (h : readLines number lines = .ok out) :
    ∀ e ∈ out, IsReadableGroup e.1 e.2 := by
  induction lines generalizing number out with
  | nil =>
    cases h
    exact List.forall_mem_nil _
  | cons line lines ih =>
    obtain ⟨first, hfirst, h⟩ := bind_eq_ok_iff.mp h
    obtain ⟨later, hlater, heq⟩ := bind_eq_ok_iff.mp h
    obtain rfl := Except.ok.inj heq
    refine List.forall_mem_append.mpr ⟨fun e he => ?_, ih hlater⟩
    obtain rfl := Option.mem_toList.mp he
    exact isReadableGroup_of_readLine hfirst

/-- What has been read is readable, whatever the text was: comments, blanks and bars have gone, and
names are those of tokens. -/
theorem isReadable_of_ofText (h : ofText text = .ok g) : g.IsReadable := by
  obtain ⟨out, hout, h⟩ := bind_eq_ok_iff.mp h
  have hgroups := isReadableGroup_of_readLines hout
  split at h
  · cases h
  · next start rules rest =>
    cases h
    obtain ⟨hfirst, hrest⟩ := List.forall_mem_cons.mp hgroups
    refine ⟨?_, List.forall_mem_append.mpr ⟨fun r hr => (hfirst.rules r hr).2, fun r hr => ?_⟩⟩
    · obtain ⟨r, rules, rfl⟩ := List.exists_cons_of_ne_nil hfirst.ne_nil
      exact congrArg some (hfirst.rules r List.mem_cons_self).1
    · obtain ⟨e, he, hr⟩ := List.mem_flatMap.mp hr
      exact ((hrest e he).rules r hr).2

/-! ### The augmented grammar -/

private theorem exists_freshName_eq (g : Grammar) (name : String) :
    ∃ k, g.freshName name = primed name k := by
  rw [freshName]
  generalize hnames : (List.range (g.nonterminals.size + 1)).map (fun k => primed name (k + 1)) =
    names
  cases hfind : names.find? (· ∉ g.nonterminals) with
  | none => exact ⟨0, by simp [primed]⟩
  | some fresh =>
    have hmem := List.mem_of_find?_eq_some hfind
    rw [← hnames] at hmem
    obtain ⟨k, -, rfl⟩ := List.mem_map.mp hmem
    exact ⟨k + 1, rfl⟩

/-- A readable grammar stays readable when it is augmented, because the new start is the old one
with primes after it, and its rule comes first. -/
theorem IsReadable.augmented (h : g.IsReadable) : g.augmented.IsReadable := by
  obtain ⟨r, hr, hstart⟩ := Option.map_eq_some_iff.mp h.start
  have hname : (Symbol.nonterminal g.start).IsReadable := by
    rw [← hstart]
    exact (h.rules r (List.mem_of_mem_head? hr)).head
  refine ⟨rfl, List.forall_mem_cons.mpr ⟨⟨?_, fun X hX => ?_⟩, h.rules⟩⟩
  · obtain ⟨k, hk⟩ := g.exists_freshName_eq g.start
    change (Symbol.nonterminal (g.freshName g.start)).IsReadable
    rw [hk]
    exact hname.primed k
  · rw [List.mem_singleton.mp hX]
    exact hname

/-- Printing and reading. A grammar that has been read is read back from its text, and so is its
augmented grammar. -/
theorem ofText_text_of_ofText (h : ofText text = .ok g) :
    ofText g.text = .ok g ∧ ofText g.augmented.text = .ok g.augmented := by
  have hreadable := isReadable_of_ofText h
  exact ⟨hreadable.ofText_text, hreadable.augmented.ofText_text⟩

/-- Signs that would be something else side by side, names with primes, and empty alternatives. -/
def signs : String := "E -> E - > 'x | ε -- of E\n\nE' -> - - T''\nT'' -> |_a9 $E"

/-- The signs are kept apart by blanks, and the new start has one prime more than the names in use.
-/
theorem ofText_text_of_ofText_signs :
    ∃ g, ofText signs = .ok g ∧
      g.augmented.text = "E'' -> E\nE -> E - > ' x\nE -> ε\nE' -> - - T''\nT'' -> ε\n" ++
        "T'' -> _a9 $ E\n" ∧
      ofText g.text = .ok g ∧ ofText g.augmented.text = .ok g.augmented := by
  have htext : (fun g : Grammar => g.augmented.text) <$> ofText signs =
      .ok ("E'' -> E\nE -> E - > ' x\nE -> ε\nE' -> - - T''\nT'' -> ε\n" ++
        "T'' -> _a9 $ E\n") := by
    decide +kernel
  obtain ⟨g, hg, htext⟩ := map_eq_ok_iff.mp htext
  exact ⟨g, hg, htext, ofText_text_of_ofText hg⟩

end Grammar

end Recognizer
