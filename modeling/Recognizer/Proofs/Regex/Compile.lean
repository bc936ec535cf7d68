import Recognizer.Proofs.Dfa.Expressions
import Recognizer.Proofs.Regex.PatternGrammar
import Recognizer.Regex.Compile

/-!
# What the automata of patterns and lexers accept

The automaton of a pattern accepts the language of the pattern. The automaton of a lexer accepts a
text if the pattern of some rule matches it; its longest match is the longest prefix that some rule
matches, and names the rule that outranks the others that match this prefix.

## Main definitions

* `LexRule.Matches`: the pattern of the rule matches the text.
* `MaximalMunch`: what the longest match of a lexer is to be.

## Main results

* `derive_compile_iff`: the texts that the automaton of a pattern accepts.
* `compileRules_maximalMunch`: the texts and longest matches of the automaton of a lexer.
-/

namespace Recognizer.Regex

variable {alphabet : Alphabet} {e : Expr Leaf} {text : List Char}

/-! ### What is offered after a text -/

namespace Expr

theorem spells_augmented_iff {w : List Mark} :
    e.augmented.Spells w ↔ ∃ u, e.Spells u ∧ w = u.map .leaf ++ [.finish] := by
  rw [augmented, spells_cat_iff]
  constructor
  · rintro ⟨u, v, hu, hv, rfl⟩
    obtain ⟨w, hw, rfl⟩ := spells_map_iff.mp hu
    rw [spells_leaf_iff.mp hv]
    exact ⟨w, hw, rfl⟩
  · rintro ⟨u, hu, rfl⟩
    exact ⟨_, _, spells_map_iff.mpr ⟨u, hu, rfl⟩, .leaf _, rfl⟩

theorem marks_eq (text : List Char) : marks text = (text.map Leaf.lit).map Mark.leaf := by
  rw [marks, List.map_map]
  rfl

theorem offers_finish_iff : e.Offers text .finish ↔ e.Spells (text.map .lit) := by
  simp only [Offers, spells_augmented_iff, marks_eq]
  constructor
  · rintro ⟨v, u, hu, heq⟩
    have hmem : Mark.finish ∉ u.map Mark.leaf := by simp
    obtain ⟨hmap, -, -⟩ := (List.append_cons_inj_of_notMem hmem List.not_mem_nil).mp heq.symm
    rwa [← List.map_injective_iff.mpr (fun _ _ => Mark.leaf.inj) hmap]
  · exact fun h => ⟨[], _, h, rfl⟩

/-- A leaf of the expression is offered after a text if a string of the expression goes on with it.
-/
theorem offers_leaf_iff {a : Leaf} :
    e.Offers text (.leaf a) ↔ ∃ v, e.Spells (text.map .lit ++ a :: v) := by
  simp only [Offers, spells_augmented_iff, marks_eq]
  constructor
  · rintro ⟨v, u, hu, heq⟩
    rcases List.eq_nil_or_concat v with rfl | ⟨v, b, rfl⟩
    · exact absurd (List.append_inj' heq rfl).2 (by simp)
    · rw [List.concat_eq_append, ← List.cons_append, ← List.append_assoc] at heq
      obtain ⟨hmap, -⟩ := List.append_inj' heq rfl
      obtain ⟨w, w', rfl, hw, hw'⟩ := List.map_eq_append_iff.mp hmap.symm
      obtain ⟨b, v, rfl, hb, -⟩ := List.map_eq_cons_iff.mp hw'
      rw [List.map_injective_iff.mpr (fun _ _ => Mark.leaf.inj) hw, Mark.leaf.inj hb] at hu
      exact ⟨v, hu⟩
  · rintro ⟨v, h⟩
    exact ⟨v.map .leaf ++ [.finish], _, h, by simp⟩

theorem derive_ofExpr_iff :
    (Dfa.ofExpr e).derive text = true ↔
      (∃ tag, e.Offers text (.leaf (.action tag))) ∨ e.Offers text .finish := by
  rw [Dfa.derive_iff (Dfa.trapIsDead_ofExpr e), Dfa.accepting_ofExpr_iff]

theorem IsPlain.not_offers_action (h : e.IsPlain) (tag : ActionTag) :
    ¬ e.Offers text (.leaf (.action tag)) := by
  rw [offers_leaf_iff]
  rintro ⟨v, hv⟩
  obtain ⟨c, hc⟩ := h _ (hv.mem_leaves (.action tag) (by simp))
  cases hc

end Expr

/-! ### Patterns -/

/-- Patterns accept their languages. A pattern that has an automaton denotes exactly one language,
and the automaton accepts just the texts of this language. -/
theorem derive_compile_iff {pattern : String} {d : Dfa} (h : compile pattern alphabet = .ok d) :
    ∃ L, (∀ M, PatternDenotes alphabet pattern M ↔ M = L) ∧
      ∀ text, d.derive text = true ↔ text ∈ L := by
  rw [compile] at h
  cases he : Expr.ofPattern alphabet pattern with
  | error cause =>
    rw [he] at h
    cases h
  | ok e =>
    rw [he] at h
    obtain rfl := Except.ok.inj h
    have hplain := isPlain_of_ofPattern he
    refine ⟨e.language, fun M => patternDenotes_iff_of_ofPattern he, fun text => ?_⟩
    rw [Expr.derive_ofExpr_iff, Expr.offers_finish_iff, hplain.spells_iff]
    simp only [hplain.not_offers_action, exists_false, false_or]

theorem derive_compile_iff_repeated_class :
    ∃ L, (∀ M, PatternDenotes .printable "(a|[0-2])+" M ↔ M = L) ∧
      ∀ text, (Dfa.ofExpr (.plus (.alt (.leaf (.lit 'a'))
        (.oneOf (.lit '0') [.lit '1', .lit '2'])))).derive text = true ↔ text ∈ L :=
  derive_compile_iff (by rfl)

/-! ### Lexers -/

/-- The pattern of the rule matches the text: it denotes a language, and the text is in it. -/
def LexRule.Matches (alphabet : Alphabet) (r : LexRule) (text : List Char) : Prop :=
  ∃ L, PatternDenotes alphabet r.pattern L ∧ text ∈ L

/-- The tag of the rule. -/
def LexRule.tag (r : LexRule) : ActionTag := ⟨r.label, r.priority⟩

/-- What the longest match of a lexer is to be: there is none if no rule matches a prefix of the
input. Otherwise it is the longest prefix that a rule matches, with the tag that outranks those of
the other rules that match this prefix. -/
def MaximalMunch (alphabet : Alphabet) (rules : List LexRule) (input : List Char) :
    Option Dfa.Match → Prop
  | none => ∀ p, p <+: input → ∀ r ∈ rules, ¬ r.Matches alphabet p
  | some m => ∃ p, p <+: input ∧ ∃ r ∈ rules, r.Matches alphabet p ∧
      m = ⟨byteLength p, some r.tag⟩ ∧
      (∀ p', p' <+: input → ∀ r' ∈ rules, r'.Matches alphabet p' → byteLength p' ≤ byteLength p) ∧
      ∀ r' ∈ rules, r'.Matches alphabet p → r'.tag = r.tag ∨ r.tag.Outranks r'.tag

private theorem expr_eq_ok_iff {r : LexRule} {f : Expr Leaf} :
    r.expr alphabet = .ok f ↔ ∃ e, Expr.ofPattern alphabet r.pattern = .ok e ∧
      f = .cat e (.leaf (.action r.tag)) := by
  rw [LexRule.expr]
  cases Expr.ofPattern alphabet r.pattern with
  | error cause => exact ⟨nofun, nofun⟩
  | ok e => simp only [Except.ok.injEq, exists_eq_left', LexRule.tag, eq_comm]

private theorem spells_rule_iff {r : LexRule} {f : Expr Leaf} (h : r.expr alphabet = .ok f)
    {w : List Leaf} :
    f.Spells w ↔ ∃ text, r.Matches alphabet text ∧ w = text.map .lit ++ [.action r.tag] := by
  obtain ⟨e, he, rfl⟩ := expr_eq_ok_iff.mp h
  have hplain := isPlain_of_ofPattern he
  have hmatches (text : List Char) : r.Matches alphabet text ↔ e.Spells (text.map .lit) := by
    simp only [LexRule.Matches, patternDenotes_iff_of_ofPattern he, exists_eq_left,
      hplain.spells_iff]
  simp only [hmatches, Expr.spells_cat_iff, Expr.spells_leaf_iff]
  constructor
  · rintro ⟨u, _, hu, rfl, rfl⟩
    obtain ⟨text, rfl⟩ := hplain.exists_text hu
    exact ⟨text, hu, rfl⟩
  · rintro ⟨text, htext, rfl⟩
    exact ⟨_, _, htext, rfl, rfl⟩

theorem Expr.spells_foldl_alt_iff {rest : List (Expr Leaf)} {w : List Leaf} :
    (rest.foldl .alt e).Spells w ↔ ∃ f ∈ e :: rest, f.Spells w := by
  induction rest generalizing e with
  | nil => simp
  | cons f rest ih => simp only [List.foldl_cons, ih, List.exists_mem_cons_iff, spells_alt_iff,
      or_assoc]

section Rules

variable {rules : List LexRule} {rest : List (Expr Leaf)}

theorem exists_mem_exprs_iff {exprs : List (Expr Leaf)} {P : Expr Leaf → Prop}
    (h : List.Forall₂ (fun r f => r.expr alphabet = .ok f) rules exprs) :
    (∃ f ∈ exprs, P f) ↔ ∃ r ∈ rules, ∃ f, r.expr alphabet = .ok f ∧ P f := by
  induction h with
  | nil => simp
  | cons hr _ ih =>
    simp only [List.exists_mem_cons_iff, ih, hr, Except.ok.injEq, exists_eq_left']

private theorem spells_rules_iff
    (h : List.Forall₂ (fun r f => r.expr alphabet = .ok f) rules (e :: rest)) {w : List Leaf} :
    (rest.foldl .alt e).Spells w ↔
      ∃ r ∈ rules, ∃ text, r.Matches alphabet text ∧ w = text.map .lit ++ [.action r.tag] := by
  rw [Expr.spells_foldl_alt_iff]
  generalize e :: rest = exprs at h
  induction h with
  | nil => simp
  | cons hr _ ih => rw [List.exists_mem_cons_iff, List.exists_mem_cons_iff, ih, spells_rule_iff hr]

/-- After a text the tags of the rules that match it are offered. -/
theorem offers_action_iff
    (h : List.Forall₂ (fun r f => r.expr alphabet = .ok f) rules (e :: rest)) {tag : ActionTag} :
    (rest.foldl .alt e).Offers text (.leaf (.action tag)) ↔
      ∃ r ∈ rules, r.tag = tag ∧ r.Matches alphabet text := by
  simp only [Expr.offers_leaf_iff, spells_rules_iff h]
  constructor
  · rintro ⟨v, r, hr, text', hmatches, heq⟩
    have hmem : Leaf.action tag ∉ text'.map Leaf.lit := by simp
    obtain ⟨hmap, htag, -⟩ :=
      (List.append_cons_inj_of_notMem hmem List.not_mem_nil).mp heq.symm
    obtain rfl := List.map_injective_iff.mpr (fun _ _ => Leaf.lit.inj) hmap
    exact ⟨r, hr, Leaf.action.inj htag, hmatches⟩
  · rintro ⟨r, hr, rfl, hmatches⟩
    exact ⟨[], r, hr, text, hmatches, rfl⟩

private theorem not_offers_finish
    (h : List.Forall₂ (fun r f => r.expr alphabet = .ok f) rules (e :: rest)) :
    ¬ (rest.foldl .alt e).Offers text .finish := by
  rw [Expr.offers_finish_iff, spells_rules_iff h]
  rintro ⟨r, -, text', -, heq⟩
  have hmem : Leaf.action r.tag ∈ text.map Leaf.lit := heq ▸ by simp
  simp at hmem

/-- A text leads to an accepting state if some rule matches it. -/
theorem accepting_rules_iff
    (h : List.Forall₂ (fun r f => r.expr alphabet = .ok f) rules (e :: rest)) :
    (Dfa.ofExpr (rest.foldl .alt e)).Accepting
        ((Dfa.ofExpr (rest.foldl .alt e)).run (Dfa.ofExpr (rest.foldl .alt e)).initial text) ↔
      ∃ r ∈ rules, r.Matches alphabet text := by
  rw [Dfa.accepting_ofExpr_iff, or_iff_left (not_offers_finish h)]
  simp only [offers_action_iff h]
  constructor
  · rintro ⟨_, r, hr, -, hmatches⟩
    exact ⟨r, hr, hmatches⟩
  · rintro ⟨r, hr, hmatches⟩
    exact ⟨_, r, hr, rfl, hmatches⟩

private theorem maximalMunch_rules
    (h : List.Forall₂ (fun r f => r.expr alphabet = .ok f) rules (e :: rest)) (input : List Char) :
    MaximalMunch alphabet rules input
      ((Dfa.ofExpr (rest.foldl .alt e)).longestMatch input) := by
  have hdead := Dfa.trapIsDead_ofExpr (rest.foldl .alt e)
  cases hmatch : (Dfa.ofExpr (rest.foldl .alt e)).longestMatch input with
  | none =>
    intro p hp r hr hmatches
    exact (Dfa.longestMatch_eq_none_iff hdead).mp hmatch p hp
      ((accepting_rules_iff h).mpr ⟨r, hr, hmatches⟩)
  | some m =>
    obtain ⟨p, hp, rfl⟩ := (Dfa.longestMatch_eq_some_iff hdead).mp hmatch
    obtain ⟨r, hr, hmatches⟩ := (accepting_rules_iff h).mp hp.accepting
    obtain ⟨tag, htag⟩ := Option.isSome_iff_exists.mp
      ((Dfa.isSome_tag?_ofExpr_iff _ p).mpr ⟨_, (offers_action_iff h).mpr ⟨r, hr, rfl, hmatches⟩⟩)
    obtain ⟨hoffers, hbest⟩ := (Dfa.tag?_ofExpr_eq_some_iff _ p tag).mp htag
    obtain ⟨r, hr, rfl, hmatches⟩ := (offers_action_iff h).mp hoffers
    refine ⟨p, hp.isPrefix, r, hr, hmatches, by rw [htag], ?_, ?_⟩
    · intro p' hp' r' hr' hmatches'
      have hlength := hp.longest p' hp' ((accepting_rules_iff h).mpr ⟨r', hr', hmatches'⟩)
      exact byteLength_le_of_prefix (List.prefix_of_prefix_length_le hp' hp.isPrefix hlength)
    · intro r' hr' hmatches'
      exact hbest r'.tag ((offers_action_iff h).mpr ⟨r', hr', rfl, hmatches'⟩)

end Rules

private theorem exists_exprs {rules : List LexRule}
    (hrules : ∀ r ∈ rules, ∃ L, PatternDenotes alphabet r.pattern L) :
    ∃ exprs, List.Forall₂ (fun r f => r.expr alphabet = .ok f) rules exprs := by
  induction rules with
  | nil => exact ⟨[], .nil⟩
  | cons r rules ih =>
    obtain ⟨⟨L, hL⟩, hrest⟩ := List.forall_mem_cons.mp hrules
    obtain ⟨e, he, -⟩ := hL.exists_ofPattern
    obtain ⟨exprs, hexprs⟩ := ih hrest
    exact ⟨_, .cons (expr_eq_ok_iff.mpr ⟨e, he, rfl⟩) hexprs⟩

theorem exists_exprs_of_compileRules {rules : List LexRule} {d : Dfa}
    (h : compileRules rules alphabet = .ok d) :
    ∃ e rest, List.Forall₂ (fun r f => r.expr alphabet = .ok f) rules (e :: rest) ∧
      d = Dfa.ofExpr (rest.foldl .alt e) := by
  obtain ⟨exprs, hexprs, h⟩ := bind_eq_ok_iff.mp h
  cases exprs with
  | nil => cases h
  | cons e rest => exact ⟨e, rest, mapM_eq_ok_iff.mp hexprs, (Except.ok.inj h).symm⟩

/-- Lexers find the longest match. Well-formed rules, of which there is at least one, have an
automaton. It accepts the texts that some rule matches, and its longest match is the one that the
rules determine. -/
theorem compileRules_maximalMunch {rules : List LexRule} (alphabet : Alphabet) (hne : rules ≠ [])
    (hrules : ∀ r ∈ rules, ∃ L, PatternDenotes alphabet r.pattern L) :
    ∃ d, compileRules rules alphabet = .ok d ∧ ∀ input,
      (d.derive input = true ↔ ∃ r ∈ rules, r.Matches alphabet input) ∧
      MaximalMunch alphabet rules input (d.longestMatch input) := by
  obtain ⟨exprs, h⟩ := exists_exprs hrules
  cases h with
  | nil => exact absurd rfl hne
  | @cons r e rules rest hr hrest =>
    refine ⟨Dfa.ofExpr (rest.foldl .alt e), ?_, fun input => ⟨?_, ?_⟩⟩
    · exact bind_eq_ok_iff.mpr ⟨e :: rest, mapM_eq_ok_iff.mpr (.cons hr hrest), rfl⟩
    · rw [Dfa.derive_iff (Dfa.trapIsDead_ofExpr _), accepting_rules_iff (.cons hr hrest)]
    · exact maximalMunch_rules (.cons hr hrest) input

/-- The same for a lexer of names and a keyword that is also a name. -/
theorem compileRules_maximalMunch_keyword :
    ∃ d, compileRules [⟨"name", "[a-z]+", 1⟩, ⟨"if", "if", 0⟩] .printable = .ok d ∧ ∀ input,
      (d.derive input = true ↔ ∃ r ∈ [⟨"name", "[a-z]+", 1⟩, ⟨"if", "if", 0⟩],
        LexRule.Matches .printable r input) ∧
      MaximalMunch .printable [⟨"name", "[a-z]+", 1⟩, ⟨"if", "if", 0⟩] input
        (d.longestMatch input) := by
  refine compileRules_maximalMunch .printable (List.cons_ne_nil _ _) ?_
  have hread (pattern : String) (h : (Expr.ofPattern .printable pattern).toBool = true) :
      ∃ L, PatternDenotes .printable pattern L := by
    cases he : Expr.ofPattern .printable pattern with
    | error cause => rw [he] at h; cases h
    | ok e => exact ⟨_, (patternDenotes_iff_of_ofPattern he).mpr rfl⟩
  simp only [List.forall_mem_cons]
  exact ⟨hread _ (by rfl), hread _ (by rfl), List.forall_mem_nil _⟩

end Recognizer.Regex
