import Recognizer.Proofs.Dfa.Isomorphism
import Recognizer.Proofs.Regex.Compile

/-!
# The order of lexer rules

Two lexers may list the same rules in different orders and repeat some. The leaves of their trees
then have different numbers, and so the states of their automata have different names. But after
every text the tags of the same rules are offered, and the choice among them does not depend on the
order. So both automata say the same of every text: they find the same longest matches, and their
minimal automata differ in the names of states only.

## Main results

* `verdict_eq_of_same_rules`: what the automata say of texts.
* `mem_alphabet_rules_iff`: their characters.
* `longestMatch_eq_and_isIsomorphism_of_same_rules`: longest matches and minimal automata.
-/

namespace Recognizer.Regex

variable {alphabet : Alphabet} {rules rules' : List LexRule} {e e' : Expr Leaf}
  {rest rest' : List (Expr Leaf)}

private theorem mem_leaves_foldl_alt_iff {a : Leaf} :
    a ∈ (rest.foldl .alt e).leaves ↔ ∃ f ∈ e :: rest, a ∈ f.leaves := by
  induction rest generalizing e with
  | nil => simp
  | cons f rest ih =>
    simp only [List.foldl_cons, ih, List.exists_mem_cons_iff, Expr.leaves, List.mem_append,
      or_assoc]

theorem mem_alphabet_rules_iff
    (h : List.Forall₂ (fun r f => r.expr alphabet = .ok f) rules (e :: rest)) {c : Char} :
    c ∈ (Dfa.ofExpr (rest.foldl .alt e)).alphabet ↔
      ∃ r ∈ rules, ∃ f, r.expr alphabet = .ok f ∧ .lit c ∈ f.leaves := by
  rw [Dfa.mem_alphabet_ofExpr_iff, mem_leaves_foldl_alt_iff, exists_mem_exprs_iff h]

/-- The automata of lexers with the same rules say the same of every text, though their states have
different names. -/
theorem verdict_eq_of_same_rules (hrules : ∀ r, r ∈ rules ↔ r ∈ rules')
    (h : List.Forall₂ (fun r f => r.expr alphabet = .ok f) rules (e :: rest))
    (h' : List.Forall₂ (fun r f => r.expr alphabet = .ok f) rules' (e' :: rest')) :
    (Dfa.ofExpr (rest.foldl .alt e)).verdict (Dfa.ofExpr (rest.foldl .alt e)).initial =
      (Dfa.ofExpr (rest'.foldl .alt e')).verdict (Dfa.ofExpr (rest'.foldl .alt e')).initial := by
  funext text
  rw [Dfa.verdict_eq_iff]
  constructor
  · rw [accepting_rules_iff h, accepting_rules_iff h']
    simp only [hrules]
  · refine Option.ext fun tag => ?_
    rw [Dfa.tag?_ofExpr_eq_some_iff, Dfa.tag?_ofExpr_eq_some_iff]
    simp only [offers_action_iff h, offers_action_iff h', hrules]

/-- The order of rules does not matter. Lexers with the same rules, in whatever order and however
often each is listed, find the same longest matches with the same tags, and their minimal automata
are the same up to the names of states. -/
theorem longestMatch_eq_and_isIsomorphism_of_same_rules {d d' : Dfa}
    (hrules : ∀ r, r ∈ rules ↔ r ∈ rules') (hd : compileRules rules alphabet = .ok d)
    (hd' : compileRules rules' alphabet = .ok d') :
    (∀ text, d.longestMatch text = d'.longestMatch text) ∧
      (∃ f, Dfa.IsIsomorphism d.minimize d'.minimize f) ∧
        d.minimize.states.size = d'.minimize.states.size := by
  obtain ⟨e, rest, h, rfl⟩ := exists_exprs_of_compileRules hd
  obtain ⟨e', rest', h', rfl⟩ := exists_exprs_of_compileRules hd'
  have hverdict := verdict_eq_of_same_rules hrules h h'
  have halphabet : (Dfa.ofExpr (rest.foldl .alt e)).alphabet =
      (Dfa.ofExpr (rest'.foldl .alt e')).alphabet := SortedSet.ext fun c => by
    rw [mem_alphabet_rules_iff h, mem_alphabet_rules_iff h']
    simp only [hrules]
  obtain ⟨f, hf⟩ := Dfa.exists_isIsomorphism_minimize (Dfa.isTotal_ofExpr _) (Dfa.isTotal_ofExpr _)
    (Dfa.isAccessible_ofExpr _) (Dfa.isAccessible_ofExpr _) halphabet hverdict
    ((Dfa.verdict_trap_ofExpr _).trans (Dfa.verdict_trap_ofExpr _).symm)
  exact ⟨Dfa.longestMatch_eq_of_verdict (Dfa.trapIsDead_ofExpr _) (Dfa.trapIsDead_ofExpr _)
    hverdict, ⟨f, hf⟩, hf.size_eq⟩

/-- The rules of a lexer for words of two letters, one of which is a keyword. -/
def wordRules : List LexRule := [⟨"word", "(a|b)+", 1⟩, ⟨"ab", "ab", 0⟩]

/-- The starts of the automata have different names, but otherwise the minimal automata are the
same. -/
theorem longestMatch_eq_and_isIsomorphism_of_same_rules_words :
    ∃ d d', compileRules wordRules .printable = .ok d ∧
      compileRules (wordRules.reverse ++ wordRules) .printable = .ok d' ∧
      d.initial ≠ d'.initial ∧ (∀ text, d.longestMatch text = d'.longestMatch text) ∧
      (∃ f, Dfa.IsIsomorphism d.minimize d'.minimize f) ∧
      d.minimize.states.size = d'.minimize.states.size := by
  have hcompiled : (do
      let d ← compileRules wordRules .printable
      let d' ← compileRules (wordRules.reverse ++ wordRules) .printable
      return decide (d.initial = d'.initial)) = Except.ok false := by
    decide +kernel
  obtain ⟨d, hd, hcompiled⟩ := bind_eq_ok_iff.mp hcompiled
  obtain ⟨d', hd', hcompiled⟩ := bind_eq_ok_iff.mp hcompiled
  have hinitial : d.initial ≠ d'.initial := of_decide_eq_false (Except.ok.inj hcompiled)
  have hrules (r : LexRule) : r ∈ wordRules ↔ r ∈ wordRules.reverse ++ wordRules := by
    rw [List.mem_append, List.mem_reverse, or_self]
  exact ⟨d, d', hd, hd', hinitial, longestMatch_eq_and_isIsomorphism_of_same_rules hrules hd hd'⟩

end Recognizer.Regex
