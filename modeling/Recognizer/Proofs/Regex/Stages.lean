import Recognizer.Proofs.Regex.Annotation
import Recognizer.Proofs.Regex.Arena
import Recognizer.Proofs.Regex.ShuntingYard
import Recognizer.Regex.Compile

/-!
# The stages of a compilation

The automaton of a pattern is that of its expression. The same automaton comes out of a chain of
stages, each of which sees nothing but the result of the one before: the pattern is cut into tokens,
the tokens are put into postfix form, the postfix stream becomes a list of linked nodes, two passes
over the nodes give the position table, and the table gives the automaton. Malformed patterns are
found in the first two stages; the others do not fail on what they are given.

The rules of a lexer go through the first two stages one by one. Their streams, each followed by the
tag of the rule and a concatenation, are put behind one another with a bar after each but the first,
and go through the other stages as one stream.

## Main definitions

* `streamOf`: the postfix stream of a pattern.
* `LexRule.stream`, `joinStreams`: the postfix streams of a rule and of a lexer.
* `Dfa.ofStream`: the automaton of a postfix stream.

## Main results

* `Dfa.ofStream_toPostfix`: the later stages lead from the stream of an expression to its automaton.
* `compile_eq_ok_iff`, `compile_eq_error_iff`: the stages of a pattern.
* `compileRules_eq_ok_iff`, `compileRules_eq_error_iff`: the stages of a lexer.
-/

namespace Recognizer

open Regex

/-- The automaton of a postfix stream, built from the linked nodes of its tree and their table. The
stages after the tree are not expected to fail, but may do so on nodes that make up no tree. -/
def Dfa.ofStream (stream : List Token) : Except Malformed (Option Dfa) := do
  let ast ← Ast.build stream
  return (fun table => Dfa.ofRows table.toList) <$> Node.annotate ast.accept ast.nodes

/-- The later stages do not fail. They lead from the stream of an expression to the automaton of the
expression. -/
theorem Dfa.ofStream_toPostfix (e : Expr Leaf) :
    ofStream e.toPostfix = .ok (some (ofExpr e)) := by
  rw [ofStream, Ast.build_eq, Expr.ofPostfix_eq_ok_iff.mpr rfl]
  change Except.ok ((fun table => ofRows table.toList) <$> Node.annotate e.finishId e.nodes) = _
  rw [e.annotate_nodes]
  rfl

namespace Regex

variable {alphabet : Alphabet} {pattern : String} {rules : List LexRule} {d : Dfa}
  {err : CompileError}

/-! ### Patterns -/

/-- The postfix stream of a pattern. -/
def streamOf (alphabet : Alphabet) (pattern : String) : Except Malformed (List Token) := do
  infixToPostfix alphabet (← tokenize pattern)

theorem streamOf_eq (alphabet : Alphabet) (pattern : String) :
    streamOf alphabet pattern = Expr.toPostfix <$> Expr.ofPattern alphabet pattern := by
  rw [streamOf, Expr.ofPattern, map_bind]
  exact bind_congr fun ts => infixToPostfix_eq alphabet ts

/-- The stages of a pattern. A pattern has an automaton just if it has a postfix stream, and the
automaton is that of the stream. -/
theorem compile_eq_ok_iff :
    compile pattern alphabet = .ok d ↔
      ∃ stream, streamOf alphabet pattern = .ok stream ∧ Dfa.ofStream stream = .ok (some d) := by
  rw [compile, streamOf_eq]
  cases Expr.ofPattern alphabet pattern with
  | error cause => exact ⟨nofun, nofun⟩
  | ok e =>
    change Except.ok (Dfa.ofExpr e) = .ok d ↔ ∃ stream, Except.ok e.toPostfix = .ok stream ∧ _
    simp only [Except.ok.injEq, exists_eq_left', Dfa.ofStream_toPostfix, Option.some.injEq]

/-- What is wrong with a pattern is what the first two stages find. -/
theorem compile_eq_error_iff :
    compile pattern alphabet = .error err ↔
      ∃ cause, streamOf alphabet pattern = .error cause ∧ err = .pattern pattern cause := by
  rw [compile, streamOf_eq]
  cases Expr.ofPattern alphabet pattern with
  | error cause =>
    change Except.error _ = Except.error err ↔ ∃ cause', Except.error cause = .error cause' ∧ _
    simp only [Except.error.injEq, exists_eq_left', eq_comm]
  | ok e => exact ⟨nofun, nofun⟩

/-! ### Lexers -/

/-- The postfix stream of a rule: that of its pattern, followed by the tag. -/
def LexRule.stream (alphabet : Alphabet) (r : LexRule) : Except CompileError (List Token) :=
  match streamOf alphabet r.pattern with
  | .ok stream => .ok (stream ++ [.action ⟨r.label, r.priority⟩, .op .cat])
  | .error cause => .error (.rule r cause)

/-- The streams behind one another, with a bar after each but the first. -/
def joinStreams : List (List Token) → List Token
  | [] => []
  | stream :: streams => stream ++ streams.flatMap (· ++ [.op .alt])

theorem LexRule.stream_eq (alphabet : Alphabet) (r : LexRule) :
    r.stream alphabet = Expr.toPostfix <$> r.expr alphabet := by
  rw [stream, expr, streamOf_eq]
  cases Expr.ofPattern alphabet r.pattern with
  | error cause => rfl
  | ok e =>
    refine congrArg Except.ok ?_
    rw [Expr.toPostfix_cat, List.append_assoc]
    rfl

private theorem mapM_stream_eq (alphabet : Alphabet) (rules : List LexRule) :
    rules.mapM (LexRule.stream alphabet) =
      List.map Expr.toPostfix <$> rules.mapM (LexRule.expr alphabet) := by
  induction rules with
  | nil => rfl
  | cons r rules ih =>
    rw [List.mapM_cons, List.mapM_cons, ih, LexRule.stream_eq]
    cases r.expr alphabet with
    | error cause => rfl
    | ok e => cases rules.mapM (LexRule.expr alphabet) <;> rfl

private theorem joinStreams_eq (e : Expr Leaf) (rest : List (Expr Leaf)) :
    joinStreams ((e :: rest).map Expr.toPostfix) = (rest.foldl .alt e).toPostfix := by
  rw [Expr.toPostfix_foldl_alt, List.map_cons, joinStreams, List.flatMap_map]

private theorem eq_nil_iff_of_mapM_expr {exprs : List (Expr Leaf)}
    (h : rules.mapM (LexRule.expr alphabet) = .ok exprs) : rules = [] ↔ exprs = [] := by
  rw [← List.length_eq_zero_iff, ← List.length_eq_zero_iff, (mapM_eq_ok_iff.mp h).length_eq]

/-- The stages of a lexer. A lexer has an automaton just if it has rules and all of these have
postfix streams, and the automaton is that of the streams put together. -/
theorem compileRules_eq_ok_iff :
    compileRules rules alphabet = .ok d ↔ rules ≠ [] ∧
      ∃ streams, rules.mapM (LexRule.stream alphabet) = .ok streams ∧
        Dfa.ofStream (joinStreams streams) = .ok (some d) := by
  rw [compileRules, mapM_stream_eq]
  cases hexprs : rules.mapM (LexRule.expr alphabet) with
  | error cause => exact ⟨nofun, nofun⟩
  | ok exprs =>
    rw [ne_eq, eq_nil_iff_of_mapM_expr hexprs]
    cases exprs with
    | nil => exact ⟨nofun, fun h => absurd rfl h.1⟩
    | cons e rest =>
      change Except.ok (Dfa.ofExpr _) = .ok d ↔
        _ ∧ ∃ streams, Except.ok ((e :: rest).map Expr.toPostfix) = .ok streams ∧ _
      simp only [reduceCtorEq, not_false_eq_true, true_and, Except.ok.injEq, exists_eq_left',
        joinStreams_eq, Dfa.ofStream_toPostfix, Option.some.injEq]

/-- A lexer has no automaton if it has no rules or if the first two stages fail for one of them; the
first such rule is the one that counts. -/
theorem compileRules_eq_error_iff :
    compileRules rules alphabet = .error err ↔
      (rules = [] ∧ err = .noRules) ∨ rules.mapM (LexRule.stream alphabet) = .error err := by
  rw [compileRules, mapM_stream_eq]
  cases hexprs : rules.mapM (LexRule.expr alphabet) with
  | error cause =>
    have hne : rules ≠ [] := by
      rintro rfl
      cases hexprs
    change Except.error cause = .error err ↔ _ ∨ Except.error cause = .error err
    simp only [hne, false_and, false_or, Except.error.injEq]
  | ok exprs =>
    rw [eq_nil_iff_of_mapM_expr hexprs]
    cases exprs with
    | nil =>
      change Except.error CompileError.noRules = .error err ↔ _ ∨ Except.ok _ = Except.error err
      simp only [Except.error.injEq, true_and, reduceCtorEq, or_false, eq_comm]
    | cons e rest =>
      change Except.ok _ = Except.error err ↔ _ ∨ Except.ok _ = Except.error err
      simp only [reduceCtorEq, false_and, false_or]

end Regex

end Recognizer
