import Recognizer.Dfa.OfPositions
import Recognizer.Regex.Infix

/-!
# From patterns to automata

A pattern is compiled into the automaton of its expression. A lexer is a list of rules; the
automaton of a lexer tries all of them at once, each followed by the tag that says which rule it is.

## Main definitions

* `LexRule`: a rule of a lexer.
* `CompileError`: why a pattern or a lexer has no automaton.
* `compile`, `compileRules`: the automaton of a pattern, and that of a lexer.
-/

namespace Recognizer.Regex

/-- A rule of a lexer. Of two rules that match the same text, the one with the lower priority number
wins. -/
structure LexRule where
  label : String
  pattern : String
  priority : Nat
  deriving DecidableEq, Repr

/-- Why a pattern or a lexer has no automaton. -/
inductive CompileError
  /-- The lexer has no rules. -/
  | noRules
  /-- The pattern is malformed. -/
  | pattern (pattern : String) (cause : Malformed)
  /-- The pattern of this rule is malformed. -/
  | rule (rule : LexRule) (cause : Malformed)
  deriving DecidableEq, Repr

namespace CompileError

/-- The malformed expression behind the error. -/
def cause? : CompileError → Option Malformed
  | noRules => none
  | pattern _ cause => some cause
  | rule _ cause => some cause

/-- The wording of the error itself. -/
def message : CompileError → String
  | noRules => "No lexer rules to compile"
  | pattern p _ => "Failed to parse regex " ++ Text.quoted p
  | rule r _ =>
    "Failed to parse regex " ++ Text.quoted r.pattern ++ " for rule " ++ Text.quoted r.label

/-- The wordings of the error and of its cause. -/
def chain (e : CompileError) : List String := e.message :: (e.cause?.map Malformed.message).toList

end CompileError

/-- The automaton of a pattern, in which a negated bracket chooses from the characters of the
alphabet; or the error with the pattern and the first place where it is malformed. -/
def compile (pattern : String) (alphabet : Alphabet) : Except CompileError Dfa :=
  match Expr.ofPattern alphabet pattern with
  | .ok e => .ok (Dfa.ofExpr e)
  | .error cause => .error (.pattern pattern cause)

/-- The expression of a rule: its pattern, followed by its tag. The tag is a leaf that consumes
nothing, so the position after the pattern tells which rule has been matched. -/
def LexRule.expr (alphabet : Alphabet) (r : LexRule) : Except CompileError (Expr Leaf) :=
  match Expr.ofPattern alphabet r.pattern with
  | .ok e => .ok (.cat e (.leaf (.action ⟨r.label, r.priority⟩)))
  | .error cause => .error (.rule r cause)

/-- The automaton of a lexer: that of the alternation of all its rules, in order. A lexer without
rules is an error, and so is the first rule with a malformed pattern. -/
def compileRules (rules : List LexRule) (alphabet : Alphabet) : Except CompileError Dfa := do
  match ← rules.mapM (LexRule.expr alphabet) with
  | [] => .error .noRules
  | e :: rest => .ok (Dfa.ofExpr (rest.foldl .alt e))

end Recognizer.Regex
