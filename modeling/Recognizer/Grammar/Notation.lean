import Recognizer.Grammar.Basic
import Recognizer.Grammar.Line

/-!
# Grammar notation

A grammar is written as a text of rule lines. A head may have several lines, and the head of the
first rule line is the start. An empty alternative is an `ε` of its own.

## Main definitions

* `Grammar.linesOf`: the lines of a text.
* `Grammar.ofText`: the grammar of a text, or the error of its first malformed line.
-/

namespace Recognizer.Grammar

/-- The lines of a text, without the characters that end them. The end of the text ends a line only
if something stands in it, so a text that ends in a line feed has no empty last line. -/
def linesOf : List Char → List (List Char)
  | [] => []
  | '\n' :: rest => [] :: linesOf rest
  | c :: rest =>
    match linesOf rest with
    | [] => [[c]]
    | line :: lines => (c :: line) :: lines

/-- The rules of a rule line, one for each alternative. An empty alternative becomes the body `ε`,
and an alternative that makes no rule makes the line an error. -/
def rulesOfLine (line : RuleLine) : Except GrammarError (List Rule) :=
  line.alternatives.mapM fun alternative =>
    Rule.ofSymbols (.nonterminal line.head) (if alternative = [] then [.epsilon] else alternative)

/-- The head and the rules of a line, if it is not empty. -/
def readLine (text : List Char) (number : Nat) :
    Except GrammarError (Option (String × List Rule)) := do
  match RuleLine.ofTokens (← LineToken.ofLine text number) with
  | .error token => .error (.malformedLine number (.unexpected token))
  | .ok none => .ok none
  | .ok (some line) => do return some (line.head, ← rulesOfLine line)

/-- The heads and the rules of the lines that are not empty, the first line having the given number.
The lines are read in order, and the first one that is malformed ends the reading. -/
def readLines (number : Nat) : List (List Char) → Except GrammarError (List (String × List Rule))
  | [] => .ok []
  | text :: rest => do
    let line ← readLine text number
    return line.toList ++ (← readLines (number + 1) rest)

/-- The grammar that a text describes: all rules of its lines in order, and as the start the head of
the first line that is not empty. A text without such a line is an error of the line after the
last. -/
def ofText (text : String) : Except GrammarError Grammar := do
  let lines := linesOf text.toList
  match ← readLines 1 lines with
  | [] => .error (.malformedLine (lines.length + 1) .noRules)
  | (start, rules) :: rest => .ok ⟨start, rules ++ rest.flatMap Prod.snd⟩

end Recognizer.Grammar
