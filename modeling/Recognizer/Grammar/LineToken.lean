/-!
# Tokens of grammar notation

Grammars are written one rule head a line: `Head -> a B | c |`. Words that begin with an upper-case
letter are nonterminals, other words and punctuation are terminals, and `ε` is the empty
alternative. Every line ends with a token of its own.

## Main definitions

* `LineToken`: the tokens of a line; `LineToken.text`, how an error message shows one.
-/

namespace Recognizer

/-- A token of one line of grammar notation. What kind of word it is shows in its first character.
The end of the line is a token, too, so that no line is without one. -/
inductive LineToken
  | nonterminal (name : String)
  | terminal (name : String)
  | arrow
  | bar
  | epsilon
  | lineEnd
  deriving DecidableEq, Repr

/-- The token as an error message shows it. -/
def LineToken.text : LineToken → String
  | nonterminal name => "`" ++ name ++ "`"
  | terminal name => "`" ++ name ++ "`"
  | arrow => "`->`"
  | bar => "`|`"
  | epsilon => "`ε`"
  | lineEnd => "end of line"

end Recognizer
