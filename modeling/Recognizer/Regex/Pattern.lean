import Recognizer.Regex.Malformed

/-!
# Patterns

A pattern is the text of a regular expression. Outside brackets the characters `| * + ? ( ) [ ]` are
operators. Inside brackets only the closing bracket is one, and a `^` right after the opening
bracket is a negation. A backslash makes the next character a literal everywhere; `\n`, `\t`, `\r`
and `\0` name the usual control characters.

Whether brackets are balanced is not decided here: the only malformed pattern at this level is one
that ends in a backslash.

## Main definitions

* `tokenize s`: the tokens of a pattern.
-/

namespace Recognizer.Regex

/-- The character that a backslash followed by `c` stands for: a control character for `n`, `t`, `r`
and `0`, and `c` itself for any other. -/
def unescape : Char → Char
  | 'n' => '\n'
  | 't' => '\t'
  | 'r' => '\r'
  | '0' => '\x00'
  | c => c

/-- The token of a character outside brackets. -/
def tokenOf : Char → Token
  | '|' => .op .alt
  | '*' => .op .star
  | '+' => .op .plus
  | '?' => .op .opt
  | '(' => .op .lparen
  | ')' => .op .rparen
  | '[' => .op .lbracket
  | ']' => .op .rbracket
  | c => .lit c

/-- The token of a character inside brackets. -/
def classTokenOf : Char → Token
  | ']' => .op .rbracket
  | c => .lit c

/-- The tokens of the characters from index `i` on; `inClass` tells whether a bracket is open. A
negation is only recognised right after a bracket that opens, and inside a bracket an opening
bracket is a literal. -/
def tokensFrom (inClass : Bool) (i : Nat) : List Char → Except Malformed (List Token)
  | [] => .ok []
  | ['\\'] => .error ⟨i, .trailingEscape⟩
  | '\\' :: c :: rest => (.lit (unescape c) :: ·) <$> tokensFrom inClass (i + 2) rest
  | '[' :: '^' :: rest =>
    if inClass then (.lit '[' :: .lit '^' :: ·) <$> tokensFrom true (i + 2) rest
    else (.op .lbracket :: .op .negate :: ·) <$> tokensFrom true (i + 2) rest
  | c :: rest =>
    if inClass then (classTokenOf c :: ·) <$> tokensFrom (c ≠ ']') (i + 1) rest
    else (tokenOf c :: ·) <$> tokensFrom (c = '[') (i + 1) rest

/-- The tokens of a pattern. -/
def tokenize (pattern : String) : Except Malformed (List Token) := tokensFrom false 0 pattern.toList

end Recognizer.Regex
