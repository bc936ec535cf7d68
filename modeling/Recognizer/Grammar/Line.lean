import Recognizer.Grammar.Error

/-!
# Lines of grammar notation

A line is split into tokens, the longest one at each place, and its tokens are read as a rule head
with its alternatives. Spaces, tabs, form feeds and carriage returns separate tokens, and `--`
begins a comment.

## Main definitions

* `LineToken.ofLine`: the tokens of a line.
* `RuleLine`: what a line says; `RuleLine.ofTokens`, what its tokens say.
-/

namespace Recognizer

namespace LineToken

/-- The character separates tokens. -/
def isBlank (c : Char) : Bool := c ∈ [' ', '\t', '\x0c', '\r']

/-- The character can go on in a word. -/
def isWordChar (c : Char) : Bool := c.isAlphanum || c = '_'

/-- The punctuation characters, which are terminals. -/
def punctuation : List Char := "-~`!@#$%^&*+=\\<>?/;()[]\x7b\x7d,.'\":".toList

/-- The first token of a text and the text after it, if some token begins there: an arrow, a bar,
`ε`, a word that goes on as long as it can, or a punctuation character. A nonterminal takes in the
primes after it. Blanks and comments are no tokens. -/
def next? : List Char → Option (LineToken × List Char)
  | '-' :: '>' :: rest => some (arrow, rest)
  | '|' :: rest => some (bar, rest)
  | 'ε' :: rest => some (epsilon, rest)
  | c :: rest =>
    let word := c :: rest.takeWhile isWordChar
    let after := rest.dropWhile isWordChar
    if c.isUpper then
      some (nonterminal (String.ofList (word ++ after.takeWhile (· = '\x27'))),
        after.dropWhile (· = '\x27'))
    else if c.isLower || c = '_' then some (terminal (String.ofList word), after)
    else if c ∈ punctuation then some (terminal c.toString, rest)
    else none
  | [] => none

theorem length_lt_of_next? {s rest : List Char} {token : LineToken}
    (h : next? s = some (token, rest)) :
    rest.length < s.length := by
  unfold next? at h
  split at h
  · cases h; simp only [List.length_cons]; omega
  · cases h; simp
  · cases h; simp
  · next c rest' _ _ _ =>
    have hword := (rest'.dropWhile_suffix isWordChar).length_le
    have hprime := ((rest'.dropWhile isWordChar).dropWhile_suffix (· = '\x27')).length_le
    dsimp only at h
    split at h
    · cases h; simp only [List.length_cons]; omega
    · split at h
      · cases h; simp only [List.length_cons]; omega
      · split at h
        · cases h; simp
        · exact absurd h (by simp)
  · exact absurd h (by simp)

/-- The tokens of a text, without the token for the end of the line, or the first character that no
token begins with. Blanks are skipped, and two hyphens begin a comment that goes on to the end of
the line, also where an arrow could begin at the second of them. -/
def scan (s : List Char) : Except Char (List LineToken) :=
  match s with
  | [] => .ok []
  | '-' :: '-' :: rest => scan (rest.dropWhile (· ≠ '\n'))
  | c :: rest =>
    if isBlank c then scan rest
    else
      match h : next? (c :: rest) with
      | none => .error c
      | some (token, after) =>
        have : after.length < (c :: rest).length := length_lt_of_next? h
        (token :: ·) <$> scan after
termination_by s.length
decreasing_by
  · have := (rest.dropWhile_suffix (· ≠ '\n')).length_le
    simp only [List.length_cons]
    omega
  · simp
  · assumption

/-- The tokens of a line, the last of which is the end of the line; or the error that a character of
it belongs to no token. The number of the line is only used for the error. -/
def ofLine (text : List Char) (number : Nat) : Except GrammarError (List LineToken) :=
  match scan text with
  | .ok tokens => .ok (tokens ++ [lineEnd])
  | .error c => .error (.malformedLine number (.unrecognized c))

/-- The symbol that a token stands for in an alternative. -/
def symbol? : LineToken → Option Symbol
  | nonterminal name => some (.nonterminal name)
  | terminal name => some (.terminal name)
  | epsilon => some .epsilon
  | _ => none

end LineToken

/-- What a line says: a rule head with its alternatives, in the order in which they are written. An
alternative is empty here if no symbol stands for it; the rules will have `ε` there. -/
structure RuleLine where
  head : String
  alternatives : List (List Symbol)
  deriving DecidableEq, Repr

namespace RuleLine

/-- The first symbol put in front of the first of some alternatives. -/
def consSymbol (symbol : Symbol) : List (List Symbol) → List (List Symbol)
  | [] => [[symbol]]
  | alternative :: rest => (symbol :: alternative) :: rest

/-- The alternatives that some tokens hold, up to the end of the line, which must be the last token;
or the first token that has no place, `none` standing for the end of the tokens. A bar begins a new
alternative, and all other tokens but the arrow and the end of the line are symbols. -/
def readAlternatives : List LineToken → Except (Option LineToken) (List (List Symbol))
  | [] => .error none
  | [.lineEnd] => .ok [[]]
  | .lineEnd :: token :: _ => .error (some token)
  | .bar :: rest => ([] :: ·) <$> readAlternatives rest
  | token :: rest =>
    match token.symbol? with
    | some symbol => consSymbol symbol <$> readAlternatives rest
    | none => .error (some token)

/-- What the tokens of a line say, `none` if the line is empty; or the first token that has no
place. A line that says something begins with a nonterminal and an arrow. -/
def ofTokens : List LineToken → Except (Option LineToken) (Option RuleLine)
  | [.lineEnd] => .ok none
  | .lineEnd :: token :: _ => .error (some token)
  | .nonterminal head :: .arrow :: rest => (fun alternatives => some ⟨head, alternatives⟩) <$>
      readAlternatives rest
  | .nonterminal _ :: rest => .error rest.head?
  | tokens => .error tokens.head?

end RuleLine

end Recognizer
