import Recognizer.Text.Escaped

/-!
# Regex tokens

A regular expression is read from a flat stream of tokens: operators, literal characters, the empty
string `ε`, and action tags, which mark the lexer rule that an expression belongs to.

## Main definitions

* `Operator`, `ActionTag`, `Token`: the tokens.
* `Token.text`, `Token.listing`: how tokens are shown.
* `Ord Token`: operators, then `ε`, then literals by code point, then actions by source and
  priority.
-/

namespace Recognizer.Regex

/-- The operators and delimiters of regular expressions. Concatenation has no spelling in a pattern;
a listing shows it as a point. -/
inductive Operator
  | alt | cat | star | plus | opt | lparen | rparen | lbracket | rbracket | negate
  deriving DecidableEq, Repr

namespace Operator

/-- The spelling of the operator. -/
def text : Operator → String
  | alt => "|"
  | cat => "."
  | star => "*"
  | plus => "+"
  | opt => "?"
  | lparen => "("
  | rparen => ")"
  | lbracket => "["
  | rbracket => "]"
  | negate => "^"

/-- The place of the operator in the order of the operators. -/
def rank : Operator → Nat
  | alt => 0
  | cat => 1
  | star => 2
  | plus => 3
  | opt => 4
  | lparen => 5
  | rparen => 6
  | lbracket => 7
  | rbracket => 8
  | negate => 9

end Operator

/-- The lexer rule that an accepting position belongs to, as its label and its priority number. Of
two rules that match the same text, the one with the lower number wins. -/
structure ActionTag where
  /-- The label of the rule. -/
  source : String
  priority : Nat
  deriving DecidableEq, Repr

namespace ActionTag

instance : Ord ActionTag := ⟨compareLex (compareOn source) (compareOn priority)⟩

instance : Std.TransOrd ActionTag :=
  inferInstanceAs (Std.TransCmp (compareLex (compareOn source) (compareOn priority)))

instance : Std.LawfulEqOrd ActionTag where
  eq_of_compare {a b} h := by
    obtain ⟨hs, hp⟩ := compareLex_eq_eq.mp h
    have hs : compare a.source b.source = .eq := hs
    have hp : compare a.priority b.priority = .eq := hp
    cases a
    cases b
    simp_all [Std.LawfulEqCmp.compare_eq_iff_eq]

/-- The tag as a listing shows it. -/
def text (tag : ActionTag) : String :=
  "\x7b" ++ tag.source ++ ":" ++ toString tag.priority ++ "\x7d"

/-- The tag `a` is chosen over `b`: it has the lower priority number, or the same number and the
source that comes first. Of two different tags one outranks the other. -/
def Outranks (a b : ActionTag) : Prop :=
  a.priority < b.priority ∨ a.priority = b.priority ∧ compare a.source b.source = .lt

instance (a b : ActionTag) : Decidable (a.Outranks b) := by unfold Outranks; infer_instance

/-- The tag of a list that outranks the others, if the list is not empty. It depends on the members
of the list only, not on their order or number. -/
def best? : List ActionTag → Option ActionTag
  | [] => none
  | a :: rest =>
    match best? rest with
    | none => some a
    | some b => if b.Outranks a then some b else some a

end ActionTag

/-- A token of a regular expression. Literals, `ε` and action tags are operands; an action tag is an
operand that consumes no input. -/
inductive Token
  | op (o : Operator)
  | epsilon
  | lit (c : Char)
  | action (tag : ActionTag)
  deriving DecidableEq, Repr

namespace Token

/-- The token stands for an operand on its own. -/
def isOperand : Token → Bool
  | op _ => false
  | _ => true

/-- The characters that are operators in a pattern, or look like one in a listing. -/
def isSpecial (c : Char) : Bool := c ∈ ['|', '*', '+', '?', '(', ')', '[', ']', '\\', '.']

/-- A literal as a listing shows it: a special character or a quote follows a backslash. -/
def literalText (c : Char) : String :=
  if isSpecial c || c = '\x27' then "\\" ++ c.toString else Text.escaped c

/-- The token as a listing shows it. -/
def text : Token → String
  | op o => o.text
  | epsilon => "ε"
  | lit c => literalText c
  | action tag => tag.text

/-- The tokens of a stream, separated by spaces. -/
def listing (tokens : List Token) : String := " ".intercalate (tokens.map text)

/-- The order of the tokens, by kind and then by content. -/
protected def compare : Token → Token → Ordering
  | op o, op p => compare o.rank p.rank
  | op _, _ => .lt
  | _, op _ => .gt
  | epsilon, epsilon => .eq
  | epsilon, _ => .lt
  | _, epsilon => .gt
  | lit c, lit d => compare c d
  | lit _, _ => .lt
  | _, lit _ => .gt
  | action s, action t => compare s t

instance : Ord Token := ⟨Token.compare⟩

/-- The tokens in order, equal ones kept. -/
def sort (tokens : List Token) : List Token :=
  tokens.mergeSort fun a b => (compare a b).isLE

end Token

end Recognizer.Regex
