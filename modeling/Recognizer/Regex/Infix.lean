import Recognizer.Regex.CharClass
import Recognizer.Regex.Expr
import Recognizer.Regex.Pattern

/-!
# Reading expressions in infix form

A stream of tokens in the usual notation is read from left to right into an expression. Alternation
binds weakest, then concatenation, which needs no operator, then the quantifiers `*`, `+` and `?`,
which follow their operand. Parentheses group, and a bracket is an alternation of its characters.
Alternation and concatenation associate to the left. The empty stream is the empty string.

## Main definitions

* `Phrase`: what has been read of the innermost open group.
* `Reader`: the whole state of the reading; `Reader.step` reads one token.
* `Expr.ofTokens`: the expression of a stream, or the first place where the stream is malformed.
-/

namespace Recognizer.Regex

/-- What has been read of a group: the alternatives before the last bar, the factors after it that
are complete, and the last operand, which a quantifier may still follow. Nothing has been read of a
part that is `none`. -/
structure Phrase where
  alternatives : Option (Expr Leaf)
  factors : Option (Expr Leaf)
  operand : Option (Expr Leaf)
  deriving DecidableEq, Repr

namespace Phrase

/-- The phrase of a group that has just been opened. -/
def empty : Phrase := ⟨none, none, none⟩

/-- The factors followed by one more. -/
def catWith (factors : Option (Expr Leaf)) (e : Expr Leaf) : Expr Leaf :=
  match factors with
  | none => e
  | some t => .cat t e

/-- The alternatives followed by one more. -/
def altWith (alternatives : Option (Expr Leaf)) (e : Expr Leaf) : Expr Leaf :=
  match alternatives with
  | none => e
  | some t => .alt t e

/-- The phrase followed by an operand. -/
def add (p : Phrase) (e : Expr Leaf) : Phrase :=
  match p.operand with
  | none => { p with operand := some e }
  | some f => { p with factors := some (catWith p.factors f), operand := some e }

/-- The expression of the whole phrase, if it ends in an operand. -/
def complete (p : Phrase) : Option (Expr Leaf) :=
  p.operand.map fun f => altWith p.alternatives (catWith p.factors f)

end Phrase

/-- What has been read of a stream: the group that is being read, the groups around it that are
still open, and the bracket, if one is open. -/
structure Reader where
  /-- The innermost open group. -/
  phrase : Phrase
  /-- The groups around it, innermost first, each with the position of the parenthesis inside it
  that is still open. -/
  enclosing : List (Nat × Phrase)
  /-- The bracket that is open, if there is one. -/
  bracket : Option CharClass
  deriving DecidableEq, Repr

namespace Reader

/-- The reader before the first token. -/
def start : Reader := ⟨.empty, [], none⟩

/-- The reader after an operand. -/
def add (r : Reader) (e : Expr Leaf) : Reader := { r with phrase := r.phrase.add e }

/-- Applies a quantifier to the last operand. -/
def quantify (r : Reader) (position : Nat) (q : Operator) (f : Expr Leaf → Expr Leaf) :
    Except Malformed Reader :=
  match r.phrase.operand with
  | none => .error ⟨position, .noOperandForQuantifier q⟩
  | some e => .ok { r with phrase := { r.phrase with operand := some (f e) } }

/-- Closes the innermost group, which becomes an operand of the group around it. That the group must
end in an operand is checked before there must be a group to close. -/
def closeGroup (r : Reader) (position : Nat) : Except Malformed Reader :=
  match r.phrase.complete, r.enclosing with
  | none, _ => .error ⟨position, .noOperandBeforeClose⟩
  | some _, [] => .error ⟨position, .unbalanced .rparen⟩
  | some e, (_, outer) :: rest => .ok { r with phrase := outer.add e, enclosing := rest }

/-- Closes a bracket, which becomes the alternation of the characters that it stands for. A bracket
that stands for no character is malformed at its closing end. -/
def closeBracket (alphabet : Alphabet) (r : Reader) (position : Nat) (cls : CharClass) :
    Except Malformed Reader := do
  match ← cls.characters alphabet with
  | [] => .error ⟨position, .emptyClass⟩
  | c :: cs => .ok ({ r with bracket := none }.add (.oneOf (.lit c) (cs.map .lit)))

/-- Reads a token outside brackets. -/
def outside (r : Reader) (position : Nat) : Token → Except Malformed Reader
  | .epsilon => .ok (r.add .epsilon)
  | .lit c => .ok (r.add (.leaf (.lit c)))
  | .action tag => .ok (r.add (.leaf (.action tag)))
  | .op .alt =>
    match r.phrase.complete with
    | none => .error ⟨position, .noOperandBeforeAlt⟩
    | some e => .ok { r with phrase := ⟨some e, none, none⟩ }
  | .op .cat =>
    match r.phrase.operand with
    | none => .error ⟨position, .noOperandBeforeCat⟩
    | some f =>
      let factors := Phrase.catWith r.phrase.factors f
      .ok { r with phrase := ⟨r.phrase.alternatives, some factors, none⟩ }
  | .op .star => r.quantify position .star .star
  | .op .plus => r.quantify position .plus .plus
  | .op .opt => r.quantify position .opt .opt
  | .op .lparen => .ok { r with phrase := .empty, enclosing := (position, r.phrase) :: r.enclosing }
  | .op .rparen => r.closeGroup position
  | .op .lbracket => .ok { r with bracket := some ⟨position, false, []⟩ }
  | .op .rbracket => .error ⟨position, .unbalanced .rbracket⟩
  | .op .negate => .error ⟨position, .negationOutsideHead⟩

/-- Reads a token inside the bracket `cls`. A negation is allowed right after the opening bracket.
-/
def inside (alphabet : Alphabet) (r : Reader) (cls : CharClass) (position : Nat) :
    Token → Except Malformed Reader
  | .lit c => .ok { r with bracket := some { cls with members := cls.members ++ [c] } }
  | .epsilon => .error ⟨position, .epsilonInClass⟩
  | .action _ => .error ⟨position, .actionInClass⟩
  | .op .negate =>
    if cls.negated = false ∧ position = cls.position + 1 then
      .ok { r with bracket := some { cls with negated := true } }
    else .error ⟨position, .negationInClass⟩
  | .op .lbracket => .error ⟨position, .nestedClass⟩
  | .op .rbracket => r.closeBracket alphabet position cls
  | .op o => .error ⟨position, .operatorInClass o⟩

/-- Reads one token. -/
def step (alphabet : Alphabet) (r : Reader) (position : Nat) (token : Token) :
    Except Malformed Reader :=
  match r.bracket with
  | none => r.outside position token
  | some cls => r.inside alphabet cls position token

/-- Reads the tokens of a stream, the first of them at `position`. -/
def run (alphabet : Alphabet) (r : Reader) (position : Nat) : List Token → Except Malformed Reader
  | [] => .ok r
  | token :: tokens => do (← r.step alphabet position token).run alphabet (position + 1) tokens

/-- The expression that has been read when the stream ends, at index `length`. A bracket that is
open is reported first, then a missing operand, and then the innermost group that is open. -/
def finish (r : Reader) (length : Nat) : Except Malformed (Expr Leaf) :=
  match r.bracket, r.phrase.complete, r.enclosing with
  | some cls, _, _ => .error ⟨cls.position, .unbalanced .lbracket⟩
  | none, none, _ => .error ⟨length, .noOperandAtEnd⟩
  | none, some e, [] => .ok e
  | none, some _, (position, _) :: _ => .error ⟨position, .unbalanced .lparen⟩

end Reader

/-- The expression of a stream of tokens in infix form, or the first place where it is malformed.
The empty stream is the empty string, though no group may be empty. -/
def Expr.ofTokens (alphabet : Alphabet) (tokens : List Token) : Except Malformed (Expr Leaf) :=
  if tokens.isEmpty then .ok .epsilon
  else do (← Reader.start.run alphabet 0 tokens).finish tokens.length

/-- The expression of a pattern. -/
def Expr.ofPattern (alphabet : Alphabet) (pattern : String) : Except Malformed (Expr Leaf) := do
  Expr.ofTokens alphabet (← tokenize pattern)

end Recognizer.Regex
