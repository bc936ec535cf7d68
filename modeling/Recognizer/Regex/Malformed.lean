import Recognizer.Regex.Token

/-!
# Malformed expressions

Why a pattern or a stream of tokens is no regular expression, and at which index of the text or
stream this shows.

## Main definitions

* `Reason`: what is wrong.
* `Malformed`: a reason with its position.
* `Malformed.message`: the wording.
-/

namespace Recognizer.Regex

/-- What is wrong with an expression. -/
inductive Reason
  /-- A pattern ends in a backslash. -/
  | trailingEscape
  /-- An alternation bar follows no operand. -/
  | noOperandBeforeAlt
  /-- An explicit concatenation follows no operand. -/
  | noOperandBeforeCat
  /-- A closing parenthesis follows no operand. -/
  | noOperandBeforeClose
  /-- The expression ends where an operand is expected. -/
  | noOperandAtEnd
  /-- A quantifier follows no operand. -/
  | noOperandForQuantifier (quantifier : Operator)
  /-- A parenthesis or bracket has no partner. -/
  | unbalanced (delimiter : Operator)
  /-- A negation stands outside the head of a bracket. -/
  | negationOutsideHead
  /-- A negation stands inside a bracket, after its head. -/
  | negationInClass
  /-- A bracket opens inside a bracket. -/
  | nestedClass
  /-- The empty string stands inside a bracket. -/
  | epsilonInClass
  /-- An action tag stands inside a bracket. -/
  | actionInClass
  /-- An operator stands inside a bracket. -/
  | operatorInClass (operator : Operator)
  /-- A bracket stands for no character at all. -/
  | emptyClass
  /-- The ends of a range are in the wrong order. -/
  | reversedRange (low high : Char)
  /-- A postfix stream holds an operator that is not of postfix form. -/
  | operatorInPostfix (operator : Operator)
  /-- An operator of a postfix stream lacks an operand. -/
  | operatorWithoutOperand
  /-- A postfix stream leaves this many operands too many. -/
  | operandsLeft (count : Nat)
  deriving DecidableEq, Repr

/-- The wording of a reason. -/
def Reason.message : Reason → String
  | trailingEscape => "trailing escape"
  | noOperandBeforeAlt => "missing operand before `|`"
  | noOperandBeforeCat => "missing operand before concatenation"
  | noOperandBeforeClose => "missing operand before `)`"
  | noOperandAtEnd => "missing operand at end of expression"
  | noOperandForQuantifier q => "quantifier `" ++ q.text ++ "` without operand"
  | unbalanced d => "unbalanced `" ++ d.text ++ "`"
  | negationOutsideHead => "negation outside a bracket head"
  | negationInClass => "negation inside a character class"
  | nestedClass => "nested character class"
  | epsilonInClass => "epsilon inside a character class"
  | actionInClass => "action inside a character class"
  | operatorInClass o => "operator `" ++ o.text ++ "` inside a character class"
  | emptyClass => "empty character class"
  | reversedRange low high => "reversed range `" ++ low.toString ++ "-" ++ high.toString ++ "`"
  | operatorInPostfix o => "operator `" ++ o.text ++ "` in postfix stream"
  | operatorWithoutOperand => "operator without operand"
  | operandsLeft count => toString count ++ " operands left without operator"

/-- A malformed expression: the index at which it shows, in the text or in the stream of tokens that
was being read, and what is wrong there. -/
structure Malformed where
  position : Nat
  reason : Reason
  deriving DecidableEq, Repr

/-- The wording of a malformed expression. -/
def Malformed.message (e : Malformed) : String :=
  "malformed expression at " ++ toString e.position ++ ": " ++ e.reason.message

end Recognizer.Regex
