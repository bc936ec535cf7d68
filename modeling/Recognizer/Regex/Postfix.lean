import Recognizer.Regex.Expr
import Recognizer.Regex.Malformed

/-!
# Reading expressions in postfix form

A postfix stream is evaluated with a stack of expressions: an operand is pushed, an operator takes
its operands from the stack and pushes its result. A stream is well formed if no operator lacks an
operand and one expression is left in the end.

The expression is wanted for its augmented tree, in which it is followed by an end marker. A stream
is therefore judged as if the end marker and one more concatenation followed it: an empty stack
shows at that concatenation, which lacks its first operand.

## Main definitions

* `Expr.pushAll`: the stack after a stream.
* `Expr.ofPostfix`: the expression of a stream, or the first place where the stream is malformed.
-/

namespace Recognizer.Regex.Expr

/-- The stack after one token, which stands at `position`. A binary operator takes its right side
from the top of the stack and its left side from below it, and an operator that finds too few
operands fails. -/
def push (stack : List (Expr Leaf)) (position : Nat) : Token → Except Malformed (List (Expr Leaf))
  | .epsilon => .ok (.epsilon :: stack)
  | .lit c => .ok (.leaf (.lit c) :: stack)
  | .action tag => .ok (.leaf (.action tag) :: stack)
  | .op .star =>
    match stack with
    | e :: rest => .ok (.star e :: rest)
    | [] => .error ⟨position, .operatorWithoutOperand⟩
  | .op .cat =>
    match stack with
    | r :: l :: rest => .ok (.cat l r :: rest)
    | _ => .error ⟨position, .operatorWithoutOperand⟩
  | .op .alt =>
    match stack with
    | r :: l :: rest => .ok (.alt l r :: rest)
    | _ => .error ⟨position, .operatorWithoutOperand⟩
  | .op o => .error ⟨position, .operatorInPostfix o⟩

/-- The stack after a stream, whose first token stands at `position`. -/
def pushAll (stack : List (Expr Leaf)) (position : Nat) :
    List Token → Except Malformed (List (Expr Leaf))
  | [] => .ok stack
  | token :: tokens => do pushAll (← push stack position token) (position + 1) tokens

/-- The expression of a stream of tokens in postfix form. An empty stack shows one place after the
end marker that would follow the stream, too many operands show at the end marker. -/
def ofPostfix (tokens : List Token) : Except Malformed (Expr Leaf) := do
  match ← pushAll [] 0 tokens with
  | [e] => .ok e
  | [] => .error ⟨tokens.length + 1, .operatorWithoutOperand⟩
  | _ :: rest => .error ⟨tokens.length, .operandsLeft rest.length⟩

end Recognizer.Regex.Expr
