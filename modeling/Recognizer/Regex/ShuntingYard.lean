import Recognizer.Regex.CharClass

/-!
# From infix form to postfix form

A stream of infix tokens is put into postfix form in one pass from left to right. An operand goes to
the output at once. A binary operator waits on a stack until its right operand is complete, which
shows when the group ends or an operator comes that binds no stronger. Where an operand follows an
operand, a concatenation is put in. Brackets are written out as alternations, and the quantifiers
`+` and `?` by the other operators. The operand of `+` is needed twice, so the pass keeps the place
in the output where the last operand starts.

## Main definitions

* `ShuntingYard`: the state of the pass; `ShuntingYard.step` takes in one token.
* `infixToPostfix`: the postfix stream, or the first place where the infix stream is malformed.
-/

namespace Recognizer.Regex

/-- How strongly an operator binds. A delimiter has no strength of its own; it never waits on the
stack as an operator. -/
def Operator.precedence : Operator → Nat
  | alt => 1
  | cat => 2
  | star | plus | opt => 3
  | _ => 0

/-- What waits on the stack for something that comes later in the stream. -/
inductive Waiting
  /-- An operator, for its right operand. -/
  | op (o : Operator)
  /-- A group, for its closing parenthesis. The output had length `start` when it opened, by the
  parenthesis at `position`. -/
  | group (start position : Nat)
  deriving DecidableEq, Repr

/-- Where the next token stands. -/
inductive Mode
  | normal | group | bracket | negatedBracket
  deriving DecidableEq, Repr

/-- The state of the pass: what was put out, what waits, and what the next token may be. The fields
for brackets hold what was read of the last one. -/
structure ShuntingYard where
  mode : Mode
  /-- The number of groups that are open. -/
  depth : Nat
  output : List Token
  /-- What waits, the innermost first. -/
  stack : List Waiting
  /-- An operand that comes next is concatenated to what is there. -/
  canCat : Bool
  /-- The place in the output where the last operand starts, if it is complete. -/
  lastOperand : Option Nat
  /-- The members of the last bracket that was opened, so far. -/
  members : List Char
  /-- The place in the output where this bracket starts. -/
  classStart : Nat
  /-- The position of the opening bracket. -/
  classPosition : Nat
  deriving DecidableEq, Repr

namespace ShuntingYard

/-- The state before the first token. -/
def start : ShuntingYard := ⟨.normal, 0, [], [], false, none, [], 0, 0⟩

/-- Moves the operators from the top of the stack to the output that bind at least as strongly as
`o`, down to the innermost group. All binary operators associate to the left, so an equal one goes,
too. -/
def unload (o : Operator) (output : List Token) : List Waiting → List Token × List Waiting
  | .op top :: rest =>
    if top.precedence < o.precedence then (output, .op top :: rest)
    else unload o (output ++ [.op top]) rest
  | stack => (output, stack)

/-- Moves the operators of the innermost group to the output. What is left of the stack are the
group, with its two numbers, and what waited before it. -/
def unloadGroup (output : List Token) :
    List Waiting → List Token × Option (Nat × Nat × List Waiting)
  | [] => (output, none)
  | .op o :: rest => unloadGroup (output ++ [.op o]) rest
  | .group start position :: rest => (output, some (start, position, rest))

/-- Makes a binary operator wait. -/
def pushOperator (y : ShuntingYard) (o : Operator) : ShuntingYard :=
  let (output, stack) := unload o y.output y.stack
  { y with output, stack := .op o :: stack }

/-- Puts in a concatenation where an operand begins that follows an operand. -/
def beginOperand (y : ShuntingYard) : ShuntingYard :=
  if y.canCat then y.pushOperator .cat else y

/-- The last operand is complete. -/
def endOperand (y : ShuntingYard) (start : Nat) : ShuntingYard :=
  { y with canCat := true, lastOperand := some start }

/-- Takes in an operand that is a single token. -/
def operand (y : ShuntingYard) (t : Token) : ShuntingYard :=
  let y := y.beginOperand
  { y with output := y.output ++ [t] }.endOperand y.output.length

/-- Takes in a binary operator. -/
def binary (y : ShuntingYard) (position : Nat) (o : Operator) (missing : Reason) :
    Except Malformed ShuntingYard :=
  if y.canCat then .ok { y.pushOperator o with canCat := false, lastOperand := none }
  else .error ⟨position, missing⟩

/-- Takes in a quantifier, which adds to the output what `tail` makes of the last operand. The
operand is the output from the place on where it starts, since it is complete. -/
def quantify (y : ShuntingYard) (position : Nat) (q : Operator) (tail : List Token → List Token) :
    Except Malformed ShuntingYard :=
  match y.lastOperand.filter fun _ => y.canCat with
  | none => .error ⟨position, .noOperandForQuantifier q⟩
  | some start => .ok { y with output := y.output ++ tail (y.output.drop start) }

/-- Opens a group. -/
def openGroup (y : ShuntingYard) (position : Nat) : ShuntingYard :=
  let y := y.beginOperand
  { y with
    stack := .group y.output.length position :: y.stack
    depth := y.depth + 1
    mode := .group
    canCat := false
    lastOperand := none }

/-- Closes the innermost group: its operators leave the stack, and the whole of it is the last
operand. That the group must end in an operand is checked first. -/
def closeGroup (y : ShuntingYard) (position : Nat) : Except Malformed ShuntingYard :=
  if y.canCat then
    match unloadGroup y.output y.stack with
    | (_, none) => .error ⟨position, .unbalanced .rparen⟩
    | (output, some (start, _, stack)) =>
      let depth := y.depth - 1
      let mode := if depth = 0 then .normal else y.mode
      .ok ({ y with output, stack, depth, mode }.endOperand start)
  else .error ⟨position, .noOperandBeforeClose⟩

/-- Opens a bracket. -/
def openBracket (y : ShuntingYard) (position : Nat) : ShuntingYard :=
  let y := y.beginOperand
  { y with
    mode := .bracket
    members := []
    classStart := y.output.length
    classPosition := position }

/-- Closes a bracket, whose characters are put out as an alternation. The last operand is then what
the output has gained since the bracket was opened. -/
def closeBracket (alphabet : Alphabet) (y : ShuntingYard) (position : Nat) :
    Except Malformed ShuntingYard := do
  match ← CharClass.characters alphabet ⟨y.classPosition, y.mode = .negatedBracket, y.members⟩ with
  | [] => .error ⟨position, .emptyClass⟩
  | c :: cs =>
    let output := y.output ++ .lit c :: cs.flatMap fun d => [.lit d, .op .alt]
    let mode := if 0 < y.depth then .group else .normal
    .ok ({ y with output, mode }.endOperand y.classStart)

/-- Takes in a token outside brackets. -/
def outside (y : ShuntingYard) (position : Nat) : Token → Except Malformed ShuntingYard
  | .op .alt => y.binary position .alt .noOperandBeforeAlt
  | .op .cat => y.binary position .cat .noOperandBeforeCat
  | .op .star => y.quantify position .star fun _ => [.op .star]
  | .op .plus => y.quantify position .plus fun last => last ++ [.op .star, .op .cat]
  | .op .opt => y.quantify position .opt fun _ => [.epsilon, .op .alt]
  | .op .lparen => .ok (y.openGroup position)
  | .op .rparen => y.closeGroup position
  | .op .lbracket => .ok (y.openBracket position)
  | .op .rbracket => .error ⟨position, .unbalanced .rbracket⟩
  | .op .negate => .error ⟨position, .negationOutsideHead⟩
  | t => .ok (y.operand t)

/-- Takes in a token inside a bracket. A negation is allowed right after the opening bracket. -/
def inside (alphabet : Alphabet) (y : ShuntingYard) (position : Nat) :
    Token → Except Malformed ShuntingYard
  | .lit c => .ok { y with members := y.members ++ [c] }
  | .epsilon => .error ⟨position, .epsilonInClass⟩
  | .action _ => .error ⟨position, .actionInClass⟩
  | .op .negate =>
    if y.mode = .bracket ∧ position = y.classPosition + 1 then
      .ok { y with mode := .negatedBracket }
    else .error ⟨position, .negationInClass⟩
  | .op .lbracket => .error ⟨position, .nestedClass⟩
  | .op .rbracket => y.closeBracket alphabet position
  | .op o => .error ⟨position, .operatorInClass o⟩

/-- Takes in one token. -/
def step (alphabet : Alphabet) (y : ShuntingYard) (position : Nat) (token : Token) :
    Except Malformed ShuntingYard :=
  match y.mode with
  | .normal | .group => y.outside position token
  | .bracket | .negatedBracket => y.inside alphabet position token

/-- Takes in the tokens of a stream, the first of them at `position`. -/
def run (alphabet : Alphabet) (y : ShuntingYard) (position : Nat) :
    List Token → Except Malformed ShuntingYard
  | [] => .ok y
  | token :: tokens => do (← y.step alphabet position token).run alphabet (position + 1) tokens

/-- The output when all operators have left the stack. -/
def flush (y : ShuntingYard) : Except Malformed (List Token) :=
  match unloadGroup y.output y.stack with
  | (output, none) => .ok output
  | (_, some (_, position, _)) => .error ⟨position, .unbalanced .lparen⟩

/-- The whole output when the stream ends, at index `length`. Where nothing was taken in, it is the
empty string. An open bracket is reported first, then a missing operand, then an open group. -/
def finish (y : ShuntingYard) (length : Nat) : Except Malformed (List Token) :=
  match y.mode with
  | .bracket | .negatedBracket => .error ⟨y.classPosition, .unbalanced .lbracket⟩
  | .normal | .group =>
    if y.output = [] ∧ y.stack = [] then .ok [.epsilon]
    else if y.canCat then y.flush
    else .error ⟨length, .noOperandAtEnd⟩

end ShuntingYard

/-- The postfix stream of a stream of tokens in infix form, or the first place where that is
malformed. What comes out is well formed and has the expression that the grammar of infix streams
tells. -/
def infixToPostfix (alphabet : Alphabet) (tokens : List Token) : Except Malformed (List Token) := do
  (← ShuntingYard.start.run alphabet 0 tokens).finish tokens.length

end Recognizer.Regex
