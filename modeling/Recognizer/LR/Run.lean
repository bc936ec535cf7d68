import Recognizer.LR.Table

/-!
# Running a parsing table

A parser keeps a stack of states. At each symbol of the input, which the end marker follows, it does
what the table says for the state on top: it shifts, reduces, accepts, or fails. A table whose
clashes were settled badly can reduce for ever, so a run has a limit on its steps.

## Main definitions

* `Config`, `Outcome`: a parser between two steps, and what one step leads to.
* `Table.step`, `Table.runFrom`, `Table.recognize`: one step, a limited number of steps, and a whole
  run.
-/

namespace Recognizer.LR

/-- The numbers of tokens looked at, of shifts and of reductions. The first token is looked at
before the first step, and another one with every shift. -/
structure Stats where
  tokens : Nat
  shifts : Nat
  reductions : Nat
  deriving DecidableEq, Repr

/-- Why a run fails. -/
inductive RunError
  /-- The table has no action for the token. -/
  | unexpected (token : Symbol) (state : Nat)
  /-- The end marker was shifted. -/
  | endOfStream
  /-- A reduction needs more states than there are on the stack. -/
  | stackUnderflow
  /-- The state below a reduction has no transition on the head. -/
  | noGoto (state : Nat) (head : Symbol)
  /-- The grammar has no rule with the index of a reduction. -/
  | noRule (index : Nat)
  deriving DecidableEq, Repr

/-- The wording of an error. -/
def RunError.message : RunError → String
  | unexpected token state => "unexpected " ++ token.text ++ " in state " ++ toString state
  | endOfStream => "unexpected end of stream"
  | stackUnderflow => "stack underflow"
  | noGoto state head => "no goto from state " ++ toString state ++ " on " ++ head.text
  | noRule index => "no rule " ++ toString index

/-- A parser between two steps. In a run the stack is never empty, and the end marker stays at the
end of the input. -/
structure Config where
  /-- The states, the top of the stack first. -/
  stack : List Nat
  /-- The symbols that have not been shifted. -/
  input : List Symbol
  stats : Stats
  deriving DecidableEq, Repr

/-- What a step leads to. -/
inductive Outcome
  | next (config : Config)
  | accepted (stats : Stats)
  | failed (error : RunError)
  deriving DecidableEq, Repr

namespace Table

/-- The configuration before the first step. -/
def start (t : Table) (input : List Symbol) : Config :=
  ⟨[t.initial], input ++ [.endMark], ⟨1, 0, 0⟩⟩

/-- Shifts the first symbol of the input and goes to a state. The end marker cannot be shifted away:
without another symbol to look at, the run fails. -/
def shift (c : Config) (state : Nat) : Outcome :=
  match c.input.tail with
  | [] => .failed .endOfStream
  | rest =>
    .next ⟨state :: c.stack, rest, ⟨c.stats.tokens + 1, c.stats.shifts + 1, c.stats.reductions⟩⟩

/-- Reduces by the rule with the given index: as many states leave the stack as the rule is long,
and the state below them tells where the head leads to. -/
def reduce (t : Table) (c : Config) (index : Nat) : Outcome :=
  match t.grammar.rules[index]? with
  | none => .failed (.noRule index)
  | some r =>
    match c.stack.drop r.arity with
    | [] => .failed .stackUnderflow
    | top :: below =>
      match t.goto? top r.lhs with
      | none => .failed (.noGoto top r.lhs)
      | some target =>
        .next ⟨target :: top :: below, c.input,
          { c.stats with reductions := c.stats.reductions + 1 }⟩

/-- One step of a parser: what the table says for the state on top of the stack and the first symbol
of the input. -/
def step (t : Table) (c : Config) : Outcome :=
  match c.stack, c.input with
  | state :: _, token :: _ =>
    match t.action? state token with
    | some (.shift target) => shift c target
    | some (.reduce index) => t.reduce c index
    | some .accept => .accepted c.stats
    | none => .failed (.unexpected token state)
  | [], _ => .failed .stackUnderflow
  | _, [] => .failed .endOfStream

/-- The result of a run of at most `limit` steps; `none` if it has not ended by then. -/
def runFrom (t : Table) : Nat → Config → Option (Except RunError Stats)
  | 0, _ => none
  | limit + 1, c =>
    match t.step c with
    | .next following => t.runFrom limit following
    | .accepted stats => some (.ok stats)
    | .failed e => some (.error e)

/-- The result of the run on an input, which the end marker follows, if it ends within `limit`
steps: the numbers of its steps if it accepts, and otherwise its error. -/
def recognize (t : Table) (limit : Nat) (input : List Symbol) : Option (Except RunError Stats) :=
  t.runFrom limit (t.start input)

end Table

end Recognizer.LR
