import Recognizer.Grammar.Notation
import Recognizer.LR.Merge
import Recognizer.LR.Table

/-!
# From notation to tables

A grammar in notation is compiled into the table of its merged automaton. An error tells at which
stage it arose.

## Main definitions

* `CompileError`: an error with its stage.
* `compile`: the table of a grammar in notation.
-/

namespace Recognizer.LR

/-- An error of the compilation of a grammar, by its stage. -/
inductive CompileError
  /-- The notation is no grammar. -/
  | reading (cause : GrammarError)
  /-- The grammar with this start has no automaton. -/
  | automaton (start : Symbol) (cause : GrammarError)
  /-- The automaton has no table. -/
  | table (cause : GrammarError)
  deriving DecidableEq, Repr

namespace CompileError

/-- The error of the stage. -/
def cause : CompileError → GrammarError
  | reading e => e
  | automaton _ e => e
  | table e => e

/-- The wording of the stage. -/
def message : CompileError → String
  | reading _ => "Failed to read grammar"
  | automaton start _ => "Failed to build automaton for start symbol " ++ start.text
  | table _ => "Failed to build parsing table"

/-- The wordings of the stage and of its error. -/
def chain (e : CompileError) : List String := [e.message, e.cause.message]

end CompileError

/-- The table of a grammar in notation, made of its merged automaton. An error of one stage ends the
compilation and is told with the stage. -/
def compile (text : String) (policy : Policy) : Except CompileError Table := do
  let g ← (Grammar.ofText text).mapError .reading
  let a ← (Automaton.lalr g).mapError (.automaton g.startSymbol)
  (Table.build policy a g).mapError .table

end Recognizer.LR
