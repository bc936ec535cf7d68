import Recognizer.Iteration.BreadthFirst
import Recognizer.LR.Closure

/-!
# The automaton of item sets

The states of a grammar's automaton are the closed item sets that are reached from the set of the
augmented start rule, and a symbol leads from a set to the set after it. States are numbered in the
order of a breadth-first search that tries the symbols in order; state 0 is the start.

## Main definitions

* `State`, `Automaton`: the states with their transitions, and automata.
* `Automaton.construct`: the automaton of all item sets, which are told apart by lookaheads too.
-/

namespace Recognizer.LR

/-- A state: its item set, which is closed, and the numbers of the states that the symbols lead
to. -/
structure State where
  items : ItemSet
  transitions : SortedMap Symbol Nat
  deriving DecidableEq

/-- An automaton of item sets. State numbers are places in the list; the initial state is state 0.
-/
structure Automaton where
  /-- The augmented grammar that the automaton was built for. -/
  grammar : Grammar
  states : List State
  deriving DecidableEq

namespace Automaton

/-- The number of the initial state. -/
def initial : Nat := 0

/-- The state that a symbol leads to. -/
def transition? (a : Automaton) (state : Nat) (symbol : Symbol) : Option Nat :=
  (a.states[state]?).bind fun s => s.transitions.get? symbol

/-- The item set of the augmented start rule, with nothing read and only the end marker to follow.
Its closure is the initial state. -/
def startSet (augmented : Grammar) (start : Symbol) : ItemSet :=
  .ofList [(⟨augmented.startSymbol, [start], 0⟩, {.endMark})]

/-- The item sets that the symbols after a dot lead to. -/
def successors (g : Grammar) (first : SetTable) (s : ItemSet) :
    Except GrammarError (List (Symbol × ItemSet)) :=
  s.symbolsAfterDot.toList.mapM fun symbol => return (symbol, ← s.goto g first symbol)

/-- A number of item sets that is not exceeded: each of the items of the grammar is missing or has a
set of terminals and end marker as its lookaheads. The search for item sets has it as its bound. -/
def itemSetBound (g : Grammar) : Nat :=
  let items := g.rules.length + (g.rules.flatMap Rule.body).length
  Nat.pow 2 (items * (g.terminals.size + 2))

/-- The item sets reached from the start, with the sets they lead to, in breadth-first order. The
first set that has no closure ends the search with its error. -/
def reached (g : Grammar) (first : SetTable) (start : Symbol) :
    Except GrammarError (List (ItemSet × List (Symbol × ItemSet))) := do
  let initial ← (startSet g start).closure g first
  breadthFirstM ItemSet.key (successors g first) (itemSetBound g) initial

/-- The states of some item sets with the sets they lead to. A state has the number of the place
where its item set was found. -/
def number (sets : List (ItemSet × List (Symbol × ItemSet))) : List State :=
  let numbers := SortedMap.places (sets.map fun s => s.1.key)
  sets.map fun s => ⟨s.1, .ofList (s.2.filterMap fun e =>
    (numbers.get? e.2.key).map fun n => (e.1, n))⟩

/-- The automaton of a grammar. It exists unless some item set has a nonterminal without rules after
a dot; the error names the nonterminal of the first such set, and no set after it is looked for. -/
def construct (g : Grammar) : Except GrammarError Automaton := do
  let augmented := g.augmented
  let sets ← reached augmented augmented.firstSets g.startSymbol
  return ⟨augmented, number sets⟩

end Automaton

end Recognizer.LR
