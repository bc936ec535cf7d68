import Recognizer.Dfa.Basic
import Recognizer.Iteration.BreadthFirst
import Recognizer.Regex.Positions

/-!
# The automaton of a position table

Each state stands for a set of leaves of an augmented tree: those that the text read so far can be
followed by. A character leads from a set to the union of what can follow its leaves with that
character, and the start is the set of leaves that the whole tree can begin with. Only sets that are
reached become states.

A state accepts if its set holds the end marker or an action leaf; of several action tags the one
with the lowest priority number counts, and among equals the one whose source comes first.

## Main definitions

* `PositionTable.moves`: the sets that the characters lead to.
* `PositionTable.bestTag?`, `PositionTable.IsFinal`: what makes a set accepting.
* `Dfa.ofRows`: the automaton of a position table, and `Dfa.ofExpr`, that of an expression.
-/

namespace Recognizer

open Regex

/-- A position table, with a row for each node number. -/
abbrev PositionTable := Array Row

namespace PositionTable

/-- The rows of the nodes in a set. -/
def rowsOf (table : PositionTable) (nodes : NodeSet) : List Row :=
  nodes.toList.filterMap fun n => table[n]?

/-- The characters of the table. -/
def alphabet (table : PositionTable) : SortedSet Char :=
  SortedSet.ofList (table.toList.filterMap Row.symbol)

/-- The name of the state that stands for a set of nodes. -/
def stateId (table : PositionTable) (nodes : NodeSet) : StateId :=
  .ofPositions ((table.rowsOf nodes).filterMap Row.position)

/-- For each character of a leaf in the set, the leaves that can follow the leaves with this
character; a character that nothing follows is left out, and leads to the trap. -/
def moves (table : PositionTable) (nodes : NodeSet) : List (Char × NodeSet) :=
  let follow : SortedMap Char NodeSet := (table.rowsOf nodes).foldl (fun m row =>
    match row.symbol with
    | none => m
    | some c => m.insertWith (· ∪ ·) c row.follow) ∅
  follow.toList.filter fun move => !move.2.isEmpty

/-- The tag of a set of nodes: the best one of its action leaves. -/
def bestTag? (table : PositionTable) (nodes : NodeSet) : Option ActionTag :=
  ActionTag.best? ((table.rowsOf nodes).filterMap Row.action)

/-- The set of nodes is accepting: it holds the end marker, or an action leaf, by which a lexer rule
has been matched. -/
def IsFinal (table : PositionTable) (nodes : NodeSet) : Prop :=
  (table.bestTag? nodes).isSome ∨ ∃ row ∈ table.rowsOf nodes, row.accept = true

instance (table : PositionTable) (nodes : NodeSet) : Decidable (table.IsFinal nodes) := by
  unfold IsFinal; infer_instance

/-- A state that has been found: its name, and the set of nodes it stands for. A set of nodes with a
name that was seen before is not found again. -/
structure Found where
  id : StateId
  nodes : NodeSet

/-- The state of a set of nodes. -/
def found (table : PositionTable) (nodes : NodeSet) : Found := ⟨table.stateId nodes, nodes⟩

/-- The states that are reached from the set `start`, with their transitions, in breadth-first
order. There are at most as many as there are sets of nodes. -/
def reached (table : PositionTable) (start : NodeSet) : List (Found × List (Char × Found)) :=
  breadthFirst Found.id
    (fun state => (table.moves state.nodes).map fun move => (move.1, table.found move.2))
    (Nat.pow 2 table.size) (table.found start)

end PositionTable

/-- The automaton of a position table, whose last row is that of the root. Every state that was
found has a row with all characters, and so has the trap, also if it was not reached. -/
def Dfa.ofRows (rows : List Row) : Dfa :=
  let table : PositionTable := rows.toArray
  let alphabet := table.alphabet
  let start := (rows.getLast?.map Row.first).getD ∅
  let reached := if rows.isEmpty then [] else table.reached start
  let states := reached.map Prod.fst
  let row (moves : List (Char × PositionTable.Found)) : SortedMap Char StateId :=
    let known := SortedMap.ofList (moves.map fun move => (move.1, move.2.id))
    .tabulate alphabet fun c => (known.get? c).getD .trap
  { initial := table.stateId start
    trap := .trap
    alphabet := alphabet
    rows :=
      (SortedMap.ofList (reached.map fun state => (state.1.id, row state.2))).insert .trap (row [])
    accepting := .ofList ((states.filter fun state => table.IsFinal state.nodes).map (·.id))
    tags := .ofList (states.filterMap fun state =>
      (table.bestTag? state.nodes).map fun tag => (state.id, tag)) }

/-- The automaton of an expression, that of its position table. The automata of patterns and of
lexers are all of this form. -/
def Dfa.ofExpr (e : Expr Leaf) : Dfa := .ofRows e.positionTable

end Recognizer
