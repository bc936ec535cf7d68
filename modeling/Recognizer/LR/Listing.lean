import Recognizer.Grammar.FirstFollow
import Recognizer.LR.Table

/-!
# Listings

Plain-text listings of grammars and of what is computed from them, with a record a line and its
fields separated by commas. The first field tells the kind of the record.

## Main definitions

* `Grammar.listing`, `FirstFollow.listing`: the rules, and the FIRST and FOLLOW sets.
* `LR.Automaton.listing`, `LR.Table.listing`: item sets with transitions, and actions with clashes.
-/

namespace Recognizer

/-- A record: its fields separated by commas, and a line end. -/
def record (fields : List String) : String := ",".intercalate fields ++ "\n"

/-- The number of rules, and the rules with their indices. -/
def Grammar.listing (g : Grammar) : String :=
  record ["PS", toString g.rules.length] ++
    String.join (g.rules.zipIdx.map fun r => record ["P", toString r.2, r.1.text])

/-- The sets of a table, under the given name. -/
def SetTable.listing (name : String) (table : SetTable) : String :=
  String.join (table.toList.map fun e => record [name, e.1, e.2.text])

/-- FIRST of every nonterminal, and then FOLLOW. -/
def FirstFollow.listing (table : FirstFollow) : String :=
  table.first.listing "FIRST" ++ table.follow.listing "FOLLOW"

namespace LR

/-- The items and the transitions of the state with number `n`. -/
def State.listing (s : State) (n : Nat) : String :=
  String.join (s.items.toList.map fun e => record ["C", toString n, e.1.text e.2]) ++
    String.join (s.transitions.toList.map fun e =>
      record ["T", toString n, e.1.text, toString e.2])

/-- The number of states, and the states. -/
def Automaton.listing (a : Automaton) : String :=
  record ["CS", toString a.states.length] ++
    String.join (a.states.zipIdx.map fun s => s.1.listing s.2)

/-- The actions, the states to go to, and the clashes. -/
def Table.listing (t : Table) : String :=
  String.join (t.actions.toList.map fun e =>
    record ["A", toString e.1.state, e.1.symbol.text, e.2.text]) ++
  String.join (t.gotos.toList.map fun e =>
    record ["G", toString e.1.state, e.1.symbol.text, toString e.2]) ++
  String.join (t.conflicts.map fun c => record ["X", c.text])

end LR

end Recognizer
