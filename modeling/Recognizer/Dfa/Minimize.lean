import Recognizer.Dfa.Equivalence
import Recognizer.Dfa.Marking

/-!
# Minimal automata

Each class of equivalent states becomes one state, named by the class's leader; the class of the
trap keeps the name of the trap. The same automaton comes out if the names are read off a table of
marked pairs.

## Main definitions

* `Dfa.representative`: the name of a state's class.
* `Dfa.minimize`: the automaton of the classes.
* `Dfa.collapse`: the automaton of the states that a table has as equivalent.
-/

namespace Recognizer.Dfa

/-- The name of a state's class in the minimal automaton: that of its leader, except that the class
of the trap keeps the name of the trap. -/
def representative (d : Dfa) (leaders : Leaders) (s : StateId) : StateId :=
  let l := leaders.leader s
  if l = leaders.leader d.trap then d.trap else l

/-- The automaton whose states are the classes of equivalent states, with the row of each class's
leader. Its alphabet is the same, even if some character leads all classes to the trap. -/
def minimize (d : Dfa) : Dfa :=
  let leaders := d.leaders
  let name := SortedMap.tabulate d.states (d.representative leaders)
  let rep (s : StateId) : StateId := (name.get? s).getD s
  { initial := rep d.initial
    trap := rep d.trap
    alphabet := d.alphabet
    rows := .ofList ((d.rows.toList.filter fun e => leaders.leader e.1 = e.1).map fun e =>
      (rep e.1, e.2.mapValues rep))
    accepting := .ofList (d.accepting.toList.map rep)
    tags := .ofList (d.tags.toList.map fun e => (rep e.1, e.2)) }

/-- The state that a table has for a state: the trap, if it is equivalent to it, or else the first
state in the order of names that is. -/
def firstEquivalent (d : Dfa) (table : PairTable) (s : StateId) : StateId :=
  if table.IsEquivalent s d.trap then d.trap
  else (d.states.toList.find? fun t => table.IsEquivalent s t).getD s

/-- The automaton with the states made one that a table has as equivalent, with the row of the first
of them. With the table of all pairs it is the minimal automaton (`collapse_pairTable`). -/
def collapse (d : Dfa) (table : PairTable) : Dfa :=
  let name := SortedMap.tabulate d.states (d.firstEquivalent table)
  let rep (s : StateId) : StateId := (name.get? s).getD s
  { initial := rep d.initial
    trap := rep d.trap
    alphabet := d.alphabet
    rows := .firstOf (d.rows.toList.map fun e => (rep e.1, e.2.mapValues rep))
    accepting := .ofList (d.accepting.toList.map rep)
    tags := .ofList (d.tags.toList.map fun e => (rep e.1, e.2)) }

end Recognizer.Dfa
