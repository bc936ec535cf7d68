import Recognizer.LR.Automaton

/-!
# Merging states with the same items

The states of an automaton that differ in lookaheads only are merged into one, which has the
lookaheads of all of them. The merged states are numbered anew in breadth-first order.

## Main definitions

* `Automaton.merged`: the automaton with such states merged.
* `Automaton.lalr`: the merged automaton of a grammar.
-/

namespace Recognizer.LR.Automaton

/-- For each state, the first state with the same items. A state is its own representative if no
earlier one has its items. -/
def representatives (a : Automaton) : Array Nat :=
  let cores := a.states.map fun s => s.items.core
  let first := SortedMap.places cores
  (cores.map fun core => (first.get? core).getD initial).toArray

/-- The states that are represented by each state. -/
def groups (a : Automaton) (representatives : Array Nat) : SortedMap Nat (List State) :=
  (a.states.zip representatives.toList).foldr (fun s m => m.insertWith (· ++ ·) s.2 [s.1]) ∅

/-- The item sets of a group in one. -/
def groupItems (states : List State) : ItemSet :=
  states.foldl (fun items s => items.merge s.items) ∅

/-- The transitions of a group, to the representatives of their targets. States with the same items
go by a symbol to states with the same items, so it does not matter which of them is asked. -/
def groupTransitions (representatives : Array Nat) (states : List State) : SortedMap Symbol Nat :=
  .ofList ((states.flatMap fun s => s.transitions.toList).map fun e =>
    (e.1, (representatives[e.2]?).getD e.2))

/-- The automaton with all states merged that have the same items. Only groups that are reached from
that of the initial state are kept, and they are numbered in breadth-first order. -/
def merged (a : Automaton) : Automaton :=
  let representatives := a.representatives
  let groups := a.groups representatives
  let group (n : Nat) : List State := (groups.get? n).getD []
  let reached := breadthFirst id
    (fun n => (groupTransitions representatives (group n)).toList)
    a.states.length ((representatives[initial]?).getD initial)
  let numbers := SortedMap.places (reached.map Prod.fst)
  { grammar := a.grammar
    states := reached.map fun s =>
      ⟨groupItems (group s.1),
        .ofList (s.2.filterMap fun e => (numbers.get? e.2).map fun n => (e.1, n))⟩ }

/-- The merged automaton of a grammar. -/
def lalr (g : Grammar) : Except GrammarError Automaton := merged <$> construct g

end Recognizer.LR.Automaton
