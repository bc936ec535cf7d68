import Recognizer.Dfa.Basic
import Recognizer.Iteration.Saturate

/-!
# Equivalent states

Two states are equivalent if after every text both accept or both reject, with the same tag. The
classes of equivalent states are found by refinement: at first states are together if they agree on
acceptance and tag, and then a class is split as long as one character leads two of its members into
different classes. A class is named by its leader, the first of its states in the order of names.

## Main definitions

* `Dfa.leaders`: the leader of every state's class.
* `Leaders.leader`: the leader of one state.
-/

namespace Recognizer

open Regex (ActionTag)

/-- A partition of states, given by the leader of every state's class. Two states are in one class
if they have the same leader. -/
abbrev Leaders := SortedMap StateId StateId

namespace Leaders

/-- The leader of a state's class. A state that the partition does not know leads itself. -/
def leader (leaders : Leaders) (s : StateId) : StateId := (leaders.get? s).getD s

end Leaders

namespace Dfa

/-- The partition of the states by a key: states are together if they have the same key, and the
first of them in the order of names is the leader. -/
def groupBy {κ : Type} [Ord κ] [Std.TransOrd κ] (d : Dfa) (key : StateId → κ) : Leaders :=
  let keyed := SortedMap.tabulate d.states key
  let first := SortedMap.firstOf (keyed.toList.map fun e => (e.2, e.1))
  keyed.mapWithKey fun s k => (first.get? k).getD s

/-- What is said of a text that leads to a state: whether it is accepted, and with which tag. States
are equivalent if the same is said after every text. -/
abbrev Verdict := Bool × Option ActionTag

instance : Ord Verdict := lexOrd

instance : Std.TransOrd Verdict := Std.instTransOrdProd

/-- The states by acceptance and tag. -/
def coarsest (d : Dfa) : Leaders := d.groupBy fun s => ((d.Accepting s, d.tag? s) : Verdict)

/-- The partition with each class split by the classes that the characters lead its members to. The
leader itself is part of the key, so states of different classes never come together. -/
def refine (d : Dfa) (leaders : Leaders) : Leaders :=
  d.groupBy fun s =>
    leaders.leader s :: d.alphabet.toList.map fun c => leaders.leader (d.step s c)

/-- The classes of equivalent states: the coarsest partition, refined until nothing is split any
more. There are at most as many refinements as states. -/
def leaders (d : Dfa) : Leaders := saturate d.refine d.states.size d.coarsest

end Dfa

end Recognizer
