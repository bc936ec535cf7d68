import Recognizer.Regex.Token
import Recognizer.Sorted.Map

/-!
# Deterministic automata

A deterministic automaton over characters. Its states have canonical names, which are made of the
leaf positions that a state stands for. The state of no position is the trap: a text that leads
there is rejected whatever follows. An accepting state may carry the tag of a lexer rule.

## Main definitions

* `StateId`: the names of states, in the order of their texts.
* `Dfa`: automata; `Dfa.step`, one transition, and `Dfa.run`, a whole text.
* `Dfa.derive`, `Dfa.longestMatch`: acceptance of a text, and of its longest prefix.
-/

namespace Recognizer

open Regex (ActionTag)

/-- The name of a state. States are compared and ordered by their names alone, as texts. -/
structure StateId where
  text : String
  deriving DecidableEq, Repr

namespace StateId

/-- The name of the state that stands for the given positions: they are listed in order, each once.
So sets of positions have the same name if and only if they are equal. -/
def ofPositions (positions : List Nat) : StateId :=
  ⟨"\x7b" ++ ",".intercalate ((SortedSet.ofList positions).toList.map toString) ++ "\x7d"⟩

/-- The name of the state without positions. -/
def trap : StateId := ⟨"\x7b\x7d"⟩

/-- The name is that of the state without positions. -/
def isTrap (s : StateId) : Bool := s.text == "\x7b\x7d"

theorem isTrap_iff {s : StateId} : s.isTrap = true ↔ s = trap := by
  obtain ⟨text⟩ := s
  rw [isTrap, trap, beq_iff_eq, mk.injEq]

instance : Ord StateId := ⟨compareOn text⟩

instance : Std.TransOrd StateId := inferInstanceAs (Std.TransCmp (compareOn text))

instance : Std.LawfulEqOrd StateId where
  eq_of_compare {a b} h := by
    obtain ⟨a⟩ := a
    obtain ⟨b⟩ := b
    have h : compare a b = .eq := h
    exact congrArg mk (Std.LawfulEqCmp.eq_of_compare h)

end StateId

/-- A deterministic automaton over characters. Its rows need not be full, nor its states be reached
from the initial one; what the automata of expressions have beyond this is proved of them. -/
structure Dfa where
  initial : StateId
  /-- The state of all transitions that are not in a row. -/
  trap : StateId
  /-- The characters that label a transition. -/
  alphabet : SortedSet Char
  /-- For each state, its transitions. -/
  rows : SortedMap StateId (SortedMap Char StateId)
  accepting : SortedSet StateId
  /-- The lexer rules of accepting states. -/
  tags : SortedMap StateId ActionTag
  deriving DecidableEq

namespace Dfa

/-- The states in the order of their names. -/
def states (d : Dfa) : SortedSet StateId := d.rows.keys

/-- The state is accepting. -/
def Accepting (d : Dfa) (s : StateId) : Prop := s ∈ d.accepting

instance (d : Dfa) (s : StateId) : Decidable (d.Accepting s) :=
  inferInstanceAs (Decidable (s ∈ d.accepting))

/-- The tag of a state. -/
def tag? (d : Dfa) (s : StateId) : Option ActionTag := d.tags.get? s

/-- The state after one character. A state or a character that the automaton does not know leads to
the trap, so a text may hold characters outside the alphabet. -/
def step (d : Dfa) (s : StateId) (c : Char) : StateId :=
  ((d.rows.get? s).bind fun row => row.get? c).getD d.trap

/-- The state after a text. -/
def run (d : Dfa) (s : StateId) (text : List Char) : StateId := text.foldl d.step s

/-- The states on the way from `s` along a text, `s` first. -/
def path (d : Dfa) (s : StateId) : List Char → List StateId
  | [] => [s]
  | c :: rest => s :: d.path (d.step s c) rest

/-- The automaton accepts the text from state `s` on. A text that leads to the trap is rejected
there, without a look at the rest. -/
def deriveFrom (d : Dfa) (s : StateId) : List Char → Bool
  | [] => d.Accepting s
  | c :: rest =>
    let t := d.step s c
    if t = d.trap then false else d.deriveFrom t rest

/-- The automaton accepts the text. -/
def derive (d : Dfa) (text : List Char) : Bool := d.deriveFrom d.initial text

/-- An accepted prefix of a text: its length in bytes, and the tag of the state it leads to. -/
structure Match where
  length : Nat
  tag : Option ActionTag
  deriving DecidableEq, Repr

/-- The match that ends in state `s` after `length` bytes, if the state is accepting. -/
def matchAt (d : Dfa) (s : StateId) (length : Nat) : Option Match :=
  if d.Accepting s then some ⟨length, d.tag? s⟩ else none

/-- The longest accepted prefix that ends after state `s`, which was reached after `length` bytes;
if there is none, `best`. The search ends where the text leads to the trap, since nothing after it
is accepted. -/
def longestFrom (d : Dfa) (s : StateId) (length : Nat) (best : Option Match) :
    List Char → Option Match
  | [] => best
  | c :: rest =>
    let t := d.step s c
    if t = d.trap then best
    else
      let next := length + c.utf8Size
      d.longestFrom t next ((d.matchAt t next).or best) rest

/-- The longest accepted prefix of a text, which may be the empty one, with its length in bytes and
the tag of the state that it leads to. -/
def longestMatch (d : Dfa) (text : List Char) : Option Match :=
  d.longestFrom d.initial 0 (d.matchAt d.initial 0) text

end Dfa

end Recognizer
