import Recognizer.Grammar.Basic
import Recognizer.Iteration.Saturate
import Recognizer.Sorted.Map

/-!
# FIRST and FOLLOW

FIRST of a string of symbols holds the terminals that a string derived from it can begin with, and
`ε` if it derives the empty string. FOLLOW of a nonterminal holds the terminals that can come right
after it, and `$` if nothing need come after it. Both are least fixed points: a pass over the rules
adds what each rule contributes, and passes are repeated until one adds nothing.

## Main definitions

* `SetTable`: a set of symbols for each of some nonterminals.
* `SetTable.first`, `SetTable.firstOfSequence`: FIRST of a symbol and of a string, by a table of
  FIRST sets.
* `Grammar.firstSets`, `FirstFollow`, `Grammar.firstFollow`: the tables of a grammar.
-/

namespace Recognizer

/-- A set of symbols for each of some nonterminals, given by their names. The tables of FIRST and of
FOLLOW sets are both of this kind. -/
abbrev SetTable := SortedMap String SymbolSet

namespace SetTable

/-- The set of a nonterminal; it is empty if the table has no entry. -/
def setOf (table : SetTable) (name : String) : SymbolSet := (table.get? name).getD ∅

/-- The table with the symbols of `s` added to the set of `name`. -/
def add (table : SetTable) (name : String) (s : SymbolSet) : SetTable :=
  table.insertWith (· ∪ ·) name s

/-- FIRST of a symbol, if the table holds the FIRST sets of nonterminals: what the table has for a
nonterminal, and the symbol itself for any other, `ε` and the end marker among them. -/
def first (table : SetTable) : Symbol → SymbolSet
  | .nonterminal name => table.setOf name
  | symbol => {symbol}

/-- The symbol derives the empty string, if the table holds the FIRST sets: `ε` is in FIRST of
it. -/
def Nullable (table : SetTable) (symbol : Symbol) : Prop := .epsilon ∈ table.first symbol

instance (table : SetTable) (symbol : Symbol) : Decidable (table.Nullable symbol) :=
  inferInstanceAs (Decidable (.epsilon ∈ table.first symbol))

/-- FIRST of a string of symbols: that of its first symbol, and if this one derives the empty
string, that of the rest. -/
def firstOfSequence (table : SetTable) : List Symbol → SymbolSet
  | [] => {.epsilon}
  | symbol :: rest =>
    let first := table.first symbol
    if .epsilon ∈ first then first.erase .epsilon ∪ table.firstOfSequence rest else first

/-- The number of symbols in all sets. -/
def total (table : SetTable) : Nat := table.values.foldl (fun n s => n + s.size) 0

end SetTable

/-! ### FIRST -/

namespace Grammar

/-- A pass that adds FIRST of every body to FIRST of the head. The rules are gone through in order,
and each sees what the ones before it in the same pass have added. -/
def firstPass (g : Grammar) (table : SetTable) : SetTable :=
  g.rules.foldl (fun table r => table.add r.head (table.firstOfSequence r.body)) table

/-- The number of symbols that the sets of all nonterminals can hold, each of them all terminals and
one symbol more: `ε` in a FIRST set, the end marker in a FOLLOW set. Passes that only add end within
this number. -/
def setCapacity (g : Grammar) : Nat := g.nonterminals.size * (g.terminals.size + 1)

/-- FIRST of every nonterminal: passes from empty sets on, until one of them adds nothing. -/
def firstSets (g : Grammar) : SetTable :=
  saturate g.firstPass (g.setCapacity + 1) (.tabulate g.nonterminals fun _ => ∅)

end Grammar

/-! ### FOLLOW -/

/-- The FIRST and FOLLOW sets of the nonterminals of a grammar. A table may know fewer nonterminals
than the grammar it is used with; what it does not know has empty sets. -/
structure FirstFollow where
  first : SetTable
  follow : SetTable
  deriving DecidableEq

/-- The FIRST sets, with FOLLOW sets that are still empty. -/
def FirstFollow.ofFirst (first : SetTable) : FirstFollow := ⟨first, first.mapValues fun _ => ∅⟩

/-- The tables have sets for the symbol. -/
def FirstFollow.isKnown (table : FirstFollow) : Symbol → Bool
  | .nonterminal name => (table.first.get? name).isSome
  | _ => false

/-- FOLLOW of a symbol, which is empty unless the symbol is a nonterminal. -/
def FirstFollow.followOf (table : FirstFollow) : Symbol → SymbolSet
  | .nonterminal name => table.follow.setOf name
  | _ => ∅

namespace Grammar

/-- Adds to the FOLLOW sets what the symbols of a body, a part of a rule with the given head,
contribute: the string after a nonterminal can follow it, and if that string derives the empty
string, whatever follows the head can. -/
def followAlong (first : SetTable) (head : String) (follow : SetTable) : List Symbol → SetTable
  | [] => follow
  | .nonterminal name :: rest =>
    let next := first.firstOfSequence rest
    let added :=
      if .epsilon ∈ next then next.erase .epsilon ∪ follow.setOf head else next
    followAlong first head (follow.add name added) rest
  | _ :: rest => followAlong first head follow rest

/-- A pass that adds the contributions of every rule. -/
def followPass (g : Grammar) (first follow : SetTable) : SetTable :=
  g.rules.foldl (fun follow r => followAlong first r.head follow r.body) follow

/-- FIRST and FOLLOW of every nonterminal. The passes for FOLLOW begin with the end marker in the
set of the start and with empty sets elsewhere, and they use the FIRST sets as they are in the
end. -/
def firstFollow (g : Grammar) : FirstFollow :=
  let first := g.firstSets
  let start : SetTable := .tabulate g.nonterminals fun name =>
    if name = g.start then {.endMark} else ∅
  ⟨first, saturate (g.followPass first) (g.setCapacity + 1) start⟩

end Grammar

end Recognizer
