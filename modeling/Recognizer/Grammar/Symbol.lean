import Recognizer.Sorted.Set

/-!
# Grammar symbols

The symbols of a grammar are terminals and nonterminals with names of their own, the empty string
`ε`, which stands alone in an empty alternative, and the end marker `$`, which follows every input.

## Main definitions

* `Symbol`: the symbols, in the order `ε`, terminals by name, nonterminals by name, `$`.
* `Symbol.text`, `Symbol.joined`: how symbols are shown.
* `SymbolSet`: finite sets of symbols.
-/

namespace Recognizer

/-- A symbol of a grammar. Terminals and nonterminals are told apart by their kind, so a terminal
and a nonterminal may have the same name. -/
inductive Symbol
  | epsilon
  | terminal (name : String)
  | nonterminal (name : String)
  | endMark
  deriving DecidableEq, Repr

namespace Symbol

/-- The symbol as a listing shows it. -/
def text : Symbol → String
  | epsilon => "ε"
  | terminal name => name
  | nonterminal name => name
  | endMark => "$"

/-- The symbols in a row, separated by spaces. -/
def joined (symbols : List Symbol) : String := " ".intercalate (symbols.map text)

/-- The symbol is a nonterminal. -/
def isNonterminal : Symbol → Bool
  | nonterminal _ => true
  | _ => false

/-- The symbol can be a token of an input: it is a terminal or the end marker. `ε` cannot, since
nothing is read where it stands. -/
def isTerminal : Symbol → Bool
  | terminal _ => true
  | endMark => true
  | _ => false

/-- The place of the symbol's kind in the order of the symbols. -/
def rank : Symbol → Nat
  | epsilon => 0
  | terminal _ => 1
  | nonterminal _ => 2
  | endMark => 3

instance : Ord Symbol := ⟨compareLex (compareOn rank) (compareOn text)⟩

instance : Std.TransOrd Symbol :=
  inferInstanceAs (Std.TransCmp (compareLex (compareOn rank) (compareOn text)))

theorem eq_of_rank_text {a b : Symbol} (hr : a.rank = b.rank) (ht : a.text = b.text) : a = b := by
  cases a <;> cases b <;> simp_all [rank, text]

instance : Std.LawfulEqOrd Symbol where
  eq_of_compare {a b} h := by
    obtain ⟨hr, ht⟩ := compareLex_eq_eq.mp h
    have hr : compare a.rank b.rank = .eq := hr
    have ht : compare a.text b.text = .eq := ht
    exact eq_of_rank_text (Std.LawfulEqCmp.eq_of_compare hr) (Std.LawfulEqCmp.eq_of_compare ht)

/-- The symbols in order, equal ones kept. -/
def sort (symbols : List Symbol) : List Symbol :=
  symbols.mergeSort fun a b => (compare a b).isLE

end Symbol

/-- A finite set of symbols. -/
abbrev SymbolSet := SortedSet Symbol

/-- The set as a listing shows it. -/
def SymbolSet.text (s : SymbolSet) : String :=
  "\x7b" ++ ", ".intercalate (s.toList.map Symbol.text) ++ "\x7d"

end Recognizer
