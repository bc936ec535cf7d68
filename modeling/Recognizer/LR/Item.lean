import Recognizer.Grammar.Symbol
import Recognizer.Sorted.Map

/-!
# Item sets

An item is a rule with a dot in its body, which tells how far a parser has come in it. In an item
set every item has its lookaheads, the symbols that may follow once the whole body has been read. An
item occurs in a set only once, and sets are equal if they have the same items with the same
lookaheads.

## Main definitions

* `Item`: the items, in the order of head, body and dot.
* `ItemSet`: item sets; `ItemSet.ofList`, `ItemSet.merge`, `ItemSet.CoreEq`.
-/

namespace Recognizer.LR

/-- A rule with a dot in its body. Heads and bodies need not be those of a rule of some grammar; the
items of an automaton are shown to be. -/
structure Item where
  head : Symbol
  body : List Symbol
  /-- The number of symbols of the body in front of the dot. -/
  dot : Nat
  deriving DecidableEq, Repr

namespace Item

instance : Ord Item :=
  ⟨compareLex (compareOn head) (compareLex (compareOn body) (compareOn dot))⟩

instance : Std.TransOrd Item :=
  inferInstanceAs (Std.TransCmp
    (compareLex (compareOn head) (compareLex (compareOn body) (compareOn dot))))

instance : Std.LawfulEqOrd Item where
  eq_of_compare {a b} h := by
    obtain ⟨hh, h⟩ := compareLex_eq_eq.mp h
    obtain ⟨hb, hd⟩ := compareLex_eq_eq.mp h
    have hh : compare a.head b.head = .eq := hh
    have hb : compare a.body b.body = .eq := hb
    have hd : compare a.dot b.dot = .eq := hd
    cases a
    cases b
    simp_all [Std.LawfulEqCmp.compare_eq_iff_eq]

/-- The symbol after the dot. An empty alternative has none, because its `ε` is never read; its item
is complete from the beginning. -/
def next? (item : Item) : Option Symbol := (item.body[item.dot]?).filter (· ≠ .epsilon)

/-- The symbols after the one after the dot. -/
def beyond (item : Item) : List Symbol := item.body.drop (item.dot + 1)

/-- Nothing comes after the dot. -/
def isComplete (item : Item) : Bool := item.next?.isNone

/-- The item with the dot moved over one symbol. -/
def advance (item : Item) : Item := { item with dot := item.dot + 1 }

/-- Some symbols as a listing shows them after a space. -/
def spaced (symbols : List Symbol) : String :=
  if symbols.isEmpty then "" else " " ++ Symbol.joined symbols

/-- The item with its lookaheads, as a listing shows it. -/
def text (item : Item) (lookaheads : SymbolSet) : String :=
  "[" ++ item.head.text ++ " ->" ++ spaced (item.body.take item.dot) ++ " ." ++
    spaced (item.body.drop item.dot) ++ ", " ++ lookaheads.text ++ "]"

end Item

/-- A set of items, each with its lookaheads, in the order of the items. Sets are equal if they have
the same items with the same lookaheads. -/
abbrev ItemSet := SortedMap Item SymbolSet

namespace ItemSet

/-- What tells an item set from others: its items with their lookaheads. The dots come first because
they are compared quickly. -/
abbrev Key := List Nat × List (Item × SymbolSet)

instance : Ord (Item × SymbolSet) := lexOrd

instance : Std.TransOrd (Item × SymbolSet) := Std.instTransOrdProd

instance : Std.LawfulEqOrd (Item × SymbolSet) := Std.instLawfulEqOrdProd

instance : Ord Key := lexOrd

instance : Std.TransOrd Key := Std.instTransOrdProd

instance : Std.LawfulEqOrd Key := Std.instLawfulEqOrdProd

/-- The key of an item set. -/
def key (s : ItemSet) : Key := (s.toList.map fun e => e.1.dot, s.toList)

theorem key_injective {s t : ItemSet} (h : s.key = t.key) : s = t :=
  SortedMap.toList_injective (congrArg Prod.snd h)

/-- The items of a set without their lookaheads, after their dots. -/
abbrev Core := List Nat × List Item

instance : Ord Core := lexOrd

instance : Std.TransOrd Core := Std.instTransOrdProd

instance : Std.LawfulEqOrd Core := Std.instLawfulEqOrdProd

/-- The core of an item set. -/
def core (s : ItemSet) : Core := (s.keys.toList.map Item.dot, s.keys.toList)

/-- The set with the item added, or its lookaheads if the item is in the set already. -/
def add (s : ItemSet) (item : Item) (lookaheads : SymbolSet) : ItemSet :=
  s.insertWith (· ∪ ·) item lookaheads

/-- The set of some items; an item that occurs several times has all its lookaheads. -/
def ofList (items : List (Item × SymbolSet)) : ItemSet :=
  items.foldl (fun s e => s.add e.1 e.2) ∅

/-- The sets have the same items, whatever the lookaheads. States with core-equal item sets are the
ones that are merged. -/
def CoreEq (s t : ItemSet) : Prop := s.keys = t.keys

instance (s t : ItemSet) : Decidable (CoreEq s t) := inferInstanceAs (Decidable (s.keys = t.keys))

theorem coreEq_iff {s t : ItemSet} : CoreEq s t ↔ s.core = t.core :=
  ⟨fun h => by rw [core, core, h], fun h => SortedSet.toList_injective (congrArg Prod.snd h)⟩

/-- Both sets in one, with the lookaheads of both. -/
def merge (s t : ItemSet) : ItemSet := s.unionWith (· ∪ ·) t

/-- The set with every dot moved over one symbol. -/
def advance (s : ItemSet) : ItemSet := ofList (s.toList.map fun e => (e.1.advance, e.2))

/-- The symbols right after a dot. -/
def symbolsAfterDot (s : ItemSet) : SymbolSet :=
  .ofList (s.toList.filterMap fun e => e.1.next?)

/-- The set as a listing shows it, an item a line. -/
def text (s : ItemSet) : String := String.join (s.toList.map fun e => e.1.text e.2 ++ "\n")

end ItemSet

end Recognizer.LR
