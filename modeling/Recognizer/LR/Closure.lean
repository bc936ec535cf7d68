import Recognizer.Grammar.FirstFollow
import Recognizer.LR.Item

/-!
# Closures of item sets

An item with its dot before a nonterminal `B` expects what the rules of `B` can derive. So a closed
item set holds with it, for every rule of `B`, the item with the dot at the beginning. What may
follow there is FIRST of the symbols after `B`, and if these can be empty, also what may follow the
first item. The closure of a set is the least closed set around it.

A nonterminal without rules has no closure. Its item shows in some round of the expansion, which
stops there.

## Main definitions

* `ItemSet.undefined?`: the first nonterminal after a dot that heads no rule.
* `ItemSet.expand`, `ItemSet.expanded`: one round of the expansion, and all rounds.
* `ItemSet.closure`, `ItemSet.goto`: the closure, and the closure of what follows a symbol.
-/

namespace Recognizer.LR

/-- The lookaheads of the items that an item expands to: FIRST of what comes after the nonterminal,
and if this can be empty, the lookaheads of the item itself. -/
def Item.inherited (first : SetTable) (item : Item) (lookaheads : SymbolSet) : SymbolSet :=
  let next := first.firstOfSequence item.beyond
  if .epsilon ∈ next then next.erase .epsilon ∪ lookaheads else next

/-- The items that an item expands to, with their lookaheads: for every rule of the nonterminal
after its dot the item with the dot at the beginning. If no nonterminal is there, there are none. -/
def Item.expansion (g : Grammar) (first : SetTable) (item : Item) (lookaheads : SymbolSet) :
    List (Item × SymbolSet) :=
  match item.next? with
  | some (.nonterminal name) =>
    let inherited := item.inherited first lookaheads
    (g.rulesFor (.nonterminal name)).map fun r => (⟨.nonterminal name, r.body, 0⟩, inherited)
  | _ => []

/-- The nonterminal after the dot, if it heads no rule. -/
def Item.undefined? (g : Grammar) (item : Item) : Option Symbol :=
  item.next?.filter fun symbol => !g.defines symbol

namespace ItemSet

/-- The first nonterminal after a dot, in the order of the items, that heads no rule. -/
def undefined? (g : Grammar) (s : ItemSet) : Option Symbol :=
  s.toList.findSome? fun e => e.1.undefined? g

/-- One round of the expansion: the set with what each of its items expands to. -/
def expand (g : Grammar) (first : SetTable) (s : ItemSet) : ItemSet :=
  (s.toList.flatMap fun e => e.1.expansion g first e.2).foldl (fun t e => t.add e.1 e.2) s

/-- A round of the expansion, unless a nonterminal without rules has shown. Then the set stays as it
is, so what shows first is still there in the end. -/
def expandDefined (g : Grammar) (first : SetTable) (s : ItemSet) : ItemSet :=
  if (s.undefined? g).isSome then s else s.expand g first

/-- A number that the rounds of an expansion cannot exceed: each round that changes something adds
an item or a lookahead, and both come from the set, the rules and the FIRST sets. -/
def expansionBound (g : Grammar) (first : SetTable) (s : ItemSet) : Nat :=
  let items := s.size + g.rules.length
  let ofSet := s.toList.foldl (fun n e => n + e.1.body.length + e.2.size) 0
  let ofRules := g.rules.foldl (fun n r => n + r.body.length) 0
  items * (ofSet + ofRules + first.total + 1) + 1

/-- The set after all rounds of the expansion. -/
def expanded (g : Grammar) (first : SetTable) (s : ItemSet) : ItemSet :=
  saturate (expandDefined g first) (s.expansionBound g first) s

/-- The set itself if all nonterminals after a dot head rules, and otherwise the error. -/
def checked (g : Grammar) (s : ItemSet) : Except GrammarError ItemSet :=
  match s.undefined? g with
  | some symbol => .error (.undefined symbol)
  | none => .ok s

/-- The least closed item set around a set, or the error that a nonterminal after a dot heads no
rule. The nonterminal is that of the first such item in the first round in which there is one. -/
def closure (g : Grammar) (first : SetTable) (s : ItemSet) : Except GrammarError ItemSet :=
  (s.expanded g first).checked g

/-- The items with the symbol after the dot, the dot moved over it. -/
def kernel (s : ItemSet) (symbol : Symbol) : ItemSet :=
  ofList ((s.toList.filter fun e => e.1.next? = some symbol).map fun e => (e.1.advance, e.2))

/-- The item set after a symbol: the closure of the items with the dot moved over it. It is empty if
no dot is before the symbol. -/
def goto (g : Grammar) (first : SetTable) (s : ItemSet) (symbol : Symbol) :
    Except GrammarError ItemSet :=
  (s.kernel symbol).closure g first

end ItemSet

end Recognizer.LR
