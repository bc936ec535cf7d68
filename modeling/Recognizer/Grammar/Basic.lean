import Recognizer.Grammar.Error

/-!
# Context-free grammars

A rule has a nonterminal as its head and a body of symbols. An empty alternative is written with the
one symbol `ε`, so that no body is without symbols. A grammar is a list of rules with a start
nonterminal; its terminals and nonterminals are those that the rules mention.

## Main definitions

* `Rule`, `Rule.ofSymbols`: the rules, and the check that makes one.
* `Grammar`, `Grammar.ofSymbols`: the grammars, and the check of the start symbol.
* `Grammar.augmented`: the grammar with a fresh start nonterminal that leads to the old one.
-/

namespace Recognizer

/-- The body of a rule: it is not empty, `ε` stands alone, and the end marker does not occur. So the
empty alternative has just one spelling, and the end marker is left for the end of the input. -/
def WellFormedBody (body : List Symbol) : Prop :=
  body ≠ [] ∧ (1 < body.length → .epsilon ∉ body) ∧ .endMark ∉ body

/-- A rule of a grammar: a nonterminal and the symbols that it may be replaced by. The body of a
rule is well formed because of its type, so nothing that takes a rule has to check it again. -/
structure Rule where
  head : String
  body : List Symbol
  wellFormed : WellFormedBody body
  deriving DecidableEq

namespace Rule

/-- The head as a symbol. -/
def lhs (r : Rule) : Symbol := .nonterminal r.head

/-- The text of the rule. -/
def text (r : Rule) : String := ruleText r.lhs r.body

/-- The rule has an empty alternative as its body. -/
def isEpsilon (r : Rule) : Bool := r.body = [.epsilon]

/-- The number of symbols that a parser replaces by the head: the length of the body, but none for
an empty alternative, whose `ε` never stands on a stack. -/
def arity (r : Rule) : Nat := if r.isEpsilon then 0 else r.body.length

/-- The rule with the given head and body, if they make one. The head is looked at first, and then
the body for being empty, for an `ε` among other symbols and for the end marker; the first fault
found is the one reported. -/
def ofSymbols (head : Symbol) (body : List Symbol) : Except GrammarError Rule :=
  match head with
  | .nonterminal name =>
    if hempty : body = [] then .error (.invalidRule head body .emptyBody)
    else if hmixed : 1 < body.length ∧ .epsilon ∈ body then
      .error (.invalidRule head body .mixedEpsilon)
    else if hend : .endMark ∈ body then .error (.invalidRule head body .endMark)
    else .ok ⟨name, body, hempty, fun hlen hmem => hmixed ⟨hlen, hmem⟩, hend⟩
  | _ => .error (.invalidRule head body .head)

/-- The rule that leads from one nonterminal to another. -/
def unit (head target : String) : Rule where
  head := head
  body := [.nonterminal target]
  wellFormed := by simp [WellFormedBody]

end Rule

/-- A context-free grammar: its start nonterminal and its rules. A rule is referred to by its index
in the list, so a rule that is written twice has two indices. -/
structure Grammar where
  start : String
  rules : List Rule
  deriving DecidableEq

namespace Grammar

/-- The start nonterminal as a symbol. -/
def startSymbol (g : Grammar) : Symbol := .nonterminal g.start

/-- The grammar with the given start symbol, if that is a nonterminal. -/
def ofSymbols (start : Symbol) (rules : List Rule) : Except GrammarError Grammar :=
  match start with
  | .nonterminal name => .ok ⟨name, rules⟩
  | _ => .error (.invalidStart start)

/-- The names of the terminals in a list of symbols. -/
def terminalNames (symbols : List Symbol) : List String :=
  symbols.filterMap fun
    | .terminal name => some name
    | _ => none

/-- The names of the nonterminals in a list of symbols. -/
def nonterminalNames (symbols : List Symbol) : List String :=
  symbols.filterMap fun
    | .nonterminal name => some name
    | _ => none

/-- The names of the terminals that the rules mention. -/
def terminals (g : Grammar) : SortedSet String :=
  .ofList (g.rules.flatMap fun r => terminalNames r.body)

/-- The names of the start nonterminal and of all nonterminals that the rules mention, with or
without a rule of their own. -/
def nonterminals (g : Grammar) : SortedSet String :=
  .ofList (g.start :: g.rules.flatMap fun r => r.head :: nonterminalNames r.body)

/-- The rules headed by a symbol, in the order of the grammar. A symbol other than a nonterminal
heads none. -/
def rulesFor (g : Grammar) : Symbol → List Rule
  | .nonterminal name => g.rules.filter fun r => r.head = name
  | _ => []

/-- The symbol heads a rule, or it needs none because it is no nonterminal. -/
def defines (g : Grammar) : Symbol → Bool
  | .nonterminal name => g.rules.any fun r => r.head = name
  | _ => true

/-- The indices of the rules headed by a symbol. -/
def indicesFor (g : Grammar) (head : Symbol) : List Nat :=
  (g.rules.zipIdx.filter fun r => r.1.lhs = head).map Prod.snd

/-- The index of the first rule with this head and body. A complete item is reduced by this rule,
even if the grammar has the same rule again further down. -/
def ruleIndex? (g : Grammar) (head : Symbol) (body : List Symbol) : Option Nat :=
  g.rules.findIdx? fun r => r.lhs = head ∧ r.body = body

/-- The name with `k` primes after it. -/
def primed (name : String) (k : Nat) : String := name ++ String.ofList (List.replicate k '\x27')

/-- The name with the fewest primes after it, at least one, that is not a nonterminal of the
grammar. One of the first `n + 1` candidates is fresh if the grammar has `n` nonterminals, so the
search is over these. -/
def freshName (g : Grammar) (name : String) : String :=
  let used := g.nonterminals
  (((List.range (used.size + 1)).map fun k => primed name (k + 1)).find? (· ∉ used)).getD name

/-- The grammar with a fresh start nonterminal, and as the first rule the one that leads from it to
the old start. The other rules keep their order, each with the next higher index. -/
def augmented (g : Grammar) : Grammar :=
  let start := g.freshName g.start
  ⟨start, .unit start g.start :: g.rules⟩

/-- The text of the grammar, a rule a line. -/
def text (g : Grammar) : String := String.join (g.rules.map fun r => r.text ++ "\n")

end Grammar

end Recognizer
