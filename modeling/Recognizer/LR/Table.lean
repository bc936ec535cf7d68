import Recognizer.LR.Automaton

/-!
# Parsing tables

A parsing table tells for every state and every symbol of the input whether to shift, to reduce by a
rule, or to accept, and which state to go to after a reduction. Several actions can be candidates
for one cell. Acceptance then wins over everything, of two reductions the rule that is listed first,
and a policy decides between a shift and a reduction. Every clash is recorded.

## Main definitions

* `Action`, `Policy`, `Conflict`: actions, the way clashes are settled, and their record.
* `Table`: parsing tables; `Table.insert` puts a candidate into its cell.
* `Automaton.candidates?`, `Table.build`: the candidates of an automaton, and its table.
-/

namespace Recognizer.LR

/-- What a parser does at a symbol of the input. -/
inductive Action
  /-- Consume the symbol and go to the state. -/
  | shift (state : Nat)
  /-- Replace the body of the rule with this index by its head. -/
  | reduce (rule : Nat)
  /-- Accept the input. -/
  | accept
  deriving DecidableEq, Repr

/-- The action as a listing shows it. -/
def Action.text : Action → String
  | shift state => "s" ++ toString state
  | reduce rule => "r" ++ toString rule
  | accept => "acc"

/-- Which of a shift and a reduction for the same cell is kept. Other clashes are settled in the
same way under both policies. -/
inductive Policy
  | preferShift
  | preferReduce
  deriving DecidableEq, Repr

/-- The action that is kept of two different candidates for a cell: acceptance, of two reductions
the rule that is listed first, and of a shift and a reduction the one that the policy prefers. -/
def Policy.choose (policy : Policy) : Action → Action → Action
  | .accept, _ => .accept
  | _, .accept => .accept
  | .reduce i, .reduce j => .reduce (min i j)
  | .shift s, other =>
    match policy with
    | .preferShift => .shift s
    | .preferReduce => other
  | .reduce i, .shift s =>
    match policy with
    | .preferShift => .shift s
    | .preferReduce => .reduce i

/-- A cell of a table, in the order of states and symbols. -/
structure Cell where
  state : Nat
  symbol : Symbol
  deriving DecidableEq, Repr

namespace Cell

instance : Ord Cell := ⟨compareLex (compareOn state) (compareOn symbol)⟩

instance : Std.TransOrd Cell :=
  inferInstanceAs (Std.TransCmp (compareLex (compareOn state) (compareOn symbol)))

instance : Std.LawfulEqOrd Cell where
  eq_of_compare {a b} h := by
    obtain ⟨hs, hx⟩ := compareLex_eq_eq.mp h
    have hs : compare a.state b.state = .eq := hs
    have hx : compare a.symbol b.symbol = .eq := hx
    cases a
    cases b
    simp_all [Std.LawfulEqCmp.compare_eq_iff_eq]

end Cell

/-- A clash of two actions in one cell, at the moment when the second came. Of three candidates for
a cell, the action that was kept at first may be discarded later. -/
structure Conflict where
  cell : Cell
  kept : Action
  discarded : Action
  deriving DecidableEq, Repr

namespace Conflict

/-- The kind of the clash. -/
def kind (c : Conflict) : String :=
  match c.kept, c.discarded with
  | .reduce _, .reduce _ => "reduce/reduce"
  | .accept, _ => "accept"
  | _, .accept => "accept"
  | _, _ => "shift/reduce"

/-- The clash as a listing shows it. -/
def text (c : Conflict) : String :=
  c.kind ++ " conflict in state " ++ toString c.cell.state ++ " on " ++ c.cell.symbol.text ++
    ": kept " ++ c.kept.text ++ ", discarded " ++ c.discarded.text

end Conflict

/-- A parsing table: an action for some cells of states and input symbols, and a state to go to for
some cells of states and nonterminals. -/
structure Table where
  /-- The grammar that reductions refer to. -/
  grammar : Grammar
  initial : Nat
  actions : SortedMap Cell Action
  gotos : SortedMap Cell Nat
  /-- The clashes in the order in which they arose. -/
  conflicts : List Conflict
  deriving DecidableEq

namespace Table

/-- The action of a cell. -/
def action? (t : Table) (state : Nat) (symbol : Symbol) : Option Action :=
  t.actions.get? ⟨state, symbol⟩

/-- The state to go to from a state after a reduction to a nonterminal. -/
def goto? (t : Table) (state : Nat) (symbol : Symbol) : Option Nat := t.gotos.get? ⟨state, symbol⟩

/-- Puts a candidate into its cell, and records a clash if a different action is there. An action
that comes again changes nothing. -/
def insert (policy : Policy) (t : Table) (cell : Cell) (action : Action) : Table :=
  match t.actions.get? cell with
  | none => { t with actions := t.actions.insert cell action }
  | some existing =>
    if existing = action then t
    else
      let kept := policy.choose existing action
      let discarded := if kept = existing then action else existing
      { t with
        actions := t.actions.insert cell kept
        conflicts := t.conflicts ++ [⟨cell, kept, discarded⟩] }

end Table

namespace Automaton

/-- The cells of all transitions, with their targets. -/
def edges (a : Automaton) : List (Cell × Nat) :=
  a.states.zipIdx.flatMap fun s => s.1.transitions.toList.map fun e => (⟨s.2, e.1⟩, e.2)

/-- The candidates of one item in a state: a complete item other than that of the augmented start is
reduced on each of its lookaheads. It must come from a rule of `g`, to which the reduction
refers. -/
def reductions? (a : Automaton) (g : Grammar) (state : Nat) (item : Item) (lookaheads : SymbolSet) :
    Except GrammarError (List (Cell × Action)) :=
  if !item.isComplete || item.head = a.grammar.startSymbol then .ok []
  else
    match g.ruleIndex? item.head item.body with
    | none => .error (.ruleNotFound item.head item.body)
    | some index => .ok (lookaheads.toList.map fun symbol => (⟨state, symbol⟩, .reduce index))

/-- All candidates for cells: shifts, then reductions in the order of states and items, then the
acceptance of the end marker in the state that the start symbol leads to. -/
def candidates? (a : Automaton) (g : Grammar) : Except GrammarError (List (Cell × Action)) := do
  let shifts := (a.edges.filter fun e => !e.1.symbol.isNonterminal).map fun e => (e.1, .shift e.2)
  let items := a.states.zipIdx.flatMap fun s => s.1.items.toList.map fun e => (s.2, e)
  let reductions ← items.mapM fun e => a.reductions? g e.1 e.2.1 e.2.2
  match a.transition? initial g.startSymbol with
  | none => .error (.noAcceptState g.startSymbol)
  | some state => return shifts ++ reductions.flatten ++ [(⟨state, .endMark⟩, .accept)]

end Automaton

/-- The table of an automaton, with reductions by the rules of `g`. The candidates are put in one by
one, so it depends on their order which of two is the earlier in a recorded clash. -/
def Table.build (policy : Policy) (a : Automaton) (g : Grammar) : Except GrammarError Table := do
  let candidates ← a.candidates? g
  let empty : Table :=
    { grammar := g
      initial := Automaton.initial
      actions := ∅
      gotos := .ofList (a.edges.filter fun e => e.1.symbol.isNonterminal)
      conflicts := [] }
  return candidates.foldl (fun t candidate => t.insert policy candidate.1 candidate.2) empty

end Recognizer.LR
