import Recognizer.Proofs.LR.CorrectPrefix
import Recognizer.Proofs.LR.Resolution

/-!
# Acceptance

A parser accepts in the state where the rule of the new start has been read. Since the new start
occurs nowhere in the grammar, only the initial state has its rule with nothing read, so a single
transition leads to that state, from the initial state with the start symbol. Nothing leads to the
initial state itself. The stack of a parser is a path of the automaton, so in front of the state
that accepts there is the initial state, and nothing below it.

In the cell that accepts there may be candidates for reductions as well. Acceptance wins over them,
whatever the policy.

## Main definitions

* `Automaton.IsLast`: the one state where the rule of the new start has been read.
* `Table.AcceptsIn`: the table accepts in the state, with nothing but the initial state below it.

## Main results

* `Grammar.start_fresh`: the new start occurs nowhere in the grammar.
* `Automaton.Lawful.exists_isLast`: there is a last state.
* `Table.IsResolved.action?_eq_accept_iff`: the only cell that accepts.
* `Table.IsFor.stack_eq_of_accept`: the stack when a run comes to this cell.
* `Table.exists_acceptsIn`: the tables of the automata of a grammar.
-/

namespace Recognizer

/-- The new start occurs nowhere in the grammar: it heads no rule and is in no body. Everything
below rests on this, since the new start must not be reached a second time. -/
theorem Grammar.start_fresh (g : Grammar) : g.augmented.startSymbol ≠ g.startSymbol ∧
    ∀ r ∈ g.rules, r.lhs ≠ g.augmented.startSymbol ∧ g.augmented.startSymbol ∉ r.body := by
  refine ⟨fun h => ?_, fun r hr => ⟨lhs_ne_start hr, start_not_mem_body (mem_rules_augmented hr)⟩⟩
  exact start_not_mem_body g.startRule_mem (List.mem_singleton.mpr h)

namespace LR

open Relation (ReflTransGen)

variable {g : Grammar} {a : Automaton} {t : Table} {c : Config} {policy : Policy} {n m : Nat}
  {X : Symbol} {input : List Symbol} {stats : Stats}

/-! ### The last state -/

namespace Automaton

/-- This state, and no other, has the rule of the new start read, and the only transition to it is
that from the initial state with the start symbol. -/
structure IsLast (g : Grammar) (a : Automaton) (n : Nat) : Prop where
  holds_iff : ∀ m, a.Holds m (g.startRule.item g.startRule.arity, none) ↔ m = n
  transition_iff : ∀ m X, a.transition? m X = some n ↔ m = initial ∧ X = g.startSymbol

theorem Lawful.isLast (ha : Lawful g a) (hn : a.transition? initial g.startSymbol = some n) :
    IsLast g a n where
  holds_iff m := by
    constructor
    · intro hm
      exact Option.some.inj ((ha.transition?_of_startRule hm).1.symm.trans hn)
    · rintro rfl
      exact (ha.advance _ _ _ _ hn ha.start rfl).to_none
  transition_iff m X := by
    constructor
    · intro hm
      have hread : a.Holds n (g.startRule.item 1, none) :=
        (ha.advance _ _ _ _ hn ha.start rfl).to_none
      obtain ⟨hX, hbefore⟩ := ha.holds_before hm (Nat.le_refl 1) hread
      exact ⟨(ha.start_only m none hbefore).1, (Option.some.inj hX).symm⟩
    · rintro ⟨rfl, rfl⟩
      exact hn

theorem Lawful.exists_isLast (ha : Lawful g a) : ∃ n, IsLast g a n := by
  obtain ⟨n, hn⟩ := ha.exists_transition _ _ _ ha.start.to_none
    (Rule.next?_item (Nat.zero_le _) : (g.startRule.item 0).next? = some g.startSymbol)
  exact ⟨n, ha.isLast hn⟩

end Automaton

/-! ### The cell that accepts -/

namespace Table

/-- The table accepts in this state at the end marker, and in no other cell. When a run comes to
accept, the state is on the stack with the initial state below it, and nothing else. -/
structure AcceptsIn (t : Table) (n : Nat) : Prop where
  action?_iff : ∀ m X, t.action? m X = some .accept ↔ m = n ∧ X = .endMark
  stack_eq : ∀ input c stats, ReflTransGen t.Steps (t.start input) c →
    t.step c = .accepted stats → c.stack = [n, Automaton.initial]
  recognize : ∀ limit input stats, t.recognize limit input = some (.ok stats) →
    ∃ c, ReflTransGen t.Steps (t.start input) c ∧ t.step c = .accepted stats ∧
      c.stack = [n, Automaton.initial]

/-- Acceptance is kept in the last state at the end marker, where it may have to win over
reductions, and is a candidate nowhere else. This does not depend on the policy. -/
theorem IsResolved.action?_eq_accept_iff (ht : t.IsResolved policy g a)
    (hn : Automaton.IsLast g a n) :
    t.action? m X = some .accept ↔ m = n ∧ X = .endMark := by
  have hstart : a.transition? Automaton.initial g.startSymbol = some n :=
    (hn.transition_iff _ _).mpr ⟨rfl, rfl⟩
  rw [ht.eq_some_iff]
  constructor
  · intro hkeeps
    cases hkeeps.mem with
    | accept hm => exact ⟨Option.some.inj (hm.symm.trans hstart), rfl⟩
  · rintro ⟨rfl, rfl⟩
    exact .accept (.accept hstart)

/-- When a run comes to accept, the stack holds the last state, with the initial state below it and
nothing else. For the stack is a path, and only one transition leads to the last state. -/
theorem IsFor.stack_eq_of_accept (ht : IsFor g a t) (ha : Automaton.Lawful g a)
    (hn : Automaton.IsLast g a n) (hpath : ReflTransGen t.Steps (t.start input) c)
    (hstep : t.step c = .accepted stats) : c.stack = [n, Automaton.initial] := by
  have hstart : a.transition? Automaton.initial g.startSymbol = some n :=
    (hn.transition_iff _ _).mpr ⟨rfl, rfl⟩
  obtain ⟨γ, -, hspells, -⟩ := ht.exists_read ha hpath
  obtain ⟨m, below, X, rest, rfl, haction⟩ := step_eq_accepted_iff.mp hstep
  cases ht.candidate _ _ _ haction with
  | accept hm =>
    obtain rfl := Option.some.inj (hm.symm.trans hstart)
    rw [(hspells.eq_of_transition_start ha hm).1]

/-- In the automata of a grammar, nothing leads to the initial state, and a single transition to the
state where the rule of the new start has been read. Their tables accept there and nowhere else,
when nothing but the start symbol is on the stack. -/
theorem exists_acceptsIn (policy : Policy)
    (ha : Automaton.construct g = .ok a ∨ Automaton.lalr g = .ok a) :
    (g.augmented.startSymbol ≠ g.startSymbol ∧
      ∀ r ∈ g.rules, r.lhs ≠ g.augmented.startSymbol ∧ g.augmented.startSymbol ∉ r.body) ∧
    (∀ m X, a.transition? m X ≠ some Automaton.initial) ∧
    ∃ n, Automaton.IsLast g a n ∧ ∃ t, build policy a g = .ok t ∧ t.AcceptsIn n := by
  have hlawful := ha.elim Automaton.lawful_of_construct Automaton.lawful_of_lalr
  obtain ⟨n, hn⟩ := hlawful.exists_isLast
  obtain ⟨t, ht⟩ := hlawful.exists_build policy
  have hstack (input c stats) (hpath : ReflTransGen t.Steps (t.start input) c)
      (hstep : t.step c = .accepted stats) : c.stack = [n, Automaton.initial] :=
    (isFor_of_build ht).stack_eq_of_accept hlawful hn hpath hstep
  refine ⟨g.start_fresh, fun m X hm => hlawful.ne_initial hm rfl, n, hn, t, ht, ?_⟩
  refine ⟨fun m X => (isResolved_of_build hlawful ht).action?_eq_accept_iff hn, hstack, ?_⟩
  intro limit input stats h
  obtain ⟨c, hpath, hstep⟩ := exists_accepted_of_runFrom h
  exact ⟨c, hpath, hstep, hstack input c stats hpath hstep⟩

/-- A grammar whose start begins with itself, and has a nonterminal with the name of the start and a
prime, `S → S | S'`, `S' → s`. -/
def primes : Grammar where
  start := "S"
  rules :=
    [.unit "S" "S", .unit "S" "S'",
     { head := "S'"
       body := [.terminal "s"]
       wellFormed := by simp [WellFormedBody] }]

/-- The new start has two primes, and a reduction by `S → S` is discarded where the table
accepts. -/
theorem exists_acceptsIn_primes :
    primes.augmented.startSymbol = .nonterminal "S''" ∧
    ∃ a t n, Automaton.construct primes = .ok a ∧ build .preferReduce a primes = .ok t ∧
      t.conflicts = [⟨⟨n, .endMark⟩, .accept, .reduce 0⟩] ∧
      t.recognize 20 [.terminal "s"] = some (.ok ⟨2, 1, 2⟩) ∧
      Automaton.IsLast primes a n ∧ t.AcceptsIn n := by
  have hbuild : (do
      let a ← Automaton.construct primes
      let t ← build .preferReduce a primes
      return (t.conflicts, t.action? 2 .endMark, t.recognize 20 [.terminal "s"])) =
        Except.ok ([⟨⟨2, .endMark⟩, .accept, .reduce 0⟩], some .accept,
          some (.ok ⟨2, 1, 2⟩)) := by
    decide +kernel
  obtain ⟨a, ha, hbuild⟩ := bind_eq_ok_iff.mp hbuild
  obtain ⟨t, ht, hbuild⟩ := bind_eq_ok_iff.mp hbuild
  obtain ⟨hconflicts, hrest⟩ := Prod.mk.inj (Except.ok.inj hbuild)
  obtain ⟨haction, hresult⟩ := Prod.mk.inj hrest
  obtain ⟨-, -, n, hn, t', ht', haccepts⟩ := exists_acceptsIn .preferReduce (Or.inl ha)
  obtain rfl := Except.ok.inj (ht.symm.trans ht')
  obtain rfl := ((haccepts.action?_iff _ _).mp haction).1
  exact ⟨by decide +kernel, a, t, 2, ha, ht, hconflicts, hresult, hn, haccepts⟩

end Table

end LR

end Recognizer
