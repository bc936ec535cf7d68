import Mathlib.Order.Bounds.Defs
import Recognizer.Proofs.Grammar.Derivations
import Recognizer.Proofs.LR.Lr0

/-!
# The lookaheads of the merged automaton

The lookaheads of an automaton without lookaheads can be found by propagation: the start item has
the end marker, an item hands down to those it expands to what can follow the nonterminal after its
dot, and a transition takes the lookaheads along. The merged automaton of a grammar has the least
lookaheads with these properties. They are kept by the automaton of all item sets, where each
lookahead comes along some path from the start, and every path of this automaton is one of the
merged states.

## Main definitions

* `Automaton.lookaheads`: the lookaheads of the items in each state.
* `Automaton.Propagates`: the propagation leads to no further lookaheads.
* `Automaton.Covers`: what a state says is so by the given lookaheads.

## Main results

* `Automaton.Lawful.propagates`: the lookaheads of a lawful automaton.
* `Automaton.IsQuotient.covers`: merged states have no more lookaheads than propagation leads to.
* `Automaton.isLr0_and_isLeast_of_construct`: the merged automaton of a grammar.
-/

namespace Recognizer.LR

open Relation (ReflTransGen)

variable {g : Grammar} {a b : Automaton} {part : Nat → Nat → Prop} {s : ItemSet} {f f₀ : Fact}
  {X t : Symbol} {item : Item} {n m k : Nat} {L : Nat → Item → Set Symbol}

theorem IsFact.epsilon_not_mem_beyond (hf : IsFact g f) : .epsilon ∉ f.1.beyond := by
  obtain ⟨⟨r, -, dot, -, hitem⟩, -⟩ := hf
  rw [hitem, Rule.beyond_item]
  exact fun hmem => r.epsilon_not_mem_symbols (List.mem_of_mem_drop hmem)

namespace Automaton

/-- The lookaheads of an item in a state. -/
def lookaheads (a : Automaton) (n : Nat) (item : Item) : Set Symbol :=
  {t | a.Holds n (item, some t)}

/-- The propagation adds nothing to the lookaheads that are given for the items of each state. -/
structure Propagates (g : Grammar) (a : Automaton) (L : Nat → Item → Set Symbol) : Prop where
  /-- The end marker follows the start. -/
  start : .endMark ∈ L initial (g.startRule.item 0)
  /-- What the symbols after a nonterminal can begin with follows the nonterminal. -/
  first : ∀ n, ∀ item ∈ a.core n, ∀ r ∈ g.augmented.rules, item.next? = some r.lhs →
    g.augmented.First item.beyond ⊆ L n (r.item 0)
  /-- If these symbols can be empty, so does what follows the item. -/
  inherit : ∀ n, ∀ item ∈ a.core n, ∀ r ∈ g.augmented.rules, item.next? = some r.lhs →
    g.augmented.Derives item.beyond [] → L n item ⊆ L n (r.item 0)
  /-- Transitions take the lookaheads along. -/
  advance : ∀ n X m, a.transition? n X = some m → ∀ item ∈ a.core n, item.next? = some X →
    L n item ⊆ L m item.advance

/-! ### The lookaheads are propagated -/

/-- In a lawful automaton the propagation adds nothing. -/
theorem Lawful.propagates (ha : Lawful g a) : Propagates g a a.lookaheads where
  start := ha.start
  first n item hitem r hr hnext t ht := by
    have hε := (ha.isFact n _ hitem).epsilon_not_mem_beyond
    have hne : t ≠ .epsilon := by
      rintro rfl
      exact absurd ht.1 Bool.false_ne_true
    refine ha.expands n (item, none) (r.item 0, some t) hitem (.first hr hnext ?_ hne)
    exact (Grammar.mem_firstOfSequence_iff hε hne).mpr (Grammar.mem_first_iff.mp ht)
  inherit n item hitem r hr hnext hempty t ht := by
    have hε := (ha.isFact n _ hitem).epsilon_not_mem_beyond
    refine ha.expands n (item, some t) (r.item 0, some t) ht (.inherit hr hnext ?_)
    exact (Grammar.epsilon_mem_firstOfSequence_iff hε).mpr
      (Grammar.produces_nil_iff_derives.mpr hempty)
  advance n X m hm item _ hnext t ht := ha.advance n X m (item, some t) hm ht hnext

/-! ### There are no other lookaheads -/

/-- The state has the item, and the lookahead, if there is one, is given for it. -/
def Covers (a : Automaton) (L : Nat → Item → Set Symbol) (n : Nat) (f : Fact) : Prop :=
  f.1 ∈ a.core n ∧ ∀ t ∈ f.2, t ∈ L n f.1

theorem Covers.expands (hf₀ : Covers a L n f₀) (ha : Lawful g a) (hL : Propagates g a L)
    (h : Expands g.augmented g.augmented.firstSets f₀ f) : Covers a L n f := by
  refine ⟨ha.expands n _ _ hf₀.1 h.to_none, ?_⟩
  have hε := (ha.isFact n _ hf₀.1).epsilon_not_mem_beyond
  cases h with
  | item => exact SortedMap.forall_mem_none
  | @first item r t hr hnext ht hne =>
    intro t' ht'
    obtain rfl := Option.mem_some_iff.mp ht'
    refine hL.first n item hf₀.1 r hr hnext (Grammar.mem_first_iff.mpr ?_)
    exact (Grammar.mem_firstOfSequence_iff hε hne).mp ht
  | @inherit item r t hr hnext hempty =>
    intro t' ht'
    rw [Grammar.epsilon_mem_firstOfSequence_iff hε, Grammar.produces_nil_iff_derives] at hempty
    exact hL.inherit n item hf₀.1 r hr hnext hempty (hf₀.2 t' ht')

theorem Covers.reaches (hf₀ : Covers a L n f₀) (ha : Lawful g a) (hL : Propagates g a L)
    (h : ReflTransGen (Expands g.augmented g.augmented.firstSets) f₀ f) : Covers a L n f := by
  induction h with
  | refl => exact hf₀
  | tail _ hexpands ih => exact ih.expands ha hL hexpands

namespace IsQuotient

/-- What the parts of a merged state say is so by any lookaheads to which the propagation adds
nothing. -/
theorem covers (hq : IsQuotient a b part) (ha : IsCanonical g a) (hL : Propagates g b L)
    (hreach : ReflTransGen a.Next initial n) (hn : part n k) (hf : a.Holds n f) :
    Covers b L k f := by
  have hb := hq.lawful ha.lawful
  induction hreach generalizing k f with
  | refl =>
    obtain rfl := (hq.part_initial_iff k).mp hn
    obtain ⟨o, ho, hpath⟩ := ha.lawful.reaches_of_initial hf
    have hcovers : Covers b L initial (g.startRule.item 0, o) := by
      refine ⟨hb.start.to_none, fun t ht => ?_⟩
      rw [ho t ht]
      exact hL.start
    exact hcovers.reaches hb hL hpath
  | @tail n m _ hnext ih =>
    obtain ⟨X, hm⟩ := hnext
    obtain ⟨⟨before, o⟩, hbefore, hnext, hpath⟩ := ha.exists_before hm hf
    obtain ⟨l, hl⟩ := hq.exists_part n _ hbefore
    have hlk := (hq.transition_iff l X k).mpr ⟨n, m, hl, hm, hn⟩
    obtain ⟨hcore, hlookahead⟩ := ih hl hbefore
    have hcovers : Covers b L k (before.advance, o) := by
      refine ⟨hb.advance l X k (before, none) hlk hcore hnext, fun t ht => ?_⟩
      exact hL.advance l X k hlk before hcore hnext (hlookahead t ht)
    exact hcovers.reaches hb hL hpath

/-- The lookaheads of the merged states are the least to which the propagation adds nothing. Each of
them comes along a path of the parts, which is one of the merged states, and the propagation takes
it along there. -/
theorem isLeast_lookaheads (hq : IsQuotient a b part) (ha : IsCanonical g a) :
    IsLeast {L | Propagates g b L} b.lookaheads := by
  refine ⟨(hq.lawful ha.lawful).propagates, fun L hL k item t ht => ?_⟩
  obtain ⟨n, hn, hf⟩ := (hq.holds_iff k _).mp ht
  obtain ⟨s, hs, -⟩ := id hf
  exact (hq.covers ha hL (ha.reaches hs) hn hf).2 t rfl

end IsQuotient

/-! ### Merged states are closed -/

theorem IsCanonical.undefined?_eq_none (ha : IsCanonical g a) (hs : a.items? n = some s) :
    s.undefined? g.augmented = none := by
  rcases ha.initial_or_transition hs with ⟨-, hclosure⟩ | ⟨m, X, s', -, -, hleads⟩
  · exact ItemSet.undefined?_closure hclosure
  · exact ItemSet.undefined?_closure hleads.goto_eq

/-- The item set of a merged state is its own closure. -/
theorem IsQuotient.closure_eq_self (hq : IsQuotient a b part) (ha : IsCanonical g a)
    (hs : b.items? k = some s) : s.closure b.grammar b.grammar.firstSets = .ok s := by
  have hb := hq.lawful ha.lawful
  have hholds {f : Fact} (hf : b.Holds k f) : SortedMap.Holds s f := by
    obtain ⟨s', hs', hf⟩ := hf
    rwa [Option.some.inj (hs.symm.trans hs')]
  rw [hb.grammar_eq]
  refine ItemSet.closure_eq_self (fun f₀ f hf₀ hexpands => ?_) ?_
  · exact hholds (hb.expands k f₀ f ⟨s, hs, hf₀⟩ hexpands)
  · refine ItemSet.undefined?_eq_none_iff.mpr fun item hitem => ?_
    obtain ⟨n, -, t, ht, hf⟩ := (hq.holds_iff k _).mp ⟨s, hs, hitem⟩
    exact ItemSet.undefined?_eq_none_iff.mp (ha.undefined?_eq_none ht) item hf

/-! ### The merged automaton of a grammar -/

/-- If a grammar has an automaton of all item sets, it has a merged one. Its states are, without
lookaheads, the LR(0) collection, each set once, with the right transitions. Its lookaheads are the
least that have the end marker after the start, and all that items hand down and transitions take
along. The item set of each state is its own closure. -/
theorem isLr0_and_isLeast_of_construct (h : construct g = .ok a) :
    ∃ b, lalr g = .ok b ∧ IsLr0 g b ∧ IsLeast {L | Propagates g b L} b.lookaheads ∧
      ∀ n s, b.items? n = some s → s.closure b.grammar b.grammar.firstSets = .ok s := by
  have ha := isCanonical_of_construct h
  have hq := ha.isQuotient_merged
  refine ⟨a.merged, map_eq_ok_iff.mpr ⟨a, h, rfl⟩, ha.isLr0_merged, hq.isLeast_lookaheads ha, ?_⟩
  exact fun n s hs => hq.closure_eq_self ha hs

/-- Two words, each of letters `c` and a `d` at the end: `S → C C`, `C → c C | d`. -/
def twoWords : Grammar where
  start := "S"
  rules :=
    [{ head := "S"
       body := [.nonterminal "C", .nonterminal "C"]
       wellFormed := by simp [WellFormedBody] },
     { head := "C"
       body := [.terminal "c", .nonterminal "C"]
       wellFormed := by simp [WellFormedBody] },
     { head := "C"
       body := [.terminal "d"]
       wellFormed := by simp [WellFormedBody] }]

/-- Three of the ten states are merged with others. -/
theorem isLr0_and_isLeast_of_construct_twoWords :
    ∃ a b, construct twoWords = .ok a ∧ a.states.length = 10 ∧ lalr twoWords = .ok b ∧
      b.states.length = 7 ∧ IsLr0 twoWords b ∧ IsLeast {L | Propagates twoWords b L} b.lookaheads ∧
        ∀ n s, b.items? n = some s → s.closure b.grammar b.grammar.firstSets = .ok s := by
  have hstates : (do
      let a ← construct twoWords
      let b ← lalr twoWords
      return (a.states.length, b.states.length)) = Except.ok (10, 7) := by
    decide +kernel
  obtain ⟨a, ha, hstates⟩ := bind_eq_ok_iff.mp hstates
  obtain ⟨b, hb, hstates⟩ := bind_eq_ok_iff.mp hstates
  obtain ⟨hten, hseven⟩ := Prod.mk.inj (Except.ok.inj hstates)
  obtain ⟨b', hb', hlalr⟩ := isLr0_and_isLeast_of_construct ha
  obtain rfl := Except.ok.inj (hb.symm.trans hb')
  exact ⟨a, b, ha, hten, hb, hseven, hlalr⟩

end Automaton

end Recognizer.LR
