import Mathlib.Data.Set.Insert
import Recognizer.Proofs.LR.Merge

/-!
# The LR(0) collection

Sets of items without lookaheads have a closure and a set after each symbol too. Those that are
reached from the start item are the LR(0) collection of a grammar. If the lookaheads are left out,
the states of a lawful automaton are sets of the collection, and transitions lead to the sets after
the symbols. The merged automaton has each set of the collection once.

## Main definitions

* `Lr0.closure`, `Lr0.goto`, `Lr0.start`: closures, the sets after a symbol, and the set of the
  start.
* `Lr0.Reached`: the sets of the collection.
* `Automaton.core`: the items of a state without their lookaheads.
* `Automaton.IsLr0`: without lookaheads, the automaton is that of the LR(0) collection.

## Main results

* `Automaton.Lawful.core_eq_goto`: transitions lead to the sets after the symbols.
* `Automaton.Lawful.isLr0`: a lawful automaton whose states are reached and have different items.
* `Automaton.IsCanonical.isLr0_merged`: merging makes the automaton of the LR(0) collection.
-/

namespace Recognizer.LR

open Relation (ReflTransGen)

/-! ### Sets of items without lookaheads -/

namespace Lr0

variable {g : Grammar} {s : Set Item} {item : Item} {X : Symbol}

/-- The item is in every closed set around the given one: a closed set has, with an item whose dot
is before a nonterminal, the items of the rules of the nonterminal with the dot at the beginning. -/
inductive MemClosure (g : Grammar) (s : Set Item) : Item → Prop
  | base {item : Item} (h : item ∈ s) : MemClosure g s item
  | expand {item : Item} {r : Rule} (h : MemClosure g s item) (hr : r ∈ g.rules)
      (hnext : item.next? = some r.lhs) : MemClosure g s (r.item 0)

/-- The closure of a set of items: the items that are in every closed set around it. -/
def closure (g : Grammar) (s : Set Item) : Set Item := {item | MemClosure g s item}

/-- The set after a symbol, which is the closure of the items with the dot moved over the symbol. -/
def goto (g : Grammar) (s : Set Item) (X : Symbol) : Set Item :=
  closure g {item | ∃ before ∈ s, before.next? = some X ∧ item = before.advance}

/-- The closure of the start item of the augmented grammar. -/
def start (g : Grammar) : Set Item := closure g.augmented {g.startRule.item 0}

/-- The sets of the collection: that of the start, and those after the symbols after a dot. -/
inductive Reached (g : Grammar) : Set Item → Prop
  | start : Reached g (start g)
  | goto {s : Set Item} (h : Reached g s) (X : Symbol) (hX : (goto g.augmented s X).Nonempty) :
      Reached g (goto g.augmented s X)

theorem closure_nonempty_iff : (closure g s).Nonempty ↔ s.Nonempty := by
  constructor
  · rintro ⟨item, hitem⟩
    induction hitem with
    | base h => exact ⟨_, h⟩
    | expand _ _ _ ih => exact ih
  · rintro ⟨item, hitem⟩
    exact ⟨item, .base hitem⟩

theorem goto_nonempty_iff : (goto g s X).Nonempty ↔ ∃ item ∈ s, item.next? = some X := by
  rw [goto, closure_nonempty_iff]
  constructor
  · rintro ⟨_, before, hbefore, hnext, -⟩
    exact ⟨before, hbefore, hnext⟩
  · rintro ⟨before, hbefore, hnext⟩
    exact ⟨_, before, hbefore, hnext, rfl⟩

theorem mem_closure_of_reaches {first : SetTable} {f₀ f : Fact}
    (h : ReflTransGen (Expands g first) f₀ f) (hf₀ : f₀.1 ∈ closure g s) : f.1 ∈ closure g s := by
  induction h with
  | refl => exact hf₀
  | tail _ hexpands ih =>
    obtain ⟨r, hr, hnext, hitem⟩ := hexpands.exists_rule
    rw [hitem]
    exact .expand ih hr hnext

end Lr0

namespace Automaton

variable {g : Grammar} {a b : Automaton} {part : Nat → Nat → Prop} {s : ItemSet} {f f₀ : Fact}
  {X : Symbol} {item : Item} {n m k l : Nat}

/-- The items of a state without their lookaheads. -/
def core (a : Automaton) (n : Nat) : Set Item := {item | a.Holds n (item, none)}

/-- Without lookaheads, the states of the automaton are the sets of the LR(0) collection, each once,
and transitions lead to the sets after the symbols. -/
structure IsLr0 (g : Grammar) (a : Automaton) : Prop where
  core_initial : a.core initial = Lr0.start g
  reached : ∀ n < a.states.length, Lr0.Reached g (a.core n)
  existsUnique : ∀ s, Lr0.Reached g s → ∃! n, n < a.states.length ∧ a.core n = s
  transition_iff : ∀ n < a.states.length, ∀ X m, a.transition? n X = some m ↔
    (Lr0.goto g.augmented (a.core n) X).Nonempty ∧ m < a.states.length ∧
      a.core m = Lr0.goto g.augmented (a.core n) X

theorem lt_length_iff : n < a.states.length ↔ ∃ s, a.items? n = some s := by
  constructor
  · intro hn
    exact ⟨_, Option.map_eq_some_iff.mpr ⟨_, List.getElem?_eq_getElem hn, rfl⟩⟩
  · rintro ⟨s, hs⟩
    obtain ⟨state, hstate, -⟩ := Option.map_eq_some_iff.mp hs
    exact (List.getElem?_eq_some_iff.mp hstate).1

theorem sameItems_iff_core_eq : SameItems a n m ↔ a.core n = a.core m :=
  Set.ext_iff.symm

/-! ### Lawful automata -/

namespace Lawful

theorem core_initial (ha : Lawful g a) : a.core initial = Lr0.start g := by
  refine Set.Subset.antisymm (fun item hitem => ?_) fun item hitem => ?_
  · obtain ⟨o, -, hpath⟩ := ha.reaches_of_initial hitem
    exact Lr0.mem_closure_of_reaches hpath (.base rfl)
  · induction hitem with
    | base h =>
      obtain rfl := Set.mem_singleton_iff.mp h
      exact ha.start.to_none
    | expand _ hr hnext ih => exact ha.expands _ _ _ ih (.item hr hnext)

/-- Transitions lead to the sets after the symbols. -/
theorem core_eq_goto (ha : Lawful g a) (hm : a.transition? n X = some m) :
    a.core m = Lr0.goto g.augmented (a.core n) X := by
  refine Set.Subset.antisymm (fun item hitem => ?_) fun item hitem => ?_
  · obtain ⟨before, o, hbefore, hnext, hpath⟩ := ha.exists_before hm hitem
    exact Lr0.mem_closure_of_reaches hpath (.base ⟨before, hbefore, hnext, rfl⟩)
  · induction hitem with
    | base h =>
      obtain ⟨before, hbefore, hnext, rfl⟩ := h
      exact ha.advance n X m (before, none) hm hbefore hnext
    | expand _ hr hnext ih => exact ha.expands _ _ _ ih (.item hr hnext)

/-- There is a transition if the set after the symbol is not empty. -/
theorem exists_transition_iff (ha : Lawful g a) :
    (∃ m, a.transition? n X = some m) ↔ (Lr0.goto g.augmented (a.core n) X).Nonempty := by
  rw [Lr0.goto_nonempty_iff]
  constructor
  · rintro ⟨m, hm⟩
    exact ha.exists_item n X m hm
  · rintro ⟨item, hitem, hnext⟩
    exact ha.exists_transition n item X hitem hnext

theorem reached_core (ha : Lawful g a) (hreach : ReflTransGen a.Next initial n) :
    Lr0.Reached g (a.core n) := by
  induction hreach with
  | refl =>
    rw [ha.core_initial]
    exact .start
  | tail _ hnext ih =>
    obtain ⟨X, hX⟩ := hnext
    rw [ha.core_eq_goto hX]
    exact ih.goto X (ha.exists_transition_iff.mp ⟨_, hX⟩)

/-- Every set of the collection is that of a state. -/
theorem exists_core_eq (ha : Lawful g a) {s : Set Item} (hs : Lr0.Reached g s) :
    ∃ n < a.states.length, a.core n = s := by
  induction hs with
  | start =>
    obtain ⟨s, hs, -⟩ := ha.start
    exact ⟨initial, lt_length_iff.mpr ⟨s, hs⟩, ha.core_initial⟩
  | goto _ X hX ih =>
    obtain ⟨n, -, rfl⟩ := ih
    obtain ⟨m, hm⟩ := ha.exists_transition_iff.mpr hX
    obtain ⟨-, t, -, ht⟩ := ha.exists_items hm
    exact ⟨m, lt_length_iff.mpr ⟨t, ht⟩, ha.core_eq_goto hm⟩

/-- A lawful automaton is that of the LR(0) collection if all its states are reached and no two of
them have the same items. -/
theorem isLr0 (ha : Lawful g a)
    (hreach : ∀ n < a.states.length, ReflTransGen a.Next initial n)
    (hunique : ∀ n < a.states.length, ∀ m < a.states.length, SameItems a n m → n = m) :
    IsLr0 g a where
  core_initial := ha.core_initial
  reached n hn := ha.reached_core (hreach n hn)
  existsUnique s hs := by
    obtain ⟨n, hn, rfl⟩ := ha.exists_core_eq hs
    exact ⟨n, ⟨hn, rfl⟩, fun m hm => hunique m hm.1 n hn (sameItems_iff_core_eq.mpr hm.2)⟩
  transition_iff n hn X m := by
    rw [← ha.exists_transition_iff]
    constructor
    · intro hm
      obtain ⟨-, t, -, ht⟩ := ha.exists_items hm
      exact ⟨⟨m, hm⟩, lt_length_iff.mpr ⟨t, ht⟩, ha.core_eq_goto hm⟩
    · rintro ⟨⟨m', hm'⟩, hm, hcore⟩
      obtain ⟨-, t, -, ht⟩ := ha.exists_items hm'
      have hsame := sameItems_iff_core_eq.mpr (hcore.trans (ha.core_eq_goto hm').symm)
      rwa [hunique m hm m' (lt_length_iff.mpr ⟨t, ht⟩) hsame]

end Lawful

/-! ### The merged automaton -/

namespace IsQuotient

theorem exists_reaches (hq : IsQuotient a b part) (ha : Lawful g a)
    (hreach : ReflTransGen a.Next initial n) : ∃ k, part n k ∧ ReflTransGen b.Next initial k := by
  induction hreach with
  | refl => exact ⟨initial, (hq.part_initial_iff _).mpr rfl, .refl⟩
  | tail _ hnext ih =>
    obtain ⟨X, hX⟩ := hnext
    obtain ⟨k, hk, hreach⟩ := ih
    obtain ⟨item, hitem, hnext⟩ := ha.exists_item _ X _ hX
    obtain ⟨l, hl⟩ := hq.exists_part _ _ (ha.advance _ X _ _ hX hitem hnext)
    exact ⟨l, hl, hreach.tail ⟨X, (hq.transition_iff k X l).mpr ⟨_, _, hk, hX, hl⟩⟩⟩

theorem core_eq (hq : IsQuotient a b part) (hn : part n k) : b.core k = a.core n := by
  refine Set.ext fun item => (hq.holds_iff k _).trans ⟨?_, fun hitem => ⟨n, hn, hitem⟩⟩
  rintro ⟨m, hm, hitem⟩
  exact (hq.sameItems m n k hm hn item).mp hitem

end IsQuotient

/-- Merging the states of the automaton of all item sets makes that of the LR(0) collection. -/
theorem IsCanonical.isLr0_merged (ha : IsCanonical g a) : IsLr0 g a.merged := by
  have hq := ha.isQuotient_merged
  refine (hq.lawful ha.lawful).isLr0 (fun k hk => ?_) fun k hk l hl hsame => ?_
  · obtain ⟨s, hs⟩ := lt_length_iff.mp hk
    obtain ⟨n, t, hn, ht⟩ := ha.lawful.exists_isPart hs
    obtain ⟨k', hk', hreach⟩ := hq.exists_reaches ha.lawful (ha.reaches ht)
    rwa [ha.lawful.eq_of_sameItems_of_isPart hn hk' fun _ => Iff.rfl]
  · obtain ⟨s, hs⟩ := lt_length_iff.mp hk
    obtain ⟨t, ht⟩ := lt_length_iff.mp hl
    obtain ⟨n, -, hn, -⟩ := ha.lawful.exists_isPart hs
    obtain ⟨m, -, hm, -⟩ := ha.lawful.exists_isPart ht
    refine ha.lawful.eq_of_sameItems_of_isPart hn hm (sameItems_iff_core_eq.mpr ?_)
    rw [← hq.core_eq hn, ← hq.core_eq hm]
    exact sameItems_iff_core_eq.mp hsame

end Automaton

end Recognizer.LR
