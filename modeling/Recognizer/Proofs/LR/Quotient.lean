import Recognizer.Proofs.LR.Laws

/-!
# Automata with merged states

When states with the same items are merged, the merged states have the facts of their parts, and
symbols lead from one merged state to another if they do so for some of the parts. The states before
a state still have the items before, but a lookahead may come from one of them only. That is all the
laws say, so the merged automaton obeys them too.

## Main definitions

* `Automaton.SameItems`: two states have the same items.
* `Automaton.IsQuotient`: each state of one automaton is made of states of another that have the
  same items.

## Main results

* `Automaton.IsQuotient.lawful`: merging keeps the laws.
* `Automaton.Lawful.sameItems_of_transition`: states with the same items lead to such states.
-/

namespace Recognizer.LR

open Relation (ReflTransGen)

namespace Automaton

variable {g : Grammar} {a b : Automaton} {part : Nat → Nat → Prop} {s t : ItemSet} {f f₀ : Fact}
  {X : Symbol} {item : Item} {n m k l : Nat}

/-- The states have the same items, whatever their lookaheads. -/
def SameItems (a : Automaton) (n m : Nat) : Prop :=
  ∀ item, a.Holds n (item, none) ↔ a.Holds m (item, none)

/-- Each state of `b` is made of states of `a` that have the same items; `part n k` says that the
state `n` of `a` is a part of the state `k` of `b`. -/
structure IsQuotient (a b : Automaton) (part : Nat → Nat → Prop) : Prop where
  grammar_eq : b.grammar = a.grammar
  part_initial_iff : ∀ k, part initial k ↔ k = initial
  holds_iff : ∀ k f, b.Holds k f ↔ ∃ n, part n k ∧ a.Holds n f
  transition_iff : ∀ k X l, b.transition? k X = some l ↔
    ∃ n m, part n k ∧ a.transition? n X = some m ∧ part m l
  exists_part : ∀ n f, a.Holds n f → ∃ k, part n k
  sameItems : ∀ n m k, part n k → part m k → SameItems a n m

namespace IsQuotient

private theorem exists_transition (hq : IsQuotient a b part) (h : Lawful g a) (hn : part n k)
    (hf : a.Holds n (item, none)) (hnext : item.next? = some X) :
    ∃ m l, a.transition? n X = some m ∧ part m l ∧ b.transition? k X = some l := by
  obtain ⟨m, hm⟩ := h.exists_transition n item X hf hnext
  obtain ⟨l, hl⟩ := hq.exists_part m _ (h.advance n X m _ hm hf hnext)
  exact ⟨m, l, hm, hl, (hq.transition_iff k X l).mpr ⟨n, m, hn, hm, hl⟩⟩

/-- Merging states with the same items keeps the laws. No law says that all lookaheads of a state
come from one state before, which would be lost. -/
theorem lawful (hq : IsQuotient a b part) (h : Lawful g a) : Lawful g b where
  grammar_eq := hq.grammar_eq.trans h.grammar_eq
  isFact k f hf := by
    obtain ⟨n, -, hf⟩ := (hq.holds_iff k f).mp hf
    exact h.isFact n f hf
  start := (hq.holds_iff _ _).mpr ⟨initial, (hq.part_initial_iff _).mpr rfl, h.start⟩
  start_only k o hf := by
    obtain ⟨n, hn, hf⟩ := (hq.holds_iff _ _).mp hf
    obtain ⟨rfl, ho⟩ := h.start_only n o hf
    exact ⟨(hq.part_initial_iff k).mp hn, ho⟩
  dot_initial f hf := by
    obtain ⟨n, hn, hf⟩ := (hq.holds_iff _ _).mp hf
    have hinitial := (hq.part_initial_iff initial).mpr rfl
    exact h.dot_initial (f.1, none) ((hq.sameItems n initial initial hn hinitial f.1).mp hf.to_none)
  expands k f₀ f hf₀ hexpands := by
    obtain ⟨n, hn, hf₀⟩ := (hq.holds_iff _ _).mp hf₀
    exact (hq.holds_iff _ _).mpr ⟨n, hn, h.expands n f₀ f hf₀ hexpands⟩
  origin k f hf := by
    obtain ⟨n, hn, hf⟩ := (hq.holds_iff _ _).mp hf
    obtain ⟨f₀, hf₀, hkernel, hpath⟩ := h.origin n f hf
    exact ⟨f₀, (hq.holds_iff _ _).mpr ⟨n, hn, hf₀⟩, hkernel, hpath⟩
  exists_transition k item X hf hnext := by
    obtain ⟨n, hn, hf⟩ := (hq.holds_iff _ _).mp hf
    obtain ⟨m, l, -, -, hl⟩ := hq.exists_transition h hn hf hnext
    exact ⟨l, hl⟩
  exists_item k X l hl := by
    obtain ⟨n, m, hn, hm, -⟩ := (hq.transition_iff k X l).mp hl
    obtain ⟨item, hitem, hnext⟩ := h.exists_item n X m hm
    exact ⟨item, (hq.holds_iff _ _).mpr ⟨n, hn, hitem⟩, hnext⟩
  advance k X l f hl hf hnext := by
    obtain ⟨n, hn, hf⟩ := (hq.holds_iff _ _).mp hf
    obtain ⟨m, l', hm, hml, hl'⟩ := hq.exists_transition h hn hf.to_none hnext
    obtain rfl := Option.some.inj (hl.symm.trans hl')
    exact (hq.holds_iff _ _).mpr ⟨m, hml, h.advance n X m f hm hf hnext⟩
  predecessor k X l item hl hf hdot := by
    obtain ⟨n, m, hn, hm, hml⟩ := (hq.transition_iff k X l).mp hl
    obtain ⟨m', hm'l, hf⟩ := (hq.holds_iff _ _).mp hf
    have hf := (hq.sameItems m' m l hm'l hml item).mp hf
    obtain ⟨before, hadvance, hnext, hbefore⟩ := h.predecessor n X m item hm hf hdot
    exact ⟨before, hadvance, hnext, (hq.holds_iff _ _).mpr ⟨n, hn, hbefore⟩⟩
  lookahead l f hf hdot := by
    obtain ⟨m, hml, hf⟩ := (hq.holds_iff _ _).mp hf
    obtain ⟨n, X, before, hm, hadvance, hnext, hbefore⟩ := h.lookahead m f hf hdot
    obtain ⟨k, hk⟩ := hq.exists_part n _ hbefore
    exact ⟨k, X, before, (hq.transition_iff k X l).mpr ⟨n, m, hk, hm, hml⟩, hadvance, hnext,
      (hq.holds_iff _ _).mpr ⟨n, hk, hbefore⟩⟩

end IsQuotient

/-! ### Where the facts of a state come from -/

theorem Lawful.holds_of_reaches (h : Lawful g a) (hf₀ : a.Holds n f₀)
    (hpath : ReflTransGen (Expands g.augmented g.augmented.firstSets) f₀ f) : a.Holds n f := by
  induction hpath with
  | refl => exact hf₀
  | tail _ hexpands ih => exact h.expands n _ _ ih hexpands

/-- No transition leads to the initial state. -/
theorem Lawful.ne_initial (h : Lawful g a) (hm : a.transition? n X = some m) : m ≠ initial := by
  rintro rfl
  obtain ⟨item, hitem, hnext⟩ := h.exists_item n X initial hm
  have hdot := h.dot_initial _ (h.advance n X initial _ hm hitem hnext)
  cases hdot

/-- In the initial state, every fact comes by expansions from the start. -/
theorem Lawful.reaches_of_initial (h : Lawful g a) (hf : a.Holds initial f) :
    ∃ o, (∀ t ∈ o, t = .endMark) ∧
      ReflTransGen (Expands g.augmented g.augmented.firstSets) (g.startRule.item 0, o) f := by
  obtain ⟨⟨item, o⟩, hf₀, hkernel, hpath⟩ := h.origin initial f hf
  obtain rfl : item = g.startRule.item 0 :=
    hkernel.resolve_left fun hdot => hdot (h.dot_initial _ hf₀)
  exact ⟨o, (h.start_only initial o hf₀).2, hpath⟩

/-- After a transition, every fact comes by expansions from an item with the dot moved over the
symbol, which every state that the transition leaves has. -/
theorem Lawful.exists_before (h : Lawful g a) (hm : a.transition? n X = some m)
    (hf : a.Holds m f) : ∃ (before : Item) (o : Option Symbol), a.Holds n (before, none) ∧
      before.next? = some X ∧
        ReflTransGen (Expands g.augmented g.augmented.firstSets) (before.advance, o) f := by
  obtain ⟨⟨item, o⟩, hf₀, hkernel, hpath⟩ := h.origin m f hf
  rcases hkernel with hdot | hstart
  · obtain ⟨before, hadvance, hnext, hbefore⟩ := h.predecessor n X m item hm hf₀.to_none hdot
    obtain rfl : item = before.advance := hadvance
    exact ⟨before, o, hbefore, hnext, hpath⟩
  · obtain rfl : item = g.startRule.item 0 := hstart
    exact absurd (h.start_only m o hf₀).1 (h.ne_initial hm)

/-- Only from the initial state, with the start symbol, a transition leads to where the start rule
has been read. -/
theorem Lawful.transition?_of_startRule {o : Option Symbol} (h : Lawful g a)
    (hf : a.Holds n (g.startRule.item 1, o)) :
    a.transition? initial g.startSymbol = some n ∧ ∀ t ∈ o, t = .endMark := by
  obtain ⟨m, X, before, hm, hadvance, hnext, hbefore⟩ := h.lookahead n _ hf (Nat.succ_ne_zero 0)
  obtain rfl := eq_item_of_advance hadvance
  obtain ⟨rfl, ho⟩ := h.start_only m _ hbefore
  obtain rfl : g.startSymbol = X := by
    rw [Rule.next?_item (Nat.zero_le _)] at hnext
    exact Option.some.inj hnext
  exact ⟨hm, ho⟩

/-- States with the same items lead to states with the same items. -/
theorem Lawful.sameItems_of_transition {n' m' : Nat} (h : Lawful g a) (hsame : SameItems a n n')
    (hm : a.transition? n X = some m) (hm' : a.transition? n' X = some m') :
    SameItems a m m' := by
  have hsub {n n' m m' : Nat} (hsame : SameItems a n n') (hm : a.transition? n X = some m)
      (hm' : a.transition? n' X = some m') {item : Item} (hitem : a.Holds m (item, none)) :
      a.Holds m' (item, none) := by
    obtain ⟨before, o, hbefore, hnext, hpath⟩ := h.exists_before hm hitem
    refine h.holds_of_reaches (h.advance n' X m' _ hm' ((hsame before).mp hbefore) hnext) ?_
    exact hpath.lift (fun f => (f.1, none)) fun _ _ hexpands => hexpands.to_none
  exact fun item => ⟨hsub hsame hm hm', hsub (fun item => (hsame item).symm) hm' hm⟩

theorem Lawful.exists_items (h : Lawful g a) (hm : a.transition? n X = some m) :
    ∃ s t, a.items? n = some s ∧ a.items? m = some t := by
  obtain ⟨item, hitem, hnext⟩ := h.exists_item n X m hm
  obtain ⟨t, ht, -⟩ := h.advance n X m _ hm hitem hnext
  obtain ⟨s, hs, -⟩ := hitem
  exact ⟨s, t, hs, ht⟩

end Automaton

end Recognizer.LR
