import Recognizer.Proofs.LR.Canonical

/-!
# The laws of an automaton

What a parser needs to know about an automaton: facts are carried along transitions and by
expansions, and each fact comes from somewhere, that is from an item with the dot further to the
left in a state before, or by expansions from such a fact of the same state. The automaton of all
item sets obeys these laws, and merging states will keep them.

## Main definitions

* `Automaton.Next`: some symbol leads from one state to the other.
* `IsKernel`: the fact is not the result of an expansion only.
* `Automaton.Lawful`: the laws.

## Main results

* `Automaton.IsCanonical.lawful`: the automaton of all item sets is lawful.
-/

namespace Recognizer.LR

open Relation (ReflTransGen)

variable {g : Grammar} {first : SetTable} {f f₀ : Fact} {X : Symbol} {r : Rule}

/-- The fact has something in front of the dot, or is that of the start. -/
def IsKernel (g : Grammar) (f : Fact) : Prop := f.1.dot ≠ 0 ∨ f.1 = g.startRule.item 0

theorem Expands.dot_eq (h : Expands g first f₀ f) : f.1.dot = 0 := by
  obtain ⟨r, -, -, hitem⟩ := h.exists_rule
  rw [hitem, Rule.dot_item]

theorem Expands.to_none (h : Expands g first f₀ f) :
    Expands g first (f₀.1, none) (f.1, none) := by
  obtain ⟨r, hr, hnext, hitem⟩ := h.exists_rule
  rw [hitem]
  exact .item hr hnext

theorem eq_of_reaches_of_dot_ne_zero (h : ReflTransGen (Expands g first) f₀ f)
    (hdot : f.1.dot ≠ 0) : f = f₀ := by
  rcases h.cases_tail with heq | ⟨_, -, hexpands⟩
  · exact heq
  · exact absurd hexpands.dot_eq hdot

theorem mem_body_of_next? {item : Item} (h : item.next? = some X) : X ∈ item.body :=
  List.mem_of_getElem? (Option.filter_eq_some_iff.mp h).1

/-- No expansion leads to the start. -/
theorem eq_of_reaches_startItem
    (h : ReflTransGen (Expands g.augmented g.augmented.firstSets) f₀ f)
    (hf₀ : IsFact g.augmented f₀) (hitem : f.1 = g.startRule.item 0) : f = f₀ := by
  rcases h.cases_tail with heq | ⟨f₁, hpath, hexpands⟩
  · exact heq
  · obtain ⟨r, hr, hnext, hchild⟩ := hexpands.exists_rule
    obtain ⟨⟨r₁, hr₁, dot, -, hitem₁⟩, -⟩ := hf₀.reaches hpath
    have hbody := mem_body_of_next? hnext
    rw [hitem₁] at hbody
    obtain rfl := (Rule.item_inj (hchild.symm.trans hitem)).1
    exact absurd hbody (Grammar.start_not_mem_body hr₁)

namespace Automaton

variable {a : Automaton} {s : ItemSet} {n m : Nat}

/-- Some symbol leads from one state to the other. -/
def Next (a : Automaton) (n m : Nat) : Prop := ∃ X, a.transition? n X = some m

/-- What the states of an automaton and its transitions have to do with a grammar. Nothing is said
about which states there are, so that merging can keep the laws. -/
structure Lawful (g : Grammar) (a : Automaton) : Prop where
  grammar_eq : a.grammar = g.augmented
  isFact : ∀ n f, a.Holds n f → IsFact g.augmented f
  start : a.Holds initial (g.startRule.item 0, some .endMark)
  start_only : ∀ n o, a.Holds n (g.startRule.item 0, o) → n = initial ∧ ∀ t ∈ o, t = .endMark
  dot_initial : ∀ f, a.Holds initial f → f.1.dot = 0
  expands : ∀ n f₀ f, a.Holds n f₀ → Expands g.augmented g.augmented.firstSets f₀ f → a.Holds n f
  /-- Every fact comes by expansions from one that has not come by expansions only. -/
  origin : ∀ n f, a.Holds n f → ∃ f₀, a.Holds n f₀ ∧ IsKernel g f₀ ∧
    ReflTransGen (Expands g.augmented g.augmented.firstSets) f₀ f
  exists_transition : ∀ n item X, a.Holds n (item, none) → item.next? = some X →
    ∃ m, a.transition? n X = some m
  exists_item : ∀ n X m, a.transition? n X = some m →
    ∃ item, a.Holds n (item, none) ∧ item.next? = some X
  advance : ∀ n X m f, a.transition? n X = some m → a.Holds n f → f.1.next? = some X →
    a.Holds m (f.1.advance, f.2)
  /-- Every state that a transition leaves has the items before, but maybe fewer lookaheads. -/
  predecessor : ∀ n X m item, a.transition? n X = some m → a.Holds m (item, none) → item.dot ≠ 0 →
    ∃ before : Item, item = before.advance ∧ before.next? = some X ∧ a.Holds n (before, none)
  /-- Some state that a transition leaves has the item before with the lookahead. -/
  lookahead : ∀ m f, a.Holds m f → f.1.dot ≠ 0 →
    ∃ n X, ∃ before : Item, a.transition? n X = some m ∧ f.1 = before.advance ∧
      before.next? = some X ∧ a.Holds n (before, f.2)

theorem Holds.to_none (h : a.Holds n f) : a.Holds n (f.1, none) := by
  obtain ⟨s, hs, hf⟩ := h
  exact ⟨s, hs, SortedMap.Holds.to_none hf⟩

/-! ### The automaton of all item sets -/

namespace IsCanonical

theorem reaches (h : IsCanonical g a) (hs : a.items? n = some s) :
    ReflTransGen a.Next initial n := by
  obtain ⟨s₀, hs₀, hpath⟩ := h.reached n s hs
  have hnumber : ∃ n, a.items? n = some s ∧ ReflTransGen a.Next initial n := by
    clear hs
    induction hpath with
    | refl => exact ⟨initial, hs₀, .refl⟩
    | @tail s t _ hleads ih =>
      obtain ⟨X, hX⟩ := hleads
      obtain ⟨n, hn, hreach⟩ := ih
      obtain ⟨m, hm⟩ := h.exists_transition n s X hn hX.mem
      obtain ⟨s', t', hs', ht', hm'⟩ := (h.transition_iff n X m).mp hm
      obtain rfl := Option.some.inj (hn.symm.trans hs')
      obtain rfl := Except.ok.inj (hX.goto_eq.symm.trans ht'.goto_eq)
      exact ⟨m, hm', hreach.tail ⟨X, hm⟩⟩
  obtain ⟨n', hn', hreach⟩ := hnumber
  rwa [h.unique n n' s hs hn']

theorem initial_or_transition (h : IsCanonical g a) (hs : a.items? n = some s) :
    (n = initial ∧
      (startSet g.augmented g.startSymbol).closure g.augmented g.augmented.firstSets = .ok s) ∨
    ∃ m X s', a.transition? m X = some n ∧ a.items? m = some s' ∧ Leads g.augmented X s' s := by
  rcases (h.reaches hs).cases_tail with rfl | ⟨m, -, X, hm⟩
  · obtain ⟨s₀, hs₀, hclosure⟩ := h.closure
    obtain rfl := Option.some.inj (hs₀.symm.trans hs)
    exact Or.inl ⟨rfl, hclosure⟩
  · obtain ⟨s', t, hs', hleads, ht⟩ := (h.transition_iff m X n).mp hm
    obtain rfl := Option.some.inj (ht.symm.trans hs)
    exact Or.inr ⟨m, X, s', hm, hs', hleads⟩

/-- Where the facts of a state come from: from the start, or from a state before. -/
theorem exists_kernel (h : IsCanonical g a) (hf : a.Holds n f) :
    ∃ f₀, a.Holds n f₀ ∧ ReflTransGen (Expands g.augmented g.augmented.firstSets) f₀ f ∧
      ((n = initial ∧ f₀.1 = g.startRule.item 0 ∧ ∀ t ∈ f₀.2, t = .endMark) ∨
        ∃ m X, ∃ before : Item, a.transition? m X = some n ∧ f₀.1 = before.advance ∧
          before.next? = some X ∧ a.Holds m (before, f₀.2)) := by
  obtain ⟨s, hs, hf⟩ := hf
  rcases h.initial_or_transition hs with ⟨rfl, hclosure⟩ | ⟨m, X, s', hm, hs', hleads⟩
  · obtain ⟨f₀, hf₀, hpath⟩ := (ItemSet.holds_closure_iff hclosure).mp hf
    have hf₀' := (ItemSet.holds_closure_iff hclosure).mpr ⟨f₀, hf₀, .refl⟩
    exact ⟨f₀, ⟨s, hs, hf₀'⟩, hpath, Or.inl ⟨rfl, holds_startSet_iff.mp hf₀⟩⟩
  · obtain ⟨f₀, hf₀, hnext, hpath⟩ := (ItemSet.holds_goto_iff hleads.goto_eq).mp hf
    have hf₀' := (ItemSet.holds_goto_iff hleads.goto_eq).mpr ⟨f₀, hf₀, hnext, .refl⟩
    exact ⟨_, ⟨s, hs, hf₀'⟩, hpath, Or.inr ⟨m, X, f₀.1, hm, rfl, hnext, s', hs', hf₀⟩⟩

theorem isFact (h : IsCanonical g a) (hf : a.Holds n f) : IsFact g.augmented f := by
  obtain ⟨s, hs, hf⟩ := hf
  have hreach := h.reaches hs
  induction hreach generalizing s f with
  | refl =>
    obtain ⟨s₀, hs₀, hclosure⟩ := h.closure
    obtain rfl := Option.some.inj (hs₀.symm.trans hs)
    obtain ⟨f₀, hf₀, hpath⟩ := (ItemSet.holds_closure_iff hclosure).mp hf
    exact (isFact_of_holds_startSet hf₀).reaches hpath
  | tail _ hnext ih =>
    obtain ⟨X, hX⟩ := hnext
    obtain ⟨s', t, hs', hleads, ht⟩ := (h.transition_iff _ X _).mp hX
    obtain rfl := Option.some.inj (ht.symm.trans hs)
    exact hleads.isFact (fun f hf => ih _ hs' hf) f hf

private theorem expands (h : IsCanonical g a) (hf₀ : a.Holds n f₀)
    (hexpands : Expands g.augmented g.augmented.firstSets f₀ f) : a.Holds n f := by
  obtain ⟨s, hs, hf₀⟩ := hf₀
  rcases h.initial_or_transition hs with ⟨-, hclosure⟩ | ⟨m, X, s', -, -, hleads⟩
  · exact ⟨s, hs, ItemSet.holds_of_expands hclosure hf₀ hexpands⟩
  · exact ⟨s, hs, ItemSet.holds_of_expands hleads.goto_eq hf₀ hexpands⟩

/-- After a transition, every fact comes by expansions from one with the dot moved over the symbol,
which every state that the transition leaves has. -/
theorem exists_before (h : IsCanonical g a) (hm : a.transition? n X = some m)
    (hf : a.Holds m f) : ∃ f₀, a.Holds n f₀ ∧ f₀.1.next? = some X ∧
      ReflTransGen (Expands g.augmented g.augmented.firstSets) (f₀.1.advance, f₀.2) f := by
  obtain ⟨s, t, hs, hleads, ht⟩ := (h.transition_iff n X m).mp hm
  obtain ⟨t', ht', hf⟩ := hf
  obtain rfl := Option.some.inj (ht.symm.trans ht')
  obtain ⟨f₀, hf₀, hnext, hpath⟩ := (ItemSet.holds_goto_iff hleads.goto_eq).mp hf
  exact ⟨f₀, ⟨s, hs, hf₀⟩, hnext, hpath⟩

/-- The automaton of all item sets obeys the laws. -/
theorem lawful (h : IsCanonical g a) : Lawful g a where
  grammar_eq := h.grammar_eq
  isFact _ _ := h.isFact
  start := by
    obtain ⟨s, hs, hclosure⟩ := h.closure
    refine ⟨s, hs, (ItemSet.holds_closure_iff hclosure).mpr ⟨_, ?_, .refl⟩⟩
    exact holds_startSet_iff.mpr ⟨rfl, fun t ht => (Option.mem_some_iff.mp ht).symm⟩
  start_only n o hf := by
    obtain ⟨f₀, hf₀, hpath, hkernel⟩ := h.exists_kernel hf
    obtain rfl := eq_of_reaches_startItem hpath (h.isFact hf₀) rfl
    rcases hkernel with ⟨hn, -, ho⟩ | ⟨m, X, before, -, hadvance, -, -⟩
    · exact ⟨hn, ho⟩
    · have hdot := congrArg Item.dot hadvance
      cases hdot
  dot_initial f hf := by
    obtain ⟨s, hs, hclosure⟩ := h.closure
    obtain ⟨s', hs', hf⟩ := hf
    obtain rfl := Option.some.inj (hs.symm.trans hs')
    obtain ⟨f₀, hf₀, hpath⟩ := (ItemSet.holds_closure_iff hclosure).mp hf
    by_contra hdot
    obtain rfl := eq_of_reaches_of_dot_ne_zero hpath hdot
    rw [(holds_startSet_iff.mp hf₀).1] at hdot
    exact hdot rfl
  expands _ _ _ := h.expands
  origin n f hf := by
    obtain ⟨f₀, hf₀, hpath, hkernel⟩ := h.exists_kernel hf
    refine ⟨f₀, hf₀, ?_, hpath⟩
    rcases hkernel with ⟨-, hstart, -⟩ | ⟨m, X, before, -, hadvance, -, -⟩
    · exact Or.inr hstart
    · exact Or.inl (by rw [hadvance]; exact Nat.succ_ne_zero _)
  exists_transition n item X hf hnext := by
    obtain ⟨s, hs, hf⟩ := hf
    exact h.exists_transition n s X hs (mem_symbolsAfterDot.mpr ⟨item, hf, hnext⟩)
  exists_item n X m hm := by
    obtain ⟨s, t, hs, hleads, -⟩ := (h.transition_iff n X m).mp hm
    obtain ⟨item, hitem, hnext⟩ := mem_symbolsAfterDot.mp hleads.mem
    exact ⟨item, ⟨s, hs, hitem⟩, hnext⟩
  advance n X m f hm hf hnext := by
    obtain ⟨s, t, hs, hleads, ht⟩ := (h.transition_iff n X m).mp hm
    obtain ⟨s', hs', hf⟩ := hf
    obtain rfl := Option.some.inj (hs.symm.trans hs')
    exact ⟨t, ht, (ItemSet.holds_goto_iff hleads.goto_eq).mpr ⟨f, hf, hnext, .refl⟩⟩
  predecessor n X m item hm hf hdot := by
    obtain ⟨f₀, hf₀, hnext, hpath⟩ := h.exists_before hm hf
    obtain ⟨rfl, ho⟩ := Prod.mk.inj (eq_of_reaches_of_dot_ne_zero hpath hdot)
    exact ⟨f₀.1, rfl, hnext, ho ▸ hf₀⟩
  lookahead m f hf hdot := by
    obtain ⟨f₀, hf₀, hpath, hkernel⟩ := h.exists_kernel hf
    obtain rfl := eq_of_reaches_of_dot_ne_zero hpath hdot
    rcases hkernel with ⟨-, hstart, -⟩ | ⟨n, X, before, hn, hbefore⟩
    · rw [hstart] at hdot
      exact absurd rfl hdot
    · exact ⟨n, X, before, hn, hbefore⟩

end IsCanonical

end Automaton

end Recognizer.LR
