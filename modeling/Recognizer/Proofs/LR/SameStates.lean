import Recognizer.LR.Merge
import Recognizer.Proofs.Grammar.SameRules
import Recognizer.Proofs.LR.Canonical

/-!
# The states of grammars with the same rules

Grammars with the same rules, whatever the order, have the same item sets, which are found in the
same order. A round of the expansion adds what the rules say of each item, and it does not matter
which of them is read first. The numbers that bound the rounds and the levels of the search are
larger if rules are repeated, but all of them are large enough. The nonterminal that is reported if
it heads no rule is the first in the order of the items, and so it is the same, too.

## Main results

* `ItemSet.closure_eq_of_sameRules`: the closure of a set.
* `Automaton.reached_eq_of_sameRules`: the sets that are reached, or the failure to reach them.
* `Automaton.agree_construct_of_sameRules`, `Automaton.agree_lalr_of_sameRules`: the states of the
  automata.
-/

namespace Recognizer

open Grammar (SameRules)

namespace LR

variable {g g' : Grammar} {first : SetTable} {f f₀ : Fact}

theorem Expands.mono (h : Expands g first f₀ f) (hsub : g.rules ⊆ g'.rules) :
    Expands g' first f₀ f := by
  cases h with
  | item hr hnext => exact .item (hsub hr) hnext
  | first hr hnext ht hne => exact .first (hsub hr) hnext ht hne
  | inherit hr hnext hempty => exact .inherit (hsub hr) hnext hempty

theorem IsFact.of_sameRules (h : SameRules g g') (hf : IsFact g f) : IsFact g' f := by
  obtain ⟨⟨r, hr, hitem⟩, hlookahead⟩ := hf
  refine ⟨⟨r, h.subset hr, hitem⟩, fun t ht => ?_⟩
  rw [IsLookahead, ← h.terminals_eq]
  exact hlookahead t ht

/-! ### Closures -/

namespace ItemSet

theorem undefined?_eq_of_sameRules (h : SameRules g g') (s : ItemSet) :
    s.undefined? g = s.undefined? g' := by
  simp only [undefined?, Item.undefined?, h.defines_eq]

theorem expand_eq_of_sameRules (h : SameRules g g') (first : SetTable) (s : ItemSet) :
    s.expand g first = s.expand g' first := by
  refine SortedMap.ext_holds fun f => ?_
  rw [holds_expand_iff, holds_expand_iff]
  refine or_congr_right (exists_congr fun f₀ => and_congr_right fun _ => ?_)
  exact ⟨fun hf => hf.mono h.subset, fun hf => hf.mono h.symm.subset⟩

theorem expandDefined_eq_of_sameRules (h : SameRules g g') (first : SetTable) (s : ItemSet) :
    s.expandDefined g first = s.expandDefined g' first := by
  rw [expandDefined, expandDefined, undefined?_eq_of_sameRules h, expand_eq_of_sameRules h]

/-- The rounds come to the same end, although their bounds differ. -/
theorem expanded_eq_of_sameRules (h : SameRules g g') (first : SetTable) (s : ItemSet) :
    s.expanded g first = s.expanded g' first := by
  have hround : expandDefined g first = expandDefined g' first :=
    funext (expandDefined_eq_of_sameRules h first)
  have hfixed := expandDefined_expanded g first s
  rw [expanded, hround] at hfixed
  rw [expanded, hround]
  exact saturate_eq_of_step_eq hfixed (expandDefined_expanded g' first s)

theorem closure_eq_of_sameRules (h : SameRules g g') (first : SetTable) (s : ItemSet) :
    s.closure g first = s.closure g' first := by
  rw [closure, closure, checked, checked, expanded_eq_of_sameRules h,
    undefined?_eq_of_sameRules h]

end ItemSet

/-! ### Automata -/

namespace Automaton

variable {a a' : Automaton}

theorem successors_eq_of_sameRules (h : SameRules g g') (first : SetTable) :
    successors g first = successors g' first := by
  funext s
  simp only [successors, ItemSet.goto, ItemSet.closure_eq_of_sameRules h]

/-- Some keys are few enough for the bounds of both grammars. -/
private theorem exists_itemSet_keys_of_sameRules (h : SameRules g g') :
    ∃ keys : List ItemSet.Key, keys.length ≤ itemSetBound g ∧ keys.length ≤ itemSetBound g' ∧
      ∀ s : ItemSet, (∀ f, SortedMap.Holds s f → IsFact g f) → s.key ∈ keys := by
  obtain ⟨keys, hlength, hkeys⟩ := exists_itemSet_keys g
  obtain ⟨keys', hlength', hkeys'⟩ := exists_itemSet_keys g'
  rcases Nat.le_total (itemSetBound g) (itemSetBound g') with hle | hle
  · exact ⟨keys, hlength, hlength.trans hle, hkeys⟩
  · refine ⟨keys', hlength'.trans hle, hlength', fun s hs => hkeys' s fun f hf => ?_⟩
    exact (hs f hf).of_sameRules h

/-- The same item sets are reached in the same order, or the search for them fails alike. The bounds
of the search differ if rules are repeated, but both are large enough. -/
theorem reached_eq_of_sameRules (h : SameRules g g') :
    reached g.augmented g.augmented.firstSets g.startSymbol =
      reached g'.augmented g'.augmented.firstSets g'.startSymbol := by
  have haugmented := h.augmented
  have hset : startSet g.augmented g.startSymbol = startSet g'.augmented g'.startSymbol := by
    rw [startSet, startSet, haugmented.startSymbol_eq, h.startSymbol_eq]
  rw [reached, reached, ← haugmented.firstSets_eq, ← hset,
    ← successors_eq_of_sameRules haugmented, ← ItemSet.closure_eq_of_sameRules haugmented]
  cases hclosure :
      (startSet g.augmented g.startSymbol).closure g.augmented g.augmented.firstSets with
  | error e => rfl
  | ok s =>
    obtain ⟨keys, hlength, hlength', hkeys⟩ := exists_itemSet_keys_of_sameRules haugmented
    refine breadthFirstM_eq_of_bounds (isFact_of_holds_closure hclosure) (fun s t hs hst => ?_)
      hkeys hlength hlength'
    obtain ⟨X, hX⟩ := leads_of_edge hst
    exact hX.isFact hs

/-- The automata have the same states, or their constructions fail with the same error. -/
theorem agree_construct_of_sameRules (h : SameRules g g') :
    Agree (fun a a' => a.states = a'.states) (construct g) (construct g') := by
  rw [construct, construct, reached_eq_of_sameRules h]
  refine (Agree.refl _).bind fun sets sets' _ _ heq => ?_
  exact congrArg number heq

theorem states_merged_eq (h : a.states = a'.states) : a.merged.states = a'.merged.states := by
  obtain ⟨grammar, states⟩ := a
  obtain ⟨grammar', states'⟩ := a'
  obtain rfl : states = states' := h
  rfl

/-- The merged automata have the same states, or their constructions fail with the same error. -/
theorem agree_lalr_of_sameRules (h : SameRules g g') :
    Agree (fun a a' => a.states = a'.states) (lalr g) (lalr g') :=
  (agree_construct_of_sameRules h).map fun _ _ _ _ => states_merged_eq

end Automaton

end LR

end Recognizer
