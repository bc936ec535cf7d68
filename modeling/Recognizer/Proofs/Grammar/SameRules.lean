import Recognizer.Proofs.Grammar.Augmented
import Recognizer.Proofs.Grammar.Follow

/-!
# Grammars with the same rules

The order in which the rules of a grammar are listed has no influence on what the grammar produces,
and neither has the repetition of rules. FIRST and FOLLOW are determined by what can be produced, so
they are the same, although the passes that compute them are not.

## Main definitions

* `Grammar.SameRules`: two grammars have the same start and the same rules in any order.

## Main results

* `Grammar.SameRules.augmented`: the augmented grammars have the same rules.
* `Grammar.SameRules.firstSets_eq`, `Grammar.SameRules.firstFollow_eq`: FIRST and FOLLOW.
-/

namespace Recognizer.Grammar

variable {g g' : Grammar} {α : List Symbol} {t : Symbol} {name : String}

/-- The grammars have the same start and the same rules, in any order and any number of times. -/
structure SameRules (g g' : Grammar) : Prop where
  start_eq : g.start = g'.start
  mem_rules_iff : ∀ r, r ∈ g.rules ↔ r ∈ g'.rules

namespace SameRules

theorem symm (h : SameRules g g') : SameRules g' g where
  start_eq := h.start_eq.symm
  mem_rules_iff r := (h.mem_rules_iff r).symm

theorem subset (h : SameRules g g') : g.rules ⊆ g'.rules := fun r => (h.mem_rules_iff r).mp

theorem startSymbol_eq (h : SameRules g g') : g.startSymbol = g'.startSymbol :=
  congrArg Symbol.nonterminal h.start_eq

/-! ### The symbols of the grammars -/

theorem nonterminals_eq (h : SameRules g g') : g.nonterminals = g'.nonterminals := by
  refine SortedSet.ext fun name => ?_
  simp only [nonterminals, SortedSet.mem_ofList, List.mem_cons, List.mem_flatMap, h.start_eq,
    h.mem_rules_iff]

theorem terminals_eq (h : SameRules g g') : g.terminals = g'.terminals := by
  refine SortedSet.ext fun name => ?_
  simp only [terminals, SortedSet.mem_ofList, List.mem_flatMap, h.mem_rules_iff]

theorem defines_eq (h : SameRules g g') : g.defines = g'.defines := by
  funext X
  cases X with
  | nonterminal name =>
    rw [Bool.eq_iff_iff]
    simp only [defines, List.any_eq_true, h.mem_rules_iff]
  | _ => rfl

/-- The new starts are the same, so the augmented grammars have the same rules: the fresh name
depends on the set of nonterminals only. -/
theorem augmented (h : SameRules g g') : SameRules g.augmented g'.augmented := by
  have hstart : g.freshName g.start = g'.freshName g'.start := by
    simp only [freshName, h.nonterminals_eq, h.start_eq]
  refine ⟨hstart, fun r => ?_⟩
  rw [Grammar.augmented, Grammar.augmented, hstart, h.start_eq, List.mem_cons, List.mem_cons,
    h.mem_rules_iff]

/-! ### FIRST and FOLLOW -/

private theorem inFirst (h : SameRules g g') (ht : g.InFirst α t) : g'.InFirst α t :=
  ht.imp (And.imp_right fun hempty => hempty.mono h.subset)
    (And.imp_right fun hstarts => hstarts.mono h.subset)

private theorem followedBy (h : SameRules g g') (ht : g.FollowedBy name t) :
    g'.FollowedBy name t := by
  induction ht with
  | start =>
    rw [h.start_eq]
    exact .start
  | first hr hsymbols ht => exact .first (h.subset hr) hsymbols (ht.mono h.subset)
  | inherit hr hsymbols hrest _ ih => exact .inherit (h.subset hr) hsymbols (hrest.mono h.subset) ih

/-- The FIRST sets are the same. -/
theorem firstSets_eq (h : SameRules g g') : g.firstSets = g'.firstSets := by
  refine SortedMap.ext_holds fun f => ?_
  rw [holds_firstSets_iff, holds_firstSets_iff, h.nonterminals_eq]
  exact and_congr_right fun _ => forall₂_congr fun t _ => ⟨h.inFirst, h.symm.inFirst⟩

/-- FIRST and FOLLOW do not depend on the order of the rules. The passes go through the rules in
different orders, but both tables say just what can be produced and what can follow. -/
theorem firstFollow_eq (h : SameRules g g') : g.firstFollow = g'.firstFollow := by
  have hfollow : g.firstFollow.follow = g'.firstFollow.follow := by
    refine SortedMap.ext_holds fun f => ?_
    rw [holds_follow_iff, holds_follow_iff, h.nonterminals_eq]
    exact and_congr_right fun _ => forall₂_congr fun t _ => ⟨h.followedBy, h.symm.followedBy⟩
  calc g.firstFollow = ⟨g.firstSets, g.firstFollow.follow⟩ := rfl
    _ = ⟨g'.firstSets, g'.firstFollow.follow⟩ := by rw [h.firstSets_eq, hfollow]
    _ = g'.firstFollow := rfl

end SameRules

end Recognizer.Grammar
