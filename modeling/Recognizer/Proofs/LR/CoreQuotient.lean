import Mathlib.Tactic.Choose
import Recognizer.Proofs.LR.Lr0

/-!
# The quotient by cores

Merging takes each state to the one merged state that has the same items. So it is the quotient of
the automaton by the relation of having the same items: what is kept of the states are the items,
and the lookaheads of an item are those that it has in some of the states that are merged.

## Main definitions

* `Automaton.IsCoreQuotient`: an automaton is the quotient of another, by a map of states.

## Main results

* `Automaton.coreEq_iff_core_eq`: item sets with the same items, without the lists that hold them.
* `Automaton.Lawful.exists_isCoreQuotient_merged`: the merged automaton is the quotient.
-/

namespace Recognizer.LR

open Relation (ReflTransGen)

namespace Automaton

variable {g : Grammar} {a b : Automaton} {s t : ItemSet} {X : Symbol} {n m k l : Nat}

/-- The automaton `b` is the quotient of `a` by cores, and `image` takes each state to the one that
has the same core. -/
structure IsCoreQuotient (a b : Automaton) (image : Nat → Nat) : Prop where
  grammar_eq : b.grammar = a.grammar
  image_initial : image initial = initial
  coreEq_image : ∀ n s, a.items? n = some s → ∃ t, b.items? (image n) = some t ∧ s.CoreEq t
  eq_of_coreEq : ∀ k l s t, b.items? k = some s → b.items? l = some t → s.CoreEq t → k = l
  onto : ∀ k t, b.items? k = some t → ∃ n s, a.items? n = some s ∧ image n = k
  transition_image : ∀ n X m, a.transition? n X = some m →
    b.transition? (image n) X = some (image m)
  /-- Every transition of the quotient comes from every state that is taken to its source. -/
  exists_transition : ∀ n s X l, a.items? n = some s → b.transition? (image n) X = some l →
    ∃ m, a.transition? n X = some m ∧ image m = l
  /-- The lookaheads of an item are those of the states that are merged. -/
  holds_lookahead_iff : ∀ k item t, b.Holds k (item, some t) ↔
    ∃ n, image n = k ∧ a.Holds n (item, some t)

/-! ### Cores -/

/-- Item sets have the same core if their states have the same items. -/
theorem coreEq_iff_core_eq (hs : a.items? n = some s) (ht : b.items? k = some t) :
    s.CoreEq t ↔ a.core n = b.core k := by
  constructor
  · intro h
    ext item
    exact (mem_keys_iff hs).symm.trans ((iff_of_eq (congrArg (item ∈ ·) h)).trans (mem_keys_iff ht))
  · intro h
    refine SortedSet.ext fun item => ?_
    rw [mem_keys_iff hs, mem_keys_iff ht]
    exact Set.ext_iff.mp h item

/-! ### Merging -/

theorem IsPart.exists_items (h : IsPart a n k) : ∃ t, a.merged.items? k = some t := by
  obtain ⟨r, -, hk⟩ := h
  obtain ⟨e, he, -⟩ := Option.map_eq_some_iff.mp hk
  rw [items?, getElem?_states_merged, he]
  exact ⟨_, rfl⟩

/-- A transition of a merged state comes from every state that is a part of it. -/
theorem Lawful.exists_transition_of_isPart (h : Lawful g a)
    (hreach : ∀ n s, a.items? n = some s → ReflTransGen a.Next initial n) (hn : IsPart a n k)
    (hl : a.merged.transition? k X = some l) : ∃ m, a.transition? n X = some m ∧ IsPart a m l := by
  have hq := h.isQuotient_merged hreach
  -- some part of the merged state has the transition; the others have the same items, hence theirs
  obtain ⟨n', m', hn', hm', hl⟩ := (hq.transition_iff _ _ _).mp hl
  have hsame := hq.sameItems n' n k hn' hn
  obtain ⟨item, hitem, hnext⟩ := h.exists_item n' X m' hm'
  obtain ⟨m, hm⟩ := h.exists_transition n item X ((hsame item).mp hitem) hnext
  obtain ⟨-, t, -, ht⟩ := h.exists_items hm
  obtain ⟨l', hl'⟩ := h.exists_merged (hreach m t ht)
  obtain rfl := h.eq_of_sameItems_of_isPart hl' hl
    (h.sameItems_of_transition (fun item => (hsame item).symm) hm hm')
  exact ⟨m, hm, hl'⟩

/-- If all states are reached, merging takes each state to the one that has the same core. States
that are not reached would have no image, since the merging leaves them out. -/
theorem Lawful.exists_isCoreQuotient_merged (h : Lawful g a)
    (hreach : ∀ n s, a.items? n = some s → ReflTransGen a.Next initial n) :
    ∃ image, IsCoreQuotient a a.merged image := by
  have hq := h.isQuotient_merged hreach
  choose! image hpart using fun n (hn : ReflTransGen a.Next initial n) => h.exists_merged hn
  replace hpart {n : Nat} {s : ItemSet} (hs : a.items? n = some s) : IsPart a n (image n) :=
    hpart n (hreach n s hs)
  have himage {n k : Nat} {s : ItemSet} (hs : a.items? n = some s) :
      IsPart a n k ↔ image n = k := by
    refine ⟨fun hk => h.eq_of_sameItems_of_isPart (hpart hs) hk fun _ => Iff.rfl, ?_⟩
    rintro rfl
    exact hpart hs
  exact ⟨image, {
    grammar_eq := rfl
    image_initial := by
      obtain ⟨s, hs, -⟩ := h.start
      exact (himage hs).mp ((hq.part_initial_iff _).mpr rfl)
    coreEq_image := fun n s hs => by
      obtain ⟨t, ht⟩ := (hpart hs).exists_items
      exact ⟨t, ht, (coreEq_iff_core_eq hs ht).mpr (hq.core_eq (hpart hs)).symm⟩
    eq_of_coreEq := fun k l s t hs ht hcore => by
      obtain ⟨n, -, hn, -⟩ := h.exists_isPart hs
      obtain ⟨m, -, hm, -⟩ := h.exists_isPart ht
      refine h.eq_of_sameItems_of_isPart hn hm (sameItems_iff_core_eq.mpr ?_)
      rw [← hq.core_eq hn, ← hq.core_eq hm]
      exact (coreEq_iff_core_eq hs ht).mp hcore
    onto := fun k t ht => by
      obtain ⟨n, s, hn, hs⟩ := h.exists_isPart ht
      exact ⟨n, s, hs, (himage hs).mp hn⟩
    transition_image := fun n X m hm => by
      obtain ⟨s, t, hs, ht⟩ := h.exists_items hm
      exact (hq.transition_iff _ _ _).mpr ⟨n, m, hpart hs, hm, hpart ht⟩
    exists_transition := fun n s X l hs hl => by
      obtain ⟨m, hm, hml⟩ := h.exists_transition_of_isPart hreach (hpart hs) hl
      obtain ⟨-, t, -, ht⟩ := h.exists_items hm
      exact ⟨m, hm, (himage ht).mp hml⟩
    holds_lookahead_iff := fun k item t => by
      rw [hq.holds_iff]
      refine exists_congr fun n => and_congr_left fun hf => ?_
      obtain ⟨s, hs, -⟩ := hf
      exact himage hs }⟩

end Automaton

end Recognizer.LR
