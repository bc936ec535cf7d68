import Recognizer.Proofs.LR.CoreQuotient
import Recognizer.Proofs.LR.Lookaheads

/-!
# The numbers of merged states

Merged states are numbered in breadth-first order with the symbols tried in order. There is only one
way to number the states of an automaton like this. So merging once more changes nothing: since the
states have different items by then, it could only number them in another way.

## Main definitions

* `Automaton.Before`: the order in which the transitions of an automaton are gone through.
* `Automaton.IsBreadthFirst`: the states are numbered in breadth-first order.

## Main results

* `Automaton.Lawful.isBreadthFirst_merged`: merged states are numbered in this order.
* `Automaton.IsCoreQuotient.image_eq_self`: there is only one such numbering.
* `Automaton.Lawful.merged_eq_self`: merging changes nothing if there is nothing to merge.
* `Automaton.isCoreQuotient_merged_of_construct`: what merging makes of the automaton of a grammar.
-/

namespace Recognizer.LR

open Relation (ReflTransGen)

namespace Automaton

variable {g : Grammar} {a b : Automaton} {image : Nat → Nat} {s t : ItemSet} {X Y : Symbol}
  {n m k l p q : Nat}

/-! ### Breadth-first order -/

/-- The transition of `p` on `X` comes before that of `q` on `Y`, if the states are gone through by
their numbers and the symbols of each state in order. -/
def Before (p : Nat) (X : Symbol) (q : Nat) (Y : Symbol) : Prop :=
  p < q ∨ p = q ∧ compare X Y = .lt

theorem Before.asymm (h : Before p X q Y) : ¬ Before q Y p X := by
  rintro (hlt | ⟨rfl, hlt⟩)
  · rcases h with h | ⟨rfl, -⟩
    · exact Nat.lt_asymm h hlt
    · exact Nat.lt_irrefl _ hlt
  · rcases h with h | ⟨-, h⟩
    · exact Nat.lt_irrefl _ h
    · rw [Std.OrientedCmp.gt_iff_lt.mpr h] at hlt
      cases hlt

/-- The states are numbered in breadth-first order with symbols tried in order: each state but the
initial one is found by a transition of an earlier state, which comes before all transitions to
later states. -/
def IsBreadthFirst (a : Automaton) : Prop :=
  ∀ k, 0 < k → k < a.states.length → ∃ p X, p < k ∧ a.transition? p X = some k ∧
    ∀ q Y l, a.transition? q Y = some l → k < l → Before p X q Y

theorem IsBreadthFirst.reaches (h : a.IsBreadthFirst) (hn : n < a.states.length) :
    ReflTransGen a.Next initial n := by
  induction n using Nat.strongRecOn with
  | ind n ih =>
    rcases Nat.eq_zero_or_pos n with rfl | hpos
    · exact .refl
    · obtain ⟨p, X, hp, hX, -⟩ := h n hpos hn
      exact (ih p hp (hp.trans hn)).tail ⟨X, hX⟩

theorem length_states_merged (a : Automaton) :
    a.merged.states.length = (foundGroups a).length := by
  rw [merged, List.length_map]
  rfl

/-- Merged states are numbered in breadth-first order, which is the order in which the groups have
been found. -/
theorem Lawful.isBreadthFirst_merged (h : Lawful g a) : a.merged.IsBreadthFirst := by
  intro k hpos hk
  have hfound := foundGroups_explored h
  rw [length_states_merged] at hk
  have he := List.getElem?_eq_getElem hk
  generalize (foundGroups a)[k] = e at he
  obtain ⟨p, d, u, X, v, hp, hd, hrow, hbefore⟩ :=
    hfound.exists_edge_before (fun _ _ _ _ => id) he hpos
  refine ⟨p, X, hp, ?_, fun q Y l hl hkl => ?_⟩
  · refine (transition?_merged_iff_foundGroups h).mpr ⟨d, e.1, hd, ?_, by rw [he]; rfl⟩
    rw [hrow]
    exact List.mem_append_right _ List.mem_cons_self
  · obtain ⟨d', r, hd', hr, hl⟩ := (transition?_merged_iff_foundGroups h).mp hl
    obtain ⟨e', he', rfl⟩ := Option.map_eq_some_iff.mp hl
    have hlater : e'.1 ∉ keysBefore id (foundGroups a) k := by
      intro hmem
      obtain ⟨i, d, hi, hd, heq⟩ := mem_keysBefore_iff.mp hmem
      exact Nat.ne_of_lt (hi.trans hkl) (hfound.eq_of_key_eq hd he' heq)
    rcases Nat.lt_trichotomy p q with hpq | rfl | hqp
    · exact Or.inl hpq
    · obtain rfl := Option.some.inj (hd.symm.trans hd')
      refine Or.inr ⟨rfl, ?_⟩
      have hsorted : d.2.Pairwise fun out out' => compare out.1 out'.1 = .lt := by
        rw [hfound.edges_eq d (List.mem_of_getElem? hd)]
        exact SortedMap.ascending_toList _
      rw [hrow] at hr hsorted
      rcases List.mem_append.mp hr with hr | hr
      · exact absurd (hbefore _ (List.mem_append_right _ (List.mem_map_of_mem hr))) hlater
      · rcases List.mem_cons.mp hr with heq | hr
        · obtain ⟨-, heq⟩ := Prod.mk.inj heq
          exact absurd (hfound.eq_of_key_eq he he' heq.symm) (Nat.ne_of_lt hkl)
        · exact (List.pairwise_cons.mp (List.pairwise_append.mp hsorted).2.1).1 _ hr
    · have htake : d' ∈ (foundGroups a).take p :=
        List.mem_of_getElem? (i := q) (by rw [List.getElem?_take_of_lt hqp, hd'])
      exact absurd (hbefore _ (List.mem_append_left _ (mem_targets.mpr ⟨d', htake, Y, hr⟩))) hlater

/-! ### There is only one numbering -/

/-- Different states of a quotient of states with different items come from different states. -/
theorem IsCoreQuotient.eq_of_image_eq (hq : IsCoreQuotient a b image)
    (hdistinct : ∀ n m s t, a.items? n = some s → a.items? m = some t → s.CoreEq t → n = m)
    (hs : a.items? n = some s) (ht : a.items? m = some t) (himage : image n = image m) : n = m := by
  obtain ⟨s', hs', hcore⟩ := hq.coreEq_image n s hs
  obtain ⟨t', ht', hcore'⟩ := hq.coreEq_image m t ht
  rw [himage] at hs'
  obtain rfl := Option.some.inj (hs'.symm.trans ht')
  exact hdistinct n m s t hs ht (hcore.trans hcore'.symm)

/-- If the states of an automaton have different items, and both it and its quotient are numbered in
breadth-first order, the numbers are the same. -/
theorem IsCoreQuotient.image_eq_self (hq : IsCoreQuotient a b image)
    (hdistinct : ∀ n m s t, a.items? n = some s → a.items? m = some t → s.CoreEq t → n = m)
    (ha : a.IsBreadthFirst) (hb : b.IsBreadthFirst) (hn : n < a.states.length) : image n = n := by
  induction n using Nat.strongRecOn with
  | ind n ih =>
    rcases Nat.eq_zero_or_pos n with rfl | hpos
    · exact hq.image_initial
    obtain ⟨s, hs⟩ := lt_length_iff.mp hn
    rcases Nat.lt_trichotomy (image n) n with hlt | heq | hlt
    · have hk := hlt.trans hn
      obtain ⟨t, ht⟩ := lt_length_iff.mp hk
      exact hq.eq_of_image_eq hdistinct ht hs (ih _ hlt hk)
    · exact heq
    · -- the transition that finds `n` in `a` leads to a later state of `b`, and the other way round
      obtain ⟨t, ht, -⟩ := hq.coreEq_image n s hs
      have hnb : n < b.states.length := hlt.trans (lt_length_iff.mpr ⟨t, ht⟩)
      obtain ⟨p, X, hp, hX, hfirst⟩ := ha n hpos hn
      obtain ⟨q, Y, hqn, hY, hfirst'⟩ := hb n hpos hnb
      have himage := hq.transition_image p X n hX
      rw [ih p hp (hp.trans hn)] at himage
      obtain ⟨t, ht⟩ := lt_length_iff.mp (hqn.trans hn)
      rw [← ih q hqn (hqn.trans hn)] at hY
      obtain ⟨m, hm, hmn⟩ := hq.exists_transition q t Y n ht hY
      have hnm : n < m := by
        rcases Nat.lt_trichotomy n m with hnm | rfl | hmn'
        · exact hnm
        · exact absurd hmn hlt.ne'
        · exact absurd ((ih m hmn' (hmn'.trans hn)).symm.trans hmn) hmn'.ne
      exact absurd (hfirst q Y m hm hnm) (hfirst' p X _ himage hlt).asymm

/-! ### Merging once more -/

/-- Automata are the same if they have the same item sets and transitions. -/
theorem eq_of_forall (hgrammar : a.grammar = b.grammar) (hitems : ∀ n, a.items? n = b.items? n)
    (htransition : ∀ n X, a.transition? n X = b.transition? n X) : a = b := by
  obtain ⟨grammar, states⟩ := a
  obtain ⟨grammar', states'⟩ := b
  obtain rfl : grammar = grammar' := hgrammar
  congr 1
  refine List.ext_getElem? fun n => ?_
  have hitems := hitems n
  have htransition := htransition n
  simp only [items?, transition?] at hitems htransition
  cases hs : states[n]? with
  | none =>
    rw [hs] at hitems
    exact (Option.map_eq_none_iff.mp hitems.symm).symm
  | some s =>
    rw [hs] at hitems htransition
    obtain ⟨s', hs', heq⟩ := Option.map_eq_some_iff.mp hitems.symm
    rw [hs'] at htransition ⊢
    obtain ⟨items, transitions⟩ := s
    obtain ⟨items', transitions'⟩ := s'
    obtain rfl : items' = items := heq
    obtain rfl : transitions = transitions' := SortedMap.ext htransition
    rfl

private theorem IsCoreQuotient.eq_of_image_eq_self (hq : IsCoreQuotient a b image)
    (ha : Lawful g a) (hb : Lawful g b) (himage : ∀ n s, a.items? n = some s → image n = n) :
    b = a := by
  have hitems {n : Nat} {s : ItemSet} (hs : a.items? n = some s) : b.items? n = some s := by
    obtain ⟨t, ht, hcore⟩ := hq.coreEq_image n s hs
    rw [himage n s hs] at ht
    rw [ht, Option.some.injEq]
    refine SortedMap.ext_holds fun ⟨item, o⟩ => ?_
    rw [← holds_iff hs, ← holds_iff ht]
    cases o with
    | none => rw [← mem_keys_iff hs, ← mem_keys_iff ht, show s.keys = t.keys from hcore]
    | some x =>
      rw [hq.holds_lookahead_iff]
      constructor
      · rintro ⟨m, rfl, hf⟩
        obtain ⟨s', hs', -⟩ := id hf
        rwa [himage m s' hs']
      · exact fun hf => ⟨n, himage n s hs, hf⟩
  have hitems' {n : Nat} {t : ItemSet} (ht : b.items? n = some t) : a.items? n = some t := by
    obtain ⟨m, s, hs, rfl⟩ := hq.onto n t ht
    rw [himage m s hs] at ht ⊢
    rwa [hs, ← hitems hs]
  refine eq_of_forall hq.grammar_eq (fun n => Option.ext fun t => ⟨hitems', hitems⟩)
    fun n X => Option.ext fun m => ⟨fun hm => ?_, fun hm => ?_⟩
  · obtain ⟨t, -, ht, -⟩ := hb.exists_items hm
    rw [← himage n t (hitems' ht)] at hm
    obtain ⟨m', hm', rfl⟩ := hq.exists_transition n t X m (hitems' ht) hm
    obtain ⟨-, t', -, ht'⟩ := ha.exists_items hm'
    rwa [himage m' t' ht']
  · obtain ⟨s, t, hs, ht⟩ := ha.exists_items hm
    have himage' := hq.transition_image n X m hm
    rwa [himage n s hs, himage m t ht] at himage'

/-- Merging changes nothing if the states have different items and are numbered in breadth-first
order. -/
theorem Lawful.merged_eq_self (h : Lawful g a) (ha : a.IsBreadthFirst)
    (hdistinct : ∀ n m s t, a.items? n = some s → a.items? m = some t → s.CoreEq t → n = m) :
    a.merged = a := by
  have hreach (n : Nat) (s : ItemSet) (hs : a.items? n = some s) :
      ReflTransGen a.Next initial n :=
    ha.reaches (lt_length_iff.mpr ⟨s, hs⟩)
  obtain ⟨image, hq⟩ := h.exists_isCoreQuotient_merged hreach
  exact hq.eq_of_image_eq_self h ((h.isQuotient_merged hreach).lawful h) fun n s hs =>
    hq.image_eq_self hdistinct ha h.isBreadthFirst_merged (lt_length_iff.mpr ⟨s, hs⟩)

/-- The merged automaton of a grammar is the quotient of the automaton of all item sets by cores, it
is numbered in breadth-first order, and merging it once more changes nothing. -/
theorem isCoreQuotient_merged_of_construct (h : construct g = .ok a) :
    lalr g = .ok a.merged ∧ (∃ image, IsCoreQuotient a a.merged image) ∧
      a.merged.IsBreadthFirst ∧ a.merged.merged = a.merged := by
  have hcanonical := isCanonical_of_construct h
  have hbreadthFirst := hcanonical.lawful.isBreadthFirst_merged
  obtain ⟨image, hq⟩ := hcanonical.lawful.exists_isCoreQuotient_merged fun _ _ => hcanonical.reaches
  have hlalr : lalr g = .ok a.merged := map_eq_ok_iff.mpr ⟨a, h, rfl⟩
  exact ⟨hlalr, ⟨image, hq⟩, hbreadthFirst,
    (lawful_of_lalr hlalr).merged_eq_self hbreadthFirst hq.eq_of_coreEq⟩

theorem isCoreQuotient_merged_of_construct_twoWords :
    ∃ a, construct twoWords = .ok a ∧ a.states.length = 10 ∧ a.merged.states.length = 7 ∧
      lalr twoWords = .ok a.merged ∧ (∃ image, IsCoreQuotient a a.merged image) ∧
        a.merged.IsBreadthFirst ∧ a.merged.merged = a.merged := by
  have hstates : (do
      let a ← construct twoWords
      return (a.states.length, a.merged.states.length)) = Except.ok (10, 7) := by
    decide +kernel
  obtain ⟨a, ha, hstates⟩ := bind_eq_ok_iff.mp hstates
  obtain ⟨hten, hseven⟩ := Prod.mk.inj (Except.ok.inj hstates)
  exact ⟨a, ha, hten, hseven, isCoreQuotient_merged_of_construct ha⟩

end Automaton

end Recognizer.LR
