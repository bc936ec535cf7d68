import Recognizer.Proofs.Dfa.Marking
import Recognizer.Proofs.Dfa.Minimize

/-!
# The states of the minimal automaton

A state of the minimal automaton is the smallest one of its class, or else the trap, which stands
for its own class whatever its name is. So the states of the minimal automaton are states of the
automaton that it is made from, one for each class, and no two of them are equivalent. An automaton
of which this is true is its own minimal automaton.

## Main definitions

* `Dfa.IsRepresentative`: the state stands for its class.

## Main results

* `Dfa.IsReduced.equivalentCount_eq_zero`: the table of an automaton without equivalent states.
* `Dfa.collapse_pairTable`: the minimal automaton is made by the table of pairs.
* `Dfa.mem_states_minimize_iff_isRepresentative`: the states of the minimal automaton.
* `Dfa.minimize_eq_self`: which automata are their own minimal automata.
* `Dfa.isMinimal_minimize`, `Dfa.minimize_ofExpr`: the minimal automaton of a total automaton, and
  that of an expression.
* `Dfa.derive_collapse_pairTable_ofExpr`, `Dfa.isMinimal_collapse_pairTable_ofExpr`: the same of the
  automaton that the table of pairs leaves.
-/

namespace Recognizer.Dfa

open Regex (Expr Leaf)

variable {d : Dfa} {s t : StateId}

/-- If no two states are equivalent, no pair is marked so. The table has an entry for every pair of
different states, so this does not hold for want of entries. -/
theorem IsReduced.equivalentCount_eq_zero (h : d.IsReduced) (hd : d.IsTotal) :
    d.pairTable.equivalentCount = 0 := by
  have hsettled := isSettled_pairTable hd
  rw [PairTable.equivalentCount, List.length_eq_zero_iff, List.filter_eq_nil_iff]
  intro m hm hequivalent
  obtain ⟨⟨p, m⟩, he, rfl⟩ := List.mem_map.mp hm
  obtain rfl := of_decide_eq_true hequivalent
  have hget := SortedMap.mem_toList.mp he
  obtain ⟨a, ha, b, hb, hne, rfl⟩ := hsettled.pair _ _ hget
  have hab := PairTable.isEquivalent_iff.mpr (Or.inr hget)
  exact hne (h a ha b hb ((hsettled.isEquivalent_iff hd ha hb).mp hab))

/-! ### Representatives -/

/-- The state stands for its class: it is the trap, or it is the smallest state of a class that the
trap does not belong to. -/
def IsRepresentative (d : Dfa) (t : StateId) : Prop :=
  t ∈ d.states ∧ (t = d.trap ∨ d.verdict t ≠ d.verdict d.trap ∧
    ∀ s ∈ d.states, d.verdict s = d.verdict t → (compare t s).isLE)

theorem className_trap (hd : d.IsTotal) : d.className d.trap = d.trap := by
  rw [className_of_mem hd.trap_mem]
  exact if_pos rfl

/-- A class has the name that the table of pairs has for its states. -/
theorem className_eq_firstEquivalent (hd : d.IsTotal) (hs : s ∈ d.states) :
    d.className s = d.firstEquivalent d.pairTable s := by
  have hpartition := isPartition_leaders d
  have hequivalent {t : StateId} (ht : t ∈ d.states) :
      d.pairTable.IsEquivalent s t ↔ d.leaders.get? s = d.leaders.get? t := by
    rw [(isSettled_pairTable hd).isEquivalent_iff hd hs ht, get?_leaders_eq_iff hd hs ht]
  have htrap :
      d.leaders.leader s = d.leaders.leader d.trap ↔ d.pairTable.IsEquivalent s d.trap := by
    rw [hpartition.leader_eq_iff hs hd.trap_mem, hequivalent hd.trap_mem]
  obtain ⟨l, hl⟩ := hpartition.exists_leader hs
  obtain ⟨-, hlmem, hclass, hmin⟩ := (hpartition s l).mp hl
  have hfind : d.states.toList.find? (fun t => d.pairTable.IsEquivalent s t) = some l := by
    refine SortedSet.find?_toList_eq_some_iff.mpr ⟨hlmem, ?_, fun t ht h => ?_⟩
    · exact decide_eq_true ((hequivalent hlmem).mpr hclass.symm)
    · exact hmin t ht ((hequivalent ht).mp (of_decide_eq_true h)).symm
  rw [className_of_mem hs, representative, firstEquivalent, hfind, Leaders.leader_eq hl,
    Option.getD_some]
  rw [Leaders.leader_eq hl] at htrap
  exact if_congr htrap rfl rfl

theorem get?_firstOf_rows (d : Dfa) (t : StateId) :
    (SortedMap.firstOf (d.rows.toList.map fun e =>
      (d.className e.1, e.2.mapValues d.className))).get? t = d.minimize.rows.get? t := by
  have hpartition := isPartition_leaders d
  rw [SortedMap.get?_firstOf_map_toList d.className (SortedMap.mapValues d.className)]
  cases hfirst : d.rows.keys.toList.find? fun s => d.className s = t with
  | none =>
    have ht : t ∉ d.minimize.states := fun ht => by
      obtain ⟨s, hs, hname⟩ := mem_states_minimize.mp ht
      exact List.find?_eq_none.mp hfirst s hs (decide_eq_true hname)
    rw [states, SortedMap.mem_keys, Bool.not_eq_true, Option.isSome_eq_false_iff,
      Option.isNone_iff_eq_none] at ht
    rw [ht, Option.bind_none]
  | some l =>
    obtain ⟨hl, hname, hmin⟩ := SortedSet.find?_toList_eq_some_iff.mp hfirst
    obtain rfl := of_decide_eq_true hname
    have hleader : d.leaders.get? l = some l := (hpartition l l).mpr ⟨hl, hl, rfl, fun s hs h =>
      hmin s hs (decide_eq_true ((className_eq_iff hs hl).mpr h))⟩
    obtain ⟨row, hrow⟩ := Option.isSome_iff_exists.mp (SortedMap.mem_keys.mp hl)
    rw [get?_rows_minimize hleader hrow, Option.bind_some, hrow, Option.map_some]

/-- The table of pairs makes the minimal automaton. The names that the table has for states are
those of their classes, and the row of the first state with a name is that of the leader. -/
theorem collapse_pairTable (hd : d.IsTotal) : d.collapse d.pairTable = d.minimize := by
  have hname : (fun s => ((SortedMap.tabulate d.states (d.firstEquivalent d.pairTable)).get? s).getD
      s) = d.className := by
    funext s
    by_cases hs : s ∈ d.states
    · rw [className_eq_firstEquivalent hd hs, SortedMap.get?_tabulate, if_pos hs, Option.getD_some]
    · rw [className, SortedMap.get?_tabulate, SortedMap.get?_tabulate, if_neg hs, if_neg hs]
  have hrows : SortedMap.firstOf (d.rows.toList.map fun e =>
      (d.className e.1, e.2.mapValues d.className)) = d.minimize.rows :=
    SortedMap.ext (get?_firstOf_rows d)
  rw [collapse, hname, hrows]
  rfl

theorem isRepresentative_className (hd : d.IsTotal) (hs : s ∈ d.states) :
    d.IsRepresentative (d.className s) := by
  have hpartition := isPartition_leaders d
  rw [className_of_mem hs, representative]
  split
  · exact ⟨hd.trap_mem, Or.inl rfl⟩
  · next hne =>
    obtain ⟨l, hl⟩ := hpartition.exists_leader hs
    obtain ⟨-, hlmem, hclass, hmin⟩ := (hpartition s l).mp hl
    rw [Leaders.leader_eq hl] at hne ⊢
    refine ⟨hlmem, Or.inr ⟨fun hverdict => hne ?_, fun t ht hverdict => ?_⟩⟩
    · have htrap := (get?_leaders_eq_iff hd hlmem hd.trap_mem).mpr hverdict
      rw [hclass, hl] at htrap
      exact (Leaders.leader_eq htrap.symm).symm
    · have hsame := (get?_leaders_eq_iff hd ht hlmem).mpr hverdict
      exact Ordering.isLE_iff_ne_gt.mpr (hmin t ht (hsame.trans hclass))

theorem IsRepresentative.className_eq (h : d.IsRepresentative t) (hd : d.IsTotal) :
    d.className t = t := by
  obtain ⟨ht, rfl | ⟨hne, hmin⟩⟩ := h
  · exact className_trap hd
  · have hleader : d.leaders.get? t = some t := by
      refine (isPartition_leaders d t t).mpr ⟨ht, ht, rfl, fun s hs hclass => ?_⟩
      exact Ordering.isLE_iff_ne_gt.mp (hmin s hs ((get?_leaders_eq_iff hd hs ht).mp hclass))
    rw [className_of_mem ht, representative, Leaders.leader_eq hleader]
    refine if_neg fun htrap => hne ?_
    rw [← get?_leaders_eq_iff hd ht hd.trap_mem,
      ← (isPartition_leaders d).leader_eq_iff ht hd.trap_mem, Leaders.leader_eq hleader]
    exact htrap

/-- The states of the minimal automaton are those that stand for their classes. -/
theorem mem_states_minimize_iff_isRepresentative (hd : d.IsTotal) :
    t ∈ d.minimize.states ↔ d.IsRepresentative t := by
  rw [mem_states_minimize]
  constructor
  · rintro ⟨s, hs, rfl⟩
    exact isRepresentative_className hd hs
  · exact fun h => ⟨t, h.1, h.className_eq hd⟩

/-! ### Rows -/

theorem hasFullRows_minimize (h : d.HasFullRows) : d.minimize.HasFullRows := by
  intro t row hrow
  rw [minimize_eq] at hrow ⊢
  obtain ⟨⟨s, row'⟩, hmem, heq⟩ := List.mem_map.mp (SortedMap.mem_of_get?_ofList hrow)
  rw [← (Prod.mk.inj heq).2, SortedMap.keys_mapValues]
  exact h s row' (SortedMap.mem_toList.mp (List.mem_filter.mp hmem).1)

/-- The row of a state leads to states, by the characters of the alphabet. -/
theorem exists_row (hd : d.IsTotal) (hrows : d.HasFullRows) (hs : s ∈ d.states) :
    ∃ row, d.rows.get? s = some row ∧ row.keys = d.alphabet ∧
      ∀ c t, row.get? c = some t → t ∈ d.states := by
  obtain ⟨row, hrow⟩ := Option.isSome_iff_exists.mp (SortedMap.mem_keys.mp hs)
  refine ⟨row, hrow, hrows s row hrow, fun c t ht => ?_⟩
  have hstep : d.step s c = t := by
    rw [step, hrow, Option.bind_some, ht, Option.getD_some]
  exact hstep ▸ hd.step_mem s hs c

/-! ### Minimal automata of minimal automata -/

theorem className_eq_id (hd : d.IsTotal) (h : d.IsReduced) : d.className = id := by
  funext s
  by_cases hs : s ∈ d.states
  · refine IsRepresentative.className_eq
      ⟨hs, or_iff_not_imp_left.mpr fun hne => ⟨fun hverdict => ?_, fun t ht hverdict => ?_⟩⟩ hd
    · exact hne (h s hs d.trap hd.trap_mem hverdict)
    · rw [h t ht s hs hverdict]
      exact Std.ReflCmp.isLE_rfl
  · rw [className, SortedMap.get?_tabulate, if_neg hs]
    rfl

theorem IsReduced.leader_eq (h : d.IsReduced) (hd : d.IsTotal) (hs : s ∈ d.states) :
    d.leaders.leader s = s := by
  refine Leaders.leader_eq ((isPartition_leaders d s s).mpr ⟨hs, hs, rfl, fun t ht hclass => ?_⟩)
  rw [h t ht s hs ((get?_leaders_eq_iff hd ht hs).mp hclass)]
  exact Ordering.isLE_iff_ne_gt.mp Std.ReflCmp.isLE_rfl

/-- An automaton without equivalent states is its own minimal automaton: every state is the leader
of its class, so nothing is renamed and no row is left out. -/
theorem minimize_eq_self (hd : d.IsTotal) (h : d.IsReduced) : d.minimize = d := by
  have hleaders : (d.rows.toList.filter fun e => d.leaders.leader e.1 = e.1) = d.rows.toList := by
    refine List.filter_eq_self.mpr fun e he => decide_eq_true (h.leader_eq hd ?_)
    exact SortedMap.mem_keys.mpr (Option.isSome_of_eq_some (SortedMap.mem_toList.mp he))
  have hrow (row : SortedMap Char StateId) : row.mapValues id = row :=
    SortedMap.ext fun c => by rw [SortedMap.get?_mapValues, Option.map_id_fun, id]
  rw [minimize_eq, className_eq_id hd h, hleaders]
  simp only [hrow, id, List.map_id', List.map_id, SortedMap.ofList_toList, SortedSet.ofList_toList]

/-- The states of a minimal automaton. For a total automaton whose rows have all characters of its
alphabet: no two states of the minimal automaton are equivalent, they are the ones that stand for
their classes, their rows are full and lead to states, and minimising once more changes nothing. -/
theorem isMinimal_minimize (hd : d.IsTotal) (hrows : d.HasFullRows) :
    d.minimize.IsReduced ∧ d.minimize.pairTable.equivalentCount = 0 ∧
      (∀ t, t ∈ d.minimize.states ↔ d.IsRepresentative t) ∧
      d.minimize.trap = d.trap ∧ d.minimize.IsTotal ∧ d.minimize.alphabet = d.alphabet ∧
      (∀ s ∈ d.minimize.states, ∃ row, d.minimize.rows.get? s = some row ∧
        row.keys = d.alphabet ∧ ∀ c t, row.get? c = some t → t ∈ d.minimize.states) ∧
      d.minimize.minimize = d.minimize := by
  have htotal := isTotal_minimize hd
  have hreduced := isReduced_minimize hd
  exact ⟨hreduced, hreduced.equivalentCount_eq_zero htotal,
    fun t => mem_states_minimize_iff_isRepresentative hd, className_trap hd, htotal, rfl,
    fun s hs => exists_row htotal (hasFullRows_minimize hrows) hs,
    minimize_eq_self htotal hreduced⟩

/-- The minimal automaton of an expression has no two equivalent states, and no pair of them is
marked equivalent. Its states are the smallest of each class, except that the trap stands for its
own class. Each has a row for the same alphabet, which leads to states. The minimal automaton of the
minimal automaton is this itself. -/
theorem minimize_ofExpr (e : Expr Leaf) :
    (ofExpr e).minimize.IsReduced ∧ (ofExpr e).minimize.pairTable.equivalentCount = 0 ∧
      (∀ t, t ∈ (ofExpr e).minimize.states ↔ (ofExpr e).IsRepresentative t) ∧
      (ofExpr e).minimize.trap = (ofExpr e).trap ∧
      (ofExpr e).minimize.IsTotal ∧ (ofExpr e).minimize.alphabet = (ofExpr e).alphabet ∧
      (∀ s ∈ (ofExpr e).minimize.states, ∃ row, (ofExpr e).minimize.rows.get? s = some row ∧
        row.keys = (ofExpr e).alphabet ∧
        ∀ c t, row.get? c = some t → t ∈ (ofExpr e).minimize.states) ∧
      (ofExpr e).minimize.minimize = (ofExpr e).minimize :=
  isMinimal_minimize (isTotal_ofExpr e) (hasFullRows_ofExpr e)

/-! ### The automaton that the table of pairs leaves -/

/-- Matches of the collapsed automaton. Making one the states that the table of pairs marks as
equivalent changes neither what the automaton of an expression accepts nor its longest matches. -/
theorem derive_collapse_pairTable_ofExpr (e : Expr Leaf) (text : List Char) :
    ((ofExpr e).collapse (ofExpr e).pairTable).derive text = (ofExpr e).derive text ∧
      ((ofExpr e).collapse (ofExpr e).pairTable).longestMatch text =
        (ofExpr e).longestMatch text := by
  have hd := isTotal_ofExpr e
  rw [collapse_pairTable hd]
  exact derive_minimize hd (trapIsDead_ofExpr e) text

/-- States of the collapsed automaton. What `isMinimal_minimize` says of the classes holds of the
automaton that the table of pairs leaves of an expression's automaton, and its own table leaves it
as it is. -/
theorem isMinimal_collapse_pairTable_ofExpr (e : Expr Leaf) {c : Dfa}
    (hc : (ofExpr e).collapse (ofExpr e).pairTable = c) :
    c.IsReduced ∧ c.pairTable.equivalentCount = 0 ∧
      (∀ t, t ∈ c.states ↔ (ofExpr e).IsRepresentative t) ∧
      c.trap = (ofExpr e).trap ∧ c.IsTotal ∧ c.alphabet = (ofExpr e).alphabet ∧
      (∀ s ∈ c.states, ∃ row, c.rows.get? s = some row ∧ row.keys = (ofExpr e).alphabet ∧
        ∀ a t, row.get? a = some t → t ∈ c.states) ∧
      c.collapse c.pairTable = c := by
  have hd := isTotal_ofExpr e
  rw [collapse_pairTable hd] at hc
  subst hc
  rw [collapse_pairTable (isTotal_minimize hd)]
  exact isMinimal_minimize hd (hasFullRows_ofExpr e)

end Recognizer.Dfa
