import Recognizer.LR.Merge
import Recognizer.Proofs.Iteration.Discovery
import Recognizer.Proofs.LR.Quotient

/-!
# Merging states with the same items

The states of the automaton of all item sets that have the same items make up a group, which has one
of them as its representative. A symbol leads from all members of a group to members of one group,
so the groups are the states of an automaton, and all of them are found.

## Main definitions

* `Automaton.IsPart`: a state is a part of a merged state.

## Main results

* `Automaton.IsCanonical.isQuotient_merged`: merged states are made of states with the same items.
* `Automaton.lawful_of_construct`, `Automaton.lawful_of_lalr`: the automata of a grammar are lawful.
-/

namespace Recognizer.LR

open Relation (ReflTransGen)

namespace Automaton

variable {g : Grammar} {a : Automaton} {s t : ItemSet} {f : Fact} {X : Symbol} {item : Item}
  {n m k l : Nat}

/-! ### Representatives -/

theorem holds_iff (hs : a.items? n = some s) : a.Holds n f ↔ SortedMap.Holds s f := by
  constructor
  · rintro ⟨s', hs', hf⟩
    rwa [Option.some.inj (hs.symm.trans hs')]
  · exact fun hf => ⟨s, hs, hf⟩

theorem holds_iff_state : a.Holds n f ↔
    ∃ s, a.states[n]? = some s ∧ SortedMap.Holds s.items f := by
  simp only [Holds, items?, Option.map_eq_some_iff]
  constructor
  · rintro ⟨_, ⟨s, hs, rfl⟩, hf⟩
    exact ⟨s, hs, hf⟩
  · rintro ⟨s, hs, hf⟩
    exact ⟨_, ⟨s, hs, rfl⟩, hf⟩

private theorem getElem?_representatives (a : Automaton) (n : Nat) :
    a.representatives[n]? = (a.items? n).map fun s =>
      ((SortedMap.places (a.states.map fun s => s.items.core)).get? s.core).getD initial := by
  simp only [representatives, items?, List.getElem?_toArray, List.getElem?_map, Option.map_map]
  rfl

private theorem exists_items_of_representative {r : Nat} (hr : a.representatives[n]? = some r) :
    ∃ s, a.items? n = some s := by
  rw [getElem?_representatives, Option.map_eq_some_iff] at hr
  obtain ⟨s, hs, -⟩ := hr
  exact ⟨s, hs⟩

private theorem exists_representative (hs : a.items? n = some s) :
    ∃ r t, a.representatives[n]? = some r ∧ a.items? r = some t ∧ t.core = s.core := by
  obtain ⟨state, hstate, rfl⟩ := Option.map_eq_some_iff.mp hs
  have hmem : state.items.core ∈ a.states.map fun s => s.items.core :=
    List.mem_map_of_mem (List.mem_of_getElem? hstate)
  obtain ⟨r, hr, hcore⟩ := SortedMap.exists_get?_places hmem
  rw [List.getElem?_map, Option.map_eq_some_iff] at hcore
  obtain ⟨state', hstate', hcore⟩ := hcore
  refine ⟨r, state'.items, ?_, Option.map_eq_some_iff.mpr ⟨state', hstate', rfl⟩, hcore⟩
  rw [getElem?_representatives, hs, Option.map_some, hr]
  rfl

theorem mem_keys_iff (hs : a.items? n = some s) : item ∈ s.keys ↔ a.Holds n (item, none) := by
  rw [SortedMap.mem_keys, ← SortedMap.holds_none_iff, holds_iff hs]

private theorem core_eq_iff (hs : a.items? n = some s) (ht : a.items? m = some t) :
    s.core = t.core ↔ SameItems a n m := by
  rw [← ItemSet.coreEq_iff]
  constructor
  · intro h item
    rw [← mem_keys_iff hs, ← mem_keys_iff ht, show s.keys = t.keys from h]
  · intro h
    refine SortedSet.ext fun item => ?_
    rw [mem_keys_iff hs, mem_keys_iff ht, h item]

/-- States have the same representative if they have the same items. -/
private theorem representative_eq_iff (hs : a.items? n = some s) (ht : a.items? m = some t) :
    a.representatives[n]? = a.representatives[m]? ↔ SameItems a n m := by
  rw [← core_eq_iff hs ht]
  constructor
  · intro h
    obtain ⟨r, s', hr, hs', hs'core⟩ := exists_representative hs
    obtain ⟨r', t', hr', ht', ht'core⟩ := exists_representative ht
    obtain rfl := Option.some.inj (hr.symm.trans (h.trans hr'))
    obtain rfl := Option.some.inj (hs'.symm.trans ht')
    exact hs'core.symm.trans ht'core
  · intro h
    rw [getElem?_representatives, getElem?_representatives, hs, ht, Option.map_some,
      Option.map_some, h]

/-! ### Groups -/

private theorem get?_groups (l : List (State × Nat)) (k : Nat) :
    ((l.foldr (fun s m => m.insertWith (· ++ ·) s.2 [s.1])
      (∅ : SortedMap Nat (List State))).get? k).getD [] =
      (l.filter fun e => e.2 = k).map Prod.fst := by
  induction l with
  | nil => rfl
  | cons e l ih =>
    rw [List.foldr_cons, SortedMap.get?_insertWith, List.filter_cons]
    by_cases h : k = e.2
    · rw [if_pos h, if_pos (by simp [h]), List.map_cons, ← ih]
      cases (l.foldr _ (∅ : SortedMap Nat (List State))).get? k with
      | none => rfl
      | some states => rfl
    · rw [if_neg h, if_neg (by simpa [eq_comm] using h), ih]

private theorem mem_group {s : State} :
    s ∈ ((a.groups a.representatives).get? k).getD [] ↔
      ∃ n : Nat, a.states[n]? = some s ∧ a.representatives[n]? = some k := by
  rw [groups, get?_groups, List.mem_map]
  constructor
  · rintro ⟨⟨s, r⟩, hmem, rfl⟩
    obtain ⟨hmem, hr⟩ := List.mem_filter.mp hmem
    obtain ⟨n, hn⟩ := List.getElem?_of_mem hmem
    obtain ⟨hs, hn⟩ := List.getElem?_zip_eq_some.mp hn
    obtain rfl : r = k := by simpa using hr
    exact ⟨n, hs, by simpa using hn⟩
  · rintro ⟨n, hs, hn⟩
    have hzip : (a.states.zip a.representatives.toList)[n]? = some (s, k) :=
      List.getElem?_zip_eq_some.mpr ⟨hs, by simpa using hn⟩
    exact ⟨(s, k), List.mem_filter.mpr ⟨List.mem_of_getElem? hzip, by simp⟩, rfl⟩

private theorem holds_groupItems {states : List State} :
    SortedMap.Holds (groupItems states) f ↔ ∃ s ∈ states, SortedMap.Holds s.items f := by
  have hfoldl (items : ItemSet) :
      SortedMap.Holds (states.foldl (fun items s => ItemSet.merge items s.items) items) f ↔
        SortedMap.Holds items f ∨ ∃ s ∈ states, SortedMap.Holds s.items f := by
    induction states generalizing items with
    | nil => simp
    | cons s states ih =>
      rw [List.foldl_cons, ih, ItemSet.merge, SortedMap.holds_unionWith, List.exists_mem_cons_iff,
        or_assoc]
  rw [groupItems, hfoldl]
  simp

/-! ### The merged automaton -/

/-- The transitions of the group with the given representative. -/
def groupEdges (a : Automaton) (k : Nat) : List (Symbol × Nat) :=
  (groupTransitions a.representatives (((a.groups a.representatives).get? k).getD [])).toList

/-- Two states of one group lead to states of one group. -/
private theorem representative_of_transition {n' m' : Nat} (h : Lawful g a)
    (hn : a.representatives[n]? = a.representatives[n']?) (hm : a.transition? n X = some m)
    (hm' : a.transition? n' X = some m') :
    a.representatives[m]? = a.representatives[m']? := by
  obtain ⟨s, t, hs, ht⟩ := h.exists_items hm
  obtain ⟨s', t', hs', ht'⟩ := h.exists_items hm'
  have hsame := (representative_eq_iff hs hs').mp hn
  exact (representative_eq_iff ht ht').mpr (h.sameItems_of_transition hsame hm hm')

private theorem transition?_eq_some_iff_state : a.transition? n X = some m ↔
    ∃ s, a.states[n]? = some s ∧ s.transitions.get? X = some m :=
  Option.bind_eq_some_iff

/-- The edges of a group are the transitions of its members, to the groups of their targets. -/
theorem mem_groupEdges (h : Lawful g a) : (X, l) ∈ groupEdges a k ↔
    ∃ n m : Nat, a.representatives[n]? = some k ∧ a.transition? n X = some m ∧
      a.representatives[m]? = some l := by
  have hedge {l : Nat} (hl : (X, l) ∈ groupEdges a k) : ∃ n m : Nat,
      a.representatives[n]? = some k ∧ a.transition? n X = some m ∧
        a.representatives[m]? = some l := by
    have hmem := SortedMap.mem_of_get?_ofList (SortedMap.mem_toList.mp hl)
    obtain ⟨⟨X', m⟩, he, heq⟩ := List.mem_map.mp hmem
    obtain ⟨hX, rfl⟩ := Prod.mk.inj heq
    obtain rfl : X = X' := hX.symm
    obtain ⟨s, hs, he⟩ := List.mem_flatMap.mp he
    obtain ⟨n, hn, hk⟩ := mem_group.mp hs
    have hm : a.transition? n X = some m :=
      transition?_eq_some_iff_state.mpr ⟨s, hn, SortedMap.mem_toList.mp he⟩
    obtain ⟨-, t, -, ht⟩ := h.exists_items hm
    obtain ⟨r, -, hr, -⟩ := exists_representative ht
    exact ⟨n, m, hk, hm, by rw [hr]; rfl⟩
  refine ⟨hedge, ?_⟩
  rintro ⟨n, m, hk, hm, hl⟩
  obtain ⟨s, hs, hget⟩ := transition?_eq_some_iff_state.mp hm
  have hmem : (X, (a.representatives[m]?).getD m) ∈ ((((a.groups a.representatives).get? k).getD
      []).flatMap fun s => s.transitions.toList).map fun e =>
        (e.1, (a.representatives[e.2]?).getD e.2) := by
    refine List.mem_map.mpr ⟨(X, m), List.mem_flatMap.mpr ⟨s, mem_group.mpr ⟨n, hs, hk⟩, ?_⟩, rfl⟩
    exact SortedMap.mem_toList.mpr hget
  obtain ⟨l', hl'⟩ := Option.isSome_iff_exists.mp (SortedMap.isSome_get?_ofList hmem)
  have hedge' : (X, l') ∈ groupEdges a k := SortedMap.mem_toList.mpr hl'
  -- the entry that counts may be that of another member, which leads to the same group
  obtain ⟨n', m', hk', hm', hl''⟩ := hedge hedge'
  have heq := representative_of_transition h (hk.trans hk'.symm) hm hm'
  rw [hl, hl'', Option.some.injEq] at heq
  rwa [heq]

private theorem mem_found {found : List (Nat × List (Symbol × Nat))} (h : Lawful g a)
    (hfound : Explored id (groupEdges a) ((a.representatives[initial]?).getD initial) found)
    (hreach : ReflTransGen a.Next initial n) :
    ∃ e ∈ found, a.representatives[n]? = some e.1 := by
  induction hreach with
  | refl =>
    obtain ⟨s, hs, -⟩ := h.start
    obtain ⟨r, -, hr, -⟩ := exists_representative hs
    refine ⟨_, hfound.start_mem, ?_⟩
    rw [hr]
    rfl
  | @tail n m _ hnext ih =>
    obtain ⟨X, hm⟩ := hnext
    obtain ⟨e, he, hn⟩ := ih
    obtain ⟨-, t, -, ht⟩ := h.exists_items hm
    obtain ⟨r, -, hr, -⟩ := exists_representative ht
    have hedge := (mem_groupEdges h).mpr ⟨n, m, hn, hm, hr⟩
    rw [← hfound.edges_eq e he] at hedge
    obtain ⟨e', he', hkey⟩ := hfound.closed e he _ hedge
    exact ⟨e', he', by rw [hr]; exact congrArg some hkey.symm⟩

/-- The groups in the order of the merged states. -/
def foundGroups (a : Automaton) : List (Nat × List (Symbol × Nat)) :=
  breadthFirst id (groupEdges a) a.states.length ((a.representatives[initial]?).getD initial)

/-- The state `n` is a part of the merged state `k`: the group that is found at the place `k` is
that of the representative of `n`. -/
def IsPart (a : Automaton) (n k : Nat) : Prop :=
  ∃ r, a.representatives[n]? = some r ∧ (foundGroups a)[k]?.map Prod.fst = some r

theorem foundGroups_explored (h : Lawful g a) :
    ExploredInOrder id (groupEdges a) ((a.representatives[initial]?).getD initial)
      (foundGroups a) := by
  have hbound : (List.range a.states.length).length ≤ a.states.length :=
    Nat.le_of_eq List.length_range
  refine breadthFirst_exploredInOrder (P := fun r => ∃ n : Nat, a.representatives[n]? = some r)
    ?_ ?_ ?_ hbound
  · obtain ⟨s, hs, -⟩ := h.start
    obtain ⟨r, -, hr, -⟩ := exists_representative hs
    exact ⟨initial, by rw [hr]; rfl⟩
  · rintro k l - ⟨X, hl⟩
    obtain ⟨-, m, -, -, hm⟩ := (mem_groupEdges h).mp hl
    exact ⟨m, hm⟩
  · rintro r ⟨n, hn⟩
    obtain ⟨s, hs⟩ := exists_items_of_representative hn
    obtain ⟨r', t, hr', ht, -⟩ := exists_representative hs
    obtain rfl := Option.some.inj (hn.symm.trans hr')
    obtain ⟨state, hstate, -⟩ := Option.map_eq_some_iff.mp ht
    exact List.mem_range.mpr (List.getElem?_eq_some_iff.mp hstate).1

theorem getElem?_states_merged (a : Automaton) (k : Nat) :
    a.merged.states[k]? = (foundGroups a)[k]?.map fun e =>
      ⟨groupItems (((a.groups a.representatives).get? e.1).getD []),
        .ofList (e.2.filterMap fun out =>
          ((SortedMap.places ((foundGroups a).map Prod.fst)).get? out.2).map fun n =>
            (out.1, n))⟩ := by
  rw [merged, List.getElem?_map]
  rfl

theorem holds_merged : a.merged.Holds k f ↔ ∃ n, IsPart a n k ∧ a.Holds n f := by
  rw [holds_iff_state, getElem?_states_merged]
  simp only [Option.map_eq_some_iff, IsPart, holds_iff_state]
  constructor
  · rintro ⟨_, ⟨e, he, rfl⟩, hf⟩
    obtain ⟨s, hs, hf⟩ := holds_groupItems.mp hf
    obtain ⟨n, hn, hr⟩ := mem_group.mp hs
    exact ⟨n, ⟨e.1, hr, e, he, rfl⟩, s, hn, hf⟩
  · rintro ⟨n, ⟨_, hr, e, he, rfl⟩, s, hn, hf⟩
    exact ⟨_, ⟨e, he, rfl⟩, holds_groupItems.mpr ⟨s, mem_group.mpr ⟨n, hn, hr⟩, hf⟩⟩

/-- The transitions of a merged state are the edges of its group. -/
theorem transition?_merged_iff_foundGroups (h : Lawful g a) : a.merged.transition? k X = some l ↔
    ∃ e r, (foundGroups a)[k]? = some e ∧ (X, r) ∈ e.2 ∧
      (foundGroups a)[l]?.map Prod.fst = some r := by
  have hfound := foundGroups_explored h
  have hkeys : ((foundGroups a).map Prod.fst).Nodup := hfound.nodup
  have hnodup (e : Nat × List (Symbol × Nat)) (he : (foundGroups a)[k]? = some e) :
      (e.2.map Prod.fst).Nodup := by
    rw [hfound.edges_eq e (List.mem_of_getElem? he)]
    exact SortedMap.nodup_map_fst_toList _
  rw [transition?_eq_some_iff_state, getElem?_states_merged]
  constructor
  · rintro ⟨_, hs, hl⟩
    obtain ⟨e, he, rfl⟩ := Option.map_eq_some_iff.mp hs
    obtain ⟨r, hr, hl⟩ := (SortedMap.get?_ofList_places_eq_some_iff hkeys id (hnodup e he)).mp hl
    rw [List.getElem?_map] at hl
    exact ⟨e, r, he, hr, hl⟩
  · rintro ⟨e, r, he, hr, hl⟩
    rw [← List.getElem?_map] at hl
    exact ⟨_, Option.map_eq_some_iff.mpr ⟨e, he, rfl⟩,
      (SortedMap.get?_ofList_places_eq_some_iff hkeys id (hnodup e he)).mpr ⟨r, hr, hl⟩⟩

private theorem transition?_merged (h : Lawful g a) : a.merged.transition? k X = some l ↔
    ∃ n m, IsPart a n k ∧ a.transition? n X = some m ∧ IsPart a m l := by
  have hedges (e : Nat × List (Symbol × Nat)) (he : (foundGroups a)[k]? = some e) (r : Nat) :
      (X, r) ∈ e.2 ↔ ∃ n m : Nat, a.representatives[n]? = some e.1 ∧
        a.transition? n X = some m ∧ a.representatives[m]? = some r := by
    rw [(foundGroups_explored h).edges_eq e (List.mem_of_getElem? he)]
    exact mem_groupEdges h
  rw [transition?_merged_iff_foundGroups h]
  constructor
  · rintro ⟨e, r, he, hr, hl⟩
    obtain ⟨n, m, hn, hm, hr⟩ := (hedges e he r).mp hr
    exact ⟨n, m, ⟨e.1, hn, by rw [he]; rfl⟩, hm, r, hr, hl⟩
  · rintro ⟨n, m, ⟨r', hn, hk⟩, hm, r, hr, hl⟩
    obtain ⟨e, he, rfl⟩ := Option.map_eq_some_iff.mp hk
    exact ⟨e, r, he, (hedges e he r).mpr ⟨n, m, hn, hm, hr⟩, hl⟩

/-- A state that is reached is a part of a merged state. -/
theorem Lawful.exists_merged (h : Lawful g a) (hreach : ReflTransGen a.Next initial n) :
    ∃ k, IsPart a n k := by
  obtain ⟨e, he, hr⟩ := mem_found h (foundGroups_explored h).toExplored hreach
  obtain ⟨k, hk⟩ := List.getElem?_of_mem he
  exact ⟨k, e.1, hr, Option.map_eq_some_iff.mpr ⟨e, hk, rfl⟩⟩

/-- The states of the merged automaton are made of states with the same items, if all states are
reached. -/
theorem Lawful.isQuotient_merged (h : Lawful g a)
    (hreach : ∀ n s, a.items? n = some s → ReflTransGen a.Next initial n) :
    IsQuotient a a.merged (IsPart a) where
  grammar_eq := rfl
  part_initial_iff k := by
    have hfound := foundGroups_explored h
    obtain ⟨s, hs, -⟩ := h.start
    obtain ⟨r, -, hr, -⟩ := exists_representative hs
    have hhead := hfound.head
    rw [hr, List.head?_eq_getElem?] at hhead
    rw [IsPart]
    constructor
    · rintro ⟨r', hr', hk⟩
      obtain rfl := Option.some.inj (hr.symm.trans hr')
      have hzero : ((foundGroups a).map Prod.fst)[0]? = some r := by
        rw [List.getElem?_map, hhead]
        rfl
      rw [← List.getElem?_map, ← hzero] at hk
      have hlt := (List.getElem?_eq_some_iff.mp hzero).1
      exact ((List.getElem?_inj hlt hfound.nodup).mp hk.symm).symm
    · rintro rfl
      exact ⟨r, hr, Option.map_eq_some_iff.mpr ⟨_, hhead, rfl⟩⟩
  holds_iff _ _ := holds_merged
  transition_iff _ _ _ := transition?_merged h
  exists_part n f hf := by
    obtain ⟨s, hs, -⟩ := hf
    exact h.exists_merged (hreach n s hs)
  sameItems n m k hn hm := by
    obtain ⟨r, hr, hk⟩ := hn
    obtain ⟨r', hr', hk'⟩ := hm
    obtain rfl := Option.some.inj (hk.symm.trans hk')
    obtain ⟨s, hs⟩ := exists_items_of_representative hr
    obtain ⟨t, ht⟩ := exists_items_of_representative hr'
    exact (representative_eq_iff hs ht).mp (hr.trans hr'.symm)

/-- Merging the states of the automaton of all item sets is merging states with the same items. All
states are reached there, so each is a part of some merged state. -/
theorem IsCanonical.isQuotient_merged (hc : IsCanonical g a) : IsQuotient a a.merged (IsPart a) :=
  hc.lawful.isQuotient_merged fun _ _ => hc.reaches

theorem Lawful.exists_isPart (h : Lawful g a) (hs : a.merged.items? k = some s) :
    ∃ n t, IsPart a n k ∧ a.items? n = some t := by
  obtain ⟨state, hstate, -⟩ := Option.map_eq_some_iff.mp hs
  rw [getElem?_states_merged] at hstate
  obtain ⟨e, he, -⟩ := Option.map_eq_some_iff.mp hstate
  have hfound := foundGroups_explored h
  obtain ⟨n, hn⟩ : ∃ n : Nat, a.representatives[n]? = some e.1 := by
    rcases (hfound.reached e (List.mem_of_getElem? he)).cases_tail with hinitial | ⟨r, -, X, hl⟩
    · obtain ⟨t, ht, -⟩ := h.start
      obtain ⟨r, -, hr, -⟩ := exists_representative ht
      refine ⟨initial, ?_⟩
      rw [hinitial, hr]
      rfl
    · obtain ⟨-, m, -, -, hm⟩ := (mem_groupEdges h).mp hl
      exact ⟨m, hm⟩
  obtain ⟨t, ht⟩ := exists_items_of_representative hn
  exact ⟨n, t, ⟨e.1, hn, Option.map_eq_some_iff.mpr ⟨e, he, rfl⟩⟩, ht⟩

/-- Parts with the same items are parts of one merged state. -/
theorem Lawful.eq_of_sameItems_of_isPart (h : Lawful g a) (hn : IsPart a n k) (hm : IsPart a m l)
    (hsame : SameItems a n m) : k = l := by
  obtain ⟨r, hr, hk⟩ := hn
  obtain ⟨r', hr', hl⟩ := hm
  obtain ⟨s, hs⟩ := exists_items_of_representative hr
  obtain ⟨t, ht⟩ := exists_items_of_representative hr'
  have heq := (representative_eq_iff hs ht).mpr hsame
  obtain rfl := Option.some.inj (hr.symm.trans (heq.trans hr'))
  rw [← List.getElem?_map] at hk hl
  have hlt := (List.getElem?_eq_some_iff.mp hk).1
  exact (List.getElem?_inj hlt (foundGroups_explored h).nodup).mp (hk.trans hl.symm)

/-! ### The automata of a grammar -/

theorem lawful_of_construct (h : construct g = .ok a) : Lawful g a :=
  (isCanonical_of_construct h).lawful

theorem lawful_of_lalr (h : lalr g = .ok a) : Lawful g a := by
  obtain ⟨c, hc, rfl⟩ := map_eq_ok_iff.mp h
  have hcanonical := isCanonical_of_construct hc
  exact hcanonical.isQuotient_merged.lawful hcanonical.lawful

end Automaton

end Recognizer.LR
