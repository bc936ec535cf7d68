import Recognizer.Dfa.Minimize
import Recognizer.Proofs.Dfa.Classes
import Recognizer.Proofs.Dfa.Expressions

/-!
# Minimal automata accept the same texts

The minimal automaton is an image of the automaton that it is made from: what a character does to a
state, it does to the name of the state's class, and the name is accepting and tagged just as the
state is. So both say the same about every text.

## Main definitions

* `Dfa.IsImage`: one automaton does with the images of states what the other does with the states.
* `Dfa.className`: the name of a state's class.

## Main results

* `Dfa.IsImage.derive_eq`, `Dfa.IsImage.longestMatch_eq`: an image says the same about texts.
* `Dfa.isImage_minimize`: the minimal automaton is an image.
* `Dfa.isTotal_minimize`, `Dfa.isReduced_minimize`, `Dfa.isAccessible_minimize`: its states.
* `Dfa.derive_minimize`, `Dfa.derive_minimize_ofExpr`: the minimal automaton finds the same matches.
-/

namespace Recognizer.Dfa

open Regex (Expr Leaf ActionTag)

variable {d m : Dfa} {f : StateId → StateId} {s t l : StateId} {text : List Char}

/-! ### Images of automata -/

/-- The automaton `m` does with the images of states what `d` does with the states. What becomes of
names that are no states of `d` is left open. -/
structure IsImage (m d : Dfa) (f : StateId → StateId) : Prop where
  initial_eq : m.initial = f d.initial
  trap_eq : m.trap = f d.trap
  step_eq : ∀ s ∈ d.states, ∀ c, m.step (f s) c = f (d.step s c)
  accepting_iff : ∀ s ∈ d.states, m.Accepting (f s) ↔ d.Accepting s
  tag?_eq : ∀ s ∈ d.states, m.tag? (f s) = d.tag? s

namespace IsImage

theorem run_eq (h : IsImage m d f) (hd : d.IsTotal) (hs : s ∈ d.states) (text : List Char) :
    m.run (f s) text = f (d.run s text) := by
  induction text generalizing s with
  | nil => rfl
  | cons c text ih => rw [run_cons, run_cons, h.step_eq s hs, ih (hd.step_mem s hs c)]

/-- The image of a state says of every text what the state says. -/
theorem verdict_eq (h : IsImage m d f) (hd : d.IsTotal) (hs : s ∈ d.states) :
    m.verdict (f s) = d.verdict s := by
  funext text
  have hrun := hd.run_mem hs text
  rw [verdict_eq_iff, h.run_eq hd hs]
  exact ⟨h.accepting_iff _ hrun, h.tag?_eq _ hrun⟩

theorem verdict_initial_eq (h : IsImage m d f) (hd : d.IsTotal) :
    m.verdict m.initial = d.verdict d.initial := by
  rw [h.initial_eq, h.verdict_eq hd hd.initial_mem]

theorem trapIsDead (h : IsImage m d f) (hd : d.IsTotal) (hdead : d.TrapIsDead) :
    m.TrapIsDead := fun text => by
  rw [h.trap_eq, h.run_eq hd hd.trap_mem, h.accepting_iff _ (hd.run_mem hd.trap_mem text)]
  exact hdead text

/-- An image of a total automaton with a dead trap accepts the same texts, although the trap may be
the image of further states. -/
theorem derive_eq (h : IsImage m d f) (hd : d.IsTotal) (hdead : d.TrapIsDead)
    (text : List Char) : m.derive text = d.derive text :=
  derive_eq_of_verdict (h.trapIsDead hd hdead) hdead (h.verdict_initial_eq hd) text

/-- An image finds the same longest matches, with the same tags. -/
theorem longestMatch_eq (h : IsImage m d f) (hd : d.IsTotal) (hdead : d.TrapIsDead)
    (text : List Char) : m.longestMatch text = d.longestMatch text :=
  longestMatch_eq_of_verdict (h.trapIsDead hd hdead) hdead (h.verdict_initial_eq hd) text

end IsImage

/-! ### The names of classes -/

theorem representative_eq_iff (hs : s ∈ d.states) (ht : t ∈ d.states) :
    d.representative d.leaders s = d.representative d.leaders t ↔
      d.leaders.get? s = d.leaders.get? t := by
  have hpartition := isPartition_leaders d
  -- only the leader of the trap's class can have the name of the trap
  have htrap {s : StateId} (hs : s ∈ d.states) (h : d.leaders.leader s = d.trap) :
      d.leaders.leader s = d.leaders.leader d.trap := by
    obtain ⟨l, hl⟩ := hpartition.exists_leader hs
    obtain rfl := (Leaders.leader_eq hl).symm.trans h
    rw [h, Leaders.leader_eq (hpartition.get?_leader hl)]
  rw [← hpartition.leader_eq_iff hs ht, representative, representative]
  constructor
  · intro h
    split at h <;> split at h
    · next hs' ht' => exact hs'.trans ht'.symm
    · next hs' ht' => exact absurd (htrap ht h.symm) ht'
    · next hs' ht' => exact absurd (htrap hs h) hs'
    · exact h
  · intro h
    rw [h]

/-- The name of a state in the minimal automaton. What is no state of the automaton keeps its
name. -/
def className (d : Dfa) (s : StateId) : StateId :=
  ((SortedMap.tabulate d.states (d.representative d.leaders)).get? s).getD s

theorem className_of_mem (hs : s ∈ d.states) :
    d.className s = d.representative d.leaders s := by
  rw [className, SortedMap.get?_tabulate, if_pos hs, Option.getD_some]

theorem className_eq_iff (hs : s ∈ d.states) (ht : t ∈ d.states) :
    d.className s = d.className t ↔ d.leaders.get? s = d.leaders.get? t := by
  rw [className_of_mem hs, className_of_mem ht, representative_eq_iff hs ht]

theorem minimize_eq (d : Dfa) : d.minimize =
    { initial := d.className d.initial
      trap := d.className d.trap
      alphabet := d.alphabet
      rows := .ofList ((d.rows.toList.filter fun e => d.leaders.leader e.1 = e.1).map fun e =>
        (d.className e.1, e.2.mapValues d.className))
      accepting := .ofList (d.accepting.toList.map d.className)
      tags := .ofList (d.tags.toList.map fun e => (d.className e.1, e.2)) } := rfl

/-! ### The minimal automaton -/

/-- The transitions of a class are those of its leader. -/
theorem get?_rows_minimize (hl : d.leaders.get? s = some l)
    {row : SortedMap Char StateId} (hrow : d.rows.get? l = some row) :
    d.minimize.rows.get? (d.className s) = some (row.mapValues d.className) := by
  have hpartition := isPartition_leaders d
  obtain ⟨hs, hlmem, hclass, -⟩ := (hpartition s l).mp hl
  rw [minimize_eq]
  refine (SortedMap.get?_ofList_eq_some_iff ?_).mpr (List.mem_map.mpr ⟨(l, row), ?_, ?_⟩)
  · -- different leaders have different names
    rw [List.map_map]
    refine List.Nodup.map_on ?_ ((SortedMap.nodup_map_fst_toList d.rows).of_map _ |>.filter _)
    rintro ⟨k, rowk⟩ hk ⟨n, rown⟩ hn hname
    obtain ⟨hk, hkl⟩ := List.mem_filter.mp hk
    obtain ⟨hn, hnl⟩ := List.mem_filter.mp hn
    rw [decide_eq_true_eq] at hkl hnl
    have hkget := SortedMap.mem_toList.mp hk
    have hnget := SortedMap.mem_toList.mp hn
    have hkmem : k ∈ d.states := SortedMap.mem_keys.mpr (by rw [hkget]; rfl)
    have hnmem : n ∈ d.states := SortedMap.mem_keys.mpr (by rw [hnget]; rfl)
    have hsame := (hpartition.leader_eq_iff hkmem hnmem).mpr
      ((className_eq_iff hkmem hnmem).mp hname)
    obtain rfl : k = n := hkl.symm.trans (hsame.trans hnl)
    rw [Option.some.inj (hkget.symm.trans hnget)]
  · refine List.mem_filter.mpr ⟨SortedMap.mem_toList.mpr hrow, ?_⟩
    exact decide_eq_true (Leaders.leader_eq (hpartition.get?_leader hl))
  · rw [(className_eq_iff hlmem hs).mpr hclass]

private theorem step_className (hd : d.IsTotal) (hs : s ∈ d.states) (c : Char) :
    d.minimize.step (d.className s) c = d.className (d.step s c) := by
  obtain ⟨l, hl⟩ := (isPartition_leaders d).exists_leader hs
  obtain ⟨-, hlmem, hclass, -⟩ := (isPartition_leaders d s l).mp hl
  obtain ⟨row, hrow⟩ := Option.isSome_iff_exists.mp (SortedMap.mem_keys.mp hlmem)
  have hleader : d.minimize.step (d.className s) c = d.className (d.step l c) := by
    rw [step, get?_rows_minimize hl hrow, step, hrow, Option.bind_some, Option.bind_some,
      SortedMap.get?_mapValues]
    cases row.get? c with
    | none => rfl
    | some t => rfl
  rw [hleader]
  exact (className_eq_iff (hd.step_mem l hlmem c) (hd.step_mem s hs c)).mpr
    (get?_step_leaders hd hlmem hs hclass c)

private theorem accepting_className_iff (hd : d.IsTotal) (hs : s ∈ d.states) :
    d.minimize.Accepting (d.className s) ↔ d.Accepting s := by
  rw [Accepting, minimize_eq, SortedSet.mem_ofList, List.mem_map]
  constructor
  · rintro ⟨t, haccepting, hname⟩
    have ht := hd.mem_of_accepting t haccepting
    exact (verdict_eq_of_leaders ht hs ((className_eq_iff ht hs).mp hname)).1.mp haccepting
  · exact fun haccepting => ⟨s, haccepting, rfl⟩

private theorem tag?_className (hd : d.IsTotal) (hs : s ∈ d.states) :
    d.minimize.tag? (d.className s) = d.tag? s := by
  have htag {tag : ActionTag} (h : d.minimize.tag? (d.className s) = some tag) :
      d.tag? s = some tag := by
    rw [tag?, minimize_eq] at h
    obtain ⟨⟨t, tag⟩, hmem, heq⟩ := List.mem_map.mp (SortedMap.mem_of_get?_ofList h)
    obtain ⟨hname, rfl⟩ := Prod.mk.inj heq
    have htget : d.tag? t = some tag := SortedMap.mem_toList.mp hmem
    have ht := hd.mem_of_tag? t tag htget
    rw [← htget]
    exact (verdict_eq_of_leaders hs ht ((className_eq_iff hs ht).mp hname.symm)).2
  refine Option.ext fun tag => ⟨htag, fun h => ?_⟩
  have hmem : (d.className s, tag) ∈ d.tags.toList.map fun e => (d.className e.1, e.2) :=
    List.mem_map.mpr ⟨(s, tag), SortedMap.mem_toList.mpr h, rfl⟩
  obtain ⟨tag', htag'⟩ := Option.isSome_iff_exists.mp (SortedMap.isSome_get?_ofList hmem)
  have hsame := htag htag'
  rw [h] at hsame
  rw [Option.some.inj hsame]
  exact htag'

/-- The minimal automaton is an image of the automaton that it is made from, by the names of
classes. -/
theorem isImage_minimize (hd : d.IsTotal) : IsImage d.minimize d d.className where
  initial_eq := rfl
  trap_eq := rfl
  step_eq _ hs := step_className hd hs
  accepting_iff _ hs := accepting_className_iff hd hs
  tag?_eq _ hs := tag?_className hd hs

/-! ### The states of the minimal automaton -/

/-- The states of the minimal automaton are the names of the classes. -/
theorem mem_states_minimize : t ∈ d.minimize.states ↔ ∃ s ∈ d.states, d.className s = t := by
  rw [states, SortedMap.mem_keys]
  constructor
  · intro h
    obtain ⟨row, hrow⟩ := Option.isSome_iff_exists.mp h
    rw [minimize_eq] at hrow
    obtain ⟨⟨s, row'⟩, hmem, heq⟩ := List.mem_map.mp (SortedMap.mem_of_get?_ofList hrow)
    have hget := SortedMap.mem_toList.mp (List.mem_filter.mp hmem).1
    exact ⟨s, SortedMap.mem_keys.mpr (Option.isSome_of_eq_some hget), congrArg Prod.fst heq⟩
  · rintro ⟨s, hs, rfl⟩
    obtain ⟨l, hl⟩ := (isPartition_leaders d).exists_leader hs
    have hlmem := (isPartition_leaders d).mem_states hl
    obtain ⟨row, hrow⟩ := Option.isSome_iff_exists.mp (SortedMap.mem_keys.mp hlmem)
    exact Option.isSome_of_eq_some (get?_rows_minimize hl hrow)

theorem isTotal_minimize (hd : d.IsTotal) : d.minimize.IsTotal where
  initial_mem := mem_states_minimize.mpr ⟨d.initial, hd.initial_mem, rfl⟩
  trap_mem := mem_states_minimize.mpr ⟨d.trap, hd.trap_mem, rfl⟩
  step_mem t ht c := by
    obtain ⟨s, hs, rfl⟩ := mem_states_minimize.mp ht
    rw [(isImage_minimize hd).step_eq s hs]
    exact mem_states_minimize.mpr ⟨_, hd.step_mem s hs c, rfl⟩
  step_of_not_mem t ht c hc := by
    obtain ⟨s, hs, rfl⟩ := mem_states_minimize.mp ht
    rw [(isImage_minimize hd).step_eq s hs, hd.step_of_not_mem s hs c hc]
    rfl
  mem_of_accepting t ht := by
    rw [Accepting, minimize_eq, SortedSet.mem_ofList, List.mem_map] at ht
    obtain ⟨s, haccepting, rfl⟩ := ht
    exact mem_states_minimize.mpr ⟨s, hd.mem_of_accepting s haccepting, rfl⟩
  mem_of_tag? t tag htag := by
    rw [tag?, minimize_eq] at htag
    obtain ⟨⟨s, tag'⟩, hmem, heq⟩ := List.mem_map.mp (SortedMap.mem_of_get?_ofList htag)
    obtain ⟨rfl, -⟩ := Prod.mk.inj heq
    exact mem_states_minimize.mpr ⟨s, hd.mem_of_tag? s tag' (SortedMap.mem_toList.mp hmem), rfl⟩

/-- The minimal automaton is reduced. Different states of it say something different of some
text. -/
theorem isReduced_minimize (hd : d.IsTotal) : d.minimize.IsReduced := by
  intro t ht t' ht' h
  obtain ⟨s, hs, rfl⟩ := mem_states_minimize.mp ht
  obtain ⟨s', hs', rfl⟩ := mem_states_minimize.mp ht'
  have himage := isImage_minimize hd
  rw [himage.verdict_eq hd hs, himage.verdict_eq hd hs'] at h
  exact (className_eq_iff hs hs').mpr ((get?_leaders_eq_iff hd hs hs').mpr h)

/-- If texts lead to all states but the trap, this holds of the minimal automaton, too. -/
theorem isAccessible_minimize (hd : d.IsTotal) (haccessible : d.IsAccessible) :
    d.minimize.IsAccessible := by
  intro t ht
  obtain ⟨s, hs, rfl⟩ := mem_states_minimize.mp ht
  have himage := isImage_minimize hd
  rcases haccessible s hs with rfl | ⟨text, rfl⟩
  · exact Or.inl himage.trap_eq.symm
  · refine Or.inr ⟨text, ?_⟩
    rw [himage.initial_eq, himage.run_eq hd hd.initial_mem]

/-- Minimal automata find the same matches. If an automaton is total and accepts nothing from its
trap, it and its minimal automaton accept the same texts and find the same longest matches. -/
theorem derive_minimize (hd : d.IsTotal) (hdead : d.TrapIsDead) (text : List Char) :
    d.minimize.derive text = d.derive text ∧
      d.minimize.longestMatch text = d.longestMatch text := by
  have himage := isImage_minimize hd
  exact ⟨himage.derive_eq hd hdead text, himage.longestMatch_eq hd hdead text⟩

/-- Minimising changes no match. The automaton of an expression, whether this was read from a
pattern, from the rules of a lexer or from a stream in postfix form, and its minimal automaton
accept the same texts and find the same longest matches with the same tags. -/
theorem derive_minimize_ofExpr (e : Expr Leaf) (text : List Char) :
    (ofExpr e).minimize.derive text = (ofExpr e).derive text ∧
      (ofExpr e).minimize.longestMatch text = (ofExpr e).longestMatch text :=
  derive_minimize (isTotal_ofExpr e) (trapIsDead_ofExpr e) text

end Recognizer.Dfa
