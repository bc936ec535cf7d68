import Recognizer.Proofs.Dfa.Minimality
import Recognizer.Proofs.Regex.Compile
import Recognizer.Proofs.Regex.LinkedNodes

/-!
# Dead states

A state is dead if no text leads from it to an accepting state. In the automaton of an expression
only the trap is dead. Any other state stands for some leaves, and each of these stands in a string
of the augmented tree, which ends in the end marker: the literals of this string from the leaf on,
up to the first leaf that is none, spell a text that leads to an accepting state. Classes of live
states are live, so the minimal automaton has no other dead state either.

The search for an accepted text ends early only at the trap, so it finds what a search through the
whole text would find.

## Main definitions

* `Dfa.IsTrim`: every state has its row, and the trap alone is dead.
* `Dfa.SearchesInFull`: the early end of the search changes nothing.

## Main results

* `Dfa.isTrim_ofExpr`, `Dfa.IsTrim.minimize`: the automaton of an expression, and the minimal one.
* `Dfa.TrapIsDead.searchesInFull`: what the search finds if the trap is dead.
* `Dfa.isTrim_annotate`: both for the automaton that is made of an annotation.
-/

namespace Recognizer

open Regex

/-! ### Strings that can still be read -/

namespace Regex.Expr

variable {e : Expr Leaf}

/-- A string of the augmented tree that begins with a text goes on with literals, up to a leaf that
makes a state accepting. -/
theorem exists_offers_of_spells {text : List Char} {w : List Mark}
    (h : e.augmented.Spells (marks text ++ w)) :
    ∃ more, (∃ tag, e.Offers (text ++ more) (.leaf (.action tag))) ∨
      e.Offers (text ++ more) .finish := by
  induction w generalizing text with
  | nil =>
    -- the string ends in the end marker, which is no literal
    obtain ⟨u, -, heq⟩ := spells_augmented_iff.mp h
    have hmem : Mark.finish ∈ marks text := by
      rw [List.append_nil] at heq
      rw [heq]
      exact List.mem_append_right _ (List.mem_singleton_self _)
    simp [marks] at hmem
  | cons a w ih =>
    rcases a with (c | tag) | _
    · have hnext : e.augmented.Spells (marks (text ++ [c]) ++ w) := by
        rw [marks, List.map_append, List.append_assoc]
        exact h
      obtain ⟨more, hmore⟩ := ih hnext
      refine ⟨c :: more, ?_⟩
      rwa [List.append_assoc] at hmore
    · exact ⟨[], Or.inl ⟨tag, w, by rwa [List.append_nil]⟩⟩
    · exact ⟨[], Or.inr ⟨w, by rwa [List.append_nil]⟩⟩

end Regex.Expr

namespace Dfa

variable {d : Dfa} {s : StateId} {text : List Char}

/-- All states but the trap are live. From every other state of the automaton of an expression some
text leads to an accepting state. -/
theorem exists_accepting_ofExpr (e : Expr Leaf) (hs : s ∈ (ofExpr e).states)
    (hne : s ≠ (ofExpr e).trap) : ∃ text, (ofExpr e).Accepting ((ofExpr e).run s text) := by
  obtain ⟨text, rfl⟩ := (isAccessible_ofExpr e s hs).resolve_left hne
  obtain ⟨leaves, -, hmem, hrun⟩ := exists_leaves_run_ofExpr e text
  have hleaves : leaves ≠ ∅ := by
    rintro rfl
    exact hne hrun
  obtain ⟨n, hn⟩ : ∃ n, n ∈ leaves := by
    by_contra hnone
    exact hleaves (SortedSet.ext fun n => ⟨fun hn => absurd ⟨n, hn⟩ hnone,
      fun hn => absurd hn (SortedSet.not_mem_empty n)⟩)
  obtain ⟨u, a, v, hspells, hu⟩ := (hmem n).mp hn
  have hmarks : e.augmented.Spells (Expr.marks text ++ a :: v.map Prod.snd) :=
    (Expr.spells_iff_numbered 0).mpr ⟨_, hspells, by rw [List.map_append, hu, List.map_cons]⟩
  obtain ⟨more, hmore⟩ := Expr.exists_offers_of_spells hmarks
  refine ⟨more, ?_⟩
  rw [← run_append]
  exact (accepting_ofExpr_iff e (text ++ more)).mpr hmore

/-! ### Automata in which only the trap is dead -/

/-- Every state has a row, which leads with each character of the alphabet to a state. The trap is a
state that rejects and that nothing leads away from. Any other state can be reached, and an
accepting state can be reached from it. -/
structure IsTrim (d : Dfa) : Prop where
  exists_row : ∀ s ∈ d.states, ∃ row, d.rows.get? s = some row ∧ row.keys = d.alphabet ∧
    ∀ c t, row.get? c = some t → t ∈ d.states
  trap_mem : d.trap ∈ d.states
  not_accepting_trap : ¬ d.Accepting d.trap
  step_trap : ∀ c, d.step d.trap c = d.trap
  exists_run_eq : ∀ s ∈ d.states, s ≠ d.trap → ∃ text, s = d.run d.initial text
  exists_accepting : ∀ s ∈ d.states, s ≠ d.trap → ∃ text, d.Accepting (d.run s text)

/-- If the trap is the only dead state, nothing leads away from it. -/
theorem isTrim_of_exists_accepting (hd : d.IsTotal) (hrows : d.HasFullRows) (hdead : d.TrapIsDead)
    (haccessible : d.IsAccessible)
    (hlive : ∀ s ∈ d.states, s ≠ d.trap → ∃ text, d.Accepting (d.run s text)) : d.IsTrim where
  exists_row s hs := Dfa.exists_row hd hrows hs
  trap_mem := hd.trap_mem
  not_accepting_trap := hdead []
  step_trap c := by
    by_contra hne
    obtain ⟨text, htext⟩ := hlive _ (hd.step_mem _ hd.trap_mem c) hne
    exact hdead (c :: text) htext
  exists_run_eq s hs hne := (haccessible s hs).resolve_left hne
  exists_accepting := hlive

theorem isTrim_ofExpr (e : Expr Leaf) : (ofExpr e).IsTrim :=
  isTrim_of_exists_accepting (isTotal_ofExpr e) (hasFullRows_ofExpr e) (trapIsDead_ofExpr e)
    (isAccessible_ofExpr e) fun _ => exists_accepting_ofExpr e

theorem IsTrim.trapIsDead (h : d.IsTrim) : d.TrapIsDead := fun text => by
  induction text with
  | nil => exact h.not_accepting_trap
  | cons c text ih => rwa [run_cons, h.step_trap]

/-- The classes of live states are live. -/
theorem IsTrim.minimize (h : d.IsTrim) (hd : d.IsTotal) (hrows : d.HasFullRows) :
    d.minimize.IsTrim := by
  have himage := isImage_minimize hd
  have haccessible : d.IsAccessible := fun s hs => or_iff_not_imp_left.mpr (h.exists_run_eq s hs)
  refine isTrim_of_exists_accepting (isTotal_minimize hd) (hasFullRows_minimize hrows)
    (himage.trapIsDead hd h.trapIsDead) (isAccessible_minimize hd haccessible) fun t ht hne => ?_
  obtain ⟨s, hs, rfl⟩ := mem_states_minimize.mp ht
  have hs' : s ≠ d.trap := by
    rintro rfl
    exact hne himage.trap_eq.symm
  obtain ⟨text, htext⟩ := h.exists_accepting s hs hs'
  refine ⟨text, ?_⟩
  rw [himage.run_eq hd hs]
  exact (himage.accepting_iff _ (hd.run_mem hs text)).mpr htext

/-! ### The early end of the search -/

/-- A text is accepted just if the walk through all of it ends in an accepting state, and the
longest match is the accepted prefix that takes most bytes, with the tag of the state it leads to.
-/
structure SearchesInFull (d : Dfa) (text : List Char) : Prop where
  derive_iff : d.derive text = true ↔ d.Accepting (d.run d.initial text)
  longestMatch_eq_none_iff : d.longestMatch text = none ↔ ∀ p, p <+: text → d.derive p = false
  longestMatch_eq_some_iff : ∀ m, d.longestMatch text = some m ↔
    ∃ p, p <+: text ∧ d.derive p = true ∧ m = ⟨byteLength p, d.tag? (d.run d.initial p)⟩ ∧
      ∀ p', p' <+: text → d.derive p' = true → byteLength p' ≤ byteLength p

theorem byteLength_le_iff {p p' : List Char} (hp : p <+: text) (hp' : p' <+: text) :
    byteLength p ≤ byteLength p' ↔ p.length ≤ p'.length := by
  refine ⟨fun h => ?_, fun h => byteLength_le_of_prefix (List.prefix_of_prefix_length_le hp hp' h)⟩
  by_contra hlt
  obtain ⟨u, rfl⟩ := List.prefix_of_prefix_length_le hp' hp (Nat.le_of_not_le hlt)
  cases u with
  | nil => exact hlt (by rw [List.append_nil])
  | cons c u =>
    have hpos := c.utf8Size_pos
    rw [byteLength_append, byteLength_cons] at h
    omega

/-- The early end of the search loses nothing. If the trap is dead, the search finds what a walk
through the whole text would find, and the longest match is the accepted prefix of most bytes. -/
theorem TrapIsDead.searchesInFull (hdead : d.TrapIsDead) (text : List Char) :
    d.SearchesInFull text where
  derive_iff := Dfa.derive_iff hdead
  longestMatch_eq_none_iff := by
    simp only [Dfa.longestMatch_eq_none_iff hdead, ← Dfa.derive_iff hdead, Bool.not_eq_true]
  longestMatch_eq_some_iff m := by
    rw [Dfa.longestMatch_eq_some_iff hdead]
    refine exists_congr fun p => ?_
    simp only [Dfa.derive_iff hdead]
    constructor
    · rintro ⟨⟨hbegins, haccepting, hlongest⟩, rfl⟩
      exact ⟨hbegins, haccepting, rfl, fun p' hp' h =>
        (byteLength_le_iff hp' hbegins).mpr (hlongest p' hp' h)⟩
    · rintro ⟨hbegins, haccepting, rfl, hlongest⟩
      exact ⟨⟨hbegins, haccepting, fun p' hp' h =>
        (byteLength_le_iff hp' hbegins).mp (hlongest p' hp' h)⟩, rfl⟩

/-- Only the trap is dead. If a postfix stream is that of a tree, the trap is the only dead state of
the automaton which is made of the annotation of its nodes, and of the minimal automaton. So neither
of them misses anything by the early end of its search. -/
theorem isTrim_annotate {tokens : List Token} {nodes : List Node}
    (h : Expr.nodes <$> Expr.ofPostfix tokens = .ok nodes) :
    ∃ table, Node.annotate (nodes.length - 2) nodes = some table ∧
      (ofRows table.toList).IsTrim ∧ (ofRows table.toList).minimize.IsTrim ∧
      ∀ text, (ofRows table.toList).SearchesInFull text ∧
        (ofRows table.toList).minimize.SearchesInFull text := by
  obtain ⟨e, -, rfl⟩ := map_eq_ok_iff.mp h
  have htrim := isTrim_ofExpr e
  have hminimal := htrim.minimize (isTotal_ofExpr e) (hasFullRows_ofExpr e)
  refine ⟨e.positionTable.toArray, ?_, htrim, hminimal, fun text =>
    ⟨htrim.trapIsDead.searchesInFull text, hminimal.trapIsDead.searchesInFull text⟩⟩
  rw [← e.finishId_eq, e.annotate_nodes]

/-- The same for an action in front of a letter that is never read, beside a repeated letter. -/
theorem isTrim_annotate_unread :
    let tag : ActionTag := ⟨"r", 0⟩
    let nodes : List Node :=
      [⟨.action tag, some 2, none, none, some 0⟩, ⟨.lit 'a', some 2, none, none, some 1⟩,
        ⟨.op .cat, some 5, some 0, some 1, none⟩, ⟨.lit 'b', some 4, none, none, some 2⟩,
        ⟨.op .star, some 5, some 3, none, none⟩, ⟨.op .alt, some 7, some 2, some 4, none⟩,
        ⟨.lit '#', some 7, none, none, some 3⟩, ⟨.op .cat, none, some 5, some 6, none⟩]
    Expr.nodes <$> Expr.ofPostfix [.action tag, .lit 'a', .op .cat, .lit 'b', .op .star, .op .alt] =
        .ok nodes ∧
      ∃ table, Node.annotate (nodes.length - 2) nodes = some table ∧
        (ofRows table.toList).IsTrim ∧ (ofRows table.toList).minimize.IsTrim ∧
        ∀ text, (ofRows table.toList).SearchesInFull text ∧
          (ofRows table.toList).minimize.SearchesInFull text := by
  intro tag nodes
  have h : Expr.nodes <$> Expr.ofPostfix
      [.action tag, .lit 'a', .op .cat, .lit 'b', .op .star, .op .alt] = .ok nodes := rfl
  exact ⟨h, isTrim_annotate h⟩

end Dfa

end Recognizer
