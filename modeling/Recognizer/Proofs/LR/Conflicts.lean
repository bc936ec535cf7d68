import Mathlib.Data.List.Sigma
import Recognizer.Proofs.LR.Merge
import Recognizer.Proofs.LR.Actions

/-!
# Conflicts

Every clash that is recorded is between two different candidates of its cell, and if a cell has two
different candidates, some clash is recorded. So a table has no conflicts if every cell has at most
one candidate. Tables are built without an error: the rules that have been read are those of the
grammar, and the initial state leads on with the start symbol.

No candidate is listed twice. So a clash is recorded for each candidate whose cell is not empty, and
the cells of the clashes depend on the cells of the candidates only.

## Main definitions

* `Automaton.IsDeterministic`: every cell has at most one candidate.

## Main results

* `Automaton.Lawful.exists_build`: the table of a lawful automaton is built.
* `Table.candidates_of_mem_conflicts`: what is recorded of a clash.
* `Table.conflicts_eq_nil_iff`: when there are no conflicts.
* `Automaton.Lawful.nodup_candidates`: no candidate is listed twice.
* `Table.map_cell_conflicts_eq`: tables with candidates for the same cells.
-/

namespace Recognizer.LR

variable {g : Grammar} {a : Automaton} {policy : Policy} {t : Table} {cs : List (Cell × Action)}
  {c : Conflict}

namespace Automaton

/-- Every cell has at most one candidate. This says of an automaton what the absence of conflicts
says of its tables. -/
def IsDeterministic (g : Grammar) (a : Automaton) : Prop :=
  ∀ n X x y, Candidate g a n X x → Candidate g a n X y → x = y

namespace Lawful

private theorem exists_reductions (ha : Lawful g a) {n : Nat} {item : Item}
    (hitem : a.Holds n (item, none)) (lookaheads : SymbolSet) :
    ∃ out, a.reductions? g n item lookaheads = .ok out := by
  rw [reductions?]
  by_cases hskip : (!item.isComplete || item.head = a.grammar.startSymbol) = true
  · exact ⟨[], if_pos hskip⟩
  · obtain ⟨⟨r, hr, dot, -, hrule⟩, -⟩ := ha.isFact n _ hitem
    obtain rfl : item = r.item dot := hrule
    rw [if_neg hskip]
    rcases Grammar.eq_startRule_or_mem hr with rfl | hr
    · rw [ha.grammar_eq] at hskip
      exact absurd (Bool.or_eq_true_iff.mpr (Or.inr (decide_eq_true rfl))) hskip
    · obtain ⟨i, hi⟩ := exists_ruleIndex? hr
      have hi : g.ruleIndex? (r.item dot).head (r.item dot).body = some i := hi
      rw [hi]
      exact ⟨_, rfl⟩

/-- The start symbol leads on from the initial state. -/
theorem exists_transition_start (ha : Lawful g a) :
    ∃ m, a.transition? initial g.startSymbol = some m :=
  ha.exists_transition initial _ _ ha.start.to_none rfl

theorem exists_candidates (ha : Lawful g a) : ∃ cs, a.candidates? g = .ok cs := by
  obtain ⟨m, hm⟩ := ha.exists_transition_start
  have hitems : ∀ e ∈ a.stateItems, ∃ out, a.reductions? g e.1 e.2.1 e.2.2 = .ok out := by
    intro e he
    obtain ⟨s, hs, hget⟩ := mem_stateItems.mp he
    refine ha.exists_reductions ⟨s, hs, SortedMap.holds_none_iff.mpr ?_⟩ _
    rw [hget]
    rfl
  obtain ⟨reductions, hreductions⟩ := exists_mapM_eq_ok hitems
  rw [candidates?, hm]
  exact ⟨_, bind_eq_ok_iff.mpr ⟨reductions, hreductions, rfl⟩⟩

/-- The table of a lawful automaton is built, whatever the policy: the rules that have been read are
those of the grammar, and the initial state leads on with the start symbol. -/
theorem exists_build (ha : Lawful g a) (policy : Policy) :
    ∃ t, Table.build policy a g = .ok t := by
  obtain ⟨cs, hcs⟩ := ha.exists_candidates
  exact ⟨_, Table.build_eq_ok_iff.mpr ⟨cs, hcs, rfl⟩⟩

end Lawful

/-! ### No candidate is listed twice -/

private theorem nodup_flatMap_zipIdx {α β γ : Type} {l : List α} {f : α → List β} {c : Nat → β → γ}
    (hf : ∀ a ∈ l, (f a).Nodup) (hc : ∀ n x m y, c n x = c m y → n = m ∧ x = y) :
    (l.zipIdx.flatMap fun s => (f s.1).map (c s.2)).Nodup := by
  refine List.nodup_flatMap.mpr ⟨fun s hs => ?_, ?_⟩
  · exact (hf s.1 (List.fst_mem_of_mem_zipIdx hs)).map fun x y h => (hc _ _ _ _ h).2
  · have hindices := l.nodup_zipIdx_map_snd
    rw [List.nodup_iff_pairwise_ne, List.pairwise_map] at hindices
    refine hindices.imp fun {s s'} hne x hx hx' => ?_
    obtain ⟨_, -, rfl⟩ := List.mem_map.mp hx
    obtain ⟨_, -, heq⟩ := List.mem_map.mp hx'
    exact hne (hc _ _ _ _ heq).1.symm

theorem nodup_shifts (a : Automaton) : a.shifts.Nodup := by
  have hedges : a.edges.Nodup := by
    refine nodup_flatMap_zipIdx (f := fun s : State => s.transitions.toList)
      (c := fun n e => ((⟨n, e.1⟩ : Cell), e.2))
      (fun s _ => List.Nodup.of_map Prod.fst s.transitions.nodup_map_fst_toList) ?_
    rintro n ⟨X, k⟩ m ⟨Y, l⟩ heq
    cases heq
    exact ⟨rfl, rfl⟩
  refine (hedges.filter _).map ?_
  rintro ⟨c, m⟩ ⟨c', m'⟩ heq
  cases heq
  rfl

private theorem nodup_stateItems (a : Automaton) : a.stateItems.Nodup :=
  nodup_flatMap_zipIdx (f := fun s : State => s.items.toList)
    (fun s _ => List.Nodup.of_map Prod.fst s.items.nodup_map_fst_toList)
    fun _ _ _ _ heq => Prod.mk.inj heq

private theorem nodup_reductions (e : Nat × Item × SymbolSet) : (a.reductions g e).Nodup := by
  rw [reductions, reductions?]
  split
  · exact List.nodup_nil
  · split
    · exact List.nodup_nil
    · refine e.2.2.nodup_toList.map fun X Y heq => ?_
      cases heq
      rfl

/-- A reduction is a candidate for one item only. -/
private theorem Lawful.eq_of_mem_reductions (ha : Lawful g a) {e e' : Nat × Item × SymbolSet}
    {x : Cell × Action} (he : e ∈ a.stateItems) (he' : e' ∈ a.stateItems)
    (hx : x ∈ a.reductions g e) (hx' : x ∈ a.reductions g e') : e = e' := by
  obtain ⟨n, item, lookaheads⟩ := e
  obtain ⟨n', item', lookaheads'⟩ := e'
  obtain ⟨cell, action⟩ := x
  have hrule {n i : Nat} {item : Item} {lookaheads : SymbolSet}
      (he : (n, item, lookaheads) ∈ a.stateItems) (hcomplete : item.isComplete)
      (hi : g.ruleIndex? item.head item.body = some i) :
      ∃ r, g.rules[i]? = some r ∧ item = r.item r.arity := by
    obtain ⟨s, hs, hget⟩ := mem_stateItems.mp he
    obtain ⟨⟨r, -, dot, hdot, hitem⟩, -⟩ :=
      ha.isFact n (item, none) ⟨s, hs, lookaheads, hget, SortedMap.forall_mem_none⟩
    obtain rfl : item = r.item dot := hitem
    rw [(isComplete_item_iff hdot).mp hcomplete]
    exact ⟨r, rule_of_ruleIndex? hi, rfl⟩
  obtain ⟨hcomplete, -, i, hi, hn, -, haction⟩ := mem_reductions.mp hx
  obtain ⟨hcomplete', -, i', hi', hn', -, haction'⟩ := mem_reductions.mp hx'
  obtain rfl : i = i' := Action.reduce.inj (haction.symm.trans haction')
  obtain ⟨r, hr, rfl⟩ := hrule he hcomplete hi
  obtain ⟨r', hr', rfl⟩ := hrule he' hcomplete' hi'
  obtain rfl := Option.some.inj (hr.symm.trans hr')
  obtain rfl : n = n' := hn.symm.trans hn'
  obtain ⟨s, hs, hget⟩ := mem_stateItems.mp he
  obtain ⟨s', hs', hget'⟩ := mem_stateItems.mp he'
  obtain rfl := Option.some.inj (hs.symm.trans hs')
  obtain rfl : lookaheads = lookaheads' := Option.some.inj (hget.symm.trans hget')
  rfl

/-- No candidate is listed twice. So an insertion never finds the candidate in its cell that it is
to put there. -/
theorem Lawful.nodup_candidates (ha : Lawful g a) (h : a.candidates? g = .ok cs) : cs.Nodup := by
  obtain ⟨state, -, rfl⟩ := candidates_eq h
  have hreductions : (a.stateItems.flatMap (a.reductions g)).Nodup := by
    refine List.nodup_flatMap.mpr ⟨fun e _ => nodup_reductions e, ?_⟩
    refine a.nodup_stateItems.pairwise_of_forall_ne fun e he e' he' hne x hx hx' => ?_
    exact hne (ha.eq_of_mem_reductions he he' hx hx')
  refine List.nodup_append.mpr ⟨List.nodup_append.mpr ⟨a.nodup_shifts, hreductions, ?_⟩,
    List.nodup_singleton _, ?_⟩
  · rintro ⟨cell, action⟩ hshift _ hreduce rfl
    obtain ⟨-, m, -, rfl⟩ := mem_shifts.mp hshift
    obtain ⟨e, -, he⟩ := List.mem_flatMap.mp hreduce
    obtain ⟨-, -, i, -, -, -, heq⟩ := mem_reductions.mp he
    cases heq
  · rintro ⟨cell, action⟩ hmem _ haccept rfl
    obtain ⟨-, rfl⟩ := Prod.mk.inj (List.mem_singleton.mp haccept)
    rcases List.mem_append.mp hmem with hshift | hreduce
    · obtain ⟨-, m, -, heq⟩ := mem_shifts.mp hshift
      cases heq
    · obtain ⟨e, -, he⟩ := List.mem_flatMap.mp hreduce
      obtain ⟨-, -, i, -, -, -, heq⟩ := mem_reductions.mp he
      cases heq

end Automaton

open Automaton (Candidate)

namespace Table

private theorem mem_conflicts_insert {e : Cell × Action}
    (h : c ∈ (t.insert policy e.1 e.2).conflicts) :
    c ∈ t.conflicts ∨ c.kept ≠ c.discarded ∧ ∀ x, x = c.kept ∨ x = c.discarded →
      t.actions.get? c.cell = some x ∨ (c.cell, x) = e := by
  rcases insert_cases policy t e.1 e.2 with ⟨-, heq⟩ | ⟨-, heq⟩ |
    ⟨existing, kept, discarded, hexisting, hne, hkept, heq⟩
  · rw [heq] at h
    exact Or.inl h
  · rw [heq] at h
    exact Or.inl h
  · rw [heq] at h
    refine (List.mem_append.mp h).imp_right fun h => ?_
    obtain rfl := List.mem_singleton.mp h
    rcases hkept with ⟨rfl, rfl⟩ | ⟨rfl, rfl⟩
    · refine ⟨hne, ?_⟩
      rintro x (rfl | rfl)
      · exact Or.inl hexisting
      · exact Or.inr rfl
    · refine ⟨hne.symm, ?_⟩
      rintro x (rfl | rfl)
      · exact Or.inr rfl
      · exact Or.inl hexisting

private theorem mem_conflicts_insertAll (h : c ∈ (insertAll policy t cs).conflicts) :
    c ∈ t.conflicts ∨ c.kept ≠ c.discarded ∧ ∀ x, x = c.kept ∨ x = c.discarded →
      t.actions.get? c.cell = some x ∨ (c.cell, x) ∈ cs := by
  induction cs generalizing t with
  | nil => exact Or.inl h
  | cons e cs ih =>
    rcases ih h with h | ⟨hne, hboth⟩
    · rcases mem_conflicts_insert h with h | ⟨hne, hboth⟩
      · exact Or.inl h
      · refine Or.inr ⟨hne, fun x hx => (hboth x hx).imp_right fun heq => ?_⟩
        rw [heq]
        exact List.mem_cons_self
    · refine Or.inr ⟨hne, fun x hx => ?_⟩
      rcases hboth x hx with hget | hmem
      · rcases get?_insert_eq_or t hget with hget | ⟨hcell, rfl⟩
        · exact Or.inl hget
        · rw [hcell]
          exact Or.inr List.mem_cons_self
      · exact Or.inr (List.mem_cons_of_mem _ hmem)

/-- A clash that is recorded is between two different candidates of its cell. -/
theorem candidates_of_mem_conflicts (h : build policy a g = .ok t) (hc : c ∈ t.conflicts) :
    c.kept ≠ c.discarded ∧ Candidate g a c.cell.state c.cell.symbol c.kept ∧
      Candidate g a c.cell.state c.cell.symbol c.discarded := by
  obtain ⟨cs, hcs, rfl⟩ := build_eq_ok_iff.mp h
  rcases mem_conflicts_insertAll hc with hnil | ⟨hne, hboth⟩
  · cases hnil
  · have hcandidate {x : Action} (hx : x = c.kept ∨ x = c.discarded) :
        Candidate g a c.cell.state c.cell.symbol x := by
      rcases hboth x hx with hempty | hmem
      · rw [blank, SortedMap.get?_empty] at hempty
        cases hempty
      · exact (Automaton.mem_candidates hcs).mp hmem
    exact ⟨hne, hcandidate (Or.inl rfl), hcandidate (Or.inr rfl)⟩

/-- There are no conflicts if and only if every cell has at most one candidate. So it does not
depend on the policy whether there are some. -/
theorem conflicts_eq_nil_iff (h : build policy a g = .ok t) :
    t.conflicts = [] ↔ Automaton.IsDeterministic g a := by
  constructor
  · intro hconflicts n X x y hx hy
    have hx := action?_eq_of_conflicts_eq_nil h hconflicts hx
    have hy := action?_eq_of_conflicts_eq_nil h hconflicts hy
    exact Option.some.inj (hx.symm.trans hy)
  · intro hdeterministic
    refine List.eq_nil_iff_forall_not_mem.mpr fun c hc => ?_
    obtain ⟨hne, hkept, hdiscarded⟩ := candidates_of_mem_conflicts h hc
    exact hne (hdeterministic _ _ _ _ hkept hdiscarded)

/-! ### The cells of the conflicts -/

/-- A new candidate clashes if its cell is not empty. -/
private theorem map_cell_conflicts_insert {e : Cell × Action}
    (hnew : t.actions.get? e.1 ≠ some e.2) :
    (t.insert policy e.1 e.2).conflicts.map Conflict.cell = t.conflicts.map Conflict.cell ++
      if (t.actions.get? e.1).isSome then [e.1] else [] := by
  rcases insert_cases policy t e.1 e.2 with ⟨hnone, heq⟩ | ⟨hsome, -⟩ |
    ⟨existing, kept, discarded, hexisting, -, -, heq⟩
  · rw [heq, hnone]
    exact (List.append_nil _).symm
  · exact absurd hsome hnew
  · rw [heq, hexisting, List.map_append]
    rfl

private theorem isSome_get?_insert {e : Cell × Action} {cell : Cell} :
    ((t.insert policy e.1 e.2).actions.get? cell).isSome =
      (decide (cell = e.1) || (t.actions.get? cell).isSome) := by
  have hinsert (x : Action) : ((t.actions.insert e.1 x).get? cell).isSome =
      (decide (cell = e.1) || (t.actions.get? cell).isSome) := by
    rw [SortedMap.get?_insert]
    by_cases hcell : cell = e.1
    · simp [hcell]
    · simp [hcell]
  rcases insert_cases policy t e.1 e.2 with ⟨-, heq⟩ | ⟨hsome, heq⟩ |
    ⟨existing, kept, discarded, -, -, -, heq⟩
  · rw [heq]
    exact hinsert e.2
  · rw [heq]
    by_cases hcell : cell = e.1
    · rw [hcell, hsome, decide_eq_true rfl]
      rfl
    · rw [decide_eq_false hcell, Bool.false_or]
  · rw [heq]
    exact hinsert kept

private theorem ne_some_insert {e e' : Cell × Action} (hne : e' ≠ e)
    (hnew : t.actions.get? e'.1 ≠ some e'.2) :
    (t.insert policy e.1 e.2).actions.get? e'.1 ≠ some e'.2 := by
  intro hget
  rcases get?_insert_eq_or t hget with hget | ⟨hcell, haction⟩
  · exact hnew hget
  · exact hne (Prod.ext hcell haction)

private theorem map_cell_conflicts_insertAll {policy' : Policy} {t' : Table}
    {cs' : List (Cell × Action)} (hcells : cs.map Prod.fst = cs'.map Prod.fst) (hcs : cs.Nodup)
    (hcs' : cs'.Nodup) (hnew : ∀ e ∈ cs, t.actions.get? e.1 ≠ some e.2)
    (hnew' : ∀ e ∈ cs', t'.actions.get? e.1 ≠ some e.2)
    (hsome : ∀ cell, (t.actions.get? cell).isSome = (t'.actions.get? cell).isSome)
    (hconflicts : t.conflicts.map Conflict.cell = t'.conflicts.map Conflict.cell) :
    (insertAll policy t cs).conflicts.map Conflict.cell =
      (insertAll policy' t' cs').conflicts.map Conflict.cell := by
  induction cs generalizing t t' cs' with
  | nil =>
    obtain rfl : cs' = [] := List.map_eq_nil_iff.mp hcells.symm
    exact hconflicts
  | cons e cs ih =>
    obtain ⟨e', later, rfl, he, hcells⟩ := List.map_eq_cons_iff.mp hcells.symm
    obtain ⟨he₀, hcs⟩ := List.nodup_cons.mp hcs
    obtain ⟨he₀', hcs'⟩ := List.nodup_cons.mp hcs'
    obtain ⟨hnow, hlater⟩ := List.forall_mem_cons.mp hnew
    obtain ⟨hnow', hlater'⟩ := List.forall_mem_cons.mp hnew'
    change (insertAll policy (t.insert policy e.1 e.2) cs).conflicts.map _ =
      (insertAll policy' (t'.insert policy' e'.1 e'.2) later).conflicts.map _
    refine ih hcells.symm hcs hcs' (fun x hx => ?_) (fun x hx => ?_) (fun cell => ?_) ?_
    · exact ne_some_insert (fun heq => he₀ (heq ▸ hx)) (hlater x hx)
    · exact ne_some_insert (fun heq => he₀' (heq ▸ hx)) (hlater' x hx)
    · refine isSome_get?_insert.trans ?_
      rw [hsome, ← he]
      exact isSome_get?_insert.symm
    · refine (map_cell_conflicts_insert hnow).trans ?_
      rw [hconflicts, hsome, ← he]
      exact (map_cell_conflicts_insert hnow').symm

/-- Two tables have their conflicts in the same cells, in the same order, if their candidates are
for the same cells, whichever policies settle them. -/
theorem map_cell_conflicts_eq {g' : Grammar} {a' : Automaton} {t' : Table} {policy' : Policy}
    {cs' : List (Cell × Action)} (ha : Automaton.Lawful g a) (ha' : Automaton.Lawful g' a')
    (hcs : a.candidates? g = .ok cs) (hcs' : a'.candidates? g' = .ok cs')
    (hcells : cs.map Prod.fst = cs'.map Prod.fst) (ht : build policy a g = .ok t)
    (ht' : build policy' a' g' = .ok t') :
    t.conflicts.map Conflict.cell = t'.conflicts.map Conflict.cell := by
  obtain ⟨cs₁, hcs₁, rfl⟩ := build_eq_ok_iff.mp ht
  obtain ⟨cs₂, hcs₂, rfl⟩ := build_eq_ok_iff.mp ht'
  obtain rfl := Except.ok.inj (hcs.symm.trans hcs₁)
  obtain rfl := Except.ok.inj (hcs'.symm.trans hcs₂)
  refine map_cell_conflicts_insertAll hcells (ha.nodup_candidates hcs) (ha'.nodup_candidates hcs')
    (fun e _ => ?_) (fun e _ => ?_) (fun _ => rfl) rfl
  · rw [blank, SortedMap.get?_empty]
    exact (Option.some_ne_none _).symm
  · rw [blank, SortedMap.get?_empty]
    exact (Option.some_ne_none _).symm

end Table

end Recognizer.LR
