import Mathlib.Data.Option.Basic
import Recognizer.Proofs.LR.Conflicts
import Recognizer.Proofs.LR.Exactness
import Recognizer.Proofs.LR.SameStates

/-!
# The order of rules

Two grammars with the same rules may list them in different orders and repeat some. Their FIRST and
FOLLOW sets and the states of their automata are the same. Their tables name rules by different
indices, and so two reductions that clash may be settled differently. But a cell has a candidate of
one table for each candidate of the other, which does the same, so that the conflicts are in the
same cells. Without conflicts, both parsers take the same steps.

## Main definitions

* `Action.Corresponds`: two actions do the same, although they may name rules by different indices.
* `Automaton.SameStates`: two automata have the same states, for grammars with the same rules.
* `Table.Corresponds`: two tables have the same gotos and conflicts in the same cells, and without
  conflicts, their actions and their results are the same.
* `Automaton.Corresponds`: two automata have the same states and tables that correspond.

## Main results

* `Automaton.SameStates.exists_candidate`, `Automaton.SameStates.map_fst_candidates_eq`: the
  candidates for a cell, and the cells that have candidates.
* `Table.step_eq_of_action?_rel`, `Table.runFrom_eq_of_step_eq`: a step and a run.
* `Grammar.SameRules.firstFollow_eq_and_automata_correspond`: all that is made from the grammars.
-/

namespace Recognizer.LR

open Grammar (SameRules)

variable {g g' : Grammar} {a a' : Automaton} {t t' : Table} {policy : Policy} {n : Nat}
  {X : Symbol} {x : Action}

/-- The actions do the same. Reductions are by the same rule, which may have different indices in
the two grammars. -/
inductive Action.Corresponds (g g' : Grammar) : Action → Action → Prop
  | shift (m : Nat) : Corresponds g g' (.shift m) (.shift m)
  | reduce {i j : Nat} {r : Rule} (hi : g.rules[i]? = some r) (hj : g'.rules[j]? = some r) :
      Corresponds g g' (.reduce i) (.reduce j)
  | accept : Corresponds g g' .accept .accept

/-! ### Candidates -/

namespace Automaton

theorem isSome_ruleIndex?_eq (h : SameRules g g') (head : Symbol) (body : List Symbol) :
    (g.ruleIndex? head body).isSome = (g'.ruleIndex? head body).isSome := by
  rw [Grammar.ruleIndex?, Grammar.ruleIndex?, List.findIdx?_isSome, List.findIdx?_isSome,
    Bool.eq_iff_iff]
  simp only [List.any_eq_true, h.mem_rules_iff]

/-- The automata of both grammars obey the laws and have the same states. -/
structure SameStates (g g' : Grammar) (a a' : Automaton) : Prop where
  rules : SameRules g g'
  lawful : Lawful g a
  lawful' : Lawful g' a'
  states_eq : a.states = a'.states

namespace SameStates

theorem symm (h : SameStates g g' a a') : SameStates g' g a' a :=
  ⟨h.rules.symm, h.lawful', h.lawful, h.states_eq.symm⟩

theorem startSymbol_eq (h : SameStates g g' a a') :
    a.grammar.startSymbol = a'.grammar.startSymbol := by
  rw [h.lawful.grammar_eq, h.lawful'.grammar_eq, h.rules.augmented.startSymbol_eq]

theorem edges_eq (h : SameStates g g' a a') : a.edges = a'.edges := by
  rw [edges, edges, h.states_eq]

theorem transition?_eq (h : SameStates g g' a a') (n : Nat) (X : Symbol) :
    a.transition? n X = a'.transition? n X := by
  rw [transition?, transition?, h.states_eq]

theorem holds {f : Fact} (h : SameStates g g' a a') (hf : a.Holds n f) : a'.Holds n f := by
  rw [Holds, items?, ← h.states_eq]
  exact hf

/-- For every candidate of one table there is one of the other that does the same. -/
theorem exists_candidate (h : SameStates g g' a a') (hx : Candidate g a n X x) :
    ∃ y, Candidate g' a' n X y ∧ Action.Corresponds g g' x y := by
  cases hx with
  | shift hX hm => exact ⟨_, .shift hX (h.transition?_eq _ _ ▸ hm), .shift _⟩
  | reduce hf hcomplete hhead hi =>
    obtain ⟨⟨r, hr, dot, -, rfl⟩, -⟩ := h.lawful.isFact n _ hf
    have hsome := isSome_ruleIndex?_eq h.rules r.lhs r.body
    obtain ⟨j, hj⟩ := Option.isSome_iff_exists.mp (hsome.symm.trans (Option.isSome_of_eq_some hi))
    rw [h.startSymbol_eq] at hhead
    exact ⟨.reduce j, .reduce (h.holds hf) hcomplete hhead hj,
      .reduce (rule_of_ruleIndex? hi) (rule_of_ruleIndex? hj)⟩
  | accept hn =>
    rw [h.transition?_eq, h.rules.startSymbol_eq] at hn
    exact ⟨.accept, .accept hn, .accept⟩

/-- The candidates of an item are for the same cells. -/
private theorem map_fst_reductions_eq (h : SameStates g g' a a') (e : Nat × Item × SymbolSet) :
    (a.reductions g e).map Prod.fst = (a'.reductions g' e).map Prod.fst := by
  have hsome := isSome_ruleIndex?_eq h.rules e.2.1.head e.2.1.body
  rw [reductions, reductions, reductions?, reductions?, h.startSymbol_eq]
  split
  · rfl
  · cases hi : g.ruleIndex? e.2.1.head e.2.1.body with
    | none =>
      rw [hi] at hsome
      rw [Option.isNone_iff_eq_none.mp (Option.isSome_eq_false_iff.mp hsome.symm)]
    | some i =>
      rw [hi] at hsome
      obtain ⟨j, hj⟩ := Option.isSome_iff_exists.mp hsome.symm
      rw [hj]
      simp [Except.toOption, Function.comp_def]

/-- The candidates of both tables are for the same cells, in the same order. -/
theorem map_fst_candidates_eq {cs cs' : List (Cell × Action)} (h : SameStates g g' a a')
    (hcs : a.candidates? g = .ok cs) (hcs' : a'.candidates? g' = .ok cs') :
    cs.map Prod.fst = cs'.map Prod.fst := by
  obtain ⟨state, hstate, rfl⟩ := candidates_eq hcs
  obtain ⟨state', hstate', rfl⟩ := candidates_eq hcs'
  rw [h.transition?_eq, h.rules.startSymbol_eq] at hstate
  obtain rfl := Option.some.inj (hstate.symm.trans hstate')
  have hshifts : a.shifts = a'.shifts := by rw [shifts, shifts, h.edges_eq]
  have hitems : a.stateItems = a'.stateItems := by rw [stateItems, stateItems, h.states_eq]
  simp only [List.map_append, List.map_flatMap, hshifts, hitems, map_fst_reductions_eq h]

end SameStates

end Automaton

open Automaton (SameStates)

/-! ### Steps and runs -/

namespace Table

/-- Two tables agree on everything but the indices of rules, if there are no conflicts. Their
conflicts, if there are some, are in the same cells. -/
structure Corresponds (g g' : Grammar) (t t' : Table) : Prop where
  initial_eq : t.initial = t'.initial
  gotos_eq : t.gotos = t'.gotos
  cells_eq : t.conflicts.map Conflict.cell = t'.conflicts.map Conflict.cell
  action?_rel : t.conflicts = [] →
    ∀ n X, Option.Rel (Action.Corresponds g g') (t.action? n X) (t'.action? n X)
  /-- Both runs come to an end, and however many steps are allowed, they have the same outcome. -/
  recognize_eq : t.conflicts = [] → ∀ input,
    (∃ limit result, ∀ more, t.recognize (limit + more) input = some result) ∧
      ∀ limit, t.recognize limit input = t'.recognize limit input

/-- Tables with the same gotos and the same actions, up to the indices of rules, take the same
steps, since a step looks at the rule and not at its index. -/
theorem step_eq_of_action?_rel (hgrammar : t.grammar = g) (hgrammar' : t'.grammar = g')
    (hgotos : t.gotos = t'.gotos)
    (haction : ∀ n X, Option.Rel (Action.Corresponds g g') (t.action? n X) (t'.action? n X))
    (c : Config) : t.step c = t'.step c := by
  obtain ⟨stack, input, stats⟩ := c
  cases stack with
  | nil => rfl
  | cons n below =>
    cases input with
    | nil => rfl
    | cons X rest =>
      have hrel := haction n X
      simp only [step]
      generalize t.action? n X = x at hrel ⊢
      generalize t'.action? n X = y at hrel ⊢
      cases hrel with
      | none => rfl
      | some hxy =>
        cases hxy with
        | shift m => rfl
        | accept => rfl
        | reduce hi hj =>
          rw [← hgrammar] at hi
          rw [← hgrammar'] at hj
          simp only [reduce, hi, hj, goto?, hgotos]

/-- Tables that take the same steps lead to the same results. -/
theorem runFrom_eq_of_step_eq (hstep : ∀ c, t.step c = t'.step c) (limit : Nat) (c : Config) :
    t.runFrom limit c = t'.runFrom limit c := by
  induction limit generalizing c with
  | zero => rfl
  | succ limit ih =>
    rw [runFrom, runFrom, hstep]
    cases t'.step c with
    | next d => exact ih d
    | accepted stats => rfl
    | failed e => rfl

/-- The tables of automata with the same states correspond. Each candidate for a cell has one of the
other table that does the same. -/
theorem corresponds_of_build (h : SameStates g g' a a') (ht : build policy a g = .ok t)
    (ht' : build policy a' g' = .ok t') : Corresponds g g' t t' := by
  have hfor := isFor_of_build ht
  have hfor' := isFor_of_build ht'
  have hgotos : t.gotos = t'.gotos := by
    rw [gotos_eq_of_build ht, gotos_eq_of_build ht', blank, blank, h.edges_eq]
  obtain ⟨cs, hcs, -⟩ := build_eq_ok_iff.mp ht
  obtain ⟨cs', hcs', -⟩ := build_eq_ok_iff.mp ht'
  have hcells := map_cell_conflicts_eq h.lawful h.lawful' hcs hcs'
    (h.map_fst_candidates_eq hcs hcs') ht ht'
  have haction (hconflicts : t.conflicts = []) (n : Nat) (X : Symbol) :
      Option.Rel (Action.Corresponds g g') (t.action? n X) (t'.action? n X) := by
    have hconflicts' : t'.conflicts = [] := by
      rw [hconflicts] at hcells
      exact List.map_eq_nil_iff.mp hcells.symm
    cases hx : t.action? n X with
    | some x =>
      obtain ⟨y, hy, hxy⟩ := h.exists_candidate (hfor.candidate n X x hx)
      rw [action?_eq_of_conflicts_eq_nil ht' hconflicts' hy]
      exact .some hxy
    | none =>
      cases hy : t'.action? n X with
      | none => exact .none
      | some y =>
        obtain ⟨x, hx', -⟩ := h.symm.exists_candidate (hfor'.candidate n X y hy)
        rw [action?_eq_of_conflicts_eq_nil ht hconflicts hx'] at hx
        cases hx
  have hinitial : t.initial = t'.initial := hfor.initial_eq.trans hfor'.initial_eq.symm
  refine ⟨hinitial, hgotos, hcells, haction, fun hconflicts input => ⟨?_, fun limit => ?_⟩⟩
  · have hexact : IsExact g a t :=
      ⟨hfor, h.lawful, fun _ _ _ => action?_eq_of_conflicts_eq_nil ht hconflicts⟩
    exact hexact.exists_recognize input
  · rw [recognize, recognize, start, start, hinitial]
    exact runFrom_eq_of_step_eq (step_eq_of_action?_rel hfor.grammar_eq hfor'.grammar_eq hgotos
      (haction hconflicts)) limit _

end Table

/-! ### What is made from a grammar -/

/-- The automata have the same states, and for every policy tables that correspond. -/
structure Automaton.Corresponds (g g' : Grammar) (a a' : Automaton) : Prop where
  states_eq : a.states = a'.states
  tables : ∀ policy, ∃ t t', Table.build policy a g = .ok t ∧ Table.build policy a' g' = .ok t' ∧
    Table.Corresponds g g' t t'

theorem Automaton.SameStates.corresponds (h : SameStates g g' a a') :
    Automaton.Corresponds g g' a a' where
  states_eq := h.states_eq
  tables policy := by
    obtain ⟨t, ht⟩ := h.lawful.exists_build policy
    obtain ⟨t', ht'⟩ := h.lawful'.exists_build policy
    exact ⟨t, t', ht, ht', Table.corresponds_of_build h ht ht'⟩

end Recognizer.LR

namespace Recognizer.Grammar.SameRules

open LR (Automaton Table)

variable {g g' : Grammar}

/-- The order and the repetition of rules change neither FIRST nor FOLLOW, nor the states of the
automata or the error that their construction ends with, and what they change of the tables are
indices of rules only. -/
theorem firstFollow_eq_and_automata_correspond (h : SameRules g g') :
    g.firstSets = g'.firstSets ∧ g.firstFollow = g'.firstFollow ∧
      Agree (Automaton.Corresponds g g') (Automaton.construct g) (Automaton.construct g') ∧
        Agree (Automaton.Corresponds g g') (Automaton.lalr g) (Automaton.lalr g') := by
  refine ⟨h.firstSets_eq, h.firstFollow_eq, ?_, ?_⟩
  · refine (Automaton.agree_construct_of_sameRules h).mono fun a a' ha ha' hstates => ?_
    have hsame : Automaton.SameStates g g' a a' := ⟨h, Automaton.lawful_of_construct ha,
      Automaton.lawful_of_construct ha', hstates⟩
    exact hsame.corresponds
  · refine (Automaton.agree_lalr_of_sameRules h).mono fun a a' ha ha' hstates => ?_
    have hsame : Automaton.SameStates g g' a a' :=
      ⟨h, Automaton.lawful_of_lalr ha, Automaton.lawful_of_lalr ha', hstates⟩
    exact hsame.corresponds

/-- The grammar of lists with its rules in the other order, and then once more. -/
def listsAgain : Grammar := ⟨"L", Table.lists.rules.reverse ++ Table.lists.rules⟩

/-- The same rule is reduced at the start, but it has another index. -/
theorem firstFollow_eq_and_automata_correspond_lists :
    SameRules Table.lists listsAgain ∧ Table.lists.firstFollow = listsAgain.firstFollow ∧
      ∃ a a' t t', Automaton.lalr Table.lists = .ok a ∧ Automaton.lalr listsAgain = .ok a' ∧
        Table.build .preferShift a Table.lists = .ok t ∧
        Table.build .preferShift a' listsAgain = .ok t' ∧
        Table.Corresponds Table.lists listsAgain t t' ∧ t.conflicts = [] ∧
        t.action? 0 .endMark = some (.reduce 1) ∧ t'.action? 0 .endMark = some (.reduce 0) := by
  have hsame : SameRules Table.lists listsAgain := by
    refine ⟨rfl, fun r => ?_⟩
    rw [listsAgain, List.mem_append, List.mem_reverse, or_self]
  have hbuild : (do
      let a ← Automaton.lalr Table.lists
      let a' ← Automaton.lalr listsAgain
      let t ← Table.build .preferShift a Table.lists
      let t' ← Table.build .preferShift a' listsAgain
      return (t.conflicts, t.action? 0 .endMark, t'.action? 0 .endMark)) =
        Except.ok ([], some (.reduce 1), some (.reduce 0)) := by
    decide +kernel
  obtain ⟨a, ha, hbuild⟩ := bind_eq_ok_iff.mp hbuild
  obtain ⟨a', ha', hbuild⟩ := bind_eq_ok_iff.mp hbuild
  obtain ⟨t, ht, hbuild⟩ := bind_eq_ok_iff.mp hbuild
  obtain ⟨t', ht', hbuild⟩ := bind_eq_ok_iff.mp hbuild
  obtain ⟨hconflicts, hactions⟩ := Prod.mk.inj (Except.ok.inj hbuild)
  obtain ⟨haction, haction'⟩ := Prod.mk.inj hactions
  obtain ⟨-, hfollow, -, hlalr⟩ := firstFollow_eq_and_automata_correspond hsame
  rw [ha, ha'] at hlalr
  obtain ⟨u, u', hu, hu', hcorresponds⟩ := Automaton.Corresponds.tables hlalr .preferShift
  obtain rfl := Except.ok.inj (ht.symm.trans hu)
  obtain rfl := Except.ok.inj (ht'.symm.trans hu')
  exact ⟨hsame, hfollow, a, a', t, t', ha, ha', ht, ht', hcorresponds, hconflicts, haction,
    haction'⟩

end Recognizer.Grammar.SameRules
