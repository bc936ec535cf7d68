import Recognizer.Proofs.LR.Halting

/-!
# Tables without conflicts are exact

A parser with a table that has no conflicts accepts just the strings that the grammar generates. It
comes to an end on every input; if it accepts, it has found a derivation, and on a string that is
generated it follows the production of the string up to the acceptance.

## Main results

* `Table.isExact_of_build`: without conflicts, the actions are just the candidates.
* `Table.IsExact.exists_recognize`: every run has a result.
* `Table.exists_recognize_eq_ok_iff`: the strings that are accepted.
-/

namespace Recognizer.LR.Table

variable {g : Grammar} {a : Automaton} {policy : Policy} {t : Table}

/-- If the table that is built has no conflicts, its actions are just the candidates. From here on
the policy makes no difference. -/
theorem isExact_of_build (ha : Automaton.construct g = .ok a ∨ Automaton.lalr g = .ok a)
    (ht : build policy a g = .ok t) (hconflicts : t.conflicts = []) : IsExact g a t where
  toIsFor := isFor_of_build ht
  lawful := ha.elim Automaton.lawful_of_construct Automaton.lawful_of_lalr
  action?_eq _ _ _ := action?_eq_of_conflicts_eq_nil ht hconflicts

/-- An input is accepted that begins, up to an end marker, with a string that is generated. -/
theorem IsExact.exists_accepted_of_prefix (h : IsExact g a t) {w : List String}
    {input : List Symbol} (hw : g.Generates w)
    (hbegins : w.map .terminal ++ [.endMark] <+: input ++ [.endMark]) :
    ∃ limit stats, t.recognize limit input = some (.ok stats) := by
  obtain ⟨rest, hrest⟩ := hbegins
  have hdrop : g.startRule.symbols.drop 0 = [g.startSymbol] ++ [] := rfl
  obtain ⟨q, τ, hpath, -, hholds⟩ := h.reaches_of_produces hw.produces.augmented
    g.startRule_mem h.lawful.start.to_none hdrop (Or.inr ⟨.nil, h.lawful.start⟩) [] rest
  have haction := h.action?_of_startRule (hholds _ h.lawful.start)
  have hstart : (t.start input).position =
      ([Automaton.initial], w.map .terminal ++ .endMark :: rest) := by
    rw [Config.position, start, ← hrest, h.initial_eq, List.append_assoc]
    rfl
  obtain ⟨d, steps, hd, hrun⟩ := exists_runFrom_of_reaches (c := t.start input) (hstart ▸ hpath)
  obtain ⟨stack, left, stats⟩ := d
  obtain ⟨rfl, rfl⟩ := Prod.mk.inj hd
  refine ⟨steps + 1, stats, (hrun 1).trans ?_⟩
  rw [runFrom, step_eq_accepted_iff.mpr ⟨q, τ, .endMark, rest, rfl, haction⟩]

/-- A string that is generated is accepted. -/
theorem IsExact.exists_accepted (h : IsExact g a t) {input : List String}
    (hinput : g.Generates input) :
    ∃ limit stats, t.recognize limit (input.map .terminal) = some (.ok stats) :=
  h.exists_accepted_of_prefix hinput (List.prefix_refl _)

/-- Every run comes to an end, whatever the symbols, with the same result for all limits that are
large enough. -/
theorem IsExact.exists_recognize (h : IsExact g a t) (input : List Symbol) :
    ∃ limit result, ∀ more, t.recognize (limit + more) input = some result := by
  have hspells : Spells a [t.initial] [] := by
    rw [h.initial_eq]
    exact .initial
  obtain ⟨limit, result, hresult⟩ :=
    Halts.exists_runFrom (c := t.start input) (h.halts hspells _)
  exact ⟨limit, result, runFrom_add hresult⟩

/-- A parser whose table has no conflicts comes to an end on every input, with the same result for
all limits that are large enough, and it accepts just the strings that the grammar generates. -/
theorem exists_recognize_eq_ok_iff (ha : Automaton.construct g = .ok a ∨ Automaton.lalr g = .ok a)
    (ht : build policy a g = .ok t) (hconflicts : t.conflicts = []) (input : List String) :
    ∃ limit result, (∀ more, t.recognize (limit + more) (input.map .terminal) = some result) ∧
      ((∃ stats, result = .ok stats) ↔ g.Generates input) := by
  have h := isExact_of_build ha ht hconflicts
  obtain ⟨limit, result, hresult⟩ := h.exists_recognize (input.map .terminal)
  refine ⟨limit, result, hresult, ?_⟩
  constructor
  · rintro ⟨stats, rfl⟩
    have hend : Symbol.endMark ∉ input.map Symbol.terminal := by simp
    exact ((h.accounts_start _).runFrom h.lawful h.toIsFor hend (hresult 0)).1.derives
  · intro hinput
    obtain ⟨limit', stats, haccepted⟩ := h.exists_accepted hinput
    refine ⟨stats, Option.some.inj ?_⟩
    rw [← hresult limit', Nat.add_comm]
    exact runFrom_add haccepted limit

/-- Lists, `L → L n | ε`, with a rule that recurs on the left and one that is empty. -/
def lists : Grammar where
  start := "L"
  rules :=
    [{ head := "L"
       body := [.nonterminal "L", .terminal "n"]
       wellFormed := by simp [WellFormedBody] },
     { head := "L"
       body := [.epsilon]
       wellFormed := by simp [WellFormedBody] }]

theorem exists_recognize_eq_ok_iff_lists :
    ∃ a t, Automaton.lalr lists = .ok a ∧ build .preferShift a lists = .ok t ∧ t.conflicts = [] ∧
      ∃ limit result,
        (∀ more, t.recognize (limit + more) [.terminal "n", .terminal "n"] = some result) ∧
          ((∃ stats, result = .ok stats) ↔ lists.Generates ["n", "n"]) := by
  have hbuild : (do
      let a ← Automaton.lalr lists
      let t ← build .preferShift a lists
      return t.conflicts) = Except.ok [] := by
    decide +kernel
  obtain ⟨a, ha, hbuild⟩ := bind_eq_ok_iff.mp hbuild
  obtain ⟨t, ht, hbuild⟩ := bind_eq_ok_iff.mp hbuild
  have hconflicts := Except.ok.inj hbuild
  exact ⟨a, t, ha, ht, hconflicts,
    exists_recognize_eq_ok_iff (Or.inr ha) ht hconflicts ["n", "n"]⟩

end Recognizer.LR.Table
