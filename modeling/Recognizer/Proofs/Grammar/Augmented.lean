import Mathlib.Data.List.Perm.Subperm
import Recognizer.Proofs.Grammar.First

/-!
# The augmented grammar

The start nonterminal of the augmented grammar is new: no rule of the grammar has it as its head,
and no rule at all has it in its body. So the rules of the other nonterminals are those of the
grammar.

## Main results

* `Grammar.freshName_not_mem`: the name that is chosen is not the name of a nonterminal.
* `Grammar.start_not_mem_body`, `Grammar.mem_rules_of_lhs_mem_body`: where the new start occurs.
* `Grammar.Produces.augmented`: what the grammar produces, the augmented grammar does.
-/

namespace Recognizer.Grammar

variable {g : Grammar} {r : Rule} {α : List Symbol} {w : List String}

private theorem primed_injective (name : String) : Function.Injective (primed name) := by
  intro k l h
  have hlength := congrArg String.length h
  simp only [primed, String.length_append, String.length_ofList, List.length_replicate] at hlength
  exact Nat.add_left_cancel hlength

/-- The name with primes is not the name of a nonterminal. -/
theorem freshName_not_mem (g : Grammar) (name : String) : g.freshName name ∉ g.nonterminals := by
  rw [freshName]
  generalize hnames : ((List.range (g.nonterminals.size + 1)).map fun k => primed name (k + 1)) =
    names
  cases hfind : names.find? (· ∉ g.nonterminals) with
  | some fresh => simpa using List.find?_some hfind
  | none =>
    -- all the names would be among the nonterminals, which are fewer
    have hsub : names ⊆ g.nonterminals.toList := fun fresh hfresh => by
      have hused : fresh ∈ g.nonterminals := by simpa using List.find?_eq_none.mp hfind fresh hfresh
      exact hused
    have hnodup : names.Nodup := by
      rw [← hnames]
      refine List.nodup_range.map fun k l h => ?_
      exact Nat.succ.inj (primed_injective name h)
    have hlength := (hnodup.subperm hsub).length_le
    rw [← hnames, List.length_map, List.length_range] at hlength
    exact absurd hlength (Nat.not_succ_le_self _)

/-- The rule of the new start. It is the first rule of the augmented grammar, and the only one with
this head. -/
def startRule (g : Grammar) : Rule := .unit g.augmented.start g.start

theorem startRule_mem (g : Grammar) : g.startRule ∈ g.augmented.rules := List.mem_cons_self

theorem mem_rules_augmented (hr : r ∈ g.rules) : r ∈ g.augmented.rules :=
  List.mem_cons_of_mem _ hr

theorem eq_startRule_or_mem (hr : r ∈ g.augmented.rules) : r = g.startRule ∨ r ∈ g.rules :=
  List.mem_cons.mp hr

theorem lhs_ne_start (hr : r ∈ g.rules) : r.lhs ≠ g.augmented.startSymbol := by
  intro h
  have hname : r.head = g.augmented.start := Symbol.nonterminal.inj h
  have hmem := head_mem_nonterminals hr
  rw [hname] at hmem
  exact g.freshName_not_mem g.start hmem

/-- The new start is in no body. -/
theorem start_not_mem_body (hr : r ∈ g.augmented.rules) : g.augmented.startSymbol ∉ r.body := by
  intro hmem
  rcases eq_startRule_or_mem hr with rfl | hr
  · have hname := Symbol.nonterminal.inj (List.mem_singleton.mp hmem)
    have hstart := g.start_mem_nonterminals
    rw [← hname] at hstart
    exact g.freshName_not_mem g.start hstart
  · exact g.freshName_not_mem g.start (mem_nonterminals_of_mem_body hr hmem)

/-- A rule of a nonterminal that is in a body is a rule of the grammar. -/
theorem mem_rules_of_lhs_mem_body {r₀ : Rule} (hr₀ : r₀ ∈ g.augmented.rules)
    (hr : r ∈ g.augmented.rules) (h : r.lhs ∈ r₀.body) : r ∈ g.rules := by
  refine (eq_startRule_or_mem hr).resolve_left ?_
  rintro rfl
  exact start_not_mem_body hr₀ h

/-- What the grammar produces, the augmented grammar produces, since it has all rules of the
grammar. -/
theorem Produces.augmented (h : g.Produces α w) : g.augmented.Produces α w :=
  h.mono fun _ => mem_rules_augmented

end Recognizer.Grammar
