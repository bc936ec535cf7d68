import Mathlib.Data.List.Basic
import Recognizer.Grammar.Derivation

/-!
# What strings of symbols produce

A string of symbols produces a string of terminals if each of its symbols produces a part of it: a
terminal itself, and a nonterminal what the symbols of one of its rules produce. This is the same as
a derivation, but follows the symbols from the left and not the steps.

A string of symbols can begin with a terminal if the terminal is its first symbol, if a rule of its
first symbol can, or if the first symbol can be empty and the rest can. The rest of such a rule need
not produce anything.

## Main definitions

* `Grammar.Produces`: the symbols produce the terminals.
* `Grammar.StartsWith`: a string that is derived from the symbols can begin with the terminal.

## Main results

* `Grammar.Derives.produces`: what is derived is produced.
-/

namespace Recognizer

/-! ### The symbols of a rule -/

theorem Rule.body_of_isEpsilon {r : Rule} (h : r.isEpsilon) : r.body = [.epsilon] := by
  simpa [isEpsilon] using h

theorem Rule.epsilon_not_mem_symbols (r : Rule) : .epsilon ∉ r.symbols := by
  rw [symbols]
  split
  · exact List.not_mem_nil
  · next h =>
    intro hmem
    obtain ⟨hne, hmixed, -⟩ := r.wellFormed
    by_cases hlength : 1 < r.body.length
    · exact hmixed hlength hmem
    · have hone : r.body.length = 1 := by
        have := List.length_pos_of_ne_nil hne
        omega
      obtain ⟨x, hx⟩ := List.length_eq_one_iff.mp hone
      rw [hx, List.mem_singleton] at hmem
      exact h (by simp [isEpsilon, hx, hmem])

theorem Rule.endMark_not_mem_symbols (r : Rule) : .endMark ∉ r.symbols := by
  rw [symbols]
  split
  · exact List.not_mem_nil
  · exact r.wellFormed.2.2

theorem Rule.mem_body_of_mem_symbols {r : Rule} {X : Symbol} (h : X ∈ r.symbols) : X ∈ r.body := by
  rw [symbols] at h
  split at h
  · cases h
  · exact h

namespace Grammar

variable {g : Grammar} {α β : List Symbol} {u v w : List String} {t X : Symbol}

/-! ### Production -/

/-- The symbols produce the terminals, each symbol a part of them. An induction over this relation
follows the trees of a derivation, not its steps. -/
inductive Produces (g : Grammar) : List Symbol → List String → Prop
  | nil : Produces g [] []
  | terminal (name : String) {α : List Symbol} {w : List String} (h : Produces g α w) :
      Produces g (.terminal name :: α) (name :: w)
  | rule {r : Rule} {α : List Symbol} {u w : List String} (hr : r ∈ g.rules)
      (hu : Produces g r.symbols u) (h : Produces g α w) : Produces g (r.lhs :: α) (u ++ w)

theorem Produces.mono {g' : Grammar} (h : g.Produces α w) (hsub : g.rules ⊆ g'.rules) :
    g'.Produces α w := by
  induction h with
  | nil => exact .nil
  | terminal name _ ih => exact .terminal name ih
  | rule hr _ _ ihu ih => exact .rule (hsub hr) ihu ih

theorem Produces.append (hu : g.Produces α u) (hv : g.Produces β v) :
    g.Produces (α ++ β) (u ++ v) := by
  induction hu with
  | nil => exact hv
  | terminal name h ih => exact .terminal name ih
  | rule hr hu h _ ih =>
    rw [List.append_assoc]
    exact .rule hr hu ih

theorem Produces.split (h : g.Produces (α ++ β) w) :
    ∃ u v, w = u ++ v ∧ g.Produces α u ∧ g.Produces β v := by
  induction α generalizing w with
  | nil => exact ⟨[], w, rfl, .nil, h⟩
  | cons X α ih =>
    cases h with
    | terminal name h =>
      obtain ⟨u, v, rfl, hu, hv⟩ := ih h
      exact ⟨name :: u, v, rfl, .terminal name hu, hv⟩
    | @rule r _ x _ hr hx h =>
      obtain ⟨u, v, rfl, hu, hv⟩ := ih h
      exact ⟨x ++ u, v, (List.append_assoc ..).symm, .rule hr hx hu, hv⟩

theorem produces_terminals (w : List String) : g.Produces (w.map .terminal) w := by
  induction w with
  | nil => exact .nil
  | cons name w ih => exact .terminal name ih

/-- Terminals that are derived are produced. The steps of a derivation may come in any order; the
trees are put together from them by an induction from the last step. -/
theorem Derives.produces (h : g.Derives α (w.map .terminal)) : g.Produces α w := by
  generalize hw : w.map Symbol.terminal = γ at h
  induction h with
  | refl =>
    rw [← hw]
    exact produces_terminals w
  | step hy _ ih =>
    obtain ⟨before, after, hr⟩ := hy
    obtain ⟨x, v, rfl, hx, hv⟩ := (ih hw).split
    obtain ⟨u, y, rfl, hu, hy⟩ := hx.split
    rw [List.append_assoc]
    exact hu.append (.rule hr hy hv)

/-! ### First terminals -/

/-- A string that is derived from the symbols can begin with the terminal, or with the end marker if
this is one of the symbols. -/
inductive StartsWith (g : Grammar) (t : Symbol) : List Symbol → Prop
  | here (ht : t.isTerminal) (α : List Symbol) : StartsWith g t (t :: α)
  | inside {r : Rule} (hr : r ∈ g.rules) (h : StartsWith g t r.symbols) (α : List Symbol) :
      StartsWith g t (r.lhs :: α)
  | after {X : Symbol} {α : List Symbol} (hX : g.Produces [X] []) (h : StartsWith g t α) :
      StartsWith g t (X :: α)

theorem StartsWith.isTerminal (h : g.StartsWith t α) : t.isTerminal := by
  induction h with
  | here ht α => exact ht
  | inside _ _ _ ih => exact ih
  | after _ _ ih => exact ih

theorem StartsWith.mono {g' : Grammar} (h : g.StartsWith t α) (hsub : g.rules ⊆ g'.rules) :
    g'.StartsWith t α := by
  induction h with
  | here ht α => exact .here ht α
  | inside hr _ α ih => exact .inside (hsub hr) ih α
  | after hX _ ih => exact .after (hX.mono hsub) ih

theorem Produces.startsWith {name : String} (h : g.Produces α (name :: w)) :
    g.StartsWith (.terminal name) α := by
  generalize hw : name :: w = x at h
  induction h generalizing w with
  | nil => cases hw
  | terminal name' h ih =>
    obtain ⟨rfl, -⟩ := List.cons.inj hw
    exact .here rfl _
  | @rule r α u v hr hu h ihu ih =>
    cases u with
    | nil =>
      have hlhs := Produces.rule hr hu .nil
      exact .after hlhs (ih hw)
    | cons name' u =>
      obtain ⟨rfl, -⟩ := List.cons.inj hw
      exact .inside hr (ihu rfl) α

end Grammar

end Recognizer
