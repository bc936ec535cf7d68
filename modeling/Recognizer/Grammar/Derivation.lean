import Recognizer.Grammar.Basic

/-!
# Derivations

What a grammar generates, said without tables: a step replaces a nonterminal by the body of one of
its rules, an empty alternative by nothing, and a derivation is a sequence of steps.

## Main definitions

* `Grammar.Yields`, `Grammar.Derives`: one step, and any number of steps.
* `Grammar.RightmostYields`, `Grammar.RightmostDerives`: a step at the last nonterminal, and a given
  number of such steps.
* `Grammar.Generates`: the start derives a string of terminals.
-/

namespace Recognizer

/-- The symbols that a rule puts in the place of its head: its body, or nothing if this is `ε`. So
strings of symbols in a derivation never contain the `ε` of an empty alternative. -/
def Rule.symbols (r : Rule) : List Symbol := if r.isEpsilon then [] else r.body

theorem Rule.length_symbols (r : Rule) : r.symbols.length = r.arity := by
  unfold symbols arity
  split <;> rfl

namespace Grammar

/-- One step of a derivation: one nonterminal, anywhere in the string, is replaced by the symbols of
one of its rules. -/
inductive Yields (g : Grammar) : List Symbol → List Symbol → Prop
  | replace (before after : List Symbol) {r : Rule} (h : r ∈ g.rules) :
      Yields g (before ++ r.lhs :: after) (before ++ r.symbols ++ after)

/-- Some steps lead from one string of symbols to the other. The steps are taken from the front: the
first of them comes first. -/
inductive Derives (g : Grammar) : List Symbol → List Symbol → Prop
  | refl (u : List Symbol) : Derives g u u
  | step {u v w : List Symbol} (h : Yields g u v) (hs : Derives g v w) : Derives g u w

/-- One step of a rightmost derivation: the last nonterminal, which only terminals follow, is
replaced by the symbols of one of its rules. -/
inductive RightmostYields (g : Grammar) : List Symbol → List Symbol → Prop
  | replace (before : List Symbol) (after : List String) {r : Rule} (h : r ∈ g.rules) :
      RightmostYields g (before ++ r.lhs :: after.map .terminal)
        (before ++ r.symbols ++ after.map .terminal)

/-- So many rightmost steps lead from one string of symbols to the other. The number is part of the
relation because the run of a parser makes one reduction for each step. -/
inductive RightmostDerives (g : Grammar) : Nat → List Symbol → List Symbol → Prop
  | refl (u : List Symbol) : RightmostDerives g 0 u u
  | step {n : Nat} {u v w : List Symbol} (h : RightmostYields g u v)
      (hs : RightmostDerives g n v w) :
      RightmostDerives g (n + 1) u w

/-- The grammar generates the string of terminals: the start symbol derives it. Terminals are given
by their names, so the end marker and `ε` are never among them. -/
def Generates (g : Grammar) (input : List String) : Prop :=
  g.Derives [g.startSymbol] (input.map .terminal)

/-! ### Derivations in a context -/

theorem Yields.append {g : Grammar} {u v : List Symbol} (h : g.Yields u v) (p s : List Symbol) :
    g.Yields (p ++ u ++ s) (p ++ v ++ s) := by
  cases h with
  | replace before after hr =>
    have := Yields.replace (p ++ before) (after ++ s) hr
    simpa only [List.append_assoc, List.cons_append] using this

theorem Derives.append {g : Grammar} {u v : List Symbol} (h : g.Derives u v) (p s : List Symbol) :
    g.Derives (p ++ u ++ s) (p ++ v ++ s) := by
  induction h with
  | refl u => exact .refl _
  | step hy _ ih => exact .step (hy.append p s) ih

theorem Derives.trans {g : Grammar} {u v w : List Symbol} (h₁ : g.Derives u v)
    (h₂ : g.Derives v w) : g.Derives u w := by
  induction h₁ with
  | refl => exact h₂
  | step hy _ ih => exact .step hy (ih h₂)

theorem RightmostYields.yields {g : Grammar} {u v : List Symbol} (h : g.RightmostYields u v) :
    g.Yields u v := by
  cases h with
  | replace before after hr => exact .replace before _ hr

theorem RightmostDerives.derives {g : Grammar} {n : Nat} {u v : List Symbol}
    (h : g.RightmostDerives n u v) : g.Derives u v := by
  induction h with
  | refl u => exact .refl u
  | step hy _ ih => exact .step hy.yields ih

end Grammar

end Recognizer
