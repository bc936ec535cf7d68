import Recognizer.Proofs.Grammar.Derivations
import Recognizer.Proofs.LR.Actions
import Recognizer.Proofs.LR.Merge
import Recognizer.Proofs.LR.Steps

/-!
# Runs follow productions

If every candidate is the action of its cell, a parser that expects some symbols reads whatever
these symbols produce, as long as the token after it can follow: it shifts the terminals, and it
reduces by the rules of the production. Likewise, a parser that expects symbols with which a
terminal can begin shifts the terminal in the end, after some reductions of empty alternatives.

## Main definitions

* `Table.IsExact`: the actions of the table are the candidates of a lawful automaton.
* `Automaton.Admits`: a token can come after the symbols of a rule up to some place.

## Main results

* `Table.IsExact.reaches_of_produces`: the run reads what the symbols after a dot produce.
* `Table.IsExact.reaches_reduction`: the run completes a rule whose rest can be empty.
* `Table.IsExact.reaches_shift`: the run comes to shift a terminal that can come next.
-/

namespace Recognizer.LR

open Relation (ReflTransGen)

variable {g : Grammar} {a : Automaton} {t : Table} {r s : Rule} {q q' p dot : Nat}
  {σ τ : List Nat} {X b : Symbol} {α ν : List Symbol} {o : Option Symbol}

/-! ### Dots in rules -/

theorem lt_arity_of_drop (h : r.symbols.drop dot = X :: α) : dot < r.arity := by
  rw [← Rule.length_symbols]
  by_contra hle
  rw [List.drop_eq_nil_of_le (Nat.le_of_not_lt hle)] at h
  cases h

theorem next?_of_drop (h : r.symbols.drop dot = X :: α) : (r.item dot).next? = some X := by
  rw [Rule.next?_item (Nat.le_of_lt (lt_arity_of_drop h)), ← List.head?_drop, h]
  rfl

theorem drop_succ_of_drop (h : r.symbols.drop dot = X :: α) : r.symbols.drop (dot + 1) = α := by
  rw [List.drop_add_one_eq_tail_drop, h]
  rfl

theorem mem_body_of_drop (h : r.symbols.drop dot = X :: α) : X ∈ r.body :=
  mem_body_of_next? (next?_of_drop h)

namespace Automaton

/-- The token can come after the symbols of the rule that stand in front of `ν`: either `ν` can
begin with it, or `ν` can be empty and the token is a lookahead of the item in the state. -/
def Admits (g : Grammar) (a : Automaton) (q : Nat) (item : Item) (ν : List Symbol) (b : Symbol) :
    Prop :=
  g.augmented.StartsWith b ν ∨ g.augmented.Produces ν [] ∧ a.Holds q (item, some b)

theorem Admits.after_nullable (h : Admits g a q (r.item dot) ν b)
    (hα : g.augmented.Produces α []) : Admits g a q (r.item dot) (α ++ ν) b := by
  rcases h with hstarts | ⟨hν, hf⟩
  · exact Or.inl (hstarts.after_nullable hα)
  · exact Or.inr ⟨hα.append hν, hf⟩

namespace Lawful

theorem le_arity (ha : Lawful g a) (hf : a.Holds q (r.item dot, o)) :
    r ∈ g.augmented.rules ∧ dot ≤ r.arity := by
  obtain ⟨⟨s, hs, dot', hdot, hitem⟩, -⟩ := ha.isFact q _ hf
  obtain ⟨rfl, rfl⟩ := Rule.item_inj hitem
  exact ⟨hs, hdot⟩

theorem holds_item (ha : Lawful g a) (hf : a.Holds q (r.item dot, none))
    (hdrop : r.symbols.drop dot = s.lhs :: ν) (hs : s ∈ g.augmented.rules) :
    a.Holds q (s.item 0, none) :=
  ha.expands q _ _ hf (.item hs (next?_of_drop hdrop))

/-- A token that can come after a nonterminal is a lookahead of the items of its rules. -/
theorem holds_lookahead (ha : Lawful g a) (hf : a.Holds q (r.item dot, none))
    (hdrop : r.symbols.drop dot = s.lhs :: ν) (hs : s ∈ g.augmented.rules)
    (hb : Admits g a q (r.item dot) ν b) : a.Holds q (s.item 0, some b) := by
  have hnext := next?_of_drop hdrop
  have hbeyond : (r.item dot).beyond = ν := by rw [Rule.beyond_item, drop_succ_of_drop hdrop]
  have hε : .epsilon ∉ ν := fun hmem => by
    rw [← drop_succ_of_drop hdrop] at hmem
    exact r.epsilon_not_mem_symbols (List.mem_of_mem_drop hmem)
  rcases hb with hstarts | ⟨hempty, hlookahead⟩
  · have hne : b ≠ .epsilon := by
      rintro rfl
      exact absurd hstarts.isTerminal Bool.false_ne_true
    refine ha.expands q _ _ hf (.first hs hnext ?_ hne)
    rw [hbeyond]
    exact (Grammar.mem_firstOfSequence_iff hε hne).mpr hstarts
  · refine ha.expands q _ _ hlookahead (.inherit hs hnext ?_)
    rw [hbeyond]
    exact (Grammar.epsilon_mem_firstOfSequence_iff hε).mpr hempty

/-- The symbol after a dot leads on, and takes with it what the state says. -/
theorem exists_advance (ha : Lawful g a) (hf : a.Holds q (r.item dot, none))
    (hdrop : r.symbols.drop dot = X :: ν) :
    ∃ p, a.transition? q X = some p ∧
      ∀ o, a.Holds q (r.item dot, o) → a.Holds p (r.item (dot + 1), o) := by
  have hnext := next?_of_drop hdrop
  obtain ⟨p, hp⟩ := ha.exists_transition q _ X hf hnext
  exact ⟨p, hp, fun o ho => ha.advance q X p (r.item dot, o) hp ho hnext⟩

end Lawful

end Automaton

open Automaton (Admits)

namespace Table

/-- The actions of the table are just the candidates of a lawful automaton. A table without
conflicts is exact. -/
structure IsExact (g : Grammar) (a : Automaton) (t : Table) : Prop extends IsFor g a t where
  lawful : Automaton.Lawful g a
  action?_eq : ∀ n X action, Automaton.Candidate g a n X action → t.action? n X = some action

namespace IsExact

variable {rest : List Symbol} {w : List String}

/-! ### Single steps -/

theorem moves_shift (h : IsExact g a t) (hX : X.isNonterminal = false)
    (hp : a.transition? q X = some p) (σ : List Nat) {rest : List Symbol} (hrest : rest ≠ []) :
    t.Moves (q :: σ, X :: rest) (p :: q :: σ, rest) :=
  moves_cons_iff.mpr (Or.inl ⟨p, h.action?_eq q X _ (.shift hX hp), hrest, rfl⟩)

theorem moves_reduce (h : IsExact g a t) (hr : r ∈ g.rules)
    (hf : a.Holds q' (r.item r.arity, some b)) (hdrop : (q' :: τ).drop r.arity = q :: σ)
    (hp : a.transition? q r.lhs = some p) (rest : List Symbol) :
    t.Moves (q' :: τ, b :: rest) (p :: q :: σ, b :: rest) := by
  obtain ⟨i, hi, hcandidate⟩ := h.lawful.exists_candidate hr hf
  have haction := h.action?_eq q' b _ hcandidate
  rw [← h.grammar_eq] at hi
  rw [← h.goto?_eq q r.lhs rfl] at hp
  exact moves_cons_iff.mpr (Or.inr ⟨i, r, q, σ, p, haction, hi, hdrop, hp, rfl⟩)

/-- Where the start rule has been read, the parser accepts. -/
theorem action?_of_startRule (h : IsExact g a t) (hf : a.Holds q (g.startRule.item 1, some b)) :
    t.action? q b = some .accept := by
  obtain ⟨hq, hb⟩ := h.lawful.transition?_of_startRule hf
  obtain rfl := hb b rfl
  exact h.action?_eq q .endMark _ (.accept hq)

/-! ### Following a production -/

/-- A run reads what the symbols after a dot produce, up to some place in the rule. The token after
it must be one that can come next, for otherwise the last reductions are not made. -/
theorem reaches_of_produces (h : IsExact g a t) (hα : g.augmented.Produces α w)
    (hr : r ∈ g.augmented.rules) (hf : a.Holds q (r.item dot, none))
    (hdrop : r.symbols.drop dot = α ++ ν) (hb : Admits g a q (r.item dot) ν b)
    (σ : List Nat) (rest : List Symbol) :
    ∃ q' τ, ReflTransGen t.Moves (q :: σ, w.map .terminal ++ b :: rest) (q' :: τ, b :: rest) ∧
      (q' :: τ).drop α.length = q :: σ ∧
        ∀ o, a.Holds q (r.item dot, o) → a.Holds q' (r.item (dot + α.length), o) := by
  induction hα generalizing q r dot ν b σ rest with
  | nil => exact ⟨q, σ, .refl, rfl, fun o ho => ho⟩
  | @terminal name α w _ ih =>
    obtain ⟨p, hp, hadvance⟩ := h.lawful.exists_advance hf hdrop
    obtain ⟨q', τ, hpath, hτ, hholds⟩ := ih hr (hadvance none hf) (drop_succ_of_drop hdrop)
      (hb.imp_right fun hν => ⟨hν.1, hadvance _ hν.2⟩) (q :: σ) rest
    refine ⟨q', τ, ?_, ?_, fun o ho => ?_⟩
    · refine .head (h.moves_shift rfl hp σ ?_) hpath
      exact List.append_ne_nil_of_right_ne_nil _ (List.cons_ne_nil _ _)
    · rw [List.length_cons, List.drop_add_one_eq_tail_drop, hτ]
      rfl
    · have hitem := hholds o (hadvance o ho)
      rwa [Nat.add_assoc, Nat.add_comm 1] at hitem
  | @rule s α u w hs hu hw ihu ih =>
    obtain ⟨p, hp, hadvance⟩ := h.lawful.exists_advance hf hdrop
    have hsg := Grammar.mem_rules_of_lhs_mem_body hr hs (mem_body_of_drop hdrop)
    -- the token after the part of `s` is the next terminal of `w`, or `b` if there is none
    obtain ⟨b', rest', hrest, hb'⟩ : ∃ b' rest', w.map .terminal ++ b :: rest = b' :: rest' ∧
        Admits g a q (r.item dot) (α ++ ν) b' := by
      cases w with
      | nil => exact ⟨b, rest, rfl, hb.after_nullable hw⟩
      | cons name w => exact ⟨_, _, rfl, Or.inl (hw.startsWith.append_right ν)⟩
    have hlookahead := h.lawful.holds_lookahead hf hdrop hs hb'
    obtain ⟨q₁, τ₁, hpath₁, hτ₁, hholds₁⟩ := ihu hs hlookahead.to_none
      (List.append_nil s.symbols).symm (Or.inr ⟨.nil, hlookahead⟩) σ rest'
    have hcomplete := hholds₁ (some b') hlookahead
    rw [Nat.zero_add, Rule.length_symbols] at hcomplete
    rw [Rule.length_symbols] at hτ₁
    have hreduce := h.moves_reduce hsg hcomplete hτ₁ hp rest'
    obtain ⟨q', τ, hpath, hτ, hholds⟩ := ih hr (hadvance none hf) (drop_succ_of_drop hdrop)
      (hb.imp_right fun hν => ⟨hν.1, hadvance _ hν.2⟩) (q :: σ) rest
    rw [hrest] at hpath
    refine ⟨q', τ, ?_, ?_, fun o ho => ?_⟩
    · rw [List.map_append, List.append_assoc, hrest]
      exact (hpath₁.tail hreduce).trans hpath
    · rw [List.length_cons, List.drop_add_one_eq_tail_drop, hτ]
      rfl
    · have hitem := hholds o (hadvance o ho)
      rwa [Nat.add_assoc, Nat.add_comm 1] at hitem

/-- A run completes a rule whose rest can be empty, with the token as a lookahead and without
reading anything. -/
theorem reaches_reduction (h : IsExact g a t) (hr : r ∈ g.augmented.rules)
    (hdot : dot ≤ r.arity) (hf : a.Holds q (r.item dot, some b))
    (hrest : g.augmented.Produces (r.symbols.drop dot) []) (σ : List Nat) (rest : List Symbol) :
    ∃ q' τ, ReflTransGen t.Moves (q :: σ, b :: rest) (q' :: τ, b :: rest) ∧
      (q' :: τ).drop r.arity = (q :: σ).drop dot ∧ a.Holds q' (r.item r.arity, some b) := by
  obtain ⟨q', τ, hpath, hτ, hholds⟩ := h.reaches_of_produces hrest hr hf.to_none
    (List.append_nil _).symm (Or.inr ⟨.nil, hf⟩) σ rest
  have hlength : dot + (r.symbols.drop dot).length = r.arity := by
    rw [List.length_drop, Rule.length_symbols]
    omega
  refine ⟨q', τ, hpath, ?_, ?_⟩
  · rw [← hτ, List.drop_drop, Nat.add_comm, hlength]
  · have hcomplete := hholds (some b) hf
    rwa [hlength] at hcomplete

/-- A run comes to shift a terminal with which the symbols after a dot can begin, after reductions
of empty alternatives only. -/
theorem reaches_shift (h : IsExact g a t) (hα : g.augmented.StartsWith b α)
    (hr : r ∈ g.augmented.rules) (hf : a.Holds q (r.item dot, none))
    (hdrop : r.symbols.drop dot = α) (σ : List Nat) (rest : List Symbol) :
    ∃ q' τ p, ReflTransGen t.Moves (q :: σ, b :: rest) (q' :: τ, b :: rest) ∧
      a.transition? q' b = some p := by
  induction hα generalizing q r dot σ with
  | here hb α =>
    obtain ⟨p, hp, -⟩ := h.lawful.exists_advance hf hdrop
    exact ⟨q, σ, p, .refl, hp⟩
  | inside hs _ α ih =>
    exact ih hs (h.lawful.holds_item hf hdrop hs) rfl σ
  | @after X α hX hα ih =>
    obtain ⟨q₁, τ₁, hpath₁, -, hholds₁⟩ := h.reaches_of_produces hX hr hf hdrop (Or.inl hα) σ rest
    obtain ⟨q', τ, p, hpath, hp⟩ := ih hr (hholds₁ none hf) (drop_succ_of_drop hdrop) τ₁
    exact ⟨q', τ, p, hpath₁.trans hpath, hp⟩

end IsExact

end Table

end Recognizer.LR
