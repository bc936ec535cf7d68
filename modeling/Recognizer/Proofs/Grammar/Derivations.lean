import Recognizer.Proofs.Grammar.Augmented

/-!
# Derivations and what symbols produce

What symbols produce has a rightmost derivation, and such a derivation can take place behind any
symbols and in front of terminals. What symbols can begin with are the first terminals of the
strings that they derive. If all symbols that are reachable from the start produce something, then
a string of such symbols that can begin with a terminal produces a string that begins with it.

## Main definitions

* `Grammar.First`: the terminals with which a string that is derived can begin.
* `Grammar.Occurs`: the symbol is in a string that is derived from the start.
* `Grammar.Reachable`: the same of a nonterminal.

## Main results

* `Grammar.RightmostDerives.append`, `Grammar.RightmostDerives.trans`: derivations in a context, and
  one after the other.
* `Grammar.Produces.exists_rightmostDerives`: what is produced has a rightmost derivation.
* `Grammar.mem_first_iff`: the first terminals of derived strings are what symbols can begin with.
* `Grammar.StartsWith.exists_produces`: what reachable symbols can begin with.
* `Grammar.exists_produces_of_occurs_augmented`: the symbols of the augmented grammar are productive
  if those of the grammar are.
-/

namespace Recognizer.Grammar

variable {g : Grammar} {r : Rule} {u v w α β : List Symbol} {x y : List String} {X t : Symbol}
  {n m : Nat} {name : String}

/-! ### Rightmost derivations -/

theorem RightmostYields.append (h : g.RightmostYields u v) (p : List Symbol) (x : List String) :
    g.RightmostYields (p ++ u ++ x.map .terminal) (p ++ v ++ x.map .terminal) := by
  obtain ⟨before, after, hr⟩ := h
  have happend := RightmostYields.replace (p ++ before) (after ++ x) hr
  simpa only [List.map_append, List.append_assoc, List.cons_append] using happend

/-- A rightmost derivation takes place behind any symbols and in front of terminals. In front of
other symbols it would not be rightmost any more. -/
theorem RightmostDerives.append (h : g.RightmostDerives n u v) (p : List Symbol)
    (x : List String) :
    g.RightmostDerives n (p ++ u ++ x.map .terminal) (p ++ v ++ x.map .terminal) := by
  induction h with
  | refl u => exact .refl _
  | step hy _ ih => exact .step (hy.append p x) ih

theorem RightmostDerives.trans (h : g.RightmostDerives n u v) (h' : g.RightmostDerives m v w) :
    g.RightmostDerives (n + m) u w := by
  induction h with
  | refl u =>
    rw [Nat.zero_add]
    exact h'
  | step hy _ ih =>
    rw [Nat.add_right_comm]
    exact .step hy (ih h')

/-- What is produced has a rightmost derivation: the symbols are replaced from the last one to the
first, each by what it produces. -/
theorem Produces.exists_rightmostDerives (h : g.Produces α x) :
    ∃ n, g.RightmostDerives n α (x.map .terminal) := by
  induction h with
  | nil => exact ⟨0, .refl []⟩
  | @terminal name α x _ ih =>
    obtain ⟨n, hn⟩ := ih
    have happend := hn.append [.terminal name] []
    simp only [List.map_nil, List.append_nil] at happend
    exact ⟨n, happend⟩
  | @rule r α x y hr _ _ ihx ihy =>
    -- the symbols after the head come first
    obtain ⟨n, hn⟩ := ihx
    obtain ⟨m, hm⟩ := ihy
    have hafter := hm.append [r.lhs] []
    have hstep := RightmostYields.replace [] y hr
    have hbody := hn.append [] y
    simp only [List.map_nil, List.append_nil, List.nil_append] at hafter hstep hbody
    refine ⟨m + (n + 1), ?_⟩
    rw [List.map_append]
    exact hafter.trans (.step hstep hbody)

theorem produces_nil_iff_derives : g.Produces α [] ↔ g.Derives α [] := by
  constructor
  · intro h
    obtain ⟨n, hn⟩ := h.exists_rightmostDerives
    exact hn.derives
  · exact Derives.produces (w := [])

/-! ### First symbols of derivations -/

/-- The terminals with which a string that is derived from the symbols can begin. The rest of the
string is left open, and need not produce anything. -/
def First (g : Grammar) (α : List Symbol) : Set Symbol :=
  {t | t.isTerminal ∧ ∃ γ, g.Derives α (t :: γ)}

theorem StartsWith.after_nullable (h : g.StartsWith t β) (hα : g.Produces α []) :
    g.StartsWith t (α ++ β) := by
  generalize hx : ([] : List String) = x at hα
  induction hα with
  | nil => exact h
  | terminal => cases hx
  | rule hr hu _ _ ih =>
    obtain ⟨rfl, rfl⟩ := List.append_eq_nil_iff.mp hx.symm
    exact .after (.rule hr hu .nil) (ih rfl)

theorem StartsWith.append_cases (h : g.StartsWith t (α ++ β)) :
    g.StartsWith t α ∨ g.Produces α [] ∧ g.StartsWith t β := by
  induction α with
  | nil => exact Or.inr ⟨.nil, h⟩
  | cons X α ih =>
    cases h with
    | here ht => exact Or.inl (.here ht α)
    | inside hr h => exact Or.inl (.inside hr h α)
    | after hX h =>
      rcases ih h with hα | ⟨hα, hβ⟩
      · exact Or.inl (.after hX hα)
      · exact Or.inr ⟨hX.append hα, hβ⟩

theorem StartsWith.of_yields (h : g.StartsWith t v) (hy : g.Yields u v) : g.StartsWith t u := by
  obtain ⟨before, after, hr⟩ := hy
  rw [List.append_assoc] at h
  rcases h.append_cases with h | ⟨hbefore, h⟩
  · exact h.append_right _
  refine StartsWith.after_nullable ?_ hbefore
  rcases h.append_cases with h | ⟨hsymbols, h⟩
  · exact .inside hr h after
  · exact .after (.rule hr hsymbols .nil) h

theorem StartsWith.exists_derives (h : g.StartsWith t α) : ∃ γ, g.Derives α (t :: γ) := by
  induction h with
  | here _ α => exact ⟨α, .refl _⟩
  | @inside r hr _ α ih =>
    obtain ⟨γ, hγ⟩ := ih
    exact ⟨γ ++ α, .step (.replace [] α hr) (hγ.append [] α)⟩
  | @after X α hX _ ih =>
    obtain ⟨γ, hγ⟩ := ih
    exact ⟨γ, ((produces_nil_iff_derives.mp hX).append [] α).trans hγ⟩

theorem mem_first_iff : t ∈ g.First α ↔ g.StartsWith t α := by
  constructor
  · rintro ⟨ht, γ, hγ⟩
    generalize hv : t :: γ = v at hγ
    induction hγ with
    | refl =>
      rw [← hv]
      exact .here ht γ
    | step hy _ ih => exact (ih hv).of_yields hy
  · exact fun h => ⟨h.isTerminal, h.exists_derives⟩

/-! ### Reachable symbols -/

/-- The symbol is in a string that is derived from the start. Only such symbols come up in the item
sets of the automaton. -/
def Occurs (g : Grammar) (X : Symbol) : Prop :=
  ∃ u v, g.Derives [g.startSymbol] (u ++ X :: v)

/-- The nonterminal is in a string that is derived from the start. -/
def Reachable (g : Grammar) (name : String) : Prop := g.Occurs (.nonterminal name)

theorem occurs_of_mem (h : g.Derives [g.startSymbol] u) (hX : X ∈ u) : g.Occurs X := by
  obtain ⟨before, after, rfl⟩ := List.append_of_mem hX
  exact ⟨before, after, h⟩

theorem Occurs.of_mem_symbols (h : g.Occurs r.lhs) (hr : r ∈ g.rules) (hX : X ∈ r.symbols) :
    g.Occurs X := by
  obtain ⟨u, v, hderives⟩ := h
  refine occurs_of_mem (hderives.trans (.step (.replace u v hr) (.refl _))) ?_
  exact List.mem_append_left _ (List.mem_append_right _ hX)

/-- Induction over reachable symbols. What holds of the start, and of the symbols of a rule if it
holds of the head, holds of the symbols that occur. -/
theorem Occurs.induction {P : Symbol → Prop} (hX : g.Occurs X) (hstart : P g.startSymbol)
    (hrules : ∀ r ∈ g.rules, P r.lhs → ∀ X ∈ r.symbols, P X) : P X := by
  obtain ⟨u, v, hderives⟩ := hX
  have hall {u v : List Symbol} (hderives : g.Derives u v) (hu : ∀ X ∈ u, P X) : ∀ X ∈ v, P X := by
    induction hderives with
    | refl u => exact hu
    | step hy _ ih =>
      obtain ⟨before, after, hr⟩ := hy
      refine ih ?_
      rw [List.forall_mem_append, List.forall_mem_cons] at hu
      rw [List.forall_mem_append, List.forall_mem_append]
      exact ⟨⟨hu.1, hrules _ hr hu.2.1⟩, hu.2.2⟩
  refine hall hderives (fun X hX => ?_) X (List.mem_append_right _ List.mem_cons_self)
  rwa [List.mem_singleton.mp hX]

theorem Reachable.mem_nonterminals (h : g.Reachable name) : name ∈ g.nonterminals := by
  refine Occurs.induction (P := fun X => ∀ name, X = .nonterminal name → name ∈ g.nonterminals) h
    (fun name hname => ?_) (fun r hr _ X hX name hname => ?_) name rfl
  · rw [← Symbol.nonterminal.inj hname]
    exact g.start_mem_nonterminals
  · exact mem_nonterminals_of_mem_body hr (Rule.mem_body_of_mem_symbols (hname ▸ hX))

/-- What occurs is a terminal or a nonterminal. -/
theorem Occurs.ne_epsilon_and_ne_endMark (h : g.Occurs X) : X ≠ .epsilon ∧ X ≠ .endMark := by
  refine h.induction (P := fun X => X ≠ .epsilon ∧ X ≠ .endMark) ⟨nofun, nofun⟩
    fun r _ _ X hX => ⟨?_, ?_⟩
  · rintro rfl
    exact r.epsilon_not_mem_symbols hX
  · rintro rfl
    exact r.endMark_not_mem_symbols hX

/-! ### Productive symbols -/

theorem exists_produces_of_forall (h : ∀ X ∈ α, ∃ x, g.Produces [X] x) :
    ∃ x, g.Produces α x := by
  induction α with
  | nil => exact ⟨[], .nil⟩
  | cons X α ih =>
    obtain ⟨⟨x, hx⟩, hα⟩ := List.forall_mem_cons.mp h
    obtain ⟨y, hy⟩ := ih hα
    exact ⟨x ++ y, hx.append hy⟩

/-- If all symbols that occur are productive, those that can begin with a terminal produce a string
that begins with it, so a terminal in FIRST shows in some string of terminals. -/
theorem StartsWith.exists_produces (h : g.StartsWith t α)
    (hproductive : ∀ X, g.Occurs X → ∃ x, g.Produces [X] x) (hα : ∀ X ∈ α, g.Occurs X) :
    ∃ name x, t = .terminal name ∧ g.Produces α (name :: x) := by
  induction h with
  | here ht α =>
    obtain ⟨ht, hα⟩ := List.forall_mem_cons.mp hα
    obtain ⟨x, hx⟩ := hproductive t ht
    obtain ⟨y, hy⟩ := exists_produces_of_forall fun X hX => hproductive X (hα X hX)
    cases hx with
    | terminal name hnil =>
      cases hnil
      exact ⟨name, y, rfl, .terminal name hy⟩
    | rule => contradiction
  | @inside r hr h α ih =>
    obtain ⟨hlhs, hα⟩ := List.forall_mem_cons.mp hα
    obtain ⟨name, x, rfl, hx⟩ := ih fun X hX => hlhs.of_mem_symbols hr hX
    obtain ⟨y, hy⟩ := exists_produces_of_forall fun X hX => hproductive X (hα X hX)
    exact ⟨name, x ++ y, rfl, .rule hr hx hy⟩
  | after hX _ ih =>
    obtain ⟨name, x, rfl, hx⟩ := ih (List.forall_mem_cons.mp hα).2
    exact ⟨name, x, rfl, hX.append hx⟩

theorem Occurs.exists_produces (hproductive : ∀ name, g.Reachable name →
      ∃ x : List String, g.Derives [.nonterminal name] (x.map .terminal)) (hX : g.Occurs X) :
    ∃ x, g.Produces [X] x := by
  cases X with
  | nonterminal name =>
    obtain ⟨x, hx⟩ := hproductive name hX
    exact ⟨x, hx.produces⟩
  | terminal name => exact ⟨[name], .terminal name .nil⟩
  | epsilon => exact absurd rfl hX.ne_epsilon_and_ne_endMark.1
  | endMark => exact absurd rfl hX.ne_epsilon_and_ne_endMark.2

/-! ### The augmented grammar -/

/-- Besides the new start, only what occurs in the grammar does so in the augmented grammar. -/
theorem Occurs.of_augmented (h : g.augmented.Occurs X) :
    X = g.augmented.startSymbol ∨ g.Occurs X := by
  refine h.induction (P := fun X => X = g.augmented.startSymbol ∨ g.Occurs X) (Or.inl rfl)
    fun r hr hlhs X hX => Or.inr ?_
  rcases eq_startRule_or_mem hr with rfl | hr
  · rw [List.mem_singleton.mp hX]
    exact ⟨[], [], .refl _⟩
  · exact (hlhs.resolve_left (lhs_ne_start hr)).of_mem_symbols hr hX

/-- Productive grammars stay productive. If the reachable nonterminals of the grammar derive strings
of terminals, the symbols that occur in the augmented grammar are productive there. -/
theorem exists_produces_of_occurs_augmented
    (hproductive : ∀ name, g.Reachable name →
      ∃ x : List String, g.Derives [.nonterminal name] (x.map .terminal))
    (hX : g.augmented.Occurs X) : ∃ x, g.augmented.Produces [X] x := by
  rcases hX.of_augmented with rfl | hX
  · -- the new start produces what the old one does
    obtain ⟨x, hx⟩ := Occurs.exists_produces hproductive ⟨[], [], .refl _⟩
    have hstart := Produces.rule g.startRule_mem hx.augmented .nil
    rw [List.append_nil] at hstart
    exact ⟨x, hstart⟩
  · obtain ⟨x, hx⟩ := hX.exists_produces hproductive
    exact ⟨x, hx.augmented⟩

end Recognizer.Grammar
