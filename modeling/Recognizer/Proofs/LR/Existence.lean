import Recognizer.LR.Compile
import Recognizer.Proofs.Grammar.Notation
import Recognizer.Proofs.Iteration.Termination
import Recognizer.Proofs.LR.Conflicts
import Recognizer.Proofs.LR.FollowLookaheads

/-!
# When a grammar has a table

An automaton is put together by loops, and each of them ends by itself. It exists unless a
nonterminal that the start leads to heads no rule: the symbols after the dots of all item sets occur
in strings that are derived from the start, and an automaton that exists has a rule for each of
these nonterminals. Once there is an automaton, before or after the merging, there is a table.

## Main definitions

* `Grammar.IsUndefined`: a reachable nonterminal without rules.
* `Automaton.LoopsEnd`: the loops behind the automaton of a grammar end.

## Main results

* `Automaton.loopsEnd`: this holds of every grammar.
* `Automaton.exists_isUndefined_of_construct`: why a grammar has no automaton.
* `compile_eq_error_iff`: the errors of a compilation.
* `construct_and_compile_eq_error_iff`: when there is no automaton, no table, and no result of a
  compilation.
-/

namespace Recognizer

/-- The nonterminal is reachable from the start, but heads no rule. -/
def Grammar.IsUndefined (g : Grammar) (name : String) : Prop :=
  g.Reachable name ∧ ∀ r ∈ g.rules, r.head ≠ name

theorem Grammar.IsUndefined.of_augmented {g : Grammar} {name : String}
    (h : g.augmented.IsUndefined name) : g.IsUndefined name := by
  obtain ⟨hoccurs, hrules⟩ := h
  refine ⟨hoccurs.of_augmented.resolve_left fun heq => ?_, fun r hr => ?_⟩
  · exact hrules _ g.startRule_mem (Symbol.nonterminal.inj heq).symm
  · exact hrules r (mem_rules_augmented hr)

namespace LR

open Relation (ReflTransGen)

variable {g : Grammar} {f f₀ : Fact} {s t : ItemSet} {X : Symbol}
  {name : String} {cause : GrammarError}

/-! ### The symbols after the dots -/

/-- The fact is one of the grammar, and the head of its item occurs in a derived string. -/
structure IsLiveFact (g : Grammar) (f : Fact) : Prop where
  isFact : IsFact g f
  occurs : g.Occurs f.1.head

namespace IsLiveFact

theorem occurs_of_next? (h : IsLiveFact g f) (hnext : f.1.next? = some X) : g.Occurs X := by
  obtain ⟨⟨⟨r, hr, dot, hdot, hitem⟩, -⟩, hhead⟩ := h
  rw [hitem] at hnext hhead
  rw [Rule.next?_item hdot] at hnext
  exact Grammar.Occurs.of_mem_symbols hhead hr (List.mem_of_getElem? hnext)

theorem expands (h : IsLiveFact g f₀) (hexpands : Expands g g.firstSets f₀ f) :
    IsLiveFact g f := by
  obtain ⟨r, -, hnext, hitem⟩ := hexpands.exists_rule
  refine ⟨h.isFact.expands hexpands, ?_⟩
  rw [hitem]
  exact h.occurs_of_next? hnext

theorem reaches (h : IsLiveFact g f₀) (hpath : ReflTransGen (Expands g g.firstSets) f₀ f) :
    IsLiveFact g f := by
  induction hpath with
  | refl => exact h
  | tail _ hexpands ih => exact ih.expands hexpands

theorem advance (h : IsLiveFact g f) (hnext : f.1.next? = some X) :
    IsLiveFact g (f.1.advance, f.2) :=
  ⟨h.isFact.advance hnext, h.occurs⟩

end IsLiveFact

theorem isLiveFact_of_holds_startSet
    (hf : SortedMap.Holds (Automaton.startSet g.augmented g.startSymbol) f) :
    IsLiveFact g.augmented f := by
  refine ⟨isFact_of_holds_startSet hf, ?_⟩
  rw [(holds_startSet_iff.mp hf).1]
  exact ⟨[], [], .refl _⟩

/-- A set of such facts has no closure only if a nonterminal that occurs has no rules. -/
theorem ItemSet.exists_isUndefined_of_closure (hs : ∀ f, SortedMap.Holds s f → IsLiveFact g f)
    (h : s.closure g g.firstSets = .error cause) :
    ∃ name, cause = .undefined (.nonterminal name) ∧ g.IsUndefined name := by
  obtain ⟨item, X, f₀, rfl, hundefined, hf₀, hpath⟩ := exists_of_closure_eq_error h
  obtain ⟨hnext, name, rfl, hrules⟩ := Item.undefined?_eq_some_iff.mp hundefined
  exact ⟨name, rfl, ((hs f₀ hf₀).reaches hpath).occurs_of_next? hnext, hrules⟩

namespace Automaton

variable {a : Automaton} {text : String} {policy : Policy}

/-! ### The exploration of the item sets -/

private theorem isLiveFact_of_edge (hs : ∀ f, SortedMap.Holds s f → IsLiveFact g f)
    (h : Edge (existingEdges (successors g g.firstSets)) s t) :
    ∀ f, SortedMap.Holds t f → IsLiveFact g f := by
  intro f hf
  obtain ⟨X, hX⟩ := leads_of_edge h
  obtain ⟨f₀, hf₀, hnext, hpath⟩ := (ItemSet.holds_goto_iff hX.goto_eq).mp hf
  exact ((hs f₀ hf₀).advance hnext).reaches hpath

/-- The sets after an item set fail to exist only if a nonterminal that occurs has no rules. -/
private theorem exists_isUndefined_of_successors
    (hs : ∀ f, SortedMap.Holds s f → IsLiveFact g f)
    (h : successors g g.firstSets s = .error cause) :
    ∃ name, cause = .undefined (.nonterminal name) ∧ g.IsUndefined name := by
  obtain ⟨X, -, hX⟩ := exists_of_mapM_eq_error h
  rcases bind_eq_error_iff.mp hX with hgoto | ⟨t, -, hX⟩
  · refine ItemSet.exists_isUndefined_of_closure (fun f hf => ?_) hgoto
    obtain ⟨f₀, hf₀, hnext, rfl⟩ := ItemSet.holds_kernel_iff.mp hf
    exact (hs f₀ hf₀).advance hnext
  · cases hX

/-- The exploration of the item sets, which starts from a closure, ends by itself. -/
private theorem explores_reached
    (h : (startSet g.augmented g.startSymbol).closure g.augmented g.augmented.firstSets = .ok s) :
    Explores ItemSet.key (successors g.augmented g.augmented.firstSets) {s.key} [s]
      (reached g.augmented g.augmented.firstSets g.startSymbol) := by
  obtain ⟨keys, hlength, hkeys⟩ := exists_itemSet_keys g.augmented
  have hexplores := explores_breadthFirstM (isFact_of_holds_closure h)
    (fun s t hs hst => by
      obtain ⟨X, hX⟩ := leads_of_edge hst
      exact hX.isFact hs) hkeys hlength
  rwa [reached, h]

/-- A grammar has no automaton only because a reachable nonterminal heads no rule, and the error
names such a nonterminal. -/
theorem exists_isUndefined_of_construct (h : construct g = .error cause) :
    ∃ name, cause = .undefined (.nonterminal name) ∧ g.IsUndefined name := by
  suffices haugmented : ∃ name, cause = .undefined (.nonterminal name) ∧
      g.augmented.IsUndefined name by
    obtain ⟨name, hcause, hname⟩ := haugmented
    exact ⟨name, hcause, hname.of_augmented⟩
  rcases bind_eq_error_iff.mp h with hreached | ⟨sets, -, h⟩
  · rcases bind_eq_error_iff.mp hreached with hclosure | ⟨s, hclosure, -⟩
    · exact ItemSet.exists_isUndefined_of_closure (fun _ => isLiveFact_of_holds_startSet) hclosure
    · have hexplores := explores_reached hclosure
      rw [hreached] at hexplores
      obtain ⟨s', hs', t, hst, ht⟩ := hexplores.exists_error
      obtain rfl := List.mem_singleton.mp hs'
      refine exists_isUndefined_of_successors ?_ ht
      clear ht
      induction hst with
      | refl =>
        intro f hf
        obtain ⟨f₀, hf₀, hpath⟩ := (ItemSet.holds_closure_iff hclosure).mp hf
        exact (isLiveFact_of_holds_startSet hf₀).reaches hpath
      | tail _ hedge ih => exact isLiveFact_of_edge ih hedge
  · cases h

/-- A grammar has an automaton if and only if all reachable nonterminals have rules. -/
theorem construct_eq_error_iff :
    (∃ cause, construct g = .error cause) ↔ ∃ name, g.IsUndefined name := by
  constructor
  · rintro ⟨cause, h⟩
    obtain ⟨name, -, hname⟩ := exists_isUndefined_of_construct h
    exact ⟨name, hname⟩
  · rintro ⟨name, hreach, hrules⟩
    cases ha : construct g with
    | error cause => exact ⟨cause, rfl⟩
    | ok a =>
      obtain ⟨r, hr, hhead⟩ := (isCanonical_of_construct ha).exists_rule hreach
      exact absurd hhead (hrules r hr)

/-- The loops behind the automaton of a grammar end without their bounds: the passes for the FIRST
sets, the rounds of every closure, and the exploration of the item sets. -/
structure LoopsEnd (g : Grammar) : Prop where
  first : Settles g.augmented.firstPass (.tabulate g.augmented.nonterminals fun _ => ∅)
    g.augmented.firstSets
  closure : ∀ s, Settles (ItemSet.expandDefined g.augmented g.augmented.firstSets) s
    (s.expanded g.augmented g.augmented.firstSets)
  reached : ∀ s,
    (startSet g.augmented g.startSymbol).closure g.augmented g.augmented.firstSets = .ok s →
      Explores ItemSet.key (successors g.augmented g.augmented.firstSets) {s.key} [s]
        (reached g.augmented g.augmented.firstSets g.startSymbol)

theorem loopsEnd (g : Grammar) : LoopsEnd g where
  first := settles_saturate (Grammar.firstPass_firstSets g.augmented)
  closure s := settles_saturate (ItemSet.expandDefined_expanded _ _ s)
  reached _ := explores_reached

end Automaton

/-! ### Compilation -/

variable {text : String} {policy : Policy} {e : CompileError}

theorem compile_eq_ok_iff {t : Table} : compile text policy = .ok t ↔
    ∃ g a, Grammar.ofText text = .ok g ∧ Automaton.lalr g = .ok a ∧
      Table.build policy a g = .ok t := by
  simp only [compile, bind_eq_ok_iff, mapError_eq_ok_iff, exists_and_left]

/-- A compilation fails either because the notation is no grammar or because the grammar has no
automaton. Once there is an automaton, there is a table. -/
theorem compile_eq_error_iff : compile text policy = .error e ↔
    (∃ cause, Grammar.ofText text = .error cause ∧ e = .reading cause) ∨
      ∃ g cause, Grammar.ofText text = .ok g ∧ Automaton.construct g = .error cause ∧
        e = .automaton g.startSymbol cause := by
  have hbuild {g : Grammar} {a : Automaton} {cause : GrammarError}
      (ha : Automaton.lalr g = .ok a) : Table.build policy a g ≠ .error cause := by
    obtain ⟨t, ht⟩ := (Automaton.lawful_of_lalr ha).exists_build policy
    rw [ht]
    nofun
  simp only [compile, bind_eq_error_iff, mapError_eq_error_iff, mapError_eq_ok_iff]
  constructor
  · rintro (⟨cause, hcause, rfl⟩ | ⟨g, hg, ⟨cause, hcause, rfl⟩ | ⟨a, ha, cause, hcause, -⟩⟩)
    · exact Or.inl ⟨cause, hcause, rfl⟩
    · exact Or.inr ⟨g, cause, hg, map_eq_error_iff.mp hcause, rfl⟩
    · exact absurd hcause (hbuild ha)
  · rintro (⟨cause, hcause, rfl⟩ | ⟨g, cause, hg, hcause, rfl⟩)
    · exact Or.inl ⟨cause, hcause, rfl⟩
    · exact Or.inr ⟨g, hg, Or.inl ⟨cause, map_eq_error_iff.mpr hcause, rfl⟩⟩

/-- The loops behind the automaton of a grammar end. There is no automaton if and only if a
reachable nonterminal has no rules, and the error names such a nonterminal. If there is an
automaton, there is a table, before and after the merging. So a compilation fails if and only if the
notation is no grammar or such a nonterminal exists, and for no other reason. -/
theorem construct_and_compile_eq_error_iff (g : Grammar) (text : String) (policy : Policy) :
    Automaton.LoopsEnd g ∧
      ((∃ X, Automaton.construct g = .error (.undefined X)) ↔ ∃ name, g.IsUndefined name) ∧
      (∀ cause, Automaton.construct g = .error cause →
        ∃ name, cause = .undefined (.nonterminal name) ∧ g.IsUndefined name) ∧
      (∀ a, Automaton.construct g = .ok a ∨ Automaton.lalr g = .ok a →
        ∃ t, Table.build policy a g = .ok t) ∧
      ((∃ e, compile text policy = .error e) ↔
        (∃ cause, Grammar.ofText text = .error cause) ∨
          ∃ h, Grammar.ofText text = .ok h ∧ ∃ name, h.IsUndefined name) ∧
      ∀ e, compile text policy = .error e → (∀ head body, e.cause ≠ .ruleNotFound head body) ∧
        (∀ X, e.cause ≠ .noAcceptState X) ∧ ∀ X, e.cause ≠ .invalidStart X := by
  refine ⟨Automaton.loopsEnd g, ⟨?_, ?_⟩, fun _ => Automaton.exists_isUndefined_of_construct, ?_,
    ⟨?_, ?_⟩, ?_⟩
  · rintro ⟨X, h⟩
    exact Automaton.construct_eq_error_iff.mp ⟨_, h⟩
  · intro hundefined
    obtain ⟨cause, hcause⟩ := Automaton.construct_eq_error_iff.mpr hundefined
    obtain ⟨name, rfl, -⟩ := Automaton.exists_isUndefined_of_construct hcause
    exact ⟨_, hcause⟩
  · rintro a (ha | ha)
    · exact (Automaton.lawful_of_construct ha).exists_build policy
    · exact (Automaton.lawful_of_lalr ha).exists_build policy
  · rintro ⟨e, he⟩
    rcases compile_eq_error_iff.mp he with ⟨cause, hcause, -⟩ | ⟨h, cause, hh, hcause, -⟩
    · exact Or.inl ⟨cause, hcause⟩
    · exact Or.inr ⟨h, hh, Automaton.construct_eq_error_iff.mp ⟨cause, hcause⟩⟩
  · rintro (⟨cause, hcause⟩ | ⟨h, hh, hundefined⟩)
    · exact ⟨_, compile_eq_error_iff.mpr (Or.inl ⟨cause, hcause, rfl⟩)⟩
    · obtain ⟨cause, hcause⟩ := Automaton.construct_eq_error_iff.mpr hundefined
      exact ⟨_, compile_eq_error_iff.mpr (Or.inr ⟨h, cause, hh, hcause, rfl⟩)⟩
  · intro e he
    rcases compile_eq_error_iff.mp he with ⟨cause, hcause, rfl⟩ | ⟨h, cause, -, hcause, rfl⟩
    · have hnotation := Grammar.isOfNotation_of_ofText hcause
      refine ⟨?_, ?_, ?_⟩
      · rintro head body rfl
        exact hnotation
      · rintro X rfl
        exact hnotation
      · rintro X rfl
        exact hnotation
    · obtain ⟨name, rfl, -⟩ := Automaton.exists_isUndefined_of_construct hcause
      exact ⟨nofun, nofun, nofun⟩

end LR

end Recognizer
