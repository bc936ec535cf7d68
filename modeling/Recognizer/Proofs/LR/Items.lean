import Recognizer.LR.Automaton
import Recognizer.Proofs.Grammar.Augmented
import Recognizer.Proofs.Iteration.Exploration
import Recognizer.Proofs.LR.Closure

/-!
# Items of a grammar

The items that can be in an item set of an automaton are rules with a dot among their symbols, and
their lookaheads are terminals and the end marker. So there are finitely many item sets.

## Main definitions

* `IsFact`: what an item set of the grammar's automaton can say.

## Main results

* `Rule.next?_item`, `Rule.beyond_item`: the symbols around the dot are those of the rule.
* `IsFact.expands`, `IsFact.advance`: no other facts arise.
* `exists_itemSet_keys`: a bound on the number of item sets.
-/

namespace Recognizer

open SortedMap (Holds forall_mem_none)

/-! ### Symbols around the dot -/

namespace Rule

variable {r : Rule} {dot : Nat}

@[simp] theorem dot_item (r : Rule) (dot : Nat) : (r.item dot).dot = dot := rfl

theorem symbols_eq_body (h : ¬ r.isEpsilon) : r.symbols = r.body := if_neg h

/-- The symbol after the dot, as long as the dot is among the symbols of the rule. -/
theorem next?_item (h : dot ≤ r.arity) : (r.item dot).next? = r.symbols[dot]? := by
  by_cases hr : r.isEpsilon
  · rw [symbols, if_pos hr, LR.Item.next?]
    change (r.body[dot]?).filter _ = _
    rw [body_of_isEpsilon hr]
    cases dot with
    | zero => rfl
    | succ dot => rfl
  · rw [LR.Item.next?, symbols_eq_body hr]
    change (r.body[dot]?).filter _ = _
    cases hX : r.body[dot]? with
    | none => rfl
    | some X =>
      have hne : X ≠ .epsilon := fun heq => r.epsilon_not_mem_symbols (by
        rw [symbols_eq_body hr, ← heq]
        exact List.mem_of_getElem? hX)
      simp [hne]

theorem beyond_item (r : Rule) (dot : Nat) : (r.item dot).beyond = r.symbols.drop (dot + 1) := by
  change r.body.drop (dot + 1) = _
  by_cases hr : r.isEpsilon
  · rw [symbols, if_pos hr, body_of_isEpsilon hr]
    simp
  · rw [symbols_eq_body hr]

theorem lt_arity_of_next? {X : Symbol} (h : dot ≤ r.arity) (hnext : (r.item dot).next? = some X) :
    dot < r.arity := by
  rw [next?_item h] at hnext
  rw [← length_symbols]
  exact (List.getElem?_eq_some_iff.mp hnext).1

theorem drop_eq_cons {X : Symbol} (h : dot ≤ r.arity) (hnext : (r.item dot).next? = some X) :
    r.symbols.drop dot = X :: r.symbols.drop (dot + 1) := by
  rw [next?_item h] at hnext
  obtain ⟨hlt, rfl⟩ := List.getElem?_eq_some_iff.mp hnext
  exact List.drop_eq_getElem_cons hlt

theorem take_append_cons_drop {X : Symbol} (h : dot ≤ r.arity)
    (hnext : (r.item dot).next? = some X) :
    r.symbols.take dot ++ X :: r.symbols.drop (dot + 1) = r.symbols := by
  rw [← drop_eq_cons h hnext, List.take_append_drop]

theorem take_succ_of_next? {X : Symbol} (h : dot ≤ r.arity)
    (hnext : (r.item dot).next? = some X) :
    r.symbols.take (dot + 1) = r.symbols.take dot ++ [X] := by
  rw [next?_item h] at hnext
  rw [List.take_add_one, hnext]
  rfl

theorem item_inj {r' : Rule} {dot' : Nat} (h : r.item dot = r'.item dot') :
    r = r' ∧ dot = dot' := by
  obtain ⟨head, body, hr⟩ := r
  obtain ⟨head', body', hr'⟩ := r'
  simp only [item, lhs, LR.Item.mk.injEq, Symbol.nonterminal.injEq] at h
  obtain ⟨rfl, rfl, rfl⟩ := h
  exact ⟨rfl, rfl⟩

end Rule

namespace LR

theorem eq_item_of_advance {r : Rule} {dot : Nat} {before : Item}
    (h : r.item (dot + 1) = before.advance) : before = r.item dot := by
  obtain ⟨head, body, dot'⟩ := before
  rw [Item.advance, Rule.item, Item.mk.injEq] at h
  obtain ⟨rfl, rfl, hdot⟩ := h
  rw [Rule.item, Nat.succ.inj hdot]

variable {g : Grammar} {f f₀ : Fact} {s t : ItemSet}

/-- The symbol can be a lookahead: it is a terminal of the grammar or the end marker. -/
def IsLookahead (g : Grammar) (t : Symbol) : Prop :=
  t = .endMark ∨ ∃ name ∈ g.terminals, t = .terminal name

/-- An item set of the grammar's automaton can say the fact: the item is that of a rule with the dot
among its symbols, and the lookahead, if there is one, is a terminal or the end marker. -/
def IsFact (g : Grammar) (f : Fact) : Prop :=
  (∃ r ∈ g.rules, ∃ dot, dot ≤ r.arity ∧ f.1 = r.item dot) ∧ ∀ t ∈ f.2, IsLookahead g t

/-- Expansions lead to facts of the grammar only. -/
theorem IsFact.expands (hf₀ : IsFact g f₀) (h : Expands g g.firstSets f₀ f) : IsFact g f := by
  obtain ⟨⟨r₀, hr₀, dot, -, hitem⟩, hlookahead⟩ := hf₀
  obtain ⟨r, hr, -, hchild⟩ := h.exists_rule
  refine ⟨⟨r, hr, 0, Nat.zero_le _, hchild⟩, ?_⟩
  cases h with
  | item => exact forall_mem_none
  | inherit => exact hlookahead
  | first hr' hnext ht hne =>
    intro x hx
    obtain rfl := Option.mem_some_iff.mp hx
    obtain rfl := hitem
    rw [Rule.beyond_item] at ht
    have hsymbols : ∀ X ∈ r₀.symbols.drop (dot + 1), X ∈ r₀.body := fun X hX =>
      Rule.mem_body_of_mem_symbols (List.mem_of_mem_drop hX)
    exact Or.inr ((Grammar.isFirstSymbol_of_mem_firstOfSequence hr₀ hsymbols _ ht).resolve_left hne)

theorem IsFact.advance {X : Symbol} (h : IsFact g f) (hnext : f.1.next? = some X) :
    IsFact g (f.1.advance, f.2) := by
  obtain ⟨⟨r, hr, dot, hdot, hitem⟩, hlookahead⟩ := h
  rw [hitem] at hnext ⊢
  exact ⟨⟨r, hr, dot + 1, Rule.lt_arity_of_next? hdot hnext, rfl⟩, hlookahead⟩

theorem IsFact.reaches (hf₀ : IsFact g f₀)
    (h : Relation.ReflTransGen (Expands g g.firstSets) f₀ f) : IsFact g f := by
  induction h with
  | refl => exact hf₀
  | tail _ hexpands ih => exact ih.expands hexpands

/-! ### Finitely many item sets -/

/-- All facts of a grammar, and some more. -/
private def factList (g : Grammar) : List Fact :=
  (g.rules.flatMap fun r => (List.range (r.body.length + 1)).map r.item) ×ˢ
    (none :: some .endMark :: g.terminals.toList.map fun name => some (.terminal name))

private theorem mem_factList (h : IsFact g f) : f ∈ factList g := by
  obtain ⟨item, o⟩ := f
  obtain ⟨⟨r, hr, dot, hdot, hitem⟩, hlookahead⟩ := h
  refine List.mem_product.mpr ⟨List.mem_flatMap.mpr ⟨r, hr, ?_⟩, ?_⟩
  · refine List.mem_map.mpr ⟨dot, List.mem_range.mpr ?_, hitem.symm⟩
    have harity : r.arity ≤ r.body.length := by
      rw [Rule.arity]
      split
      · exact Nat.zero_le _
      · exact Nat.le_refl _
    omega
  · cases o with
    | none => exact List.mem_cons_self
    | some t =>
      rcases hlookahead t rfl with rfl | ⟨name, hname, rfl⟩
      · exact List.mem_cons_of_mem _ List.mem_cons_self
      · exact List.mem_cons_of_mem _ (List.mem_cons_of_mem _
          (List.mem_map.mpr ⟨name, hname, rfl⟩))

private theorem length_factList (g : Grammar) : (factList g).length =
    (g.rules.length + (g.rules.flatMap Rule.body).length) * (g.terminals.size + 2) := by
  have hitems (rules : List Rule) :
      (rules.flatMap fun r => (List.range (r.body.length + 1)).map r.item).length =
        rules.length + (rules.flatMap Rule.body).length := by
    induction rules with
    | nil => rfl
    | cons r rules ih =>
      simp only [List.flatMap_cons, List.length_append, ih, List.length_map, List.length_range,
        List.length_cons]
      omega
  rw [factList, List.length_product, hitems, List.length_cons, List.length_cons, List.length_map]
  rfl

/-- There are no more item sets than the bound of the exploration. -/
theorem exists_itemSet_keys (g : Grammar) :
    ∃ keys : List ItemSet.Key, keys.length ≤ Automaton.itemSetBound g ∧
      ∀ s : ItemSet, (∀ f, Holds s f → IsFact g f) → s.key ∈ keys := by
  obtain ⟨keys, hlength, hkeys⟩ := exists_keys (P := fun s : ItemSet => ∀ f, Holds s f → IsFact g f)
    ItemSet.key (factList g) Holds (fun s t hs ht h => by
      have hst : s = t := SortedMap.ext_holds fun f =>
        ⟨fun hf => (h f (mem_factList (hs f hf))).mp hf,
          fun hf => (h f (mem_factList (ht f hf))).mpr hf⟩
      rw [hst])
  refine ⟨keys, ?_, hkeys⟩
  rw [length_factList] at hlength
  exact hlength

/-! ### The start item -/

theorem holds_startSet_iff : Holds (Automaton.startSet g.augmented g.startSymbol) f ↔
    f.1 = g.startRule.item 0 ∧ ∀ t ∈ f.2, t = .endMark := by
  rw [Automaton.startSet, ItemSet.ofList]
  refine SortedMap.holds_foldl_insertWith.trans ?_
  simp only [SortedMap.not_holds_empty, false_or, List.mem_singleton, exists_eq_left,
    SortedSet.mem_singleton]
  rfl

theorem isFact_of_holds_startSet (hf : Holds (Automaton.startSet g.augmented g.startSymbol) f) :
    IsFact g.augmented f := by
  obtain ⟨hitem, hlookahead⟩ := holds_startSet_iff.mp hf
  exact ⟨⟨g.startRule, g.startRule_mem, 0, Nat.zero_le _, hitem⟩,
    fun t ht => Or.inl (hlookahead t ht)⟩

end LR

end Recognizer
