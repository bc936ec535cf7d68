import Mathlib.Data.List.ProdSigma
import Mathlib.Logic.Relation
import Recognizer.LR.Closure
import Recognizer.Proofs.Grammar.First
import Recognizer.Proofs.Iteration.Results

/-!
# What closures hold

An item set says that it has an item, and that a symbol is a lookahead of an item. One expansion
leads from such a fact to others, and the closure of a set says what expansions lead to from the
facts of the set. The rounds of the expansion come to an end within their bound.

## Main definitions

* `Rule.item`: the item of a rule with a given dot.
* `Expands`: one expansion leads from one fact to the other.

## Main results

* `ItemSet.holds_closure_iff`: the facts of a closure.
* `ItemSet.exists_of_closure_eq_error`: why a set has no closure.
* `ItemSet.holds_goto_iff`: the facts of the set that a symbol leads to.
-/

namespace Recognizer

open SortedMap (Holds forall_mem_none)
open Relation (ReflTransGen)

/-- The item of a rule with the dot in front of the symbol with index `dot`. -/
def Rule.item (r : Rule) (dot : Nat) : LR.Item := ⟨r.lhs, r.body, dot⟩

namespace LR

/-- What an item set can say: that it has an item, or that a symbol is a lookahead of an item. -/
abbrev Fact := Item × Option Symbol

variable {g : Grammar} {first : SetTable} {s c : ItemSet} {f f₀ f₁ : Fact} {X : Symbol}

/-- One expansion leads from one fact to the other. An item expands to the items of the rules of the
nonterminal after its dot; their lookaheads are what the symbols beyond can begin with and, if these
can be empty, the lookaheads of the item. -/
inductive Expands (g : Grammar) (first : SetTable) : Fact → Fact → Prop
  | item {item : Item} {r : Rule} (hr : r ∈ g.rules) (hnext : item.next? = some r.lhs) :
      Expands g first (item, none) (r.item 0, none)
  | first {item : Item} {r : Rule} {t : Symbol} (hr : r ∈ g.rules) (hnext : item.next? = some r.lhs)
      (ht : t ∈ first.firstOfSequence item.beyond) (hne : t ≠ .epsilon) :
      Expands g first (item, none) (r.item 0, some t)
  | inherit {item : Item} {r : Rule} {t : Symbol} (hr : r ∈ g.rules)
      (hnext : item.next? = some r.lhs)
      (hempty : .epsilon ∈ first.firstOfSequence item.beyond) :
      Expands g first (item, some t) (r.item 0, some t)

theorem Expands.exists_rule (h : Expands g first f₀ f) :
    ∃ r ∈ g.rules, f₀.1.next? = some r.lhs ∧ f.1 = r.item 0 := by
  cases h with
  | item hr hnext => exact ⟨_, hr, hnext, rfl⟩
  | first hr hnext => exact ⟨_, hr, hnext, rfl⟩
  | inherit hr hnext => exact ⟨_, hr, hnext, rfl⟩

private theorem mem_expansion {item : Item} {lookaheads : SymbolSet} {e : Item × SymbolSet} :
    e ∈ item.expansion g first lookaheads ↔ ∃ r ∈ g.rules, item.next? = some r.lhs ∧
      e = (r.item 0, item.inherited first lookaheads) := by
  rw [Item.expansion]
  split
  · next name hnext =>
    rw [Grammar.rulesFor, List.mem_map]
    constructor
    · rintro ⟨r, hr, rfl⟩
      obtain ⟨hmem, hhead⟩ := List.mem_filter.mp hr
      obtain rfl : r.head = name := by simpa using hhead
      exact ⟨r, hmem, hnext, rfl⟩
    · rintro ⟨r, hr, hlhs, rfl⟩
      rw [hnext, Rule.lhs, Option.some.injEq, Symbol.nonterminal.injEq] at hlhs
      exact ⟨r, List.mem_filter.mpr ⟨hr, by simp [hlhs]⟩, by rw [hlhs]; rfl⟩
  · next hnext =>
    simp only [List.not_mem_nil, false_iff]
    rintro ⟨r, -, hlhs, -⟩
    exact hnext r.head hlhs

private theorem mem_inherited {item : Item} {lookaheads : SymbolSet} {t : Symbol} :
    t ∈ item.inherited first lookaheads ↔
      (t ≠ .epsilon ∧ t ∈ first.firstOfSequence item.beyond) ∨
        (.epsilon ∈ first.firstOfSequence item.beyond ∧ t ∈ lookaheads) := by
  rw [Item.inherited]
  by_cases h : .epsilon ∈ first.firstOfSequence item.beyond
  · simp only [h, if_true, SortedSet.mem_union, SortedSet.mem_erase, true_and, and_comm]
  · simp only [h, if_false, false_and, or_false]
    constructor
    · intro ht
      exact ⟨fun heq => h (heq ▸ ht), ht⟩
    · exact And.right

/-- What stands after a dot without having rules is a nonterminal. -/
theorem Item.undefined?_eq_some_iff {item : Item} : item.undefined? g = some X ↔
    item.next? = some X ∧ ∃ name, X = .nonterminal name ∧ ∀ r ∈ g.rules, r.head ≠ name := by
  rw [undefined?, Option.filter_eq_some_iff, Bool.not_eq_true']
  refine and_congr_right fun _ => ?_
  cases X with
  | nonterminal name =>
    simp [Grammar.defines]
  | _ => simp [Grammar.defines]

namespace ItemSet

/-- One round adds what one expansion leads to. -/
theorem holds_expand_iff :
    Holds (s.expand g first) f ↔ Holds s f ∨ ∃ f₀, Holds s f₀ ∧ Expands g first f₀ f := by
  obtain ⟨item, o⟩ := f
  rw [expand]
  refine SortedMap.holds_foldl_insertWith.trans (or_congr Iff.rfl ?_)
  simp only [List.mem_flatMap, mem_expansion, Prod.exists, SortedMap.mem_toList]
  constructor
  · rintro ⟨_, inherited, ⟨parent, lookaheads, hparent, r, hr, hnext, heq⟩, rfl, ho⟩
    obtain ⟨rfl, rfl⟩ := Prod.mk.inj heq
    cases o with
    | none => exact ⟨parent, none, ⟨lookaheads, hparent, forall_mem_none⟩, .item hr hnext⟩
    | some t =>
      rcases mem_inherited.mp (ho t rfl) with ⟨hne, ht⟩ | ⟨hempty, ht⟩
      · exact ⟨parent, none, ⟨lookaheads, hparent, forall_mem_none⟩, .first hr hnext ht hne⟩
      · exact ⟨parent, some t, SortedMap.holds_some_iff.mpr ⟨lookaheads, hparent, ht⟩,
          .inherit hr hnext hempty⟩
  · rintro ⟨parent, o', ⟨lookaheads, hparent, ho'⟩, hexpands⟩
    cases hexpands with
    | item hr hnext =>
      exact ⟨_, _, ⟨parent, lookaheads, hparent, _, hr, hnext, rfl⟩, rfl, forall_mem_none⟩
    | first hr hnext ht hne =>
      refine ⟨_, _, ⟨parent, lookaheads, hparent, _, hr, hnext, rfl⟩, rfl, fun x hx => ?_⟩
      obtain rfl := Option.mem_some_iff.mp hx
      exact mem_inherited.mpr (Or.inl ⟨hne, ht⟩)
    | inherit hr hnext hempty =>
      refine ⟨_, _, ⟨parent, lookaheads, hparent, _, hr, hnext, rfl⟩, rfl, fun x hx => ?_⟩
      exact mem_inherited.mpr (Or.inr ⟨hempty, ho' x hx⟩)

/-! ### The rounds come to an end -/

/-- The symbols that can be lookaheads in the closure of a set. -/
private def stockSymbols (g : Grammar) (first : SetTable) (s : ItemSet) : List Symbol :=
  (s.toList.flatMap fun e => e.1.body ++ e.2.toList) ++ g.rules.flatMap Rule.body ++
    first.values.flatMap SortedSet.toList

/-- The items that can be in the closure of a set. -/
private def stockItems (g : Grammar) (s : ItemSet) : List Item :=
  s.toList.map Prod.fst ++ g.rules.map fun r => r.item 0

/-- The facts that the closure of a set can hold. -/
private def stock (g : Grammar) (first : SetTable) (s : ItemSet) : List Fact :=
  stockItems g s ×ˢ (none :: (stockSymbols g first s).map some)

private theorem mem_stock : f ∈ stock g first s ↔
    f.1 ∈ stockItems g s ∧ ∀ t ∈ f.2, t ∈ stockSymbols g first s := by
  obtain ⟨item, o⟩ := f
  rw [stock, List.mem_product]
  refine and_congr Iff.rfl ?_
  cases o with
  | none => simp
  | some t => simp

private theorem length_flatMap_eq {α β : Type} (l : List α) (f : α → List β) (n : Nat) :
    l.foldl (fun n a => n + (f a).length) n = n + (l.flatMap f).length := by
  induction l generalizing n with
  | nil => rfl
  | cons a l ih => rw [List.foldl_cons, ih, List.flatMap_cons, List.length_append, Nat.add_assoc]

/-- The bound of the expansion is larger than the number of facts. -/
private theorem length_stock_lt (g : Grammar) (first : SetTable) (s : ItemSet) :
    (stock g first s).length < s.expansionBound g first := by
  have hset : s.toList.foldl (fun n e => n + e.1.body.length + e.2.size) 0 =
      (s.toList.flatMap fun e => e.1.body ++ e.2.toList).length := by
    have h := length_flatMap_eq s.toList (fun e => e.1.body ++ e.2.toList) 0
    simp only [List.length_append, ← Nat.add_assoc, Nat.zero_add] at h
    exact h
  have hrules := length_flatMap_eq g.rules Rule.body 0
  have hfirst := length_flatMap_eq first.values SortedSet.toList 0
  rw [Nat.zero_add] at hrules hfirst
  rw [expansionBound, stock, List.length_product, stockItems, List.length_append, List.length_map,
    List.length_map, SortedMap.length_toList, List.length_cons, List.length_map, stockSymbols,
    List.length_append, List.length_append, ← hset, ← hrules, ← hfirst]
  exact Nat.lt_succ_self _

private theorem mem_stock_of_expands (hf₀ : f₀ ∈ stock g first s) (h : Expands g first f₀ f) :
    f ∈ stock g first s := by
  obtain ⟨hitem, hlookahead⟩ := mem_stock.mp hf₀
  have hbody : ∀ X ∈ f₀.1.body, X ∈ stockSymbols g first s := by
    intro X hX
    simp only [stockSymbols, List.mem_append, List.mem_flatMap]
    rcases List.mem_append.mp hitem with hitem | hitem
    · obtain ⟨e, he, heq⟩ := List.mem_map.mp hitem
      exact Or.inl (Or.inl ⟨e, he, Or.inl (heq ▸ hX)⟩)
    · obtain ⟨r, hr, heq⟩ := List.mem_map.mp hitem
      rw [← heq] at hX
      exact Or.inl (Or.inr ⟨r, hr, hX⟩)
  have hfirst : ∀ t ∈ first.firstOfSequence f₀.1.beyond,
      t = .epsilon ∨ t ∈ stockSymbols g first s := by
    refine SetTable.forall_mem_firstOfSequence (Or.inl rfl) fun X hX t ht => ?_
    have hX := hbody X (List.mem_of_mem_drop hX)
    cases X with
    | nonterminal name =>
      obtain ⟨lookaheads, hget, ht⟩ := SortedMap.holds_some_iff.mp (SetTable.mem_setOf_iff.mp ht)
      have hvalue : lookaheads ∈ first.values :=
        List.mem_map.mpr ⟨_, SortedMap.mem_toList.mpr hget, rfl⟩
      exact Or.inr (List.mem_append_right _ (List.mem_flatMap.mpr ⟨lookaheads, hvalue, ht⟩))
    | _ =>
      rw [SortedSet.mem_singleton.mp ht]
      exact Or.inr hX
  obtain ⟨r, hr, -, hchild⟩ := h.exists_rule
  refine mem_stock.mpr ⟨?_, ?_⟩
  · rw [hchild]
    exact List.mem_append_right _ (List.mem_map_of_mem hr)
  · cases h with
    | item => exact forall_mem_none
    | first hr hnext ht hne =>
      intro x hx
      obtain rfl := Option.mem_some_iff.mp hx
      exact (hfirst _ ht).resolve_left hne
    | inherit => exact hlookahead

private theorem stock_expandDefined {t : ItemSet} (ht : ∀ f, Holds t f → f ∈ stock g first s) :
    ∀ f, Holds (t.expandDefined g first) f → f ∈ stock g first s := by
  intro f hf
  rw [expandDefined] at hf
  split at hf
  · exact ht f hf
  · rcases holds_expand_iff.mp hf with hf | ⟨f₀, hf₀, hexpands⟩
    · exact ht f hf
    · exact mem_stock_of_expands (ht f₀ hf₀) hexpands

theorem holds_expandDefined (h : Holds s f) : Holds (s.expandDefined g first) f := by
  rw [expandDefined]
  split
  · exact h
  · exact holds_expand_iff.mpr (Or.inl h)

/-- A further round does not change the expanded set. A round that changes a set adds a fact of the
stock, so there are fewer such rounds than the bound allows. -/
theorem expandDefined_expanded (g : Grammar) (first : SetTable) (s : ItemSet) :
    (s.expanded g first).expandDefined g first = s.expanded g first := by
  refine SortedMap.step_saturate_of_growing (P := fun t => ∀ f, Holds t f → f ∈ stock g first s)
    (stock g first s) (fun _ => stock_expandDefined) (fun _ h => h)
    (fun _ _ _ hf => holds_expandDefined hf) _ ?_ ?_
  · rintro ⟨item, o⟩ ⟨lookaheads, hget, ho⟩
    have hmem := SortedMap.mem_toList.mpr hget
    refine mem_stock.mpr ⟨?_, fun t ht => ?_⟩
    · exact List.mem_append_left _ (List.mem_map.mpr ⟨_, hmem, rfl⟩)
    · simp only [stockSymbols, List.mem_append, List.mem_flatMap]
      exact Or.inl (Or.inl ⟨_, hmem, Or.inr (ho t ht)⟩)
  · have := length_stock_lt g first s
    omega

/-! ### Closures -/

private theorem holds_expanded (h : Holds s f) : Holds (s.expanded g first) f :=
  saturate_induction (P := fun t => Holds t f) (fun _ ht => holds_expandDefined ht) _ _ h

private theorem exists_of_holds_expanded (h : Holds (s.expanded g first) f) :
    ∃ f₀, Holds s f₀ ∧ ReflTransGen (Expands g first) f₀ f := by
  revert f
  refine saturate_induction
    (P := fun t => ∀ {f}, Holds t f → ∃ f₀, Holds s f₀ ∧ ReflTransGen (Expands g first) f₀ f)
    (fun t ht f hf => ?_) _ _ fun hf => ⟨_, hf, .refl⟩
  rw [expandDefined] at hf
  split at hf
  · exact ht hf
  · rcases holds_expand_iff.mp hf with hf | ⟨f₁, hf₁, hexpands⟩
    · exact ht hf
    · obtain ⟨f₀, hf₀, hpath⟩ := ht hf₁
      exact ⟨f₀, hf₀, hpath.tail hexpands⟩

private theorem closure_eq_ok_iff : s.closure g first = .ok c ↔
    (s.expanded g first).undefined? g = none ∧ s.expanded g first = c := by
  rw [closure, checked]
  cases (s.expanded g first).undefined? g with
  | some X => simp
  | none => simp

private theorem closure_eq (h : s.closure g first = .ok c) :
    c = s.expanded g first ∧ c.expand g first = c := by
  obtain ⟨hdefined, rfl⟩ := closure_eq_ok_iff.mp h
  have hfixed := expandDefined_expanded g first s
  rw [expandDefined, hdefined] at hfixed
  exact ⟨rfl, hfixed⟩

theorem undefined?_eq_none_iff :
    s.undefined? g = none ↔ ∀ item, Holds s (item, none) → item.undefined? g = none := by
  simp only [undefined?, List.findSome?_eq_none_iff, Prod.forall, SortedMap.mem_toList,
    SortedMap.holds_none_iff, Option.isSome_iff_exists]
  constructor
  · rintro h item ⟨lookaheads, hget⟩
    exact h item lookaheads hget
  · exact fun h item lookaheads hget => h item ⟨lookaheads, hget⟩

theorem undefined?_closure (h : s.closure g first = .ok c) : c.undefined? g = none := by
  obtain ⟨hdefined, rfl⟩ := closure_eq_ok_iff.mp h
  exact hdefined

/-- If a set has no closure, expansions lead to an item with its dot before a nonterminal without
rules, and the error names it. -/
theorem exists_of_closure_eq_error {cause : GrammarError} (h : s.closure g first = .error cause) :
    ∃ item X f₀, cause = .undefined X ∧ item.undefined? g = some X ∧ Holds s f₀ ∧
      ReflTransGen (Expands g first) f₀ (item, none) := by
  rw [closure, checked] at h
  cases hX : (s.expanded g first).undefined? g with
  | none =>
    rw [hX] at h
    cases h
  | some X =>
    rw [hX] at h
    cases h
    obtain ⟨e, he, hundefined⟩ := List.exists_of_findSome?_eq_some hX
    have hitem : Holds (s.expanded g first) (e.1, none) :=
      ⟨e.2, SortedMap.mem_toList.mp he, forall_mem_none⟩
    obtain ⟨f₀, hf₀, hpath⟩ := exists_of_holds_expanded hitem
    exact ⟨e.1, X, f₀, rfl, hundefined, hf₀, hpath⟩

/-- A set that is closed under expansions is its own closure. -/
theorem closure_eq_self (hexpands : ∀ f₀ f, Holds s f₀ → Expands g first f₀ f → Holds s f)
    (hdefined : s.undefined? g = none) : s.closure g first = .ok s := by
  have hround : s.expandDefined g first = s := by
    rw [expandDefined, hdefined]
    refine SortedMap.ext_holds fun f => holds_expand_iff.trans ⟨?_, Or.inl⟩
    rintro (hf | ⟨f₀, hf₀, hf⟩)
    · exact hf
    · exact hexpands f₀ f hf₀ hf
  have hexpanded : s.expanded g first = s :=
    saturate_induction (P := (· = s)) (fun t ht => ht ▸ hround) _ _ rfl
  rw [closure_eq_ok_iff, hexpanded]
  exact ⟨hdefined, rfl⟩

theorem holds_of_expands (h : s.closure g first = .ok c) (hf₀ : Holds c f₀)
    (hexpands : Expands g first f₀ f) : Holds c f := by
  rw [← (closure_eq h).2]
  exact holds_expand_iff.mpr (Or.inr ⟨f₀, hf₀, hexpands⟩)

/-- The closure of a set holds just what any number of expansions leads to from what the set
holds. -/
theorem holds_closure_iff (h : s.closure g first = .ok c) :
    Holds c f ↔ ∃ f₀, Holds s f₀ ∧ ReflTransGen (Expands g first) f₀ f := by
  constructor
  · intro hf
    rw [(closure_eq h).1] at hf
    exact exists_of_holds_expanded hf
  · rintro ⟨f₀, hf₀, hpath⟩
    induction hpath with
    | refl =>
      rw [(closure_eq h).1]
      exact holds_expanded hf₀
    | tail _ hexpands ih => exact holds_of_expands h ih hexpands

theorem holds_kernel_iff :
    Holds (s.kernel X) f ↔ ∃ f₀, Holds s f₀ ∧ f₀.1.next? = some X ∧
      f = (f₀.1.advance, f₀.2) := by
  obtain ⟨item, o⟩ := f
  rw [kernel, ofList]
  refine SortedMap.holds_foldl_insertWith.trans ?_
  simp only [SortedMap.not_holds_empty, false_or, List.mem_map, List.mem_filter, Prod.exists,
    SortedMap.mem_toList, decide_eq_true_eq]
  constructor
  · rintro ⟨_, _, ⟨before, lookaheads, ⟨hget, hnext⟩, heq⟩, rfl, ho⟩
    obtain ⟨rfl, rfl⟩ := Prod.mk.inj heq
    exact ⟨before, o, ⟨lookaheads, hget, ho⟩, hnext, rfl⟩
  · rintro ⟨before, o', ⟨lookaheads, hget, ho⟩, hnext, heq⟩
    obtain ⟨rfl, rfl⟩ := Prod.mk.inj heq
    exact ⟨_, lookaheads, ⟨before, lookaheads, ⟨hget, hnext⟩, rfl⟩, rfl, ho⟩

/-- The set that a symbol leads to holds what expansions lead to after the dots of the items have
been moved over the symbol. -/
theorem holds_goto_iff (h : s.goto g first X = .ok c) :
    Holds c f ↔ ∃ f₀, Holds s f₀ ∧ f₀.1.next? = some X ∧
      ReflTransGen (Expands g first) (f₀.1.advance, f₀.2) f := by
  rw [holds_closure_iff h]
  constructor
  · rintro ⟨_, hkernel, hpath⟩
    obtain ⟨f₀, hf₀, hnext, rfl⟩ := holds_kernel_iff.mp hkernel
    exact ⟨f₀, hf₀, hnext, hpath⟩
  · rintro ⟨f₀, hf₀, hnext, hpath⟩
    exact ⟨_, holds_kernel_iff.mpr ⟨f₀, hf₀, hnext, rfl⟩, hpath⟩

end ItemSet

end LR

end Recognizer
