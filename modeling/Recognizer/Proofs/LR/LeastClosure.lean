import Mathlib.Order.Bounds.Defs
import Recognizer.Proofs.Iteration.Termination
import Recognizer.Proofs.LR.Closure

/-!
# Closures are least closed sets

An item set is closed if it has, with each item, all that the item expands to. Any items whatever
have a least closed set around them, unless expansions lead from them to an item with its dot before
a nonterminal without rules. The closure is this set, and the rounds of the expansion come to it by
themselves. How the items are listed makes no difference, and more items have no smaller closure.

## Main definitions

* `ItemSet.IsClosed`: expansions lead to nothing outside the set.
* `ItemSet.ExpandsTo`, `ItemSet.IsStuckAt`: the items that expansions lead to, and a nonterminal
  among the symbols after their dots that has no rules.
* `ItemSet.Lists`: what a list of items says.

## Main results

* `ItemSet.isLeast_closure`: a closure is the least closed set around a set.
* `ItemSet.exists_closure_iff`: when there is a closure.
* `ItemSet.closure_mono`: the closures of a set and of a larger one.
* `ItemSet.isLeast_closure_ofList`: the closure of the items of a list.
-/

namespace Recognizer.LR.ItemSet

open Relation (ReflTransGen)
open SortedMap (Holds forall_mem_none)

variable {g : Grammar} {first : SetTable} {s t c d : ItemSet} {f f₀ : Fact} {item : Item}
  {name : String} {cause : GrammarError} {items items' : List (Item × SymbolSet)}

/-! ### Closed sets -/

/-- With each item, the set has the items of all rules of the nonterminal after the dot. Their
lookaheads are what the symbols after the nonterminal can begin with, and if these can be empty, the
lookaheads of the item. -/
def IsClosed (g : Grammar) (first : SetTable) (s : ItemSet) : Prop :=
  ∀ item lookaheads, s.get? item = some lookaheads → ∀ r ∈ g.rules, item.next? = some r.lhs →
    ∃ inherited, s.get? (r.item 0) = some inherited ∧
      (∀ t ∈ first.firstOfSequence item.beyond, t ≠ .epsilon → t ∈ inherited) ∧
      (.epsilon ∈ first.firstOfSequence item.beyond → ∀ t ∈ lookaheads, t ∈ inherited)

theorem isClosed_iff :
    IsClosed g first s ↔ ∀ f₀ f, Holds s f₀ → Expands g first f₀ f → Holds s f := by
  constructor
  · rintro h f₀ f ⟨lookaheads, hget, ho⟩ hexpands
    cases hexpands with
    | item hr hnext =>
      obtain ⟨inherited, hinherited, -, -⟩ := h _ _ hget _ hr hnext
      exact ⟨inherited, hinherited, forall_mem_none⟩
    | first hr hnext ht hne =>
      obtain ⟨inherited, hinherited, hfirst, -⟩ := h _ _ hget _ hr hnext
      exact SortedMap.holds_some_iff.mpr ⟨inherited, hinherited, hfirst _ ht hne⟩
    | inherit hr hnext hempty =>
      obtain ⟨inherited, hinherited, -, hlookahead⟩ := h _ _ hget _ hr hnext
      exact SortedMap.holds_some_iff.mpr ⟨inherited, hinherited, hlookahead hempty _ (ho _ rfl)⟩
  · intro h item lookaheads hget r hr hnext
    have hitem : Holds s (item, none) := ⟨lookaheads, hget, forall_mem_none⟩
    obtain ⟨inherited, hinherited, -⟩ := h _ _ hitem (.item hr hnext)
    have hmem {t : Symbol} (ht : Holds s (r.item 0, some t)) : t ∈ inherited := by
      obtain ⟨inherited', hinherited', ht⟩ := SortedMap.holds_some_iff.mp ht
      rwa [Option.some.inj (hinherited.symm.trans hinherited')]
    refine ⟨inherited, hinherited, fun t ht hne => ?_, fun hempty t ht => ?_⟩
    · exact hmem (h _ _ hitem (.first hr hnext ht hne))
    · exact hmem (h _ _ (SortedMap.holds_some_iff.mpr ⟨lookaheads, hget, ht⟩)
        (.inherit hr hnext hempty))

theorem IsClosed.holds_of_reaches (hs : IsClosed g first s) (hf₀ : Holds s f₀)
    (hpath : ReflTransGen (Expands g first) f₀ f) : Holds s f := by
  induction hpath with
  | refl => exact hf₀
  | tail _ hexpands ih => exact isClosed_iff.mp hs _ _ ih hexpands

theorem isClosed_closure (h : s.closure g first = .ok c) : IsClosed g first c :=
  isClosed_iff.mpr fun _ _ => holds_of_expands h

/-- A closure is the least closed set around a set. It is closed because a further round adds
nothing, and least because each expansion stays inside every closed set. -/
theorem isLeast_closure (h : s.closure g first = .ok c) :
    IsLeast {t | s ≤ t ∧ IsClosed g first t} c := by
  refine ⟨⟨fun f hf => ?_, isClosed_closure h⟩, fun t ⟨hst, ht⟩ f hf => ?_⟩
  · exact (holds_closure_iff h).mpr ⟨f, hf, .refl⟩
  · obtain ⟨f₀, hf₀, hpath⟩ := (holds_closure_iff h).mp hf
    exact ht.holds_of_reaches (hst f₀ hf₀) hpath

/-- A closure is its own closure. -/
theorem closure_closure (h : s.closure g first = .ok c) : c.closure g first = .ok c :=
  closure_eq_self (fun _ _ => holds_of_expands h) (undefined?_closure h)

/-! ### Sets without closures -/

/-- Expansions lead from the set to the item. Lookaheads are left out, since no expansion depends on
them for its item. -/
inductive ExpandsTo (g : Grammar) (s : ItemSet) : Item → Prop
  | given {item : Item} {lookaheads : SymbolSet} (h : s.get? item = some lookaheads) :
      ExpandsTo g s item
  | expand {item : Item} {r : Rule} (h : ExpandsTo g s item) (hr : r ∈ g.rules)
      (hnext : item.next? = some r.lhs) : ExpandsTo g s (r.item 0)

/-- Expansions lead from the set to an item with its dot before the nonterminal, which heads no
rule. -/
def IsStuckAt (g : Grammar) (s : ItemSet) (name : String) : Prop :=
  ∃ item, ExpandsTo g s item ∧ item.next? = some (.nonterminal name) ∧
    ∀ r ∈ g.rules, r.head ≠ name

/-- Whatever the lookaheads are, expansions lead to the same items. -/
theorem expandsTo_iff (first : SetTable) :
    ExpandsTo g s item ↔ ∃ f₀, Holds s f₀ ∧ ReflTransGen (Expands g first) f₀ (item, none) := by
  constructor
  · intro h
    induction h with
    | given hget => exact ⟨_, ⟨_, hget, forall_mem_none⟩, .refl⟩
    | expand _ hr hnext ih =>
      obtain ⟨f₀, hf₀, hpath⟩ := ih
      exact ⟨f₀, hf₀, hpath.tail (.item hr hnext)⟩
  · rintro ⟨f₀, ⟨lookaheads, hget, -⟩, hpath⟩
    suffices hall : ∀ f, ReflTransGen (Expands g first) f₀ f → ExpandsTo g s f.1 from
      hall _ hpath
    intro f hpath
    induction hpath with
    | refl => exact .given hget
    | tail _ hexpands ih =>
      obtain ⟨r, hr, hnext, hitem⟩ := hexpands.exists_rule
      rw [hitem]
      exact ih.expand hr hnext

theorem IsStuckAt.mono (h : IsStuckAt g s name) (hst : s ≤ t) : IsStuckAt g t name := by
  obtain ⟨item, hitem, hnext, hrules⟩ := h
  obtain ⟨f₀, hf₀, hpath⟩ := (expandsTo_iff ∅).mp hitem
  exact ⟨item, (expandsTo_iff ∅).mpr ⟨f₀, hst f₀ hf₀, hpath⟩, hnext, hrules⟩

/-- The error names a nonterminal that the set is stuck at. -/
theorem exists_isStuckAt_of_closure (h : s.closure g first = .error cause) :
    ∃ name, cause = .undefined (.nonterminal name) ∧ IsStuckAt g s name := by
  obtain ⟨item, X, f₀, rfl, hundefined, hf₀, hpath⟩ := exists_of_closure_eq_error h
  obtain ⟨hnext, name, rfl, hrules⟩ := Item.undefined?_eq_some_iff.mp hundefined
  exact ⟨name, rfl, item, (expandsTo_iff first).mpr ⟨f₀, hf₀, hpath⟩, hnext, hrules⟩

theorem not_isStuckAt_of_closure (h : s.closure g first = .ok c) : ¬ IsStuckAt g s name := by
  rintro ⟨item, hitem, hnext, hrules⟩
  have hundefined := Item.undefined?_eq_some_iff.mpr ⟨hnext, name, rfl, hrules⟩
  have hmem := (holds_closure_iff h).mpr ((expandsTo_iff first).mp hitem)
  rw [undefined?_eq_none_iff.mp (undefined?_closure h) item hmem] at hundefined
  cases hundefined

/-- A set has a closure unless it is stuck at a nonterminal. -/
theorem exists_closure_iff :
    (∃ c, s.closure g first = .ok c) ↔ ¬ ∃ name, IsStuckAt g s name := by
  constructor
  · rintro ⟨c, hc⟩ ⟨name, hname⟩
    exact not_isStuckAt_of_closure hc hname
  · intro hstuck
    cases hc : s.closure g first with
    | ok c => exact ⟨c, rfl⟩
    | error cause =>
      obtain ⟨name, -, hname⟩ := exists_isStuckAt_of_closure hc
      exact absurd ⟨name, hname⟩ hstuck

/-- If a set has a closure, every smaller one has a closure that is not larger. -/
theorem closure_mono (hst : s ≤ t) (hd : t.closure g first = .ok d) :
    ∃ c, s.closure g first = .ok c ∧ c ≤ d := by
  obtain ⟨c, hc⟩ : ∃ c, s.closure g first = .ok c := by
    refine exists_closure_iff.mpr ?_
    rintro ⟨name, hname⟩
    exact not_isStuckAt_of_closure hd (hname.mono hst)
  obtain ⟨⟨htd, hclosed⟩, -⟩ := isLeast_closure hd
  exact ⟨c, hc, (isLeast_closure hc).2 ⟨le_trans hst htd, hclosed⟩⟩

/-! ### Lists of items -/

/-- The list says the fact: it has the item, and if there is a symbol, with this lookahead. -/
def Lists (items : List (Item × SymbolSet)) (f : Fact) : Prop :=
  ∃ lookaheads, (f.1, lookaheads) ∈ items ∧ ∀ t ∈ f.2, t ∈ lookaheads

theorem holds_ofList_iff : Holds (ofList items) f ↔ Lists items f := by
  rw [ofList]
  refine SortedMap.holds_foldl_insertWith.trans ?_
  simp only [SortedMap.not_holds_empty, false_or]
  constructor
  · rintro ⟨⟨_, lookaheads⟩, hmem, rfl, ho⟩
    exact ⟨lookaheads, hmem, ho⟩
  · rintro ⟨lookaheads, hmem, ho⟩
    exact ⟨_, hmem, rfl, ho⟩

theorem ofList_eq_of_lists (h : ∀ f, Lists items' f ↔ Lists items f) :
    ofList items' = ofList items :=
  SortedMap.ext_holds fun f => holds_ofList_iff.trans ((h f).trans holds_ofList_iff.symm)

/-- The closure of any items comes about by rounds that end by themselves. There is none if and only
if the items are stuck at a nonterminal, which the error names. Otherwise it is the least closed set
around them, with each item once and in order, and its own closure. It does not depend on the order
of the items, or on how their lookaheads are spread over several entries, and a larger set has no
smaller closure. -/
theorem isLeast_closure_ofList (g : Grammar) (first : SetTable)
    (items : List (Item × SymbolSet)) :
    (∃ t, Settles (expandDefined g first) (ofList items) t ∧
      (ofList items).closure g first = t.checked g) ∧
    ((∃ X, (ofList items).closure g first = .error (.undefined X)) ↔
      ∃ name, IsStuckAt g (ofList items) name) ∧
    (∀ cause, (ofList items).closure g first = .error cause →
      ∃ name, cause = .undefined (.nonterminal name) ∧ IsStuckAt g (ofList items) name) ∧
    ((¬ ∃ name, IsStuckAt g (ofList items) name) → ∃ c, (ofList items).closure g first = .ok c ∧
      IsLeast {t | ofList items ≤ t ∧ IsClosed g first t} c ∧
      c.toList.Pairwise (fun a b => compare a.1 b.1 = .lt) ∧ c.closure g first = .ok c) ∧
    (∀ items', (∀ f, Lists items' f ↔ Lists items f) →
      (ofList items').closure g first = (ofList items).closure g first) ∧
    ∀ t d, ofList items ≤ t → t.closure g first = .ok d →
      ∃ c, (ofList items).closure g first = .ok c ∧ c ≤ d := by
  refine ⟨⟨_, settles_saturate (expandDefined_expanded g first _), rfl⟩, ⟨?_, ?_⟩,
    fun _ => exists_isStuckAt_of_closure, fun hstuck => ?_, fun items' h => ?_,
    fun _ _ => closure_mono⟩
  · rintro ⟨X, h⟩
    obtain ⟨name, -, hname⟩ := exists_isStuckAt_of_closure h
    exact ⟨name, hname⟩
  · rintro ⟨name, hname⟩
    cases h : (ofList items).closure g first with
    | ok c => exact absurd hname (not_isStuckAt_of_closure h)
    | error cause =>
      obtain ⟨name', rfl, -⟩ := exists_isStuckAt_of_closure h
      exact ⟨_, rfl⟩
  · obtain ⟨c, hc⟩ := exists_closure_iff.mpr hstuck
    exact ⟨c, hc, isLeast_closure hc, c.ascending_toList, closure_closure hc⟩
  · rw [ofList_eq_of_lists h]

end Recognizer.LR.ItemSet
