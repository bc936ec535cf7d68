import Mathlib.Data.Fintype.BigOperators
import Mathlib.Data.Set.Card
import Recognizer.Proofs.LR.Items

/-!
# The number of item sets

An item set of a grammar is a map that is defined for some of the items and gives each of these a
set of lookaheads, which may be empty. There are finitely many items, the rules with a dot among
their symbols, and finitely many lookaheads, so there are finitely many such maps.

## Main definitions

* `items`, `lookaheads`: the items of a grammar, and what can be their lookaheads.
* `itemMaps`: the maps from some of the items to sets of lookaheads.

## Main results

* `mem_itemMaps_iff`: the maps are those that say facts of the grammar only.
* `kernel_mem_itemMaps`, `expandDefined_mem_itemMaps`: moving dots and expanding leads to maps.
* `finite_itemMaps`, `ncard_itemMaps_le`: how many maps there are.
* `length_le_ncard_itemMaps`: there are no more item sets in a list without repetitions.
-/

namespace Recognizer.LR

open SortedMap (Holds)

variable {g : Grammar} {s : ItemSet} {item : Item} {t : Symbol}

/-- The rules of the grammar with a dot among their symbols. An empty alternative has none, so its
dot is at the beginning. -/
def items (g : Grammar) : Finset Item :=
  (g.rules.flatMap fun r => (List.range (r.arity + 1)).map r.item).toFinset

/-- The terminals of the grammar and the end marker. -/
def lookaheads (g : Grammar) : Finset Symbol :=
  insert .endMark (g.terminals.toList.map .terminal).toFinset

theorem mem_items : item ∈ items g ↔ ∃ r ∈ g.rules, ∃ dot, dot ≤ r.arity ∧ item = r.item dot := by
  simp only [items, List.mem_toFinset, List.mem_flatMap, List.mem_map, List.mem_range,
    Nat.lt_succ_iff, eq_comm (a := item)]

theorem mem_lookaheads : t ∈ lookaheads g ↔ IsLookahead g t := by
  simp only [lookaheads, Finset.mem_insert, List.mem_toFinset, List.mem_map, IsLookahead,
    SortedSet.mem_def, eq_comm (a := t)]

theorem card_lookaheads_le (g : Grammar) : (lookaheads g).card ≤ g.terminals.size + 1 := by
  refine (Finset.card_insert_le _ _).trans (Nat.add_le_add_right ?_ 1)
  exact (List.toFinset_card_le _).trans_eq (List.length_map _)

/-- The item sets that are maps from some of the items to sets of lookaheads. -/
def itemMaps (g : Grammar) : Set ItemSet :=
  {s | ∀ item u, s.get? item = some u → item ∈ items g ∧ ∀ t ∈ u, t ∈ lookaheads g}

/-- These item sets say facts of the grammar, and nothing else. -/
theorem mem_itemMaps_iff : s ∈ itemMaps g ↔ ∀ f, Holds s f → IsFact g f := by
  constructor
  · rintro hs ⟨item, o⟩ hf
    obtain ⟨u, hu⟩ := Option.isSome_iff_exists.mp (SortedMap.holds_none_iff.mp hf.to_none)
    obtain ⟨hitem, hlookaheads⟩ := hs item u hu
    refine ⟨mem_items.mp hitem, fun t ht => mem_lookaheads.mp (hlookaheads t ?_)⟩
    obtain rfl : o = some t := ht
    obtain ⟨u', hu', ht⟩ := SortedMap.holds_some_iff.mp hf
    rwa [Option.some.inj (hu.symm.trans hu')]
  · intro hs item u hu
    refine ⟨mem_items.mpr (hs (item, none) (SortedMap.holds_none_iff.mpr (by rw [hu]; rfl))).1, ?_⟩
    intro t ht
    have hf : Holds s (item, some t) := SortedMap.holds_some_iff.mpr ⟨u, hu, ht⟩
    exact mem_lookaheads.mpr ((hs _ hf).2 t rfl)

/-! ### What the loops make of these maps -/

theorem startSet_mem_itemMaps (g : Grammar) :
    Automaton.startSet g.augmented g.startSymbol ∈ itemMaps g.augmented :=
  mem_itemMaps_iff.mpr fun _ => isFact_of_holds_startSet

/-- The dot is not moved beyond the end of a rule. -/
theorem kernel_mem_itemMaps (hs : s ∈ itemMaps g) (X : Symbol) : s.kernel X ∈ itemMaps g := by
  refine mem_itemMaps_iff.mpr fun f hf => ?_
  obtain ⟨f₀, hf₀, hnext, rfl⟩ := ItemSet.holds_kernel_iff.mp hf
  exact (mem_itemMaps_iff.mp hs f₀ hf₀).advance hnext

/-- A round of an expansion adds terminals and the end marker only. -/
theorem expandDefined_mem_itemMaps (hs : s ∈ itemMaps g) :
    s.expandDefined g g.firstSets ∈ itemMaps g := by
  rw [ItemSet.expandDefined]
  split
  · exact hs
  · refine mem_itemMaps_iff.mpr fun f hf => ?_
    rcases ItemSet.holds_expand_iff.mp hf with hf | ⟨f₀, hf₀, hexpands⟩
    · exact mem_itemMaps_iff.mp hs f hf
    · exact (mem_itemMaps_iff.mp hs f₀ hf₀).expands hexpands

theorem iterate_expandDefined_mem_itemMaps (hs : s ∈ itemMaps g) (k : Nat) :
    (ItemSet.expandDefined g g.firstSets)^[k] s ∈ itemMaps g := by
  induction k with
  | zero => exact hs
  | succ k ih =>
    rw [Function.iterate_succ_apply']
    exact expandDefined_mem_itemMaps ih

/-! ### Counting -/

/-- An item set as a function of the items. -/
private def row (s : itemMaps g) (item : items g) : Option (Finset (lookaheads g)) :=
  (s.1.get? item.1).map fun u => Finset.univ.filter fun t => t.1 ∈ u

private theorem row_injective : Function.Injective (row (g := g)) := by
  -- what one set says, the other one says
  have hsub {s s' : itemMaps g} (h : row s = row s') {f : Fact} (hf : Holds s.1 f) :
      Holds s'.1 f := by
    obtain ⟨item, o⟩ := f
    obtain ⟨u, hu⟩ := Option.isSome_iff_exists.mp (SortedMap.holds_none_iff.mp hf.to_none)
    obtain ⟨hitem, hlookaheads⟩ := s.2 item u hu
    have hrow := congrFun h ⟨item, hitem⟩
    rw [row, row, hu, Option.map_some] at hrow
    obtain ⟨u', hu', heq⟩ := Option.map_eq_some_iff.mp hrow.symm
    cases o with
    | none => exact SortedMap.holds_none_iff.mpr (by rw [hu']; rfl)
    | some t =>
      obtain ⟨u₁, hu₁, ht⟩ := SortedMap.holds_some_iff.mp hf
      obtain rfl := Option.some.inj (hu.symm.trans hu₁)
      refine SortedMap.holds_some_iff.mpr ⟨u', hu', ?_⟩
      have hmem := congrArg (⟨t, hlookaheads t ht⟩ ∈ ·) heq
      simpa [ht] using hmem
  intro s s' h
  exact Subtype.ext (SortedMap.ext_holds fun f => ⟨hsub h, hsub h.symm⟩)

/-- There are finitely many maps. -/
theorem finite_itemMaps (g : Grammar) : (itemMaps g).Finite := by
  have hfinite : Finite (itemMaps g) := Finite.of_injective row row_injective
  exact (itemMaps g).toFinite

/-- Each item is missing, or it has a set of terminals and end marker. This bounds the number of
maps by a number that can be computed from the grammar. -/
theorem ncard_itemMaps_le (g : Grammar) :
    (itemMaps g).ncard ≤ (2 ^ (g.terminals.size + 1) + 1) ^ (items g).card := by
  calc (itemMaps g).ncard = Nat.card (itemMaps g) := (Nat.card_coe_set_eq _).symm
    _ ≤ Nat.card (items g → Option (Finset (lookaheads g))) :=
      Nat.card_le_card_of_injective row row_injective
    _ = (2 ^ (lookaheads g).card + 1) ^ (items g).card := by
      rw [Nat.card_eq_fintype_card, Fintype.card_fun, Fintype.card_option, Fintype.card_finset,
        Fintype.card_coe, Fintype.card_coe]
    _ ≤ (2 ^ (g.terminals.size + 1) + 1) ^ (items g).card :=
      Nat.pow_le_pow_left (Nat.succ_le_succ (Nat.pow_le_pow_right (by omega)
        (card_lookaheads_le g))) _

/-- A grammar whose second nonterminal derives no word, `S → B A`, `A → A b`, `B → b`. -/
def wordless : Grammar where
  start := "S"
  rules :=
    [{ head := "S"
       body := [.nonterminal "B", .nonterminal "A"]
       wellFormed := by simp [WellFormedBody] },
     { head := "A"
       body := [.nonterminal "A", .terminal "b"]
       wellFormed := by simp [WellFormedBody] },
     { head := "B"
       body := [.terminal "b"]
       wellFormed := by simp [WellFormedBody] }]

/-- An item may have no lookaheads, which is not the same as being missing. -/
example : (do
    let s ← (Automaton.startSet wordless.augmented wordless.startSymbol).closure
      wordless.augmented wordless.augmented.firstSets
    return (s.get? ⟨.nonterminal "B", [.terminal "b"], 0⟩,
      s.get? ⟨.nonterminal "A", [.nonterminal "A", .terminal "b"], 0⟩)) =
    Except.ok (some ∅, none) := by
  decide +kernel

/-- Different item sets in a list are no more than there are maps. -/
theorem length_le_ncard_itemMaps {sets : List ItemSet} (hnodup : sets.Nodup)
    (h : ∀ s ∈ sets, s ∈ itemMaps g) : sets.length ≤ (itemMaps g).ncard := by
  classical
  rw [← List.toFinset_card_of_nodup hnodup, ← Set.ncard_coe_finset]
  refine Set.ncard_le_ncard (fun s hs => ?_) (finite_itemMaps g)
  exact h s (List.mem_toFinset.mp hs)

end Recognizer.LR
