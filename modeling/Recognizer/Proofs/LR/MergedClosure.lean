import Recognizer.Proofs.LR.Laws
import Recognizer.Proofs.LR.LeastClosure

/-!
# Closures of merged item sets

Two item sets with the same items can be merged before or after their closures are taken, with the
same result, and likewise for the sets that a symbol leads to. Each expansion leads from one fact to
another, so one round adds to a merged set what it adds to the two sets. Whether a nonterminal
without rules has shown depends on the items only, so the rounds of both sets and of the merged set
stop at the same error, or none of them does.

The rounds of the three sets may come to an end one after the other. All of them are at their ends
after the largest of the three numbers of rounds.

## Main definitions

* `ItemSet.Merges`: computations for two sets and for the merged one fail alike, or the third one
  merges the results of the other two.

## Main results

* `ItemSet.CoreEq.toList_merge`: sets with the same items are merged item by item.
* `ItemSet.expand_merge`: one round of the expansion.
* `ItemSet.CoreEq.expanded_merge`: all rounds.
* `ItemSet.merges_closure_and_goto`: closures, and the sets that a symbol leads to.
-/

namespace Recognizer.LR.ItemSet

open SortedMap (Holds)

variable {g : Grammar} {first : SetTable} {s t : ItemSet} {f : Fact}

/-! ### Merging -/

theorem holds_merge : Holds (s.merge t) f ↔ Holds s f ∨ Holds t f := SortedMap.holds_unionWith

/-- Two sets have the same items if they say so. -/
theorem coreEq_iff_holds :
    s.CoreEq t ↔ ∀ item, Holds s (item, none) ↔ Holds t (item, none) := by
  simp only [SortedMap.holds_none_iff, ← SortedMap.mem_keys]
  exact ⟨fun h item => by rw [show s.keys = t.keys from h], SortedSet.ext⟩

namespace CoreEq

theorem merge (h : s.CoreEq t) : s.CoreEq (s.merge t) :=
  coreEq_iff_holds.mpr fun item => by
    rw [holds_merge, ← coreEq_iff_holds.mp h item, or_self]

/-- Sets with the same items are merged item by item, in the order of the items. No item is found in
one of the sets only. -/
theorem toList_merge (h : s.CoreEq t) :
    (s.merge t).toList = List.zipWith (fun e e' => (e.1, e.2 ∪ e'.2)) s.toList t.toList := by
  have hlist (s : ItemSet) :
      s.toList = s.keys.toList.map fun item => (item, (s.get? item).getD ∅) := by
    rw [← SortedMap.map_fst_toList, List.map_map]
    refine (List.map_id _).symm.trans (List.map_congr_left fun e he => ?_)
    have hget : s.get? e.1 = some e.2 := SortedMap.mem_toList.mp he
    rw [Function.comp_apply, hget]
    rfl
  have hget (item : Item) : ((s.merge t).get? item).getD ∅ =
      (s.get? item).getD ∅ ∪ (t.get? item).getD ∅ := by
    rw [ItemSet.merge, SortedMap.get?_unionWith]
    cases s.get? item <;> cases t.get? item <;> simp
  rw [hlist s, hlist t, hlist (s.merge t), ← show s.keys = t.keys from h,
    ← show s.keys = (s.merge t).keys from h.merge, List.zipWith_map, List.zipWith_self]
  simp only [hget]

/-- Whether a nonterminal without rules has shown depends on the items. -/
theorem undefined?_eq (h : s.CoreEq t) (g : Grammar) : s.undefined? g = t.undefined? g := by
  have hkeys (s : ItemSet) : s.undefined? g = s.keys.toList.findSome? fun item =>
      item.undefined? g := by
    rw [undefined?, ← SortedMap.map_fst_toList, List.findSome?_map]
    rfl
  rw [hkeys, hkeys, show s.keys = t.keys from h]

end CoreEq

/-! ### Rounds of the expansion -/

/-- One round adds to a merged set what it adds to the two sets. -/
theorem expand_merge (g : Grammar) (first : SetTable) (s t : ItemSet) :
    (s.merge t).expand g first = (s.expand g first).merge (t.expand g first) := by
  refine SortedMap.ext_holds fun f => ?_
  simp only [holds_expand_iff, holds_merge, or_and_right, exists_or]
  exact or_or_or_comm

namespace CoreEq

theorem expand (h : s.CoreEq t) : (s.expand g first).CoreEq (t.expand g first) := by
  have hsub {s t : ItemSet} (h : s.CoreEq t) {item : Item}
      (hitem : Holds (s.expand g first) (item, none)) : Holds (t.expand g first) (item, none) := by
    rcases holds_expand_iff.mp hitem with hs | ⟨f₀, hf₀, hexpands⟩
    · exact holds_expand_iff.mpr (Or.inl ((coreEq_iff_holds.mp h item).mp hs))
    · have hparent := (coreEq_iff_holds.mp h f₀.1).mp hf₀.to_none
      exact holds_expand_iff.mpr (Or.inr ⟨_, hparent, hexpands.to_none⟩)
  exact coreEq_iff_holds.mpr fun item => ⟨hsub h, hsub h.symm⟩

theorem expandDefined (h : s.CoreEq t) :
    (s.expandDefined g first).CoreEq (t.expandDefined g first) := by
  rw [ItemSet.expandDefined, ItemSet.expandDefined, h.undefined?_eq g]
  split
  · exact h
  · exact h.expand

theorem expandDefined_merge (h : s.CoreEq t) : (s.merge t).expandDefined g first =
    (s.expandDefined g first).merge (t.expandDefined g first) := by
  rw [ItemSet.expandDefined, ItemSet.expandDefined, ItemSet.expandDefined, ← h.undefined?_eq g,
    ← h.merge.undefined?_eq g]
  split
  · rfl
  · exact expand_merge g first s t

/-- Any number of rounds can be made before or after sets with the same items are merged. -/
theorem iterate_expandDefined (h : s.CoreEq t) (g : Grammar) (first : SetTable) (k : Nat) :
    ((ItemSet.expandDefined g first)^[k] s).CoreEq ((ItemSet.expandDefined g first)^[k] t) ∧
      (ItemSet.expandDefined g first)^[k] (s.merge t) =
        ((ItemSet.expandDefined g first)^[k] s).merge ((ItemSet.expandDefined g first)^[k] t) := by
  induction k with
  | zero => exact ⟨h, rfl⟩
  | succ k ih =>
    obtain ⟨hcore, hmerge⟩ := ih
    simp only [Function.iterate_succ_apply', hmerge]
    exact ⟨hcore.expandDefined, hcore.expandDefined_merge⟩

/-- So can all rounds, though those of one set may end before those of another: further rounds
change nothing, so the largest of the three numbers serves for all sets. -/
theorem expanded_merge (h : s.CoreEq t) (g : Grammar) (first : SetTable) :
    (s.expanded g first).CoreEq (t.expanded g first) ∧
      (s.merge t).expanded g first = (s.expanded g first).merge (t.expanded g first) := by
  have hend (s : ItemSet) :=
    (settles_saturate (expandDefined_expanded g first s)).exists_iterate_eq
  obtain ⟨n, hn⟩ := hend s
  obtain ⟨m, hm⟩ := hend t
  obtain ⟨k, hk⟩ := hend (s.merge t)
  have hrounds := h.iterate_expandDefined g first (max (max n m) k)
  rwa [hn _ (by omega), hm _ (by omega), hk _ (by omega)] at hrounds

end CoreEq

/-! ### Closures -/

/-- What is computed for two sets and for the merged one: the same error, or sets with the same
items, and their merge. -/
inductive Merges :
    Except GrammarError ItemSet → Except GrammarError ItemSet → Except GrammarError ItemSet → Prop
  | error (cause : GrammarError) : Merges (.error cause) (.error cause) (.error cause)
  | ok {c d : ItemSet} (h : c.CoreEq d) : Merges (.ok c) (.ok d) (.ok (c.merge d))

/-- Sets with the same items have closures with the same items, and the closure of the merged set is
made of these. -/
theorem CoreEq.merges_closure (h : s.CoreEq t) :
    Merges (s.closure g first) (t.closure g first) ((s.merge t).closure g first) := by
  obtain ⟨hcore, hmerge⟩ := h.expanded_merge g first
  rw [closure, closure, closure, hmerge, checked, checked, checked, ← hcore.undefined?_eq g,
    ← hcore.merge.undefined?_eq g]
  cases (s.expanded g first).undefined? g with
  | some symbol => exact .error _
  | none => exact .ok hcore

/-- Dots can be moved before or after sets are merged. -/
theorem kernel_merge (s t : ItemSet) (X : Symbol) :
    (s.merge t).kernel X = (s.kernel X).merge (t.kernel X) := by
  refine SortedMap.ext_holds fun f => ?_
  simp only [holds_kernel_iff, holds_merge, or_and_right, exists_or]

theorem CoreEq.kernel (h : s.CoreEq t) (X : Symbol) : (s.kernel X).CoreEq (t.kernel X) := by
  have hsub {s t : ItemSet} (h : s.CoreEq t) {item : Item}
      (hitem : Holds (s.kernel X) (item, none)) : Holds (t.kernel X) (item, none) := by
    obtain ⟨f₀, hf₀, hnext, heq⟩ := holds_kernel_iff.mp hitem
    obtain ⟨rfl, -⟩ := Prod.mk.inj heq
    exact holds_kernel_iff.mpr ⟨_, (coreEq_iff_holds.mp h f₀.1).mp hf₀.to_none, hnext, rfl⟩
  exact coreEq_iff_holds.mpr fun item => ⟨hsub h, hsub h.symm⟩

/-- Sets with the same items, which are merged item by item, can be merged before or after their
closures are taken, and before or after a symbol is read. -/
theorem merges_closure_and_goto (g : Grammar) (first : SetTable) (X : Symbol) (h : s.CoreEq t) :
    (s.merge t).toList = List.zipWith (fun e e' => (e.1, e.2 ∪ e'.2)) s.toList t.toList ∧
      Merges (s.closure g first) (t.closure g first) ((s.merge t).closure g first) ∧
      Merges (s.goto g first X) (t.goto g first X) ((s.merge t).goto g first X) := by
  refine ⟨h.toList_merge, h.merges_closure, ?_⟩
  rw [goto, goto, goto, kernel_merge]
  exact (h.kernel X).merges_closure

/-- Two nonterminals that begin with each other, `A → B | z`, `B → A`. -/
def circle : Grammar where
  start := "A"
  rules :=
    [.unit "A" "B",
     { head := "A"
       body := [.terminal "z"]
       wellFormed := by simp [WellFormedBody] },
     .unit "B" "A"]

/-- The lookaheads of the two sets go round the circle, also after the sets have been merged. -/
theorem merges_closure_and_goto_circle :
    let s := ofList [(⟨.nonterminal "B", [.nonterminal "A"], 0⟩, {.endMark})]
    let t := ofList [(⟨.nonterminal "B", [.nonterminal "A"], 0⟩, {.terminal "y"})]
    s.CoreEq t ∧ ∃ c d, s.closure circle circle.firstSets = .ok c ∧
      t.closure circle circle.firstSets = .ok d ∧ c ≠ d ∧ c.CoreEq d ∧
      (s.merge t).closure circle circle.firstSets = .ok (c.merge d) := by
  intro s t
  have hcore : s.CoreEq t := by decide +kernel
  have hne : s.closure circle circle.firstSets ≠ t.closure circle circle.firstSets := by
    decide +kernel
  refine ⟨hcore, ?_⟩
  obtain ⟨-, hclosure, -⟩ := merges_closure_and_goto circle circle.firstSets .endMark hcore
  generalize s.closure circle circle.firstSets = x at *
  generalize t.closure circle circle.firstSets = y at *
  generalize (s.merge t).closure circle circle.firstSets = z at *
  cases hclosure with
  | error cause => exact absurd rfl hne
  | @ok c d h => exact ⟨c, d, rfl, rfl, fun heq => hne (congrArg Except.ok heq), h, rfl⟩

end Recognizer.LR.ItemSet
