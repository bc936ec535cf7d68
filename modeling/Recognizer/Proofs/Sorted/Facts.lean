import Mathlib.Data.List.Basic
import Mathlib.Data.List.Nodup
import Mathlib.Data.List.Perm.Subperm
import Mathlib.Data.Prod.Basic
import Mathlib.Order.Defs.PartialOrder
import Mathlib.Tactic.Tauto
import Recognizer.Iteration.Saturate
import Recognizer.Proofs.Sorted.Entries

/-!
# Facts of a map of sets

A map of sets says that a key has a set, and that a value is in the set of a key. The map is
determined by these facts, and maps are ordered by them. A step that only adds facts out of a finite
stock comes to a fixed point after as many repetitions as there are facts in the stock.

## Main definitions

* `SortedMap.Holds`: the map says the fact.
* `SortedMap.facts`: the facts that a map says, in a list.

## Main results

* `SortedMap.ext_holds`: maps with the same facts are equal.
* `SortedMap.holds_insertWith`, `SortedMap.holds_foldl_insertWith`, `SortedMap.holds_unionWith`: the
  facts after each operation.
* `SortedMap.step_saturate_of_growing`: the fixed point of a step that only adds facts.
-/

namespace Recognizer.SortedMap

variable {κ α : Type} [Ord κ] [Std.TransOrd κ] [Std.LawfulEqOrd κ] [Ord α]
  {m n : SortedMap κ (SortedSet α)} {k : κ} {x : α}

/-- There is nothing to say about the value that is not there. -/
theorem forall_mem_none {α : Type} {P : α → Prop} : ∀ x ∈ (none : Option α), P x :=
  fun x hx => absurd hx (Option.not_mem_none x)

/-- The map says the fact: the key has a set, and the value, if there is one, is in the set. A key
without a value is a fact of its own, since its set may be empty. -/
def Holds (m : SortedMap κ (SortedSet α)) (f : κ × Option α) : Prop :=
  ∃ s, m.get? f.1 = some s ∧ ∀ x ∈ f.2, x ∈ s

omit [Std.LawfulEqOrd κ] in
theorem holds_none_iff : m.Holds (k, none) ↔ (m.get? k).isSome := by
  rw [Holds, Option.isSome_iff_exists]
  simp

omit [Std.LawfulEqOrd κ] in
theorem holds_some_iff : m.Holds (k, some x) ↔ ∃ s, m.get? k = some s ∧ x ∈ s := by
  simp [Holds]

omit [Std.LawfulEqOrd κ] in
theorem Holds.to_none {f : κ × Option α} (h : m.Holds f) : m.Holds (f.1, none) := by
  obtain ⟨s, hs, -⟩ := h
  exact ⟨s, hs, forall_mem_none⟩

omit [Std.LawfulEqOrd κ] in
@[simp] theorem not_holds_empty (f : κ × Option α) :
    ¬ (∅ : SortedMap κ (SortedSet α)).Holds f := by
  rintro ⟨s, hs, -⟩
  rw [get?_empty] at hs
  cases hs

/-- Maps with the same facts are equal. So an equation of item sets or of set tables can be shown
fact by fact. -/
theorem ext_holds [Std.TransOrd α] (h : ∀ f, m.Holds f ↔ n.Holds f) : m = n := by
  have hsub {m n : SortedMap κ (SortedSet α)} (h : ∀ f, m.Holds f ↔ n.Holds f) (k : κ)
      (s : SortedSet α) (hs : m.get? k = some s) : n.get? k = some s := by
    obtain ⟨t, ht, -⟩ := (h (k, none)).mp ⟨s, hs, forall_mem_none⟩
    rw [ht, Option.some.injEq]
    refine SortedSet.ext fun x => ?_
    have hx := h (k, some x)
    rw [holds_some_iff, holds_some_iff, hs, ht] at hx
    simpa [eq_comm] using hx.symm
  refine ext fun k => Option.ext fun s => ?_
  exact ⟨hsub h k s, hsub (fun f => (h f).symm) k s⟩

/-- A map is at most another one if that says all that it says. -/
instance [Std.TransOrd α] : PartialOrder (SortedMap κ (SortedSet α)) where
  le m n := ∀ f, m.Holds f → n.Holds f
  le_refl _ _ hf := hf
  le_trans _ _ _ hmn hnp f hf := hnp f (hmn f hf)
  le_antisymm _ _ hmn hnm := ext_holds fun f => ⟨hmn f, hnm f⟩

/-! ### Operations -/

section Operations

variable [DecidableEq κ] [Std.TransOrd α] [Std.LawfulEqOrd α] {f : κ × Option α}

/-- The facts after some values have been added to the set of a key. -/
theorem holds_insertWith {s : SortedSet α} :
    (m.insertWith (· ∪ ·) k s).Holds f ↔ m.Holds f ∨ f.1 = k ∧ ∀ x ∈ f.2, x ∈ s := by
  obtain ⟨l, o⟩ := f
  simp only [Holds, get?_insertWith]
  by_cases hl : l = k
  · subst hl
    rw [if_pos rfl]
    cases m.get? l with
    | none => simp
    | some t =>
      cases o with
      | none => simp
      | some x => simp [or_comm]
  · simp [hl]

/-- The facts after some values have been added to the sets of some keys. -/
theorem holds_foldl_insertWith {l : List (κ × SortedSet α)} :
    (l.foldl (fun m e => m.insertWith (· ∪ ·) e.1 e.2) m).Holds f ↔
      m.Holds f ∨ ∃ e ∈ l, f.1 = e.1 ∧ ∀ x ∈ f.2, x ∈ e.2 := by
  induction l generalizing m with
  | nil => simp
  | cons e l ih => rw [List.foldl_cons, ih, holds_insertWith, List.exists_mem_cons_iff, or_assoc]

theorem holds_unionWith : (m.unionWith (· ∪ ·) n).Holds f ↔ m.Holds f ∨ n.Holds f := by
  obtain ⟨l, o⟩ := f
  simp only [Holds, get?_unionWith]
  cases m.get? l with
  | none => simp
  | some s =>
    cases n.get? l with
    | none => simp
    | some t =>
      cases o with
      | none => simp
      | some x => simp

end Operations

/-! ### The list of facts -/

/-- The facts that a map says, in the order of the keys, the key itself before the values of its
set. -/
def facts (m : SortedMap κ (SortedSet α)) : List (κ × Option α) :=
  m.toList.flatMap fun e => (none :: e.2.toList.map some).map fun o => (e.1, o)

theorem mem_facts {f : κ × Option α} : f ∈ m.facts ↔ m.Holds f := by
  obtain ⟨k, o⟩ := f
  simp only [facts, List.mem_flatMap, List.mem_map, Prod.exists, mem_toList, Holds]
  constructor
  · rintro ⟨k, s, hs, o, ho, hk⟩
    obtain ⟨rfl, rfl⟩ := Prod.mk.inj hk
    refine ⟨s, hs, fun x hx => ?_⟩
    rw [Option.mem_def.mp hx] at ho
    exact SortedSet.mem_def.mpr (by simpa using ho)
  · rintro ⟨s, hs, hx⟩
    refine ⟨k, s, hs, o, ?_, rfl⟩
    cases o with
    | none => exact List.mem_cons_self
    | some x => exact List.mem_cons_of_mem _ (List.mem_map_of_mem (hx x rfl))

omit [Std.LawfulEqOrd κ] in
theorem nodup_facts [Std.TransOrd α] (m : SortedMap κ (SortedSet α)) : m.facts.Nodup := by
  refine List.nodup_flatMap.mpr ⟨fun e _ => ?_, ?_⟩
  · have hnodup : (none :: e.2.toList.map some).Nodup := by
      rw [List.nodup_cons]
      exact ⟨by simp, e.2.nodup_toList.map (fun _ _ => Option.some.inj)⟩
    exact hnodup.map (Prod.mk_right_injective e.1)
  · have hkeys := m.nodup_map_fst_toList
    rw [List.nodup_iff_pairwise_ne, List.pairwise_map] at hkeys
    refine hkeys.imp fun {a b} hne f ha hb => ?_
    obtain ⟨_, -, rfl⟩ := List.mem_map.mp ha
    obtain ⟨_, -, heq⟩ := List.mem_map.mp hb
    exact hne (congrArg Prod.fst heq).symm

variable [Std.TransOrd α]

/-- A map that says only facts of a list says no more facts than there are in it. -/
theorem length_facts_le {l : List (κ × Option α)} (h : ∀ f, m.Holds f → f ∈ l) :
    m.facts.length ≤ l.length :=
  (m.nodup_facts.subperm fun f hf => h f (mem_facts.mp hf)).length_le

theorem length_facts_lt (h : ∀ f, m.Holds f → n.Holds f) (hne : m ≠ n) :
    m.facts.length < n.facts.length := by
  have hsub : m.facts.Subperm n.facts :=
    m.nodup_facts.subperm fun f hf => mem_facts.mpr (h f (mem_facts.mp hf))
  refine Nat.lt_of_le_of_ne hsub.length_le fun hlength => hne (ext_holds fun f => ?_)
  rw [← mem_facts, ← mem_facts, (hsub.perm_of_length_le (Nat.le_of_eq hlength.symm)).mem_iff]

/-- Steps that only add facts settle. If a step only adds facts, and what it adds comes out of a
finite stock, then a bound that exceeds the number of missing facts leads to a fixed point. -/
theorem step_saturate_of_growing [DecidableEq κ] [DecidableEq α]
    {step : SortedMap κ (SortedSet α) → SortedMap κ (SortedSet α)}
    {P : SortedMap κ (SortedSet α) → Prop} (stock : List (κ × Option α))
    (hstep : ∀ m, P m → P (step m)) (hstock : ∀ m, P m → ∀ f, m.Holds f → f ∈ stock)
    (hgrow : ∀ m, P m → ∀ f, m.Holds f → (step m).Holds f) (bound : Nat) (hm : P m)
    (hbound : stock.length < bound + m.facts.length) :
    step (saturate step bound m) = saturate step bound m :=
  step_saturate (fun m => m.facts.length) stock.length hstep
    (fun m hm => length_facts_le (hstock m hm))
    (fun m hm hne => length_facts_lt (hgrow m hm) hne.symm) bound m hm hbound

end Recognizer.SortedMap
