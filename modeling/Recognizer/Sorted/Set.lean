import Recognizer.Sorted.Ascending

/-!
# Finite sets in order

A finite set of ordered values is kept as the ascending list of its members. The list is determined
by the members, so equality of sets is equality of members, and every listing of a set is in order.

## Main definitions

* `SortedSet α`: a finite set, with `∅`, `{a}`, `∪`, `\`, `insert`, `erase`, `filter`, `ofList`.

## Main results

* `SortedSet.ext`: sets with the same members are equal.
* `SortedSet.mem_union` and its companions: the members of each operation's result.
-/

namespace Recognizer

/-- A finite set, as the ascending list of its members. The list is determined by the members, so
two sets with the same members are equal (`SortedSet.ext`). -/
structure SortedSet (α : Type) [Ord α] where
  /-- The members in order. -/
  toList : List α
  ascending : Ascending toList

namespace SortedSet

variable {α β : Type} [Ord α]

instance : Membership α (SortedSet α) := ⟨fun s a => a ∈ s.toList⟩

theorem mem_def {a : α} {s : SortedSet α} : a ∈ s ↔ a ∈ s.toList := Iff.rfl

instance [DecidableEq α] (a : α) (s : SortedSet α) : Decidable (a ∈ s) :=
  inferInstanceAs (Decidable (a ∈ s.toList))

theorem toList_injective {s t : SortedSet α} (h : s.toList = t.toList) : s = t := by
  cases s; cases t; cases h; rfl

instance [DecidableEq α] : DecidableEq (SortedSet α) := fun s t =>
  decidable_of_iff (s.toList = t.toList) ⟨toList_injective, fun h => h ▸ rfl⟩

instance : Ord (SortedSet α) := ⟨compareOn toList⟩

instance [Std.TransOrd α] : Std.TransOrd (SortedSet α) :=
  inferInstanceAs (Std.TransCmp (compareOn toList))

instance [Std.TransOrd α] [Std.LawfulEqOrd α] : Std.LawfulEqOrd (SortedSet α) where
  eq_of_compare {s t} h := by
    have h : compare s.toList t.toList = .eq := h
    exact toList_injective (Std.LawfulEqCmp.eq_of_compare h)

instance : EmptyCollection (SortedSet α) := ⟨⟨[], ascending_nil⟩⟩

instance : Inhabited (SortedSet α) := ⟨∅⟩

instance : Singleton α (SortedSet α) := ⟨fun a => ⟨[a], ascending_singleton a⟩⟩

/-- The number of members. -/
def size (s : SortedSet α) : Nat := s.toList.length

/-- Whether the set has no members. -/
def isEmpty (s : SortedSet α) : Bool := s.toList.isEmpty

/-- The members that satisfy `p`. -/
def filter (p : α → Bool) (s : SortedSet α) : SortedSet α :=
  ⟨s.toList.filter p, s.ascending.filter p⟩

/-- The set without `a`. -/
def erase [DecidableEq α] (s : SortedSet α) (a : α) : SortedSet α := s.filter (· ≠ a)

instance [DecidableEq α] : SDiff (SortedSet α) := ⟨fun s t => s.filter (· ∉ t)⟩

section Union

variable [Std.TransOrd α] [Std.LawfulEqOrd α]

instance : Union (SortedSet α) where
  union s t := ⟨merge s.toList t.toList, s.ascending.merge t.ascending⟩

/-- The set with `a` added. -/
def insert (s : SortedSet α) (a : α) : SortedSet α := {a} ∪ s

/-- The set of the values in a list. -/
def ofList (l : List α) : SortedSet α := l.foldr (fun a s => s.insert a) ∅

/-- The union of the sets `f b` for `b` in a list. -/
def unionOf (l : List β) (f : β → SortedSet α) : SortedSet α := l.foldl (fun s b => s ∪ f b) ∅

end Union

/-! ### Members -/

@[simp] theorem not_mem_empty (a : α) : a ∉ (∅ : SortedSet α) := List.not_mem_nil

@[simp] theorem mem_singleton {a b : α} : a ∈ ({b} : SortedSet α) ↔ a = b := List.mem_singleton

@[simp] theorem mem_filter {a : α} {p : α → Bool} {s : SortedSet α} :
    a ∈ s.filter p ↔ a ∈ s ∧ p a = true := List.mem_filter

@[simp] theorem mem_erase [DecidableEq α] {a b : α} {s : SortedSet α} :
    a ∈ s.erase b ↔ a ∈ s ∧ a ≠ b := by simp [erase]

@[simp] theorem mem_sdiff [DecidableEq α] {a : α} {s t : SortedSet α} :
    a ∈ s \ t ↔ a ∈ s ∧ a ∉ t := by simp [SDiff.sdiff]

/-- Sets with the same members are equal. -/
@[ext] theorem ext [Std.TransOrd α] {s t : SortedSet α} (h : ∀ a, a ∈ s ↔ a ∈ t) : s = t :=
  toList_injective (s.ascending.ext t.ascending h)

section Lawful

variable [Std.TransOrd α] [Std.LawfulEqOrd α]

@[simp] theorem mem_union {a : α} {s t : SortedSet α} : a ∈ s ∪ t ↔ a ∈ s ∨ a ∈ t := mem_merge

@[simp] theorem empty_union (s : SortedSet α) : ∅ ∪ s = s := ext fun a => by simp

@[simp] theorem union_empty (s : SortedSet α) : s ∪ ∅ = s := ext fun a => by simp

theorem union_assoc (s t u : SortedSet α) : s ∪ t ∪ u = s ∪ (t ∪ u) :=
  ext fun a => by simp [or_assoc]

@[simp] theorem mem_insert {a b : α} {s : SortedSet α} : a ∈ s.insert b ↔ a = b ∨ a ∈ s := by
  simp [insert]

@[simp] theorem mem_ofList {a : α} {l : List α} : a ∈ ofList l ↔ a ∈ l := by
  induction l with
  | nil => simp [ofList]
  | cons b bs ih => rw [ofList, List.foldr_cons, mem_insert, List.mem_cons, ← ih, ofList]

private theorem mem_foldl_union {a : α} {l : List β} {f : β → SortedSet α} {s : SortedSet α} :
    a ∈ l.foldl (fun s b => s ∪ f b) s ↔ (∃ b ∈ l, a ∈ f b) ∨ a ∈ s := by
  induction l generalizing s with
  | nil => simp
  | cons b bs ih => rw [List.foldl_cons, ih, mem_union]; grind

@[simp] theorem mem_unionOf {a : α} {l : List β} {f : β → SortedSet α} :
    a ∈ unionOf l f ↔ ∃ b ∈ l, a ∈ f b := by
  simp [unionOf, mem_foldl_union]

end Lawful

end SortedSet

end Recognizer
