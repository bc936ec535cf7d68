import Mathlib.Data.List.Basic

/-!
# Strings that are cut in two ways

A string that is made of two parts has an element somewhere: the element stands in the first part or
in the second. Two elements in a row stand in the same part, or one of them ends the first part and
the other begins the second.

## Main results

* `append_eq_append_cons_iff`: the places of one element.
* `append_eq_append_cons_cons_iff`: the places of two elements in a row.
-/

namespace Recognizer

variable {α : Type} {p q u v : List α} {x y : α}

theorem append_eq_append_cons_iff :
    p ++ q = u ++ x :: v ↔
      (∃ m, p = u ++ x :: m ∧ v = m ++ q) ∨ ∃ m, u = p ++ m ∧ q = m ++ x :: v := by
  constructor
  · intro h
    rcases List.append_eq_append_iff.mp h with ⟨m, hu, hq⟩ | ⟨m, hp, hcons⟩
    · exact Or.inr ⟨m, hu, hq⟩
    · cases m with
      | nil => exact Or.inr ⟨[], by rw [hp, List.append_nil, List.append_nil], hcons.symm⟩
      | cons z m =>
        obtain ⟨rfl, hv⟩ := List.cons.inj hcons
        exact Or.inl ⟨m, hp, hv⟩
  · rintro (⟨m, rfl, rfl⟩ | ⟨m, rfl, rfl⟩)
    · rw [List.append_assoc, List.cons_append]
    · rw [List.append_assoc]

/-- Two elements in a row stand in one of the parts, or the parts meet between them. -/
theorem append_eq_append_cons_cons_iff :
    p ++ q = u ++ x :: y :: v ↔
      (∃ m, p = u ++ x :: y :: m ∧ v = m ++ q) ∨ (p = u ++ [x] ∧ q = y :: v) ∨
        ∃ m, u = p ++ m ∧ q = m ++ x :: y :: v := by
  rw [append_eq_append_cons_iff, ← or_assoc]
  refine or_congr_left ⟨?_, ?_⟩
  · rintro ⟨m, rfl, hm⟩
    cases m with
    | nil => exact Or.inr ⟨rfl, hm.symm⟩
    | cons z m =>
      obtain ⟨rfl, hv⟩ := List.cons.inj hm
      exact Or.inl ⟨m, rfl, hv⟩
  · rintro (⟨m, rfl, rfl⟩ | ⟨rfl, rfl⟩)
    · exact ⟨y :: m, rfl, rfl⟩
    · exact ⟨[], rfl, rfl⟩

end Recognizer
