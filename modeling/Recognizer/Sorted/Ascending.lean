/-!
# Ascending lists

A list that increases strictly is a canonical form of a finite set: no value occurs twice, and two
such lists with the same members are the same list. This file holds the one operation that the
finite sets of the library are built from, the merge of two ascending lists, and its laws.

## Main definitions

* `Ascending l`: the list `l` increases strictly.
* `merge xs ys`: both lists in one, values in both only once.

## Main results

* `Ascending.merge`: a merge of ascending lists is ascending.
* `mem_merge`: the members of a merge.
* `Ascending.ext`: ascending lists with the same members are equal.
-/

namespace Recognizer

variable {α : Type} [Ord α]

/-- The list increases strictly: each value is less than all that come after it, so no value occurs
twice. -/
def Ascending (l : List α) : Prop := l.Pairwise fun a b => compare a b = .lt

/-- Merges `a`, followed by what `rest` merges, into a list: smaller values go first, and a value
equal to `a` is dropped. -/
def weave (a : α) (rest : List α → List α) : List α → List α
  | [] => a :: rest []
  | b :: bs =>
    match compare a b with
    | .lt => a :: rest (b :: bs)
    | .eq => a :: rest bs
    | .gt => b :: weave a rest bs

/-- Both lists in one, in order; a value in both is kept once. -/
def merge : List α → List α → List α
  | [] => id
  | a :: as => weave a (merge as)

/-! ### Ascending lists -/

theorem ascending_nil : Ascending ([] : List α) := List.Pairwise.nil

theorem ascending_singleton (a : α) : Ascending [a] := List.pairwise_singleton ..

theorem ascending_cons {a : α} {l : List α} :
    Ascending (a :: l) ↔ (∀ b ∈ l, compare a b = .lt) ∧ Ascending l :=
  List.pairwise_cons

theorem Ascending.filter {l : List α} (h : Ascending l) (p : α → Bool) : Ascending (l.filter p) :=
  List.Pairwise.filter p h

/-! ### The members of a merge -/

section Members

variable [Std.LawfulEqOrd α]

private theorem mem_weave {a b : α} {rest : List α → List α} {as ys : List α}
    (hrest : ∀ zs : List α, b ∈ rest zs ↔ b ∈ as ∨ b ∈ zs) :
    b ∈ weave a rest ys ↔ b ∈ a :: as ∨ b ∈ ys := by
  induction ys with
  | nil => simp [weave, hrest]
  | cons y ys ih =>
    unfold weave
    split
    · simp [hrest, or_assoc]
    · next h =>
      obtain rfl := Std.LawfulEqCmp.eq_of_compare h
      simp only [List.mem_cons, hrest]
      grind
    · simp only [List.mem_cons, ih]
      grind

theorem mem_merge {b : α} {xs ys : List α} : b ∈ merge xs ys ↔ b ∈ xs ∨ b ∈ ys := by
  induction xs generalizing ys with
  | nil => simp [merge]
  | cons a as ih => exact mem_weave fun _ => ih

end Members

/-! ### The merge is ascending -/

section Merge

variable [Std.TransOrd α] [Std.LawfulEqOrd α]

private theorem Ascending.weave {a : α} {as ys : List α} (ha : ∀ x ∈ as, compare a x = .lt)
    (hrest : ∀ zs : List α, Ascending zs → Ascending (Recognizer.merge as zs))
    (hys : Ascending ys) : Ascending (weave a (Recognizer.merge as) ys) := by
  induction ys with
  | nil =>
    refine ascending_cons.mpr ⟨fun x hx => ?_, hrest [] ascending_nil⟩
    exact ha x (by simpa [mem_merge] using hx)
  | cons b bs ih =>
    obtain ⟨hb, hbs⟩ := ascending_cons.mp hys
    unfold Recognizer.weave
    split
    · next h =>
      refine ascending_cons.mpr ⟨fun x hx => ?_, hrest _ hys⟩
      rcases mem_merge.mp hx with hx | hx
      · exact ha x hx
      · rcases List.mem_cons.mp hx with rfl | hx
        · exact h
        · exact Std.TransCmp.lt_trans h (hb x hx)
    · next h =>
      obtain rfl := Std.LawfulEqCmp.eq_of_compare h
      refine ascending_cons.mpr ⟨fun x hx => ?_, hrest _ hbs⟩
      exact (mem_merge.mp hx).elim (ha x) (hb x)
    · next h =>
      have hba : compare b a = .lt := Std.OrientedCmp.gt_iff_lt.mp h
      refine ascending_cons.mpr ⟨fun x hx => ?_, ih hbs⟩
      rcases (mem_weave fun _ => mem_merge).mp hx with hx | hx
      · rcases List.mem_cons.mp hx with rfl | hx
        · exact hba
        · exact Std.TransCmp.lt_trans hba (ha x hx)
      · exact hb x hx

/-- A merge of ascending lists is ascending. -/
theorem Ascending.merge {xs ys : List α} (hxs : Ascending xs) (hys : Ascending ys) :
    Ascending (merge xs ys) := by
  induction xs generalizing ys with
  | nil => exact hys
  | cons a as ih =>
    obtain ⟨ha, has⟩ := ascending_cons.mp hxs
    exact Ascending.weave ha (fun zs hzs => ih has hzs) hys

end Merge

/-! ### Extensionality -/

/-- Ascending lists with the same members are equal. -/
theorem Ascending.ext [Std.TransOrd α] {xs ys : List α} (hxs : Ascending xs) (hys : Ascending ys)
    (h : ∀ a, a ∈ xs ↔ a ∈ ys) : xs = ys := by
  induction xs generalizing ys with
  | nil =>
    cases ys with
    | nil => rfl
    | cons b bs => simpa using h b
  | cons a as ih =>
    obtain ⟨ha, has⟩ := ascending_cons.mp hxs
    cases ys with
    | nil => simpa using h a
    | cons b bs =>
      obtain ⟨hb, hbs⟩ := ascending_cons.mp hys
      have hab : a = b := by
        rcases List.mem_cons.mp ((h a).mp List.mem_cons_self) with hab | hmem
        · exact hab
        · rcases List.mem_cons.mp ((h b).mpr List.mem_cons_self) with hba | hmem'
          · exact hba.symm
          · have := Std.TransCmp.lt_trans (ha b hmem') (hb a hmem)
            simp at this
      subst hab
      congr 1
      refine ih has hbs fun c => ?_
      have hc := h c
      simp only [List.mem_cons] at hc
      constructor
      · intro hmem
        rcases hc.mp (Or.inr hmem) with rfl | hmem'
        · simpa using ha c hmem
        · exact hmem'
      · intro hmem
        rcases hc.mpr (Or.inr hmem) with rfl | hmem'
        · simpa using hb c hmem
        · exact hmem'

end Recognizer
