import Mathlib.Data.List.Nodup
import Recognizer.Proofs.Splits
import Recognizer.Regex.Expr

/-!
# Leaves in the strings of an expression

A leaf begins or ends an expression if it begins or ends one of the strings that the expression
denotes, and one leaf is adjacent to another if it comes right before it in one of them. These
properties are computed from the parts of an expression, because every expression denotes some
string. If no leaf occurs twice, adjacency determines the strings: what can come before a leaf and
what can come after it do not depend on each other.

## Main definitions

* `Expr.leaves`: the leaves from left to right.
* `Expr.Begins`, `Expr.Ends`, `Expr.Adjacent`: the place of leaves in strings.

## Main results

* `Expr.begins_cat_iff`, `Expr.ends_cat_iff`, `Expr.adjacent_cat_iff` and their companions.
* `Expr.Spells.exchange`: strings through one leaf can be cut there and joined crosswise.
-/

namespace Recognizer.Regex.Expr

variable {α β : Type}

/-- The leaves from left to right. -/
def leaves : Expr α → List α
  | epsilon => []
  | leaf a => [a]
  | alt l r => l.leaves ++ r.leaves
  | cat l r => l.leaves ++ r.leaves
  | star e => e.leaves

theorem leaves_map (f : α → β) (e : Expr α) : (e.map f).leaves = e.leaves.map f := by
  induction e with
  | epsilon => rfl
  | leaf a => rfl
  | alt l r ihl ihr | cat l r ihl ihr => rw [map, leaves, leaves, ihl, ihr, List.map_append]
  | star e ih => exact ih

/-- The leaf begins a string of the expression. Leaves that no string begins with, such as the
second of two in a row, do not. -/
def Begins (e : Expr α) (x : α) : Prop := ∃ v, e.Spells (x :: v)

/-- The leaf ends a string of the expression. -/
def Ends (e : Expr α) (x : α) : Prop := ∃ u, e.Spells (u ++ [x])

/-- The first leaf comes right before the second in a string of the expression. A leaf may be
adjacent to itself, in a repetition. -/
def Adjacent (e : Expr α) (x y : α) : Prop := ∃ u v, e.Spells (u ++ x :: y :: v)

/-! ### The strings of each operator -/

theorem spells_epsilon_iff {w : List α} : epsilon.Spells w ↔ w = [] := by
  constructor
  · rintro ⟨⟩
    rfl
  · rintro rfl
    exact .epsilon

theorem spells_leaf_iff {a : α} {w : List α} : (leaf a).Spells w ↔ w = [a] := by
  constructor
  · rintro ⟨⟩
    rfl
  · rintro rfl
    exact .leaf a

theorem spells_alt_iff {l r : Expr α} {w : List α} :
    (alt l r).Spells w ↔ l.Spells w ∨ r.Spells w := by
  constructor
  · intro h
    cases h with
    | altLeft h => exact Or.inl h
    | altRight h => exact Or.inr h
  · rintro (h | h)
    · exact .altLeft h
    · exact .altRight h

theorem spells_cat_iff {l r : Expr α} {w : List α} :
    (cat l r).Spells w ↔ ∃ u v, l.Spells u ∧ r.Spells v ∧ u ++ v = w := by
  constructor
  · intro h
    cases h with
    | cat hl hr => exact ⟨_, _, hl, hr, rfl⟩
  · rintro ⟨u, v, hl, hr, rfl⟩
    exact .cat hl hr

theorem Spells.star_append {e : Expr α} {u v : List α} (hu : (star e).Spells u)
    (hv : (star e).Spells v) : (star e).Spells (u ++ v) := by
  generalize he : star e = s at hu
  induction hu with
  | starNil =>
    cases he
    exact hv
  | starAppend h hs _ ih =>
    cases he
    rw [List.append_assoc]
    exact .starAppend h (ih rfl)
  | _ => cases he

theorem Spells.star_once {e : Expr α} {u : List α} (h : e.Spells u) : (star e).Spells u := by
  simpa using Spells.starAppend h .starNil

/-- A string of a repetition with a leaf in it: the leaf is in a string of the body, which stands
between strings of the repetition. -/
theorem Spells.star_split {e : Expr α} {u v : List α} {x : α}
    (h : (star e).Spells (u ++ x :: v)) :
    ∃ u₀ u₁ v₁ v₂, u = u₀ ++ u₁ ∧ v = v₁ ++ v₂ ∧ (star e).Spells u₀ ∧
      e.Spells (u₁ ++ x :: v₁) ∧ (star e).Spells v₂ := by
  generalize hs : star e = s at h
  generalize hw : u ++ x :: v = w at h
  induction h generalizing u with
  | starNil => simp at hw
  | @starAppend _ p q hp hq _ ih =>
    cases hs
    rcases append_eq_append_cons_iff.mp hw.symm with ⟨m, rfl, rfl⟩ | ⟨m, rfl, hm⟩
    · exact ⟨[], u, m, q, by simp, rfl, .starNil, hp, hq⟩
    · obtain ⟨u₀, u₁, v₁, v₂, rfl, hv, h₀, h₁, h₂⟩ := ih rfl (u := m) hm.symm
      exact ⟨p ++ u₀, u₁, v₁, v₂, by simp, hv, .starAppend hp h₀, h₁, h₂⟩
  | _ => cases hs

/-- Every expression denotes some string, since there is no expression for the empty language. -/
theorem exists_spells (e : Expr α) : ∃ w, e.Spells w := by
  induction e with
  | epsilon => exact ⟨[], .epsilon⟩
  | leaf a => exact ⟨[a], .leaf a⟩
  | alt l r ihl _ =>
    obtain ⟨w, hw⟩ := ihl
    exact ⟨w, .altLeft hw⟩
  | cat l r ihl ihr =>
    obtain ⟨u, hu⟩ := ihl
    obtain ⟨v, hv⟩ := ihr
    exact ⟨u ++ v, .cat hu hv⟩
  | star e _ => exact ⟨[], .starNil⟩

/-- The strings consist of leaves of the expression. -/
theorem Spells.mem_leaves {e : Expr α} {w : List α} (h : e.Spells w) : ∀ x ∈ w, x ∈ e.leaves := by
  induction h with
  | epsilon => simp
  | leaf a => simp [leaves]
  | altLeft _ ih => exact fun x hx => List.mem_append_left _ (ih x hx)
  | altRight _ ih => exact fun x hx => List.mem_append_right _ (ih x hx)
  | cat _ _ ihl ihr =>
    intro x hx
    rcases List.mem_append.mp hx with hx | hx
    · exact List.mem_append_left _ (ihl x hx)
    · exact List.mem_append_right _ (ihr x hx)
  | starNil => simp
  | starAppend _ _ ih ihs =>
    intro x hx
    rcases List.mem_append.mp hx with hx | hx
    · exact ih x hx
    · exact ihs x hx

theorem spells_map_iff {f : α → β} {e : Expr α} {w : List β} :
    (e.map f).Spells w ↔ ∃ u, e.Spells u ∧ u.map f = w := by
  constructor
  · intro h
    generalize he : e.map f = e' at h
    induction h generalizing e with
    | epsilon =>
      cases e <;> cases he
      exact ⟨[], .epsilon, rfl⟩
    | leaf b =>
      cases e <;> cases he
      exact ⟨_, .leaf _, rfl⟩
    | altLeft _ ih =>
      cases e <;> cases he
      obtain ⟨u, hu, rfl⟩ := ih rfl
      exact ⟨u, .altLeft hu, rfl⟩
    | altRight _ ih =>
      cases e <;> cases he
      obtain ⟨u, hu, rfl⟩ := ih rfl
      exact ⟨u, .altRight hu, rfl⟩
    | cat _ _ ihl ihr =>
      cases e <;> cases he
      obtain ⟨u, hu, rfl⟩ := ihl rfl
      obtain ⟨v, hv, rfl⟩ := ihr rfl
      exact ⟨u ++ v, .cat hu hv, List.map_append⟩
    | starNil =>
      cases e <;> cases he
      exact ⟨[], .starNil, rfl⟩
    | starAppend _ _ ih ihs =>
      cases e <;> cases he
      obtain ⟨u, hu, rfl⟩ := ih rfl
      obtain ⟨v, hv, rfl⟩ := ihs (e := star _) rfl
      exact ⟨u ++ v, .starAppend hu hv, List.map_append⟩
  · rintro ⟨u, hu, rfl⟩
    induction hu with
    | epsilon => exact .epsilon
    | leaf a => exact .leaf _
    | altLeft _ ih => exact .altLeft ih
    | altRight _ ih => exact .altRight ih
    | cat _ _ ihl ihr =>
      rw [List.map_append]
      exact .cat ihl ihr
    | starNil => exact .starNil
    | starAppend _ _ ih ihs =>
      rw [List.map_append]
      exact .starAppend ih ihs

/-! ### Beginnings and ends -/

theorem begins_leaf_iff {a x : α} : (leaf a).Begins x ↔ x = a := by
  simp [Begins, spells_leaf_iff]

theorem begins_alt_iff {l r : Expr α} {x : α} : (alt l r).Begins x ↔ l.Begins x ∨ r.Begins x := by
  simp only [Begins, spells_alt_iff, exists_or]

theorem begins_cat_iff {l r : Expr α} {x : α} :
    (cat l r).Begins x ↔ l.Begins x ∨ l.Spells [] ∧ r.Begins x := by
  constructor
  · rintro ⟨w, hw⟩
    obtain ⟨u, v, hu, hv, huv⟩ := spells_cat_iff.mp hw
    cases u with
    | nil =>
      obtain rfl : v = x :: w := huv
      exact Or.inr ⟨hu, w, hv⟩
    | cons y u =>
      obtain ⟨rfl, rfl⟩ := List.cons.inj huv
      exact Or.inl ⟨u, hu⟩
  · rintro (⟨u, hu⟩ | ⟨hu, v, hv⟩)
    · obtain ⟨v, hv⟩ := r.exists_spells
      exact ⟨u ++ v, .cat hu hv⟩
    · exact ⟨v, .cat hu hv⟩

theorem begins_star_iff {e : Expr α} {x : α} : (star e).Begins x ↔ e.Begins x := by
  constructor
  · rintro ⟨w, hw⟩
    obtain ⟨u₀, u₁, v₁, v₂, hu, -, -, h₁, -⟩ := Spells.star_split (u := []) hw
    obtain ⟨-, rfl⟩ := List.append_eq_nil_iff.mp hu.symm
    exact ⟨v₁, h₁⟩
  · rintro ⟨v, hv⟩
    exact ⟨v, hv.star_once⟩

theorem ends_leaf_iff {a x : α} : (leaf a).Ends x ↔ x = a := by
  simp [Ends, spells_leaf_iff, List.append_eq_singleton_iff]

theorem ends_alt_iff {l r : Expr α} {x : α} : (alt l r).Ends x ↔ l.Ends x ∨ r.Ends x := by
  simp only [Ends, spells_alt_iff, exists_or]

theorem ends_cat_iff {l r : Expr α} {x : α} :
    (cat l r).Ends x ↔ r.Ends x ∨ r.Spells [] ∧ l.Ends x := by
  constructor
  · rintro ⟨w, hw⟩
    obtain ⟨u, v, hu, hv, huv⟩ := spells_cat_iff.mp hw
    rcases List.eq_nil_or_concat v with rfl | ⟨v, y, rfl⟩
    · obtain rfl : u = w ++ [x] := by simpa using huv
      exact Or.inr ⟨hv, w, hu⟩
    · rw [List.concat_eq_append, ← List.append_assoc] at huv
      obtain ⟨-, hxy⟩ := List.append_inj' huv rfl
      obtain rfl : y = x := by simpa using hxy
      exact Or.inl ⟨v, by simpa using hv⟩
  · rintro (⟨v, hv⟩ | ⟨hv, u, hu⟩)
    · obtain ⟨u, hu⟩ := l.exists_spells
      exact ⟨u ++ v, by simpa using Spells.cat hu hv⟩
    · exact ⟨u, by simpa using Spells.cat hu hv⟩

theorem ends_star_iff {e : Expr α} {x : α} : (star e).Ends x ↔ e.Ends x := by
  constructor
  · rintro ⟨w, hw⟩
    obtain ⟨u₀, u₁, v₁, v₂, -, hv, -, h₁, -⟩ := Spells.star_split hw
    obtain ⟨rfl, -⟩ := List.append_eq_nil_iff.mp hv.symm
    exact ⟨u₁, h₁⟩
  · rintro ⟨u, hu⟩
    exact ⟨u, hu.star_once⟩

/-! ### Adjacency -/

theorem not_adjacent_leaf {a x y : α} : ¬ (leaf a).Adjacent x y := by
  rintro ⟨u, v, h⟩
  have hlength := congrArg List.length (spells_leaf_iff.mp h)
  simp only [List.length_append, List.length_cons, List.length_nil] at hlength
  omega

theorem adjacent_alt_iff {l r : Expr α} {x y : α} :
    (alt l r).Adjacent x y ↔ l.Adjacent x y ∨ r.Adjacent x y := by
  simp only [Adjacent, spells_alt_iff, exists_or]

theorem adjacent_cat_iff {l r : Expr α} {x y : α} :
    (cat l r).Adjacent x y ↔
      l.Adjacent x y ∨ r.Adjacent x y ∨ l.Ends x ∧ r.Begins y := by
  constructor
  · rintro ⟨u, v, h⟩
    obtain ⟨p, q, hp, hq, hpq⟩ := spells_cat_iff.mp h
    rcases append_eq_append_cons_cons_iff.mp hpq with
      ⟨v₁, rfl, -⟩ | ⟨rfl, rfl⟩ | ⟨u₁, -, rfl⟩
    · exact Or.inl ⟨u, v₁, hp⟩
    · exact Or.inr (Or.inr ⟨⟨u, hp⟩, v, hq⟩)
    · exact Or.inr (Or.inl ⟨u₁, v, hq⟩)
  · rintro (⟨u, v, h⟩ | ⟨u, v, h⟩ | ⟨⟨u, hu⟩, v, hv⟩)
    · obtain ⟨w, hw⟩ := r.exists_spells
      exact ⟨u, v ++ w, by simpa using Spells.cat h hw⟩
    · obtain ⟨w, hw⟩ := l.exists_spells
      exact ⟨w ++ u, v, by simpa using Spells.cat hw h⟩
    · exact ⟨u, v, by simpa using Spells.cat hu hv⟩

theorem adjacent_star_iff {e : Expr α} {x y : α} :
    (star e).Adjacent x y ↔ e.Adjacent x y ∨ e.Ends x ∧ e.Begins y := by
  constructor
  · rintro ⟨u, v, h⟩
    obtain ⟨u₀, u₁, v₁, v₂, -, hv, -, h₁, h₂⟩ := Spells.star_split h
    cases v₁ with
    | nil =>
      obtain rfl : v₂ = y :: v := hv.symm
      exact Or.inr ⟨⟨u₁, h₁⟩, begins_star_iff.mp ⟨v, h₂⟩⟩
    | cons z v₁ =>
      obtain ⟨rfl, -⟩ := List.cons.inj hv
      exact Or.inl ⟨u₁, v₁, h₁⟩
  · rintro (⟨u, v, h⟩ | ⟨⟨u, hu⟩, v, hv⟩)
    · exact ⟨u, v, h.star_once⟩
    · exact ⟨u, v, by simpa using Spells.starAppend hu hv.star_once⟩

/-! ### Strings through one leaf -/

private theorem Spells.cat_split_left {l r : Expr α} {u v : List α} {x : α}
    (hx : x ∉ r.leaves) (h : (Expr.cat l r).Spells (u ++ x :: v)) :
    ∃ v₁ v₂, v = v₁ ++ v₂ ∧ l.Spells (u ++ x :: v₁) ∧ r.Spells v₂ := by
  obtain ⟨p, q, hp, hq, hpq⟩ := spells_cat_iff.mp h
  rcases append_eq_append_cons_iff.mp hpq with ⟨m, rfl, rfl⟩ | ⟨m, rfl, rfl⟩
  · exact ⟨m, q, rfl, hp, hq⟩
  · exact absurd (hq.mem_leaves x (by simp)) hx

private theorem Spells.cat_split_right {l r : Expr α} {u v : List α} {x : α}
    (hx : x ∉ l.leaves) (h : (Expr.cat l r).Spells (u ++ x :: v)) :
    ∃ u₁ u₂, u = u₁ ++ u₂ ∧ l.Spells u₁ ∧ r.Spells (u₂ ++ x :: v) := by
  obtain ⟨p, q, hp, hq, hpq⟩ := spells_cat_iff.mp h
  rcases append_eq_append_cons_iff.mp hpq with ⟨m, rfl, rfl⟩ | ⟨m, rfl, rfl⟩
  · exact absurd (hp.mem_leaves x (by simp)) hx
  · exact ⟨p, m, rfl, hp, hq⟩

/-- Strings can be joined crosswise. If no leaf occurs twice, two strings through one leaf can be
cut there, and the beginning of the one goes on with the end of the other. -/
theorem Spells.exchange {e : Expr α} {u v u' v' : List α} {x : α} (hnodup : e.leaves.Nodup)
    (h : e.Spells (u ++ x :: v)) (h' : e.Spells (u' ++ x :: v')) : e.Spells (u ++ x :: v') := by
  induction e generalizing u v u' v' with
  | epsilon => simp [spells_epsilon_iff] at h
  | leaf a =>
    rw [spells_leaf_iff, List.append_eq_singleton_iff] at h h'
    obtain ⟨rfl, hx⟩ : u = [] ∧ x :: v = [a] := by simpa using h
    obtain ⟨-, hx'⟩ : u' = [] ∧ x :: v' = [a] := by simpa using h'
    rw [List.nil_append, hx']
    exact .leaf a
  | alt l r ihl ihr =>
    obtain ⟨hl, hr, hdisj⟩ := List.nodup_append.mp hnodup
    have hx {w w' : List α} (hw : l.Spells (w ++ x :: w')) : x ∉ r.leaves := fun hmem =>
      hdisj x (hw.mem_leaves x (by simp)) x hmem rfl
    rcases spells_alt_iff.mp h with h | h <;> rcases spells_alt_iff.mp h' with h' | h'
    · exact .altLeft (ihl hl h h')
    · exact absurd (h'.mem_leaves x (by simp)) (hx h)
    · exact absurd (h.mem_leaves x (by simp)) (hx h')
    · exact .altRight (ihr hr h h')
  | cat l r ihl ihr =>
    obtain ⟨hl, hr, hdisj⟩ := List.nodup_append.mp hnodup
    by_cases hx : x ∈ l.leaves
    · have hxr : x ∉ r.leaves := fun hmem => hdisj x hx x hmem rfl
      obtain ⟨v₁, v₂, rfl, h₁, -⟩ := h.cat_split_left hxr
      obtain ⟨v₁', v₂', rfl, h₁', h₂'⟩ := h'.cat_split_left hxr
      simpa using Spells.cat (ihl hl h₁ h₁') h₂'
    · obtain ⟨u₁, u₂, rfl, h₁, h₂⟩ := h.cat_split_right hx
      obtain ⟨u₁', u₂', rfl, -, h₂'⟩ := h'.cat_split_right hx
      simpa using Spells.cat h₁ (ihr hr h₂ h₂')
  | star e ih =>
    obtain ⟨u₀, u₁, v₁, v₂, rfl, rfl, h₀, h₁, -⟩ := h.star_split
    obtain ⟨u₀', u₁', v₁', v₂', rfl, rfl, -, h₁', h₂'⟩ := h'.star_split
    have := h₀.star_append (Spells.starAppend (ih hnodup h₁ h₁') h₂')
    simpa using this

end Recognizer.Regex.Expr
