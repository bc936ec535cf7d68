import Mathlib.Computability.Language
import Recognizer.Proofs.Regex.Adjacency

/-!
# The language of an expression

The texts that an expression matches form a language, and each operator of expressions is the
operator of the same kind on languages.

## Main definitions

* `Expr.language`: the texts that an expression matches.
* `Expr.IsPlain`: the expression has no action tags.

## Main results

* `Expr.language_alt`, `Expr.language_cat`, `Expr.language_star` and their companions: the language
  of each operator.
* `Expr.IsPlain.spells_iff`: without action tags, the strings are the texts.
-/

namespace Recognizer.Regex.Expr

open scoped Computability

/-- The texts that the expression matches. Action tags consume nothing, so they add nothing to the
texts. -/
def language (e : Expr Leaf) : Language Char := fun text => e.Matches text

theorem mem_language {e : Expr Leaf} {text : List Char} : text ∈ e.language ↔ e.Matches text :=
  Iff.rfl

/-! ### The language of each operator -/

@[simp] theorem language_epsilon : language epsilon = 1 := by
  ext text
  rw [mem_language, Language.mem_one, Matches]
  constructor
  · rintro ⟨leaves, h, rfl⟩
    rw [spells_epsilon_iff.mp h]
    rfl
  · rintro rfl
    exact ⟨[], .epsilon, rfl⟩

@[simp] theorem language_leaf (a : Leaf) : language (leaf a) = {a.text} := by
  ext text
  rw [mem_language, Matches]
  constructor
  · rintro ⟨leaves, h, rfl⟩
    rw [spells_leaf_iff.mp h]
    exact List.flatMap_singleton ..
  · rintro rfl
    exact ⟨[a], .leaf a, List.flatMap_singleton ..⟩

@[simp] theorem language_alt (l r : Expr Leaf) : (alt l r).language = l.language + r.language := by
  ext text
  rw [Language.mem_add]
  simp only [mem_language, Matches, spells_alt_iff, or_and_right, exists_or]

@[simp] theorem language_cat (l r : Expr Leaf) : (cat l r).language = l.language * r.language := by
  ext text
  rw [Language.mem_mul]
  constructor
  · rintro ⟨leaves, h, rfl⟩
    obtain ⟨u, v, hu, hv, rfl⟩ := spells_cat_iff.mp h
    exact ⟨_, ⟨u, hu, rfl⟩, _, ⟨v, hv, rfl⟩, List.flatMap_append.symm⟩
  · rintro ⟨_, ⟨u, hu, rfl⟩, _, ⟨v, hv, rfl⟩, rfl⟩
    exact ⟨u ++ v, spells_cat_iff.mpr ⟨u, v, hu, hv, rfl⟩, List.flatMap_append⟩

@[simp] theorem language_star (e : Expr Leaf) : (star e).language = e.language∗ := by
  ext text
  constructor
  · rintro ⟨leaves, h, rfl⟩
    generalize hs : star e = s at h
    induction h with
    | starNil => exact Language.nil_mem_kstar _
    | @starAppend e' u v hu _ _ ih =>
      obtain rfl := star.inj hs
      obtain ⟨texts, htexts, hmem⟩ := Language.mem_kstar.mp (ih hs)
      refine Language.mem_kstar.mpr ⟨u.flatMap Leaf.text :: texts, ?_, ?_⟩
      · rw [List.flatMap_append, htexts, List.flatten_cons]
      · exact List.forall_mem_cons.mpr ⟨⟨u, hu, rfl⟩, hmem⟩
    | _ => cases hs
  · intro h
    obtain ⟨texts, rfl, hmem⟩ := Language.mem_kstar.mp h
    clear h
    induction texts with
    | nil => exact ⟨[], .starNil, rfl⟩
    | cons text texts ih =>
      obtain ⟨⟨u, hu, hutext⟩, hrest⟩ := List.forall_mem_cons.mp hmem
      obtain ⟨v, hv, hvtext⟩ := ih hrest
      exact ⟨u ++ v, .starAppend hu hv, by
        rw [List.flatMap_append, hutext, hvtext, List.flatten_cons]⟩

@[simp] theorem language_plus (e : Expr Leaf) : (plus e).language = e.language * e.language∗ := by
  rw [plus, language_cat, language_star]

@[simp] theorem language_opt (e : Expr Leaf) : (opt e).language = e.language + 1 := by
  rw [opt, language_alt, language_epsilon]

theorem mem_language_oneOf {c : Char} {cs : List Char} {text : List Char} :
    text ∈ (oneOf (.lit c) (cs.map .lit)).language ↔ ∃ d ∈ c :: cs, text = [d] := by
  have hfoldl (e : Expr Leaf) : text ∈ ((cs.map Leaf.lit).foldl
      (fun e b => alt e (leaf b)) e).language ↔ text ∈ e.language ∨ ∃ d ∈ cs, text = [d] := by
    induction cs generalizing e with
    | nil => simp
    | cons d cs ih =>
      rw [List.map_cons, List.foldl_cons, ih, language_alt, Language.mem_add, language_leaf,
        List.exists_mem_cons_iff, or_assoc]
      rfl
  rw [oneOf, hfoldl, language_leaf, List.exists_mem_cons_iff]
  rfl

/-! ### Expressions without action tags -/

/-- The expression has no action tags, as is true of the expression of a pattern. -/
def IsPlain (e : Expr Leaf) : Prop := ∀ a ∈ e.leaves, ∃ c, a = .lit c

theorem IsPlain.exists_text {e : Expr Leaf} (h : e.IsPlain) {leaves : List Leaf}
    (hs : e.Spells leaves) : ∃ text : List Char, leaves = text.map .lit := by
  have hlits : ∀ a ∈ leaves, ∃ c, a = Leaf.lit c := fun a ha => h a (hs.mem_leaves a ha)
  clear hs
  induction leaves with
  | nil => exact ⟨[], rfl⟩
  | cons a leaves ih =>
    obtain ⟨⟨c, rfl⟩, hrest⟩ := List.forall_mem_cons.mp hlits
    obtain ⟨text, rfl⟩ := ih hrest
    exact ⟨c :: text, rfl⟩

/-- Without action tags, an expression matches the texts that its strings are, each leaf consuming
one character. -/
theorem IsPlain.spells_iff {e : Expr Leaf} (h : e.IsPlain) {text : List Char} :
    e.Spells (text.map .lit) ↔ text ∈ e.language := by
  have htext (text : List Char) : (text.map Leaf.lit).flatMap Leaf.text = text := by
    rw [List.flatMap_map]
    exact List.flatMap_singleton' text
  constructor
  · exact fun hs => ⟨_, hs, htext text⟩
  · rintro ⟨leaves, hs, rfl⟩
    obtain ⟨text, rfl⟩ := h.exists_text hs
    rwa [htext]

end Recognizer.Regex.Expr
