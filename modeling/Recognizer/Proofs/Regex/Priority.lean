import Mathlib.Data.List.Basic
import Recognizer.Regex.Token

/-!
# The choice among action tags

Of two different tags one outranks the other, and no two outrank each other. The best tag of a list
is the one that outranks all others.

## Main results

* `ActionTag.best?_eq_some_iff`: the best tag of a list.
-/

namespace Recognizer.Regex.ActionTag

variable {a b c tag : ActionTag} {tags : List ActionTag}

theorem outranks_irrefl (a : ActionTag) : ¬ a.Outranks a := by
  rintro (hlt | ⟨-, hlt⟩)
  · exact Nat.lt_irrefl _ hlt
  · have hself : compare a.source a.source = .eq := Std.ReflCmp.compare_self
    rw [hself] at hlt
    cases hlt

theorem Outranks.trans (hab : a.Outranks b) (hbc : b.Outranks c) : a.Outranks c := by
  rcases hab with hab | ⟨hab, hab'⟩
  · rcases hbc with hbc | ⟨hbc, -⟩
    · exact Or.inl (Nat.lt_trans hab hbc)
    · exact Or.inl (hbc ▸ hab)
  · rcases hbc with hbc | ⟨hbc, hbc'⟩
    · exact Or.inl (hab ▸ hbc)
    · exact Or.inr ⟨hab.trans hbc, Std.TransCmp.lt_trans hab' hbc'⟩

theorem eq_or_outranks_of_not_outranks (h : ¬ b.Outranks a) : b = a ∨ a.Outranks b := by
  rcases Nat.lt_trichotomy a.priority b.priority with hlt | heq | hgt
  · exact Or.inr (Or.inl hlt)
  · cases hsource : compare a.source b.source with
    | lt => exact Or.inr (Or.inr ⟨heq, hsource⟩)
    | eq =>
      have hsource := Std.LawfulEqCmp.eq_of_compare hsource
      cases a
      cases b
      exact Or.inl (congrArg₂ mk hsource.symm heq.symm)
    | gt => exact absurd (Or.inr ⟨heq.symm, Std.OrientedCmp.lt_of_gt hsource⟩) h
  · exact absurd (Or.inl hgt) h

theorem best?_eq_none_iff : best? tags = none ↔ tags = [] := by
  cases tags with
  | nil => exact iff_of_true rfl rfl
  | cons a rest =>
    rw [best?]
    cases best? rest with
    | none => simp
    | some b =>
      by_cases h : b.Outranks a
      · simp [h]
      · simp [h]

theorem isSome_best?_iff : (best? tags).isSome ↔ ∃ tag, tag ∈ tags := by
  rw [Option.isSome_iff_ne_none, Ne, best?_eq_none_iff]
  exact ⟨List.exists_mem_of_ne_nil tags, fun ⟨_, h⟩ => List.ne_nil_of_mem h⟩

private theorem best?_spec (h : best? tags = some tag) :
    tag ∈ tags ∧ ∀ t ∈ tags, t = tag ∨ tag.Outranks t := by
  induction tags generalizing tag with
  | nil => cases h
  | cons a rest ih =>
    rw [best?] at h
    cases hrest : best? rest with
    | none =>
      rw [hrest] at h
      obtain rfl := Option.some.inj h
      rw [best?_eq_none_iff.mp hrest]
      exact ⟨List.mem_singleton_self a, fun t ht => Or.inl (List.mem_singleton.mp ht)⟩
    | some b =>
      rw [hrest] at h
      obtain ⟨hmem, hbest⟩ := ih hrest
      by_cases hba : b.Outranks a
      · simp only [hba, if_true, Option.some.injEq] at h
        subst h
        refine ⟨List.mem_cons_of_mem a hmem, fun t ht => ?_⟩
        rcases List.mem_cons.mp ht with rfl | ht
        · exact Or.inr hba
        · exact hbest t ht
      · simp only [hba, if_false, Option.some.injEq] at h
        subst h
        refine ⟨List.mem_cons_self, fun t ht => ?_⟩
        rcases List.mem_cons.mp ht with rfl | ht
        · exact Or.inl rfl
        rcases hbest t ht with rfl | hbt
        · exact eq_or_outranks_of_not_outranks hba
        · rcases eq_or_outranks_of_not_outranks hba with rfl | hab
          · exact Or.inr hbt
          · exact Or.inr (hab.trans hbt)

/-- The best tag of a list is the one that outranks all others; so the order of the list and
repetitions in it do not matter. -/
theorem best?_eq_some_iff :
    best? tags = some tag ↔ tag ∈ tags ∧ ∀ t ∈ tags, t = tag ∨ tag.Outranks t := by
  refine ⟨best?_spec, fun ⟨hmem, hbest⟩ => ?_⟩
  obtain ⟨best, hsome⟩ := Option.isSome_iff_exists.mp (isSome_best?_iff.mpr ⟨tag, hmem⟩)
  obtain ⟨hmem', hbest'⟩ := best?_spec hsome
  rw [hsome, Option.some.injEq]
  rcases hbest best hmem' with h | h
  · exact h
  rcases hbest' tag hmem with h' | h'
  · exact h'.symm
  · exact absurd (h.trans h') (outranks_irrefl tag)

end Recognizer.Regex.ActionTag
