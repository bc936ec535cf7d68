import Mathlib.Data.List.Basic
import Recognizer.Dfa.Basic

/-!
# The names of states

The name of a state lists its positions in decimal notation. Since no digit is a comma, the list can
be read back from the name, so different sets of positions have different names, and only the empty
set has the name of the trap.

## Main results

* `StateId.ofPositions_inj`: names are equal just if the positions are the same.
* `StateId.isTrap_ofPositions`: only the name without positions is that of the trap.
-/

namespace Recognizer.StateId

/-- The digits of the numbers in a row, separated by commas. -/
private def digitList (l : List Nat) : List Char :=
  List.intercalate [','] (l.map fun n => Nat.toDigits 10 n)

private theorem toList_text_ofPositions (l : List Nat) :
    (ofPositions l).text.toList = '\x7b' :: digitList (SortedSet.ofList l).toList ++ ['\x7d'] := by
  have hmap : ((SortedSet.ofList l).toList.map toString).map String.toList =
      (SortedSet.ofList l).toList.map fun n => Nat.toDigits 10 n := by
    rw [List.map_map]
    exact List.map_congr_left fun n _ => Nat.toList_repr
  simp only [ofPositions, String.toList_append, String.toList_intercalate, hmap]
  rfl

private theorem digitList_injective {l m : List Nat} (h : digitList l = digitList m) : l = m := by
  have hcomma (l : List Nat) : ∀ d ∈ l.map fun n => Nat.toDigits 10 n, ',' ∉ d := by
    intro d hd hmem
    obtain ⟨n, -, rfl⟩ := List.mem_map.mp hd
    have := Nat.isDigit_of_mem_toDigits (by omega) (by omega) hmem
    simp at this
  have hread (l : List Nat) (hl : l ≠ []) :
      (digitList l).splitOn ',' = l.map fun n => Nat.toDigits 10 n :=
    List.splitOn_intercalate ',' (hcomma l) (by simpa using hl)
  have hnil (l : List Nat) (hl : digitList l = []) : l = [] := by
    by_contra hne
    have hone := hread l hne
    rw [hl, List.splitOn_nil] at hone
    obtain ⟨n, rfl, hn⟩ := List.map_eq_singleton_iff.mp hone.symm
    exact Nat.toDigits_ne_nil hn
  by_cases hl : l = []
  · subst hl
    exact (hnil m h.symm).symm
  · by_cases hm : m = []
    · subst hm
      exact absurd (hnil l h) hl
    · have hdigits := (hread l hl).symm.trans ((congrArg _ h).trans (hread m hm))
      refine List.map_injective_iff.mpr (fun a b hab => ?_) hdigits
      rw [← Nat.ofDigitChars_ten_toDigits (n := a), ← Nat.ofDigitChars_ten_toDigits (n := b)]
      exact congrArg (Nat.ofDigitChars 10 · 0) hab

/-- Names tell sets of positions apart. Names are equal if and only if they are made of the same
positions, in whatever order and however often each is given. -/
theorem ofPositions_inj {l m : List Nat} :
    ofPositions l = ofPositions m ↔ ∀ n, n ∈ l ↔ n ∈ m := by
  constructor
  · intro h n
    have htext := congrArg (fun s => s.text.toList) h
    simp only [toList_text_ofPositions, List.cons_append, List.cons.injEq, true_and,
      List.append_cancel_right_eq] at htext
    have hset : SortedSet.ofList l = SortedSet.ofList m :=
      SortedSet.toList_injective (digitList_injective htext)
    rw [← SortedSet.mem_ofList, hset, SortedSet.mem_ofList]
  · intro h
    have hset : SortedSet.ofList l = SortedSet.ofList m :=
      SortedSet.ext fun n => by rw [SortedSet.mem_ofList, SortedSet.mem_ofList, h]
    rw [ofPositions, ofPositions, hset]

/-- Only the name without positions is that of the trap. -/
theorem isTrap_ofPositions {l : List Nat} : (ofPositions l).isTrap = true ↔ l = [] := by
  have htrap : trap = ofPositions [] := rfl
  rw [isTrap_iff, htrap, ofPositions_inj, List.eq_nil_iff_forall_not_mem]
  exact forall_congr' fun n => by simp

end Recognizer.StateId
