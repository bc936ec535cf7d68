import Mathlib.Data.List.Perm.Basic
import Mathlib.Tactic.Tauto
import Recognizer.Proofs.Iteration.Results
import Recognizer.Regex.CharClass

/-!
# The characters of a bracket

The members of a bracket are a list of characters, some of them ranges, and the bracket stands for
distinct characters in a certain order. This file tells which ones in which order, without the
recursion that computes them: ranges are written out in ascending order; then the characters follow
the order in which they occur first, and the characters of a negated bracket follow the order of the
alphabet.

## Main definitions

* `WritesOut`: the members with their ranges written out.
* `StandsFor`: the characters that a bracket stands for.

## Main results

* `mem_charsBetween_iff`, `pairwise_charsBetween`: a range, in order.
* `characters_eq_ok_iff`: which characters are computed.
-/

namespace Recognizer.Regex

variable {alphabet : Alphabet} {a b c : Char} {members rest chars ds : List Char} {negated : Bool}

private theorem eq_of_pairwise {R : Char → Char → Prop} {l l' : List Char}
    (hR : ∀ c d, R c d → ¬ R d c) (h : l.Pairwise R) (h' : l'.Pairwise R)
    (hmem : ∀ c, c ∈ l ↔ c ∈ l') : l = l' := by
  have hne {c d : Char} (hcd : R c d) : c ≠ d := by
    rintro rfl
    exact hR c c hcd hcd
  have hperm : l.Perm l' := (List.perm_ext_iff_of_nodup (h.imp hne) (h'.imp hne)).mpr hmem
  exact hperm.eq_of_pairwise (fun c d _ _ hcd hdc => absurd hdc (hR c d hcd)) h h'

/-! ### Ranges -/

theorem SameKind.toNat_lt (h : SameKind a b) : b.toNat < 128 := by
  have hlt {c d : Char} (hle : c.val ≤ d.val) (hd : d.toNat < 128) : c.toNat < 128 :=
    Nat.lt_of_le_of_lt (UInt32.le_iff_toNat_le.mp hle) hd
  rcases h with ⟨-, h⟩ | ⟨-, h⟩ | ⟨-, h⟩
  · have hb : b.val ≤ '9'.val := of_decide_eq_true ((Bool.and_eq_true_iff.mp h).2)
    exact hlt hb (by decide)
  · have hb : b.val ≤ 'z'.val := of_decide_eq_true ((Bool.and_eq_true_iff.mp h).2)
    exact hlt hb (by decide)
  · have hb : b.val ≤ 'Z'.val := (of_decide_eq_true h).2
    exact hlt hb (by decide)

private theorem SameKind.toNat_ofNat {n : Nat} (h : SameKind a b) (hn : n ≤ b.toNat) :
    (Char.ofNat n).toNat = n := by
  have hb := h.toNat_lt
  have hvalid : n.isValidChar := Or.inl (by omega)
  rw [Char.ofNat, dif_pos hvalid]
  rfl

/-- The characters between two characters of the same kind. -/
theorem mem_charsBetween_iff (h : SameKind a b) : c ∈ charsBetween a b ↔ a ≤ c ∧ c ≤ b := by
  have hle {c d : Char} : c ≤ d ↔ c.toNat ≤ d.toNat := UInt32.le_iff_toNat_le
  simp only [charsBetween, List.mem_map, List.mem_range, hle]
  constructor
  · rintro ⟨k, hk, rfl⟩
    have htoNat := h.toNat_ofNat (n := a.toNat + k) (by omega)
    omega
  · rintro ⟨hac, hcb⟩
    refine ⟨c.toNat - a.toNat, by omega, ?_⟩
    rw [show a.toNat + (c.toNat - a.toNat) = c.toNat by omega, Char.ofNat_toNat]

theorem pairwise_charsBetween (h : SameKind a b) : (charsBetween a b).Pairwise (· < ·) := by
  rw [charsBetween, List.pairwise_map]
  refine List.pairwise_lt_range.imp_of_mem fun {k l} hk hl hkl => ?_
  rw [List.mem_range] at hk hl
  have hk := h.toNat_ofNat (n := a.toNat + k) (by omega)
  have hl := h.toNat_ofNat (n := a.toNat + l) (by omega)
  exact UInt32.lt_iff_toNat_lt.mpr (by change Char.toNat _ < Char.toNat _; omega)

/-- The members with their ranges written out: from the left, two characters of the same kind with a
`-` between them stand for the characters from one to the other, in ascending order, and any other
member for itself. -/
inductive WritesOut : List Char → List Char → Prop
  | nil : WritesOut [] []
  | range {a b : Char} {rest between chars : List Char} (hkind : SameKind a b) (hle : a ≤ b)
      (hascending : between.Pairwise (· < ·)) (hbetween : ∀ c, c ∈ between ↔ a ≤ c ∧ c ≤ b)
      (h : WritesOut rest chars) : WritesOut (a :: '-' :: b :: rest) (between ++ chars)
  | single {a : Char} {rest chars : List Char}
      (hsingle : ∀ b rest', rest = '-' :: b :: rest' → ¬ SameKind a b) (h : WritesOut rest chars) :
      WritesOut (a :: rest) (a :: chars)

private theorem expandRanges_single (i : Nat)
    (hsingle : ∀ b rest', rest = '-' :: b :: rest' → ¬ SameKind a b) :
    expandRanges i (a :: rest) = (a :: ·) <$> expandRanges (i + 1) rest := by
  rw [expandRanges.eq_def]
  split
  · next heq => cases heq
  · next heq =>
    obtain ⟨rfl, rfl⟩ := List.cons.inj heq
    rw [if_neg (hsingle _ _ rfl)]
  · next heq =>
    obtain ⟨rfl, rfl⟩ := List.cons.inj heq
    rfl

/-- The ranges are written out, wherever the members stand. Their position only matters for the
error at a range in the wrong order. -/
theorem writesOut_iff (i : Nat) : WritesOut members chars ↔ expandRanges i members = .ok chars := by
  constructor
  · intro h
    induction h generalizing i with
    | nil => rfl
    | @range a b rest between chars hkind hle hascending hbetween _ ih =>
      obtain rfl : between = charsBetween a b :=
        eq_of_pairwise (fun _ _ => Char.lt_asymm) hascending (pairwise_charsBetween hkind)
          fun c => (hbetween c).trans (mem_charsBetween_iff hkind).symm
      rw [expandRanges, if_pos hkind, if_pos hle, ih (i + 3)]
      rfl
    | single hsingle _ ih =>
      rw [expandRanges_single i hsingle, ih (i + 1)]
      rfl
  · intro h
    fun_induction expandRanges i members generalizing chars with
    | case1 =>
      obtain rfl := Except.ok.inj h
      exact .nil
    | case2 i a b rest hkind hle ih =>
      obtain ⟨chars, hrest, rfl⟩ := map_eq_ok_iff.mp h
      exact .range hkind hle (pairwise_charsBetween hkind)
        (fun c => mem_charsBetween_iff hkind) (ih hrest)
    | case3 => cases h
    | case4 i a b rest hkind ih =>
      obtain ⟨chars, hrest, rfl⟩ := map_eq_ok_iff.mp h
      refine .single (fun b' rest' heq => ?_) (ih hrest)
      obtain ⟨rfl, -⟩ := by simpa using heq
      exact hkind
    | case5 i a rest hno ih =>
      obtain ⟨chars, hrest, rfl⟩ := map_eq_ok_iff.mp h
      exact .single (fun b rest' heq => absurd heq (hno b rest')) (ih hrest)

/-! ### Characters in the order in which they occur first -/

theorem mem_distinct : c ∈ distinct chars ↔ c ∈ chars := by
  induction chars with
  | nil => rfl
  | cons d chars ih =>
    rw [distinct, List.mem_cons, List.mem_cons, List.mem_filter, ih, decide_eq_true_eq]
    tauto

theorem pairwise_distinct (chars : List Char) :
    (distinct chars).Pairwise fun c d => chars.idxOf c < chars.idxOf d := by
  induction chars with
  | nil => exact List.Pairwise.nil
  | cons a chars ih =>
    have hidxOf {c : Char} (hc : c ∈ (distinct chars).filter (· ≠ a)) :
        (a :: chars).idxOf c = chars.idxOf c + 1 :=
      List.idxOf_cons_ne _ (Ne.symm (of_decide_eq_true (List.mem_filter.mp hc).2))
    refine List.pairwise_cons.mpr ⟨fun d hd => ?_, ?_⟩
    · rw [List.idxOf_cons_self, hidxOf hd]
      exact Nat.succ_pos _
    · refine (ih.filter _).imp_of_mem fun {c d} hc hd hlt => ?_
      rw [hidxOf hc, hidxOf hd]
      exact Nat.succ_lt_succ hlt

/-! ### Brackets -/

/-- The bracket stands for the characters: those that its members are written out to, in the order
in which they occur first; or, if it is negated, the others of the alphabet in their order there. -/
def StandsFor (alphabet : Alphabet) (negated : Bool) (members ds : List Char) : Prop :=
  ∃ chars, WritesOut members chars ∧
    if negated then ds.Sublist alphabet.toList ∧ ∀ c, c ∈ ds ↔ c ∈ alphabet ∧ c ∉ chars
    else (ds.Pairwise fun c d => chars.idxOf c < chars.idxOf d) ∧ ∀ c, c ∈ ds ↔ c ∈ chars

/-- The characters of a bracket. What is computed for a bracket, wherever it stands, are the
characters that it stands for, in the right order. -/
theorem characters_eq_ok_iff (position : Nat) :
    CharClass.characters alphabet ⟨position, negated, members⟩ = .ok ds ↔
      StandsFor alphabet negated members ds := by
  refine bind_eq_ok_iff.trans (exists_congr fun chars => ?_)
  refine and_congr (writesOut_iff (position + 1)).symm ?_
  cases negated with
  | false =>
    change Except.ok (distinct chars) = Except.ok ds ↔ _
    rw [Except.ok.injEq]
    constructor
    · rintro rfl
      exact ⟨pairwise_distinct chars, fun c => mem_distinct⟩
    · rintro ⟨horder, hmem⟩
      exact eq_of_pairwise (fun _ _ => Nat.lt_asymm) (pairwise_distinct chars) horder
        fun c => mem_distinct.trans (hmem c).symm
  | true =>
    have hmem' (c : Char) :
        c ∈ (alphabet \ SortedSet.ofList chars).toList ↔ c ∈ alphabet ∧ c ∉ chars := by
      rw [← SortedSet.mem_def, SortedSet.mem_sdiff, SortedSet.mem_ofList]
    change Except.ok (alphabet \ SortedSet.ofList chars).toList = Except.ok ds ↔ _
    rw [Except.ok.injEq]
    constructor
    · rintro rfl
      exact ⟨List.filter_sublist, hmem'⟩
    · rintro ⟨hsublist, hmem⟩
      exact (SortedSet.ascending _).ext (alphabet.ascending.sublist hsublist)
        fun c => (hmem' c).trans (hmem c).symm

end Recognizer.Regex
