import Recognizer.Proofs.Dfa.Verdicts
import Recognizer.Proofs.Sorted.Entries

/-!
# Classes of equivalent states

The refinement splits a class as long as it can, and each split makes one more class, so it has come
to an end after as many rounds as there are states. States of one class then agree on acceptance and
tag, and every character leads them to states of one class. So they say the same of every text. The
other way round, states that say the same of every text are never put into different classes.

## Main definitions

* `Leaders.IsPartition`: the leader of every state is the first state of its class.
* `Leaders.Refines`: states of one class have the same key.

## Main results

* `Dfa.get?_groupBy_eq_some_iff`, `Dfa.get?_groupBy_eq_iff`: the partition by a key.
* `Dfa.refine_leaders`: a further round does not change the partition.
* `Dfa.verdict_eq_of_leaders`, `Dfa.get?_step_leaders`: what states of one class have in common.
* `Dfa.get?_leaders_eq_iff`: states are in one class if they say the same of every text.
-/

namespace Recognizer

open Regex (ActionTag)

/-- The first member of a set with some property is the least one: no other member with the property
comes before it in the order of the values. -/
theorem SortedSet.find?_toList_eq_some_iff {α : Type} [Ord α] [Std.TransOrd α] [Std.LawfulEqOrd α]
    {s : SortedSet α} {p : α → Bool} {a : α} :
    s.toList.find? p = some a ↔ a ∈ s ∧ p a = true ∧ ∀ b ∈ s, p b = true → compare a b ≠ .gt := by
  have hfirst {a : α} (h : s.toList.find? p = some a) :
      a ∈ s ∧ p a = true ∧ ∀ b ∈ s, p b = true → compare a b ≠ .gt := by
    refine ⟨List.mem_of_find?_eq_some h, List.find?_some h, fun b hb hpb => ?_⟩
    obtain ⟨-, before, after, hlist, hbefore⟩ := List.find?_eq_some_iff_append.mp h
    have hascending := s.ascending
    rw [SortedSet.mem_def, hlist, List.mem_append, List.mem_cons] at hb
    rw [hlist, Ascending, List.pairwise_append, List.pairwise_cons] at hascending
    rcases hb with hb | rfl | hb
    · have := hbefore b hb
      simp [hpb] at this
    · simp
    · simp [hascending.2.1.1 b hb]
  refine ⟨hfirst, ?_⟩
  rintro ⟨ha, hpa, hmin⟩
  obtain ⟨b, hb⟩ := Option.isSome_iff_exists.mp (List.find?_isSome.mpr ⟨a, ha, hpa⟩)
  obtain ⟨hbs, hpb, hminb⟩ := hfirst hb
  have hab : compare a b = .eq := by
    cases h : compare a b with
    | lt => exact absurd (Std.OrientedCmp.gt_of_lt h) (hminb a ha hpa)
    | eq => rfl
    | gt => exact absurd h (hmin b hbs hpb)
  rw [hb, Std.LawfulEqCmp.eq_of_compare hab]

theorem SortedMap.toList_tabulate {κ ν : Type} [Ord κ] [Std.TransOrd κ] [Std.LawfulEqOrd κ]
    [DecidableEq κ] (s : SortedSet κ) (f : κ → ν) :
    (tabulate s f).toList = s.toList.map fun k => (k, f k) := by
  have hvalues : (tabulate s f).toList = (tabulate s f).toList.map fun e => (e.1, f e.1) := by
    refine (List.map_id _).symm.trans (List.map_congr_left fun e he => ?_)
    have hget := mem_toList.mp he
    rw [get?_tabulate] at hget
    split at hget
    · exact congrArg (Prod.mk e.1) (Option.some.inj hget).symm
    · cases hget
  rw [hvalues, ← congrArg SortedSet.toList (keys_tabulate s f), ← map_fst_toList, List.map_map]
  rfl

namespace Dfa

variable {d : Dfa} {L : Leaders} {s t l : StateId}

/-! ### The partition by a key -/

section GroupBy

variable {κ : Type} [Ord κ] [Std.TransOrd κ] [Std.LawfulEqOrd κ] [DecidableEq κ]
  {key : StateId → κ}

/-- The leader of a state is the first state with its key. -/
theorem get?_groupBy_eq_some_iff : (d.groupBy key).get? s = some l ↔
    s ∈ d.states ∧ l ∈ d.states ∧ key l = key s ∧
      ∀ t ∈ d.states, key t = key s → compare l t ≠ .gt := by
  have hfirst : (SortedMap.firstOf ((SortedMap.tabulate d.states key).toList.map fun e =>
      (e.2, e.1))).get? (key s) = d.states.toList.find? fun t => key t = key s := by
    rw [SortedMap.get?_firstOf, SortedMap.toList_tabulate, List.map_map, List.find?_map,
      Option.map_map]
    exact Option.map_id'
  simp only [groupBy, SortedMap.get?_mapWithKey, SortedMap.get?_tabulate]
  by_cases hs : s ∈ d.states
  · obtain ⟨first, hfind⟩ := Option.isSome_iff_exists.mp
      (List.find?_isSome.mpr ⟨s, hs, decide_eq_true (Eq.refl (key s))⟩ :
        (d.states.toList.find? fun t => key t = key s).isSome)
    have hspec := SortedSet.find?_toList_eq_some_iff (a := l) (s := d.states)
      (p := fun t => decide (key t = key s))
    simp only [decide_eq_true_eq] at hspec
    rw [if_pos hs, Option.map_some, hfirst, hfind, Option.getD_some, ← hfind, hspec]
    simp only [hs, true_and]
  · simp [hs]

omit [Std.LawfulEqOrd κ] [DecidableEq κ] in
theorem exists_get?_groupBy (key : StateId → κ) (hs : s ∈ d.states) :
    ∃ l, (d.groupBy key).get? s = some l := by
  rw [← Option.isSome_iff_exists, groupBy, SortedMap.get?_mapWithKey, SortedMap.get?_tabulate,
    if_pos hs]
  rfl

theorem get?_groupBy_eq_iff (hs : s ∈ d.states) (ht : t ∈ d.states) :
    (d.groupBy key).get? s = (d.groupBy key).get? t ↔ key s = key t := by
  constructor
  · intro h
    obtain ⟨l, hl⟩ := exists_get?_groupBy key hs
    have hlt := h.symm.trans hl
    exact (get?_groupBy_eq_some_iff.mp hl).2.2.1.symm.trans (get?_groupBy_eq_some_iff.mp hlt).2.2.1
  · intro h
    refine Option.ext fun l => ?_
    simp only [get?_groupBy_eq_some_iff, hs, ht, h]

end GroupBy

end Dfa

/-! ### Partitions and their leaders -/

namespace Leaders

/-- The leader of every state is the first state of its class, and only states have a leader. So a
partition is determined by which states are together. -/
def IsPartition (d : Dfa) (L : Leaders) : Prop :=
  ∀ s l, L.get? s = some l ↔
    s ∈ d.states ∧ l ∈ d.states ∧ L.get? l = L.get? s ∧
      ∀ t ∈ d.states, L.get? t = L.get? s → compare l t ≠ .gt

/-- States of one class of the partition `L'` are in one class of `L`. Each round of the refinement
leads to a partition that refines the one before. -/
def Refines (d : Dfa) (L' L : Leaders) : Prop :=
  ∀ s ∈ d.states, ∀ t ∈ d.states, L'.get? s = L'.get? t → L.get? s = L.get? t

/-- The states that lead their classes, in the order of names. There are as many of them as
classes. -/
def heads (d : Dfa) (L : Leaders) : List StateId :=
  d.states.toList.filter fun s => L.get? s = some s

variable {d : Dfa} {L L' : Leaders} {s t l : StateId}

theorem leader_eq (h : L.get? s = some l) : L.leader s = l := by
  rw [leader, h, Option.getD_some]

namespace IsPartition

theorem mem_states (h : L.IsPartition d) (hl : L.get? s = some l) : l ∈ d.states :=
  ((h s l).mp hl).2.1

theorem get?_leader (h : L.IsPartition d) (hl : L.get? s = some l) : L.get? l = some l :=
  ((h s l).mp hl).2.2.1.trans hl

theorem exists_leader (h : L.IsPartition d) (hs : s ∈ d.states) : ∃ l, L.get? s = some l := by
  have hsome : (d.states.toList.find? fun t => L.get? t = L.get? s).isSome :=
    List.find?_isSome.mpr ⟨s, hs, decide_eq_true rfl⟩
  obtain ⟨l, hl⟩ := Option.isSome_iff_exists.mp hsome
  obtain ⟨hmem, hclass, hmin⟩ := SortedSet.find?_toList_eq_some_iff.mp hl
  refine ⟨l, (h s l).mpr ⟨hs, hmem, of_decide_eq_true hclass, fun t ht hts => ?_⟩⟩
  exact hmin t ht (decide_eq_true hts)

theorem leader_eq_iff (h : L.IsPartition d) (hs : s ∈ d.states) (ht : t ∈ d.states) :
    L.leader s = L.leader t ↔ L.get? s = L.get? t := by
  obtain ⟨l, hl⟩ := h.exists_leader hs
  obtain ⟨m, hm⟩ := h.exists_leader ht
  rw [leader_eq hl, leader_eq hm, hl, hm, Option.some.injEq]

end IsPartition

end Leaders

namespace Dfa

variable {d : Dfa} {L : Leaders} {s t : StateId}

theorem isPartition_groupBy {κ : Type} [Ord κ] [Std.TransOrd κ] [Std.LawfulEqOrd κ]
    [DecidableEq κ] (d : Dfa) (key : StateId → κ) : (d.groupBy key).IsPartition d := by
  intro s l
  rw [get?_groupBy_eq_some_iff]
  refine and_congr_right fun hs => and_congr_right fun hl => ?_
  rw [get?_groupBy_eq_iff hl hs]
  refine and_congr_right fun _ => forall_congr' fun t => forall_congr' fun ht => ?_
  rw [get?_groupBy_eq_iff ht hs]

/-! ### The refinement comes to an end -/

/-- What a round of the refinement keeps together. -/
theorem get?_refine_eq_iff (hL : L.IsPartition d) (hs : s ∈ d.states) (ht : t ∈ d.states) :
    (d.refine L).get? s = (d.refine L).get? t ↔
      L.get? s = L.get? t ∧ ∀ c ∈ d.alphabet, L.leader (d.step s c) = L.leader (d.step t c) := by
  rw [refine, get?_groupBy_eq_iff hs ht, List.cons.injEq, hL.leader_eq_iff hs ht]
  refine and_congr_right fun _ => ?_
  rw [List.map_inj_left]
  rfl

theorem refines_refine (hL : L.IsPartition d) : (d.refine L).Refines d L :=
  fun _ hs _ ht h => ((get?_refine_eq_iff hL hs ht).mp h).1

end Dfa

namespace Leaders

variable {d : Dfa} {L L' : Leaders} {s : StateId}

theorem mem_heads : s ∈ L.heads d ↔ s ∈ d.states ∧ L.get? s = some s := by
  simp [heads, SortedSet.mem_def]

theorem Refines.get?_head (h : L'.Refines d L) (hL : L.IsPartition d) (hL' : L'.IsPartition d)
    (hs : L.get? s = some s) : L'.get? s = some s := by
  obtain ⟨hmem, -, -, hmin⟩ := (hL s s).mp hs
  refine (hL' s s).mpr ⟨hmem, hmem, rfl, fun t ht hts => ?_⟩
  exact hmin t ht (h t ht s hmem hts)

theorem Refines.heads_sublist (h : L'.Refines d L) (hL : L.IsPartition d)
    (hL' : L'.IsPartition d) : (L.heads d).Sublist (L'.heads d) := by
  refine List.monotone_filter_right _ fun s hs => ?_
  rw [decide_eq_true_eq] at hs ⊢
  exact h.get?_head hL hL' hs

/-- A partition that refines another and has no more classes is the same. -/
theorem Refines.eq_of_length_heads (h : L'.Refines d L) (hL : L.IsPartition d)
    (hL' : L'.IsPartition d) (hlength : (L'.heads d).length ≤ (L.heads d).length) : L' = L := by
  have hsublist := h.heads_sublist hL hL'
  have heads_eq : L.heads d = L'.heads d :=
    hsublist.eq_of_length (Nat.le_antisymm hsublist.length_le hlength)
  have hsub {s l : StateId} (hl : L'.get? s = some l) : L.get? s = some l := by
    obtain ⟨hs, hlmem, hclass, -⟩ := (hL' s l).mp hl
    have hhead : l ∈ L.heads d := by
      rw [heads_eq]
      exact mem_heads.mpr ⟨hlmem, hL'.get?_leader hl⟩
    exact (h l hlmem s hs hclass).symm.trans (mem_heads.mp hhead).2
  refine SortedMap.ext fun s => Option.ext fun l => ⟨hsub, fun hl => ?_⟩
  obtain ⟨m, hm⟩ := hL'.exists_leader ((hL s l).mp hl).1
  rwa [← Option.some.inj ((hsub hm).symm.trans hl)]

end Leaders

namespace Dfa

variable {d : Dfa} {L : Leaders} {s t : StateId}

theorem isPartition_refine (d : Dfa) (L : Leaders) : (d.refine L).IsPartition d :=
  isPartition_groupBy d _

theorem isPartition_leaders (d : Dfa) : d.leaders.IsPartition d :=
  saturate_induction (fun L _ => isPartition_refine d L) _ _ (isPartition_groupBy d _)

/-- The refinement comes to an end. A further round does not change the partition, since every round
that changes it makes one more class and there are no more classes than states. -/
theorem refine_leaders (hne : s ∈ d.states) : d.refine d.leaders = d.leaders := by
  refine step_saturate (P := fun L => L.IsPartition d) (fun L => (L.heads d).length) d.states.size
    (fun L _ => isPartition_refine d L) (fun L _ => List.length_filter_le _ _)
    (fun L hL hchange => ?_) _ _ (isPartition_groupBy d _) ?_
  · by_contra hle
    exact hchange ((refines_refine hL).eq_of_length_heads hL (isPartition_refine d L)
      (Nat.le_of_not_lt hle))
  · -- a class has a leader, so there is one at least
    obtain ⟨l, hl⟩ := (isPartition_groupBy d _).exists_leader (L := d.coarsest) hne
    have hhead : l ∈ d.coarsest.heads d :=
      Leaders.mem_heads.mpr ⟨(isPartition_groupBy d _).mem_states hl,
        (isPartition_groupBy d _).get?_leader hl⟩
    have := List.length_pos_of_mem hhead
    omega

/-! ### What states of one class have in common -/

private theorem refines_coarsest (d : Dfa) : d.leaders.Refines d d.coarsest := by
  refine (saturate_induction (P := fun L => L.IsPartition d ∧ L.Refines d d.coarsest)
    (fun L h => ⟨isPartition_refine d L, fun s hs t ht hst => ?_⟩) _ _
    ⟨isPartition_groupBy d _, fun _ _ _ _ h => h⟩).2
  exact h.2 s hs t ht (refines_refine h.1 s hs t ht hst)

/-- States of one class agree on acceptance and on the tag. -/
theorem verdict_eq_of_leaders (hs : s ∈ d.states) (ht : t ∈ d.states)
    (h : d.leaders.get? s = d.leaders.get? t) :
    (d.Accepting s ↔ d.Accepting t) ∧ d.tag? s = d.tag? t := by
  have hverdict := (get?_groupBy_eq_iff hs ht).mp (refines_coarsest d s hs t ht h)
  obtain ⟨haccepting, htag⟩ := Prod.mk.inj hverdict
  exact ⟨decide_eq_decide.mp haccepting, htag⟩

/-- Every character leads states of one class to states of one class. -/
theorem get?_step_leaders (hd : d.IsTotal) (hs : s ∈ d.states) (ht : t ∈ d.states)
    (h : d.leaders.get? s = d.leaders.get? t) (c : Char) :
    d.leaders.get? (d.step s c) = d.leaders.get? (d.step t c) := by
  by_cases hc : c ∈ d.alphabet
  · have hpartition := isPartition_leaders d
    rw [← refine_leaders hs, get?_refine_eq_iff hpartition hs ht] at h
    exact (hpartition.leader_eq_iff (hd.step_mem s hs c) (hd.step_mem t ht c)).mp (h.2 c hc)
  · rw [hd.step_of_not_mem s hs c hc, hd.step_of_not_mem t ht c hc]

/-- The partition does not split states that say the same of every text. This is the invariant of
the refinement. -/
private def KeepsTogether (d : Dfa) (L : Leaders) : Prop :=
  ∀ s ∈ d.states, ∀ t ∈ d.states, d.verdict s = d.verdict t → L.get? s = L.get? t

private theorem keepsTogether_refine (hd : d.IsTotal) (hL : L.IsPartition d)
    (h : KeepsTogether d L) : KeepsTogether d (d.refine L) := by
  intro s hs t ht hverdict
  refine (get?_refine_eq_iff hL hs ht).mpr ⟨h s hs t ht hverdict, fun c _ => ?_⟩
  have hs' := hd.step_mem s hs c
  have ht' := hd.step_mem t ht c
  exact (hL.leader_eq_iff hs' ht').mpr (h _ hs' _ ht' (verdict_step_eq hverdict c))

private theorem keepsTogether_leaders (hd : d.IsTotal) : KeepsTogether d d.leaders := by
  have hcoarsest : KeepsTogether d d.coarsest := fun s hs t ht h =>
    (get?_groupBy_eq_iff hs ht).mpr (congrFun h [])
  exact (saturate_induction (P := fun L : Leaders => L.IsPartition d ∧ KeepsTogether d L)
    (fun L h => ⟨isPartition_refine d L, keepsTogether_refine hd h.1 h.2⟩) _ _
    ⟨isPartition_groupBy d _, hcoarsest⟩).2

/-- Classes are sets of equivalent states. Two states of a total automaton are in one class if and
only if they say the same of every text. -/
theorem get?_leaders_eq_iff (hd : d.IsTotal) (hs : s ∈ d.states) (ht : t ∈ d.states) :
    d.leaders.get? s = d.leaders.get? t ↔ d.verdict s = d.verdict t := by
  refine ⟨fun h => funext fun text => ?_, keepsTogether_leaders hd s hs t ht⟩
  induction text generalizing s t with
  | nil => exact verdict_eq_iff.mpr (verdict_eq_of_leaders hs ht h)
  | cons c text ih =>
    exact ih (hd.step_mem s hs c) (hd.step_mem t ht c) (get?_step_leaders hd hs ht h c)

end Dfa

end Recognizer
