import Mathlib.Data.List.ProdSigma
import Recognizer.Dfa.Marking
import Recognizer.Proofs.Dfa.Classes
import Recognizer.Proofs.Dfa.Expressions
import Recognizer.Proofs.Iteration.Termination

/-!
# Marked pairs are what texts tell apart

A pair that is marked distinct is told apart by some text, at every moment of the marking, whatever
was entered before its time. An equivalent pair need not be right before the sweeps. But the table
then holds all pairs of states, and after the last sweep every character leads an equivalent pair to
an equivalent one. So no text tells its states apart.

The recursion enters a pair before it goes deeper and never removes one, so it is not deeper than
there are pairs. A larger depth does not change what it finds.

## Main definitions

* `Dfa.IsSound`: what holds of the table while pairs are marked.
* `Dfa.missing`: the pairs that are not in the table.
* `Dfa.Marks`, `Dfa.EndsWithin`: what the recursion for a pair does, and when it ends.
* `Dfa.IsSettled`: what holds of the table after the sweeps.

## Main results

* `Dfa.exists_mark`, `Dfa.mark_mono`: the recursion ends, and depends on no bound.
* `Dfa.isSound_sweep`, `Dfa.sweep_settle`: one sweep, and the end of the sweeps.
* `Dfa.IsSettled.isEquivalent_iff`: pairs are marked equivalent if no text tells them apart.
* `Dfa.isSettled_pairTable`, `Dfa.pairTableWithin_eq`: the table of all pairs.
* `Dfa.isEquivalent_pairTable_ofExpr_iff`: the table of the automaton of an expression.
-/

namespace Recognizer

open Regex (Expr Leaf)

/-! ### Pairs -/

namespace StatePair

variable {a b a' b' : StateId}

theorem of_eq_or (a b : StateId) : of a b = ⟨a, b⟩ ∨ of a b = ⟨b, a⟩ := by
  rw [of]
  split
  · exact Or.inl rfl
  · exact Or.inr rfl

theorem of_comm (a b : StateId) : of a b = of b a := by
  cases h : compare a b with
  | lt => simp [of, h, Std.OrientedCmp.gt_of_lt h]
  | eq => rw [Std.LawfulEqCmp.eq_of_compare h]
  | gt => simp [of, h, Std.OrientedCmp.lt_of_gt h]

theorem of_inj (h : of a b = of a' b') : a = a' ∧ b = b' ∨ a = b' ∧ b = a' := by
  rcases of_eq_or a b with hab | hab <;> rcases of_eq_or a' b' with hab' | hab' <;>
    · rw [hab, hab', mk.injEq] at h
      simp [h]

end StatePair

theorem PairTable.isEquivalent_iff {t : PairTable} {a b : StateId} :
    t.IsEquivalent a b ↔ a = b ∨ t.get? (.of a b) = some .equivalent := by
  rw [IsEquivalent, marking]
  by_cases hne : a = b
  · simp [hne]
  · rw [if_neg hne]
    cases t.get? (.of a b) with
    | none => simp [hne]
    | some m => simp [hne]

namespace Dfa

variable {d : Dfa} {t t' : PairTable} {a b : StateId} {m : Marking} {p : StatePair} {depth : Nat}

/-! ### Sound tables -/

/-- Only pairs of different states are in the table. Those that are marked distinct are told apart
by some text, and those that are marked equivalent have the same acceptance and tag. -/
structure IsSound (d : Dfa) (t : PairTable) : Prop where
  pair : ∀ p m, t.get? p = some m → ∃ a ∈ d.states, ∃ b ∈ d.states, a ≠ b ∧ p = .of a b
  distinct : ∀ a b, t.get? (.of a b) = some .distinct → d.verdict a ≠ d.verdict b
  equivalent : ∀ a b, t.get? (.of a b) = some .equivalent → d.initialMarking a b = .equivalent

theorem initialMarking_comm (d : Dfa) (a b : StateId) :
    d.initialMarking a b = d.initialMarking b a := by
  simp only [initialMarking, eq_comm, Iff.comm]

theorem initialMarking_eq_equivalent_iff :
    d.initialMarking a b = .equivalent ↔ d.verdict a [] = d.verdict b [] := by
  rw [verdict_eq_iff, initialMarking]
  simp [run_nil]

theorem isSound_empty (d : Dfa) : d.IsSound ∅ := by
  constructor <;> simp

theorem IsSound.insert (h : d.IsSound t) (ha : a ∈ d.states) (hb : b ∈ d.states) (hne : a ≠ b)
    (hdistinct : m = .distinct → d.verdict a ≠ d.verdict b)
    (hequivalent : m = .equivalent → d.initialMarking a b = .equivalent) :
    d.IsSound (t.insert (.of a b) m) := by
  refine ⟨fun p m' hget => ?_, fun a' b' hget => ?_, fun a' b' hget => ?_⟩ <;>
    rw [SortedMap.get?_insert] at hget <;> split at hget
  · next hp => exact ⟨a, ha, b, hb, hne, hp⟩
  · exact h.pair p m' hget
  · next heq =>
    have hverdict := hdistinct (Option.some.inj hget)
    rcases StatePair.of_inj heq with ⟨rfl, rfl⟩ | ⟨rfl, rfl⟩
    · exact hverdict
    · exact hverdict.symm
  · exact h.distinct a' b' hget
  · next heq =>
    have hinitial := hequivalent (Option.some.inj hget)
    rcases StatePair.of_inj heq with ⟨rfl, rfl⟩ | ⟨rfl, rfl⟩
    · exact hinitial
    · rwa [initialMarking_comm]
  · exact h.equivalent a' b' hget

/-! ### Missing pairs -/

/-- The pairs of states that are not in the table. Their number bounds the depth of the recursion,
since each level of it enters one of them. -/
def missing (d : Dfa) (t : PairTable) : List StatePair :=
  ((d.states.toList ×ˢ d.states.toList).map fun e => .of e.1 e.2).filter
    fun p => (t.get? p).isNone

theorem length_missing_lt (d : Dfa) (t : PairTable) : (d.missing t).length < d.depthBound := by
  refine Nat.lt_succ_of_le ((List.length_filter_le _ _).trans (Nat.le_of_eq ?_))
  rw [List.length_map, List.length_product]
  rfl

/-- All pairs of the one table are in the other. The recursion changes markings, but it never takes
a pair out. -/
def Keeps (t t' : PairTable) : Prop := ∀ p, (t.get? p).isSome → (t'.get? p).isSome

theorem Keeps.refl (t : PairTable) : Keeps t t := fun _ h => h

theorem Keeps.trans {t'' : PairTable} (h : Keeps t t') (h' : Keeps t' t'') : Keeps t t'' :=
  fun p hp => h' p (h p hp)

theorem keeps_insert (t : PairTable) (p : StatePair) (m : Marking) : Keeps t (t.insert p m) := by
  intro q hq
  rw [SortedMap.get?_insert]
  split
  · rfl
  · exact hq

theorem Keeps.length_missing_le (h : Keeps t t') :
    (d.missing t').length ≤ (d.missing t).length := by
  refine (List.monotone_filter_right _ fun p hp => ?_).length_le
  rw [Option.isNone_iff_eq_none] at hp ⊢
  by_contra hsome
  have := h p (Option.isSome_iff_ne_none.mpr hsome)
  rw [hp] at this
  cases this

theorem length_missing_insert_lt (ha : a ∈ d.states) (hb : b ∈ d.states)
    (hget : t.get? (.of a b) = none) (m : Marking) :
    (d.missing (t.insert (.of a b) m)).length < (d.missing t).length := by
  have hfilter : d.missing (t.insert (.of a b) m) =
      (d.missing t).filter fun p => p ≠ .of a b := by
    rw [missing, missing, List.filter_filter]
    refine List.filter_congr fun p _ => ?_
    rw [SortedMap.get?_insert]
    by_cases hp : p = .of a b <;> simp [hp]
  have hmem : StatePair.of a b ∈ d.missing t := by
    refine List.mem_filter.mpr ⟨List.mem_map.mpr ⟨(a, b), List.mem_product.mpr ⟨ha, hb⟩, rfl⟩, ?_⟩
    rw [hget]
    rfl
  rw [hfilter, List.length_filter_lt_length_iff_exists]
  exact ⟨_, hmem, by simp⟩

/-! ### The recursion -/

/-- The recursion for two states ends with a marking and a table: the table is sound, holds what was
there before and the pair itself, and a pair marked distinct is told apart by some text. -/
structure Marks (d : Dfa) (t : PairTable) (a b : StateId) (r : Marking × PairTable) : Prop where
  isSound : d.IsSound r.2
  keeps : Keeps t r.2
  distinct : r.1 = .distinct → d.verdict a ≠ d.verdict b
  entered : a ≠ b → (r.2.get? (.of a b)).isSome

/-- The recursion that `mark` stands for ends if less than so many pairs are missing. It is what the
recursion for a pair takes for granted of the pairs one level deeper. -/
def EndsWithin (d : Dfa) (depth : Nat)
    (mark : PairTable → StateId → StateId → Option (Marking × PairTable)) : Prop :=
  ∀ t a b, d.IsSound t → a ∈ d.states → b ∈ d.states → (d.missing t).length < depth →
    ∃ r, mark t a b = some r ∧ d.Marks t a b r

variable {mark mark' : PairTable → StateId → StateId → Option (Marking × PairTable)}
  {r : Marking × PairTable} {cs : List Char}

/-- The pairs that some characters lead to are marked one after the other. -/
theorem exists_markSuccessors (hd : d.IsTotal) (hmark : d.EndsWithin depth mark)
    (ht : d.IsSound t) (ha : a ∈ d.states) (hb : b ∈ d.states) (hne : a ≠ b)
    (hentered : (t.get? (.of a b)).isSome) (hdepth : (d.missing t).length < depth)
    (cs : List Char) : ∃ r, d.markSuccessors mark a b cs t = some r ∧ d.Marks t a b r := by
  induction cs generalizing t with
  | nil => exact ⟨(.equivalent, t), rfl, ht, .refl t, nofun, fun _ => hentered⟩
  | cons c cs ih =>
    obtain ⟨⟨m, t₁⟩, heq, hmarks⟩ := hmark t (d.step a c) (d.step b c) ht (hd.step_mem a ha c)
      (hd.step_mem b hb c) hdepth
    have hentered₁ := hmarks.keeps _ hentered
    rw [markSuccessors, heq]
    cases m with
    | distinct =>
      have hverdict : d.verdict a ≠ d.verdict b := fun h =>
        hmarks.distinct rfl (verdict_step_eq h c)
      refine ⟨_, rfl, ?_, ?_, fun _ => hverdict, fun _ => keeps_insert _ _ _ _ hentered₁⟩
      · exact hmarks.isSound.insert ha hb hne (fun _ => hverdict) nofun
      · exact hmarks.keeps.trans (keeps_insert _ _ _)
    | equivalent =>
      obtain ⟨r, hr, hmarks'⟩ := ih hmarks.isSound hentered₁
        (hmarks.keeps.length_missing_le.trans_lt hdepth)
      exact ⟨r, hr, hmarks'.isSound, hmarks.keeps.trans hmarks'.keeps, hmarks'.distinct,
        hmarks'.entered⟩

/-- The recursion ends if less pairs are missing than it may go deep, and it leaves a sound
table. -/
theorem exists_mark (hd : d.IsTotal) (depth : Nat) : d.EndsWithin depth (d.mark depth) := by
  induction depth with
  | zero => exact fun t a b _ _ _ hdepth => absurd hdepth (Nat.not_lt_zero _)
  | succ depth ih =>
    intro t a b ht ha hb hdepth
    rw [mark]
    by_cases hne : a = b
    · rw [if_pos hne]
      exact ⟨_, rfl, ht, .refl t, nofun, fun h => absurd hne h⟩
    · rw [if_neg hne]
      cases hget : t.get? (.of a b) with
      | some m =>
        refine ⟨(m, t), rfl, ht, .refl t, ?_, fun _ => Option.isSome_of_eq_some hget⟩
        rintro rfl
        exact ht.distinct a b hget
      | none =>
        have hentered (m : Marking) : ((t.insert (.of a b) m).get? (.of a b)).isSome := by
          rw [SortedMap.get?_insert, if_pos rfl]
          rfl
        cases hm : d.initialMarking a b with
        | distinct =>
          have hverdict : d.verdict a ≠ d.verdict b := by
            intro h
            rw [initialMarking_eq_equivalent_iff.mpr (congrFun h [])] at hm
            cases hm
          exact ⟨_, rfl, ht.insert ha hb hne (fun _ => hverdict) nofun, keeps_insert _ _ _,
            fun _ => hverdict, fun _ => hentered _⟩
        | equivalent =>
          have hmissing := length_missing_insert_lt ha hb hget .equivalent
          obtain ⟨r, hr, hmarks⟩ := exists_markSuccessors hd ih
            (ht.insert (m := .equivalent) ha hb hne nofun fun _ => hm) ha hb hne (hentered _)
            (by omega) d.alphabet.toList
          exact ⟨r, hr, hmarks.isSound, (keeps_insert _ _ _).trans hmarks.keeps,
            hmarks.distinct, hmarks.entered⟩

/-! ### The depth does not matter -/

theorem markSuccessors_mono (hmark : ∀ t a b r, mark t a b = some r → mark' t a b = some r)
    (h : d.markSuccessors mark a b cs t = some r) : d.markSuccessors mark' a b cs t = some r := by
  induction cs generalizing t with
  | nil => exact h
  | cons c cs ih =>
    rw [markSuccessors] at h ⊢
    cases hr : mark t (d.step a c) (d.step b c) with
    | none =>
      rw [hr] at h
      cases h
    | some r₁ =>
      rw [hr] at h
      rw [hmark _ _ _ _ hr]
      obtain ⟨m, t₁⟩ := r₁
      cases m with
      | distinct => exact h
      | equivalent => exact ih h

/-- What the recursion finds within some depth, it finds within any larger one. -/
theorem mark_mono {depth' : Nat} (h : d.mark depth t a b = some r) (hdepth : depth ≤ depth') :
    d.mark depth' t a b = some r := by
  induction depth generalizing depth' t a b r with
  | zero => cases h
  | succ depth ih =>
    cases depth' with
    | zero => exact absurd hdepth (Nat.not_succ_le_zero depth)
    | succ depth' =>
      rw [mark] at h ⊢
      by_cases hne : a = b
      · rwa [if_pos hne] at h ⊢
      · rw [if_neg hne] at h ⊢
        cases hget : t.get? (.of a b) with
        | some m => rwa [hget] at h
        | none =>
          rw [hget] at h
          cases hm : d.initialMarking a b with
          | distinct =>
            rw [hm] at h
            exact h
          | equivalent =>
            rw [hm] at h
            exact markSuccessors_mono (fun t a b r hr => ih hr (Nat.le_of_succ_le_succ hdepth)) h

/-! ### All pairs -/

theorem mem_of_mem_statePairs {states : List StateId} (h : (a, b) ∈ statePairs states) :
    a ∈ states ∧ b ∈ states := by
  induction states with
  | nil => cases h
  | cons s states ih =>
    rw [statePairs, List.mem_append, List.mem_map] at h
    rcases h with ⟨b', hb', heq⟩ | h
    · obtain ⟨rfl, rfl⟩ := Prod.mk.inj heq
      exact ⟨List.mem_cons_self, List.mem_cons_of_mem _ hb'⟩
    · obtain ⟨ha, hb⟩ := ih h
      exact ⟨List.mem_cons_of_mem _ ha, List.mem_cons_of_mem _ hb⟩

theorem mem_statePairs_or {states : List StateId} (ha : a ∈ states) (hb : b ∈ states)
    (hne : a ≠ b) : (a, b) ∈ statePairs states ∨ (b, a) ∈ statePairs states := by
  induction states with
  | nil => cases ha
  | cons s states ih =>
    rw [statePairs, List.mem_append, List.mem_append, List.mem_map, List.mem_map]
    rcases List.mem_cons.mp ha with rfl | ha'
    · have hb' := (List.mem_cons.mp hb).resolve_left hne.symm
      exact Or.inl (Or.inl ⟨b, hb', rfl⟩)
    · rcases List.mem_cons.mp hb with rfl | hb'
      · exact Or.inr (Or.inl ⟨a, ha', rfl⟩)
      · exact (ih ha' hb').imp Or.inr Or.inr

/-- All pairs of different states are in the table. The sweeps need this, because a pair that is
missing counts as distinct. -/
def IsComplete (d : Dfa) (t : PairTable) : Prop :=
  ∀ a ∈ d.states, ∀ b ∈ d.states, a ≠ b → (t.get? (.of a b)).isSome

private theorem exists_foldlM_mark (hd : d.IsTotal) (ht : d.IsSound t)
    (hdepth : (d.missing t).length < depth) {pairs : List (StateId × StateId)}
    (hpairs : ∀ e ∈ pairs, e.1 ∈ d.states ∧ e.2 ∈ d.states) :
    ∃ t', pairs.foldlM (fun table e => Prod.snd <$> d.mark depth table e.1 e.2) t = some t' ∧
      d.IsSound t' ∧ Keeps t t' ∧ ∀ e ∈ pairs, e.1 ≠ e.2 → (t'.get? (.of e.1 e.2)).isSome := by
  induction pairs generalizing t with
  | nil => exact ⟨t, rfl, ht, .refl t, List.forall_mem_nil _⟩
  | cons e pairs ih =>
    obtain ⟨⟨ha, hb⟩, hpairs⟩ := List.forall_mem_cons.mp hpairs
    obtain ⟨r, hr, hmarks⟩ := exists_mark hd depth t e.1 e.2 ht ha hb hdepth
    obtain ⟨t', ht', hsound, hkeeps, hentered⟩ :=
      ih hmarks.isSound (hmarks.keeps.length_missing_le.trans_lt hdepth) hpairs
    refine ⟨t', ?_, hsound, hmarks.keeps.trans hkeeps, List.forall_mem_cons.mpr ⟨?_, hentered⟩⟩
    · rw [List.foldlM_cons, hr]
      exact ht'
    · exact fun hne => hkeeps _ (hmarks.entered hne)

/-- The recursion for all pairs ends, and then all pairs are in the table. -/
theorem exists_markAll (hd : d.IsTotal) :
    ∃ t, d.markAll d.depthBound = some t ∧ d.IsSound t ∧ d.IsComplete t := by
  have hpairs : ∀ e ∈ statePairs d.states.toList, e.1 ∈ d.states ∧ e.2 ∈ d.states :=
    fun e he => mem_of_mem_statePairs he
  obtain ⟨t, heq, hsound, -, hentered⟩ :=
    exists_foldlM_mark hd (isSound_empty d) (length_missing_lt d ∅) hpairs
  refine ⟨t, heq, hsound, fun a ha b hb hne => ?_⟩
  rcases mem_statePairs_or ha hb hne with h | h
  · exact hentered (a, b) h hne
  · rw [StatePair.of_comm]
    exact hentered (b, a) h hne.symm

theorem markAll_mono {depth' : Nat} (h : d.markAll depth = some t) (hdepth : depth ≤ depth') :
    d.markAll depth' = some t := by
  rw [markAll] at h ⊢
  generalize statePairs d.states.toList = pairs at h ⊢
  generalize (∅ : PairTable) = start at h ⊢
  induction pairs generalizing start with
  | nil => exact h
  | cons e pairs ih =>
    rw [List.foldlM_cons, Option.bind_eq_bind, Option.bind_eq_some_iff] at h ⊢
    obtain ⟨t₁, ht₁, h⟩ := h
    obtain ⟨r, hr, rfl⟩ := Option.map_eq_some_iff.mp ht₁
    exact ⟨r.2, Option.map_eq_some_iff.mpr ⟨r, mark_mono hr hdepth, rfl⟩, ih r.2 h⟩

/-! ### The sweeps -/

theorem leadsApart_of_iff : d.LeadsApart t (.of a b) ↔
    ∃ c ∈ d.alphabet, d.step a c ≠ d.step b c ∧
      t.get? (.of (d.step a c) (d.step b c)) = some .distinct := by
  rcases StatePair.of_eq_or a b with h | h
  · rw [h]
    rfl
  · rw [h, LeadsApart]
    refine exists_congr fun c => and_congr_right fun _ => ?_
    rw [StatePair.of_comm (d.step a c), ne_comm]

theorem get?_sweep (d : Dfa) (t : PairTable) (p : StatePair) :
    (d.sweep t).get? p = (t.get? p).map fun m =>
      if m = .equivalent ∧ d.LeadsApart t p then .distinct else m :=
  SortedMap.get?_mapWithKey ..

theorem get?_sweep_eq_equivalent_iff : (d.sweep t).get? p = some .equivalent ↔
    t.get? p = some .equivalent ∧ ¬ d.LeadsApart t p := by
  rw [get?_sweep, Option.map_eq_some_iff]
  constructor
  · rintro ⟨m, hm, heq⟩
    split at heq
    · cases heq
    · next h =>
      subst heq
      exact ⟨hm, fun hleads => h ⟨rfl, hleads⟩⟩
  · rintro ⟨hm, hleads⟩
    exact ⟨_, hm, if_neg fun h => hleads h.2⟩

theorem get?_sweep_eq_distinct_iff : (d.sweep t).get? p = some .distinct ↔
    t.get? p = some .distinct ∨ t.get? p = some .equivalent ∧ d.LeadsApart t p := by
  rw [get?_sweep, Option.map_eq_some_iff]
  constructor
  · rintro ⟨m, hm, heq⟩
    split at heq
    · next h => exact Or.inr ⟨h.1 ▸ hm, h.2⟩
    · exact Or.inl (heq ▸ hm)
  · rintro (hm | ⟨hm, hleads⟩)
    · exact ⟨_, hm, by simp⟩
    · exact ⟨_, hm, if_pos ⟨rfl, hleads⟩⟩

/-- A sweep marks nothing distinct but what some text tells apart. -/
theorem isSound_sweep (ht : d.IsSound t) : d.IsSound (d.sweep t) where
  pair p m hget := by
    rw [get?_sweep] at hget
    obtain ⟨m', hm', -⟩ := Option.map_eq_some_iff.mp hget
    exact ht.pair p m' hm'
  distinct a b hget := by
    rcases get?_sweep_eq_distinct_iff.mp hget with hget | ⟨-, hleads⟩
    · exact ht.distinct a b hget
    · obtain ⟨c, -, -, hstep⟩ := leadsApart_of_iff.mp hleads
      exact fun h => ht.distinct _ _ hstep (verdict_step_eq h c)
  equivalent a b hget := ht.equivalent a b (get?_sweep_eq_equivalent_iff.mp hget).1

theorem keys_sweep (d : Dfa) (t : PairTable) : (d.sweep t).keys = t.keys := by
  refine SortedSet.ext fun p => ?_
  rw [SortedMap.mem_keys, SortedMap.mem_keys, get?_sweep, Option.isSome_map]

/-- The pairs that are marked distinct. Each sweep but the last makes them more. -/
def distinctPairs (keys : SortedSet StatePair) (t : PairTable) : List StatePair :=
  keys.toList.filter fun p => t.get? p = some .distinct

private theorem sweep_eq_self (h : distinctPairs t.keys (d.sweep t) = distinctPairs t.keys t) :
    d.sweep t = t := by
  refine SortedMap.ext fun p => ?_
  cases hget : t.get? p with
  | none => rw [get?_sweep, hget, Option.map_none]
  | some m =>
    rw [get?_sweep, hget, Option.map_some]
    refine congrArg some (if_neg ?_)
    rintro ⟨rfl, hleads⟩
    have hkey : p ∈ t.keys := SortedMap.mem_keys.mpr (Option.isSome_of_eq_some hget)
    have hmem : p ∈ distinctPairs t.keys (d.sweep t) := List.mem_filter.mpr
      ⟨hkey, decide_eq_true (get?_sweep_eq_distinct_iff.mpr (Or.inr ⟨hget, hleads⟩))⟩
    rw [h] at hmem
    have hdistinct := of_decide_eq_true (List.mem_filter.mp hmem).2
    rw [hget] at hdistinct
    cases hdistinct

/-- The sweeps come to an end, whatever table they begin with: each but the last marks a pair
distinct that was not. -/
theorem sweep_settle (d : Dfa) (t : PairTable) : d.sweep (d.settle t) = d.settle t := by
  have hsize : t.keys.toList.length = t.size := by
    rw [← SortedMap.map_fst_toList, List.length_map, SortedMap.length_toList]
  refine step_saturate (P := fun t' => t'.keys = t.keys)
    (fun t' => (distinctPairs t.keys t').length) t.size
    (fun t' h => (keys_sweep d t').trans h) (fun t' _ => ?_) (fun t' hkeys hchange => ?_) _ _ rfl
    (by omega)
  · exact hsize ▸ List.length_filter_le _ _
  · have hsublist : (distinctPairs t.keys t').Sublist (distinctPairs t.keys (d.sweep t')) := by
      refine List.monotone_filter_right _ fun p hp => ?_
      exact decide_eq_true (get?_sweep_eq_distinct_iff.mpr (Or.inl (of_decide_eq_true hp)))
    by_contra hle
    refine hchange (sweep_eq_self ?_)
    rw [hkeys]
    exact (hsublist.eq_of_length_le (Nat.le_of_not_lt hle)).symm

/-- A sound table of all pairs of states that a sweep does not change. Such a table marks a pair
equivalent just if no text tells its states apart. -/
structure IsSettled (d : Dfa) (t : PairTable) : Prop extends IsSound d t where
  complete : d.IsComplete t
  sweep_eq : d.sweep t = t

/-- After the sweeps, a sound table of all pairs is settled. -/
theorem isSettled_settle (hsound : d.IsSound t) (hcomplete : d.IsComplete t) :
    d.IsSettled (d.settle t) := by
  have hboth : d.IsSound (d.settle t) ∧ d.IsComplete (d.settle t) := by
    refine saturate_induction (P := fun t => d.IsSound t ∧ d.IsComplete t)
      (fun t h => ⟨isSound_sweep h.1, fun a ha b hb hne => ?_⟩) _ _ ⟨hsound, hcomplete⟩
    rw [get?_sweep, Option.isSome_map]
    exact h.2 a ha b hb hne
  exact ⟨hboth.1, hboth.2, sweep_settle d t⟩

/-! ### Settled tables -/

namespace IsSettled

/-- Every character leads equivalent states to equivalent states. If it did not, one more sweep
would mark the pair distinct. -/
theorem isEquivalent_step (h : d.IsSettled t) (hd : d.IsTotal) (ha : a ∈ d.states)
    (hb : b ∈ d.states) (hab : t.IsEquivalent a b) (c : Char) :
    t.IsEquivalent (d.step a c) (d.step b c) := by
  rw [PairTable.isEquivalent_iff] at hab ⊢
  by_cases hc : c ∈ d.alphabet
  · rcases hab with rfl | hab
    · exact Or.inl rfl
    · rw [← h.sweep_eq] at hab
      have hleads := (get?_sweep_eq_equivalent_iff.mp hab).2
      by_contra hnot
      rw [not_or] at hnot
      obtain ⟨m, hm⟩ := Option.isSome_iff_exists.mp
        (h.complete _ (hd.step_mem a ha c) _ (hd.step_mem b hb c) hnot.1)
      cases m with
      | equivalent => exact hnot.2 hm
      | distinct => exact hleads (leadsApart_of_iff.mpr ⟨c, hc, hnot.1, hm⟩)
  · rw [hd.step_of_not_mem a ha c hc, hd.step_of_not_mem b hb c hc]
    exact Or.inl rfl

/-- Marked pairs are the equivalent ones. In a settled table, states are marked equivalent if and
only if they say the same of every text. -/
theorem isEquivalent_iff (h : d.IsSettled t) (hd : d.IsTotal) (ha : a ∈ d.states)
    (hb : b ∈ d.states) : t.IsEquivalent a b ↔ d.verdict a = d.verdict b := by
  constructor
  · intro hab
    funext text
    induction text generalizing a b with
    | nil =>
      rcases PairTable.isEquivalent_iff.mp hab with rfl | hab
      · rfl
      · exact initialMarking_eq_equivalent_iff.mp (h.equivalent a b hab)
    | cons c text ih =>
      exact ih (hd.step_mem a ha c) (hd.step_mem b hb c) (h.isEquivalent_step hd ha hb hab c)
  · intro hverdict
    rw [PairTable.isEquivalent_iff]
    by_cases hne : a = b
    · exact Or.inl hne
    · obtain ⟨m, hm⟩ := Option.isSome_iff_exists.mp (h.complete a ha b hb hne)
      cases m with
      | equivalent => exact Or.inr hm
      | distinct => exact absurd hverdict (h.distinct a b hm)

end IsSettled

/-! ### The table of all pairs -/

private theorem exists_pairTable_eq (hd : d.IsTotal) :
    ∃ t, d.markAll d.depthBound = some t ∧ d.pairTable = d.settle t ∧ d.IsSettled d.pairTable := by
  obtain ⟨t, ht, hsound, hcomplete⟩ := exists_markAll hd
  have htable : d.pairTable = d.settle t := by
    rw [pairTable, pairTableWithin, ht]
    rfl
  refine ⟨t, ht, htable, ?_⟩
  rw [htable]
  exact isSettled_settle hsound hcomplete

/-- The recursion stays within every depth from the bound on, and the depth does not matter. -/
theorem pairTableWithin_eq (hd : d.IsTotal) (hdepth : d.depthBound ≤ depth) :
    d.pairTableWithin depth = some d.pairTable := by
  obtain ⟨t, ht, htable, -⟩ := exists_pairTable_eq hd
  rw [pairTableWithin, markAll_mono ht hdepth, htable]
  rfl

theorem isSettled_pairTable (hd : d.IsTotal) : d.IsSettled d.pairTable := by
  obtain ⟨-, -, -, hsettled⟩ := exists_pairTable_eq hd
  exact hsettled

/-- The table of the automaton of an expression. The recursion for the pairs of states ends within a
bound, and any larger one leads to the same table. The sweeps end, whatever table they begin with.
Two states are marked equivalent in the end if and only if after every text both accept or both
reject, with the same tag or both without one. -/
theorem isEquivalent_pairTable_ofExpr_iff (e : Expr Leaf) :
    (∀ depth, (ofExpr e).depthBound ≤ depth →
        (ofExpr e).pairTableWithin depth = some (ofExpr e).pairTable) ∧
      (∀ t, Settles (ofExpr e).sweep t ((ofExpr e).settle t)) ∧
      ∀ a ∈ (ofExpr e).states, ∀ b ∈ (ofExpr e).states,
        (ofExpr e).pairTable.IsEquivalent a b ↔ ∀ text : List Char,
          ((ofExpr e).Accepting ((ofExpr e).run a text) ↔
            (ofExpr e).Accepting ((ofExpr e).run b text)) ∧
          (ofExpr e).tag? ((ofExpr e).run a text) = (ofExpr e).tag? ((ofExpr e).run b text) := by
  have hd := isTotal_ofExpr e
  refine ⟨fun depth => pairTableWithin_eq hd, fun t => settles_saturate (sweep_settle _ t),
    fun a ha b hb => ?_⟩
  rw [(isSettled_pairTable hd).isEquivalent_iff hd ha hb, funext_iff]
  exact forall_congr' fun text => verdict_eq_iff

end Dfa

end Recognizer
