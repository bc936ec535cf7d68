import Recognizer.Proofs.LR.Existence
import Recognizer.Proofs.LR.ItemMaps

/-!
# The item sets as a worklist

The automaton of a grammar is found by a worklist: a list of item sets, which grows at its end while
an index goes through it. For each symbol after a dot of the set at the index, the set after this
symbol is put at the end of the list unless it is there, and its place is recorded. The work is done
when the index has come to the end of the list.

The list never has an item set twice, and all its sets are maps from items of the grammar to sets of
lookaheads. There are finitely many of these, so the index comes to the end. What it leaves behind
is the automaton, or the error at which the work has stopped.

## Main definitions

* `Worklist`, `Worklist.Steps`: the state of the loops, and one step of them.
* `Worklist.Ends`: the work has come to an end, with item sets or with an error.
* `Worklist.Sound`: what is true of the sets and the transitions that have been found.
* `Automaton.IsBounded`: the states are maps of the grammar, and no more than there are.
* `ConstructionEnds`: the construction of the automaton ends.

## Main results

* `Worklist.Sound.step`: what every step keeps up.
* `Worklist.Sound.acc`: every sequence of steps comes to an end.
* `Worklist.exists_ends_of_explores`: the worklist finds what an exploration level by level finds.
* `exists_worklist`: the work ends with the automaton that is constructed.
* `construction_ends`: all loops.
-/

namespace Recognizer.LR

open Relation (ReflTransGen)
open Automaton (Leads startSet successors construct mem_symbolsAfterDot leads_of_edge)

/-- The loops that look for item sets, between two steps. -/
structure Worklist where
  /-- The item sets that have been found, in this order. -/
  sets : List ItemSet
  /-- The transitions that have been found: a place in the list, a symbol, and another place. -/
  transitions : List (Nat × Symbol × Nat)
  /-- The place of the set that is at its turn. -/
  index : Nat
  /-- This set with the symbols that have not been tried, once they have been looked up. -/
  current : Option (ItemSet × List Symbol)

namespace Worklist

variable {g : Grammar} {a : Automaton} {w v : Worklist} {s t : ItemSet}
  {sets level : List ItemSet} {index : Nat} {symbols : List Symbol}
  {transitions : List (Nat × Symbol × Nat)} {seen : Std.ExtTreeSet ItemSet.Key}
  {cause : GrammarError}

/-- The worklist before the first step. -/
def start (s : ItemSet) : Worklist := ⟨[s], [], 0, none⟩

/-- The list with the set at its end, unless the set is in the list. -/
def insert (sets : List ItemSet) (t : ItemSet) : List ItemSet :=
  if t ∈ sets then sets else sets ++ [t]

/-- One step: the symbols of the set at the index are looked up, the first of them is followed, or
the index goes on. -/
inductive Steps (g : Grammar) : Worklist → Worklist → Prop
  | enter {sets : List ItemSet} {transitions : List (Nat × Symbol × Nat)} {index : Nat}
      {s : ItemSet} (hs : sets[index]? = some s) :
      Steps g ⟨sets, transitions, index, none⟩
        ⟨sets, transitions, index, some (s, s.symbolsAfterDot.toList)⟩
  | follow {sets : List ItemSet} {transitions : List (Nat × Symbol × Nat)} {index : Nat}
      {s t : ItemSet} {X : Symbol} {symbols : List Symbol}
      (ht : s.goto g g.firstSets X = .ok t) :
      Steps g ⟨sets, transitions, index, some (s, X :: symbols)⟩
        ⟨insert sets t, transitions ++ [(index, X, (insert sets t).idxOf t)], index,
          some (s, symbols)⟩
  | leave {sets : List ItemSet} {transitions : List (Nat × Symbol × Nat)} {index : Nat}
      {s : ItemSet} :
      Steps g ⟨sets, transitions, index, some (s, [])⟩ ⟨sets, transitions, index + 1, none⟩

/-- The worklist has come to an end: the index is at the end of the list, or a symbol cannot be
followed. -/
inductive Ends (g : Grammar) (w : Worklist) : Except GrammarError (List ItemSet) → Prop
  | ok (hcurrent : w.current = none) (hindex : w.index = w.sets.length) : Ends g w (.ok w.sets)
  | error {cause : GrammarError} {s : ItemSet} {X : Symbol} {symbols : List Symbol}
      (hcurrent : w.current = some (s, X :: symbols))
      (hgoto : s.goto g g.firstSets X = .error cause) : Ends g w (.error cause)

theorem Ends.eq_sets (h : w.Ends g (.ok sets)) : w.index = w.sets.length ∧ sets = w.sets := by
  cases h with
  | ok _ hindex => exact ⟨hindex, rfl⟩

/-! ### What every step keeps up -/

/-- The symbol of the set at the place has not been followed yet. -/
def Awaits (w : Worklist) (n : Nat) (X : Symbol) : Prop :=
  w.index < n ∨ w.index = n ∧ ∀ c ∈ w.current, X ∈ c.2

/-- The sets in the list are maps of the grammar, each of them is there once, and the transitions
lead from one to another. No symbol has been left out. This is the invariant of the loops. -/
structure Sound (g : Grammar) (w : Worklist) : Prop where
  mem_itemMaps : ∀ s ∈ w.sets, s ∈ itemMaps g
  nodup : w.sets.Nodup
  index_le : w.index ≤ w.sets.length
  current : ∀ c ∈ w.current, w.sets[w.index]? = some c.1 ∧ ∀ X ∈ c.2, X ∈ c.1.symbolsAfterDot
  leads : ∀ n X m, (n, X, m) ∈ w.transitions →
    ∃ s t, w.sets[n]? = some s ∧ Leads g X s t ∧ w.sets[m]? = some t
  exists_transition : ∀ n s X, w.sets[n]? = some s → X ∈ s.symbolsAfterDot → ¬ w.Awaits n X →
    ∃ m, (n, X, m) ∈ w.transitions

theorem mem_insert : s ∈ insert sets t ↔ s ∈ sets ∨ s = t := by
  rw [insert]
  split
  · next ht => exact ⟨Or.inl, fun h => h.elim id fun heq => heq ▸ ht⟩
  · rw [List.mem_append, List.mem_singleton]

theorem prefix_insert (sets : List ItemSet) (t : ItemSet) : sets <+: insert sets t := by
  rw [insert]
  split
  · exact List.prefix_rfl
  · exact List.prefix_append sets [t]

theorem nodup_insert (h : sets.Nodup) (t : ItemSet) : (insert sets t).Nodup := by
  rw [insert]
  split
  · exact h
  · next ht =>
    rw [← List.concat_eq_append]
    exact h.concat ht

/-- A set is at the place that is recorded for it. -/
theorem getElem?_idxOf_insert (sets : List ItemSet) (t : ItemSet) :
    (insert sets t)[(insert sets t).idxOf t]? = some t := by
  have hlt := List.idxOf_lt_length_of_mem (mem_insert.mpr (Or.inr rfl) : t ∈ insert sets t)
  rw [List.getElem?_eq_getElem hlt, List.getElem_idxOf hlt]

theorem getElem?_insert_of_getElem? {n : Nat} (h : sets[n]? = some s) (t : ItemSet) :
    (insert sets t)[n]? = some s := by
  obtain ⟨more, hmore⟩ := prefix_insert sets t
  rw [← hmore, List.getElem?_append_left (List.getElem?_eq_some_iff.mp h).1, h]

theorem mem_itemMaps_of_leads (h : Leads g X s t) (hs : s ∈ itemMaps g) : t ∈ itemMaps g :=
  mem_itemMaps_iff.mpr (h.isFact (mem_itemMaps_iff.mp hs))

theorem awaits_none_iff {n : Nat} {X : Symbol} :
    Awaits ⟨sets, transitions, index, none⟩ n X ↔ index ≤ n := by
  simp only [Awaits, Option.mem_def, reduceCtorEq, false_implies, implies_true, and_true,
    Nat.le_iff_lt_or_eq]

theorem awaits_some_iff {n : Nat} {X : Symbol} :
    Awaits ⟨sets, transitions, index, some (s, symbols)⟩ n X ↔
      index < n ∨ index = n ∧ X ∈ symbols := by
  simp only [Awaits, Option.mem_def, Option.some.injEq, forall_eq']

theorem sound_start (hs : s ∈ itemMaps g) : (start s).Sound g where
  mem_itemMaps _ h := List.mem_singleton.mp h ▸ hs
  nodup := List.nodup_singleton s
  index_le := Nat.zero_le _
  current := nofun
  leads := nofun
  exists_transition n _ _ _ _ hawaits := absurd (awaits_none_iff.mpr (Nat.zero_le n)) hawaits

/-- When the index comes to a set, all symbols of the set are awaited. -/
private theorem Sound.enter (h : Sound g ⟨sets, transitions, index, none⟩)
    (hs : sets[index]? = some s) :
    Sound g ⟨sets, transitions, index, some (s, s.symbolsAfterDot.toList)⟩ where
  mem_itemMaps := h.mem_itemMaps
  nodup := h.nodup
  index_le := h.index_le
  current c hc := by
    obtain rfl := Option.some.inj hc
    exact ⟨hs, fun X hX => hX⟩
  leads := h.leads
  exists_transition n s' X hs' hX hawaits := by
    refine h.exists_transition n s' X hs' hX fun hbefore => hawaits ?_
    rcases Nat.eq_or_lt_of_le (awaits_none_iff.mp hbefore) with rfl | hlt
    · obtain rfl := Option.some.inj (hs.symm.trans hs')
      exact awaits_some_iff.mpr (Or.inr ⟨rfl, hX⟩)
    · exact awaits_some_iff.mpr (Or.inl hlt)

/-- A symbol that has been followed has its transition, and is not awaited any more. -/
private theorem Sound.follow {X : Symbol}
    (h : Sound g ⟨sets, transitions, index, some (s, X :: symbols)⟩)
    (ht : s.goto g g.firstSets X = .ok t) :
    Sound g ⟨insert sets t, transitions ++ [(index, X, (insert sets t).idxOf t)], index,
      some (s, symbols)⟩ := by
  obtain ⟨hs, hsymbols⟩ := h.current _ rfl
  have hleads : Leads g X s t := ⟨hsymbols X List.mem_cons_self, ht⟩
  have hmaps : t ∈ itemMaps g :=
    mem_itemMaps_of_leads hleads (h.mem_itemMaps s (List.mem_of_getElem? hs))
  constructor
  case mem_itemMaps =>
    exact fun s' hs' => (mem_insert.mp hs').elim (h.mem_itemMaps s') fun heq => heq ▸ hmaps
  case nodup => exact nodup_insert h.nodup t
  case index_le => exact h.index_le.trans (prefix_insert sets t).length_le
  case current =>
    intro c hc
    obtain rfl := Option.some.inj hc
    exact ⟨getElem?_insert_of_getElem? hs t, fun Y hY => hsymbols Y (List.mem_cons_of_mem X hY)⟩
  case leads =>
    intro n Y m hmem
    rcases List.mem_append.mp hmem with hmem | hmem
    · obtain ⟨s', t', hs', hleads', ht'⟩ := h.leads n Y m hmem
      exact ⟨s', t', getElem?_insert_of_getElem? hs' t, hleads', getElem?_insert_of_getElem? ht' t⟩
    · cases List.mem_singleton.mp hmem
      exact ⟨s, t, getElem?_insert_of_getElem? hs t, hleads, getElem?_idxOf_insert sets t⟩
  case exists_transition =>
    intro n s' Y hs' hY hawaits
    rw [awaits_some_iff] at hawaits
    by_cases hnew : n = index ∧ Y = X
    · obtain ⟨rfl, rfl⟩ := hnew
      exact ⟨_, List.mem_append_right _ List.mem_cons_self⟩
    · -- a place in the list before the step, since the index is in it and new sets are awaited
      have hle : n ≤ index := Nat.le_of_not_lt fun hlt => hawaits (Or.inl hlt)
      have hlt : n < sets.length := hle.trans_lt (List.getElem?_eq_some_iff.mp hs).1
      obtain ⟨more, hmore⟩ := prefix_insert sets t
      rw [← hmore, List.getElem?_append_left hlt] at hs'
      have hbefore : ¬ Awaits ⟨sets, transitions, index, some (s, X :: symbols)⟩ n Y := by
        rw [awaits_some_iff, List.mem_cons]
        tauto
      obtain ⟨m, hm⟩ := h.exists_transition n s' Y hs' hY hbefore
      exact ⟨m, List.mem_append_left _ hm⟩

private theorem Sound.leave (h : Sound g ⟨sets, transitions, index, some (s, [])⟩) :
    Sound g ⟨sets, transitions, index + 1, none⟩ where
  mem_itemMaps := h.mem_itemMaps
  nodup := h.nodup
  index_le := (List.getElem?_eq_some_iff.mp (h.current _ rfl).1).1
  current := nofun
  leads := h.leads
  exists_transition n s' X hs' hX hawaits := by
    refine h.exists_transition n s' X hs' hX fun hbefore => hawaits (awaits_none_iff.mpr ?_)
    rcases awaits_some_iff.mp hbefore with hlt | ⟨-, hX⟩
    · exact hlt
    · exact absurd hX List.not_mem_nil

/-- Steps keep the worklist sound. -/
theorem Sound.step (h : w.Sound g) (hstep : Steps g w v) : v.Sound g := by
  cases hstep with
  | enter hs => exact h.enter hs
  | follow ht => exact h.follow ht
  | leave => exact h.leave

theorem Sound.of_reaches (h : w.Sound g) (hpath : ReflTransGen (Steps g) w v) : v.Sound g := by
  induction hpath with
  | refl => exact h
  | tail _ hstep ih => exact ih.step hstep

/-! ### Every sequence of steps ends -/

/-- The list is no longer than the number of maps. -/
theorem Sound.length_le (h : w.Sound g) : w.sets.length ≤ (itemMaps g).ncard :=
  length_le_ncard_itemMaps h.nodup h.mem_itemMaps

theorem Sound.index_lt (h : w.Sound g) (hstep : Steps g w v) : w.index < w.sets.length := by
  cases hstep with
  | enter hs => exact (List.getElem?_eq_some_iff.mp hs).1
  | follow _ => exact (List.getElem?_eq_some_iff.mp (h.current _ rfl).1).1
  | leave => exact (List.getElem?_eq_some_iff.mp (h.current _ rfl).1).1

/-- Until the index goes on, the symbols become fewer. -/
private theorem acc_current
    (hnext : ∀ w, w.Sound g → w.index = index + 1 → Acc (fun v w => Steps g w v) w)
    (h : Sound g ⟨sets, transitions, index, some (s, symbols)⟩) :
    Acc (fun v w => Steps g w v) ⟨sets, transitions, index, some (s, symbols)⟩ := by
  induction symbols generalizing sets transitions with
  | nil =>
    refine Acc.intro _ fun v hstep => ?_
    have hv := h.step hstep
    cases hstep with
    | leave => exact hnext _ hv rfl
  | cons X symbols ih =>
    refine Acc.intro _ fun v hstep => ?_
    have hv := h.step hstep
    cases hstep with
    | follow ht => exact ih hv

/-- The index cannot go on for ever: between two of its moves the symbols become fewer, and the list
is no longer than the number of maps. -/
theorem Sound.acc (h : w.Sound g) : Acc (fun v w => Steps g w v) w := by
  induction hleft : (itemMaps g).ncard - w.index generalizing w with
  | zero =>
    refine Acc.intro _ fun v hstep => ?_
    have hlt := h.index_lt hstep
    have hlength := h.length_le
    omega
  | succ left ih =>
    have hnext (v : Worklist) (hv : v.Sound g) (hindex : v.index = w.index + 1) :
        Acc (fun v w => Steps g w v) v := ih hv (by omega)
    obtain ⟨sets, transitions, index, current⟩ := w
    cases current with
    | some c => exact acc_current hnext h
    | none =>
      refine Acc.intro _ fun v hstep => ?_
      have hv := h.step hstep
      cases hstep with
      | enter hs => exact acc_current hnext hv

/-! ### The exploration level by level -/

/-- The sets that have been seen are those of the list. -/
def Lists (seen : Std.ExtTreeSet ItemSet.Key) (sets : List ItemSet) : Prop :=
  ∀ s : ItemSet, s.key ∈ seen ↔ s ∈ sets

theorem Lists.append (h : Lists seen sets) (l : List ItemSet) :
    Lists (seen.insertMany (l.map ItemSet.key)) (sets ++ l) := by
  intro s
  have hmem : s.key ∈ l.map ItemSet.key ↔ s ∈ l :=
    List.mem_map_of_injective fun _ _ => ItemSet.key_injective
  rw [Std.ExtTreeSet.mem_insertMany_list, h s, List.contains_iff_mem, List.mem_append, hmem]

/-- Sets are put into the list one after the other if they have not been seen. -/
theorem Lists.foldl_insert (h : Lists seen sets) (l : List ItemSet) :
    l.foldl insert sets = sets ++ unseen ItemSet.key seen l := by
  induction l generalizing seen sets with
  | nil => rw [unseen, List.append_nil, List.foldl_nil]
  | cons t l ih =>
    rw [unseen, List.foldl_cons, insert]
    by_cases ht : t ∈ sets
    · rw [if_pos ht, if_pos ((h t).mpr ht), ih h]
    · rw [if_neg ht, if_neg (mt (h t).mp ht)]
      have hnext : Lists (seen.insert t.key) (sets ++ [t]) := h.append [t]
      rw [ih hnext, List.append_assoc]
      rfl

/-- Symbols that lead to sets are followed one after the other. -/
theorem exists_follow_all {tried : List Symbol} {targets : List ItemSet}
    (h : List.Forall₂ (fun X t => s.goto g g.firstSets X = .ok t) tried targets)
    (sets : List ItemSet) (transitions : List (Nat × Symbol × Nat)) (symbols : List Symbol) :
    ∃ transitions', ReflTransGen (Steps g)
      ⟨sets, transitions, index, some (s, tried ++ symbols)⟩
      ⟨targets.foldl insert sets, transitions', index, some (s, symbols)⟩ := by
  induction h generalizing sets transitions with
  | nil => exact ⟨transitions, .refl⟩
  | @cons X t tried targets ht _ ih =>
    obtain ⟨transitions', hpath⟩ := ih (insert sets t) _
    exact ⟨transitions', .head (.follow ht) hpath⟩

/-- The edges of the exploration. -/
private def edges (g : Grammar) : ItemSet → List (Symbol × ItemSet) :=
  existingEdges (successors g g.firstSets)

/-- While the index goes through a level, the next level gathers at the end of the list. -/
private theorem exists_explore_level
    (h : ∀ s ∈ level, successors g g.firstSets s = .ok (edges g s))
    (hseen : Lists seen sets) (hlevel : level <+: sets.drop index)
    (transitions : List (Nat × Symbol × Nat)) :
    ∃ transitions', ReflTransGen (Steps g) ⟨sets, transitions, index, none⟩
      ⟨sets ++ nextLevel ItemSet.key (edges g) seen level, transitions', index + level.length,
        none⟩ := by
  induction level generalizing seen sets index transitions with
  | nil => exact ⟨transitions, by simpa [nextLevel, targets, unseen] using .refl⟩
  | cons s level ih =>
    obtain ⟨hs, h⟩ := List.forall_mem_cons.mp h
    obtain ⟨later, hlater⟩ := hlevel
    have hget : sets[index]? = some s := by
      rw [← List.head?_drop, ← hlater]
      rfl
    have hdrop : sets.drop (index + 1) = level ++ later := by
      rw [← List.tail_drop, ← hlater]
      rfl
    -- the symbols of the first set of the level
    obtain ⟨hsymbols, hgoto⟩ := Automaton.successors_eq_ok hs
    have hfollow : List.Forall₂ (fun X t => s.goto g g.firstSets X = .ok t)
        s.symbolsAfterDot.toList ((edges g s).map Prod.snd) := by
      rw [← hsymbols, List.forall₂_map_left_iff, List.forall₂_map_right_iff, List.forall₂_same]
      exact hgoto
    obtain ⟨transitions₁, hpath₁⟩ := exists_follow_all hfollow sets transitions []
    rw [List.append_nil, hseen.foldl_insert] at hpath₁
    -- the rest of the level
    have hrest : level <+: (sets ++ unseen ItemSet.key seen ((edges g s).map Prod.snd)).drop
        (index + 1) := by
      rw [List.drop_append_of_le_length (List.getElem?_eq_some_iff.mp hget).1, hdrop]
      exact (List.prefix_append level later).trans (List.prefix_append _ _)
    obtain ⟨transitions₂, hpath₂⟩ := ih h (hseen.append _) hrest transitions₁
    have hnext : nextLevel ItemSet.key (edges g) seen (s :: level) =
        unseen ItemSet.key seen ((edges g s).map Prod.snd) ++ nextLevel ItemSet.key (edges g)
          (seen.insertMany ((unseen ItemSet.key seen ((edges g s).map Prod.snd)).map
            ItemSet.key)) level :=
      unseen_append ItemSet.key seen _ _
    rw [List.append_assoc, ← hnext, Nat.add_right_comm] at hpath₂
    exact ⟨transitions₂, .head (.enter hget) (hpath₁.trans (.head .leave hpath₂))⟩

/-- The index stops in a level with a set that has no successors. -/
private theorem exists_failing_level
    (h : (level.mapM fun s => return (s, ← successors g g.firstSets s)) = .error cause)
    (hseen : Lists seen sets) (hlevel : level <+: sets.drop index)
    (transitions : List (Nat × Symbol × Nat)) :
    ∃ w, ReflTransGen (Steps g) ⟨sets, transitions, index, none⟩ w ∧ w.Ends g (.error cause) := by
  obtain ⟨before, s, after, rfl, hbefore, hs⟩ := mapM_eq_error_iff.mp h
  have hbefore (s' : ItemSet) (hs' : s' ∈ before) :
      successors g g.firstSets s' = .ok (edges g s') := by
    obtain ⟨_, hok⟩ := hbefore s' hs'
    obtain ⟨out, hout, -⟩ := bind_eq_ok_iff.mp hok
    rw [hout, edges, existingEdges_of_ok hout]
  obtain ⟨transitions₁, hpath₁⟩ := exists_explore_level hbefore hseen
    ((List.prefix_append before _).trans hlevel) transitions
  have hget : (sets ++ nextLevel ItemSet.key (edges g) seen before)[index + before.length]? =
      some s := by
    obtain ⟨later, hlater⟩ := hlevel
    have hdrop : (sets.drop index)[before.length]? = some s := by
      rw [← hlater, List.append_assoc, List.getElem?_append_right (Nat.le_refl _), Nat.sub_self]
      rfl
    rw [List.getElem?_drop] at hdrop
    rw [List.getElem?_append_left (List.getElem?_eq_some_iff.mp hdrop).1, hdrop]
  -- the symbols of this set up to the one that cannot be followed
  have hs : successors g g.firstSets s = .error cause :=
    (bind_eq_error_iff.mp hs).resolve_right fun ⟨_, _, hok⟩ => by cases hok
  obtain ⟨tried, X, untried, hsymbols, htried, hX⟩ := mapM_eq_error_iff.mp hs
  have hX : s.goto g g.firstSets X = .error cause :=
    (bind_eq_error_iff.mp hX).resolve_right fun ⟨_, _, hok⟩ => by cases hok
  obtain ⟨targets, htargets⟩ := exists_mapM_eq_ok (f := s.goto g g.firstSets) fun Y hY => by
    obtain ⟨_, hok⟩ := htried Y hY
    obtain ⟨t, ht, -⟩ := bind_eq_ok_iff.mp hok
    exact ⟨t, ht⟩
  obtain ⟨transitions₂, hpath₂⟩ :=
    exists_follow_all (mapM_eq_ok_iff.mp htargets) _ transitions₁ (X :: untried)
  rw [← hsymbols] at hpath₂
  exact ⟨_, hpath₁.trans (.head (.enter hget) hpath₂), .error rfl hX⟩

/-- An exploration level by level finds what the worklist finds, or fails as it does. -/
theorem exists_ends_of_explores {result : Except GrammarError (List (ItemSet × _))}
    (h : Explores ItemSet.key (successors g g.firstSets) seen level result)
    (hseen : Lists seen sets) (hlevel : sets.drop index = level) (hindex : index ≤ sets.length)
    (transitions : List (Nat × Symbol × Nat)) :
    ∃ w, ReflTransGen (Steps g) ⟨sets, transitions, index, none⟩ w ∧
      w.Ends g ((fun found => sets.take index ++ found.map Prod.fst) <$> result) := by
  induction h generalizing sets index transitions with
  | done =>
    have hlength : index = sets.length := hindex.antisymm (List.drop_eq_nil_iff.mp hlevel)
    refine ⟨_, .refl, ?_⟩
    have hend : Ends g ⟨sets, transitions, index, none⟩ (.ok sets) := .ok rfl hlength
    simpa [hlength] using hend
  | failed h =>
    exact exists_failing_level h hseen (by rw [hlevel]) transitions
  | @round seen level found result _ h _ ih =>
    obtain ⟨rfl, hedges⟩ := (mapM_edges_eq_ok_iff _ level found).mp h
    have hlevel' (s : ItemSet) (hs : s ∈ level) : successors g g.firstSets s = .ok (edges g s) :=
      hedges (s, edges g s) (List.mem_map.mpr ⟨s, hs, rfl⟩)
    obtain ⟨transitions', hpath⟩ := exists_explore_level hlevel' hseen
      (by rw [hlevel]) transitions
    have hlength : index + level.length = sets.length := by
      rw [← hlevel, List.length_drop]
      omega
    rw [hlength] at hpath
    obtain ⟨w, hrest, hw⟩ := ih (hseen.append _)
      (List.drop_left' rfl) (by rw [List.length_append]; omega) transitions'
    refine ⟨w, hpath.trans hrest, ?_⟩
    -- the level is what the list has from the index on
    have hfound : level.map (Prod.fst ∘ fun s => (s, edges g s)) = level := List.map_id level
    have hlist : sets.take index ++ level = sets := by rw [← hlevel, List.take_append_drop]
    rw [List.take_left' rfl] at hw
    rw [Functor.map_map]
    simp only [List.map_append, List.map_map, ← List.append_assoc]
    rwa [← hlist, ← hfound] at hw

/-- The worklist ends as the construction of the automaton does. -/
theorem exists_ends_construct
    (h : (startSet g.augmented g.startSymbol).closure g.augmented g.augmented.firstSets = .ok s) :
    ∃ w, ReflTransGen (Steps g.augmented) (start s) w ∧
      w.Ends g.augmented ((fun a => a.states.map State.items) <$> construct g) := by
  have hempty : Lists ∅ [] := fun s => by simp
  obtain ⟨w, hpath, hw⟩ := exists_ends_of_explores ((Automaton.loopsEnd g).reached s h)
    (hempty.append [s]) List.drop_zero (Nat.zero_le _) []
  refine ⟨w, hpath, ?_⟩
  rw [construct, map_bind]
  cases hreached : Automaton.reached g.augmented g.augmented.firstSets g.startSymbol with
  | error cause =>
    rw [hreached] at hw
    exact hw
  | ok found =>
    rw [hreached] at hw
    have hitems : (Automaton.number found).map State.items = found.map Prod.fst := by
      rw [Automaton.number, List.map_map]
      rfl
    change w.Ends g.augmented (.ok ((Automaton.number found).map State.items))
    rwa [hitems]

/-- The transitions that have been found in the end are those of the automaton. -/
theorem Sound.transition?_iff (h : w.Sound g.augmented) (ha : Automaton.IsCanonical g a)
    (hsets : a.states.map State.items = w.sets) (hindex : w.index = w.sets.length) (n : Nat)
    (X : Symbol) (m : Nat) : a.transition? n X = some m ↔ (n, X, m) ∈ w.transitions := by
  have hitems (n : Nat) : a.items? n = w.sets[n]? := by
    rw [Automaton.items?, ← hsets, List.getElem?_map]
  rw [ha.transition_iff]
  simp only [hitems]
  constructor
  · rintro ⟨s, t, hs, hleads, ht⟩
    have hawaits : ¬ w.Awaits n X := by
      have hlt := (List.getElem?_eq_some_iff.mp hs).1
      rintro (hlt' | ⟨heq, -⟩) <;> omega
    obtain ⟨m', hm'⟩ := h.exists_transition n s X hs hleads.mem hawaits
    obtain ⟨s', t', hs', hleads', ht'⟩ := h.leads n X m' hm'
    obtain rfl := Option.some.inj (hs.symm.trans hs')
    obtain rfl := Except.ok.inj (hleads.goto_eq.symm.trans hleads'.goto_eq)
    rwa [(List.getElem?_inj (List.getElem?_eq_some_iff.mp ht).1 h.nodup).mp (ht.trans ht'.symm)]
  · exact h.leads n X m

end Worklist

/-! ### All loops -/

open Worklist (Steps)

/-- The states of the automaton are different maps from items of the augmented grammar to sets of
lookaheads, the transitions lead to these states, and there are no more states than maps. -/
structure Automaton.IsBounded (g : Grammar) (a : Automaton) : Prop where
  exists_rule : ∀ s ∈ a.states, ∀ item u, s.items.get? item = some u →
    ∃ r ∈ g.augmented.rules, ∃ dot, dot ≤ r.arity ∧ item = r.item dot
  exists_terminal : ∀ s ∈ a.states, ∀ item u, s.items.get? item = some u →
    ∀ t ∈ u, t = .endMark ∨ ∃ name ∈ g.terminals, t = .terminal name
  nodup : (a.states.map State.items).Nodup
  transition?_lt : ∀ n X m, a.transition? n X = some m → n < a.states.length ∧ m < a.states.length
  length_le : a.states.length ≤ (itemMaps g.augmented).ncard

/-- The construction of the automaton ends. Each set of items that is held on the way is a map of
the grammar, and the worklist, which cannot go on for ever, never has more of them than there are.
It ends with the automaton or with its error. -/
structure ConstructionEnds (g : Grammar) : Prop where
  start_mem : startSet g.augmented g.startSymbol ∈ itemMaps g.augmented
  kernel_mem : ∀ s ∈ itemMaps g.augmented, ∀ X, s.kernel X ∈ itemMaps g.augmented
  round_mem : ∀ s ∈ itemMaps g.augmented, ∀ k,
    (ItemSet.expandDefined g.augmented g.augmented.firstSets)^[k] s ∈ itemMaps g.augmented
  acc : ∀ s, (startSet g.augmented g.startSymbol).closure g.augmented g.augmented.firstSets =
      .ok s → Acc (fun v w => Steps g.augmented w v) (Worklist.start s)
  sound : ∀ s w, (startSet g.augmented g.startSymbol).closure g.augmented g.augmented.firstSets =
      .ok s → ReflTransGen (Steps g.augmented) (Worklist.start s) w →
    w.Sound g.augmented ∧ w.sets.length ≤ (itemMaps g.augmented).ncard
  exists_ends : ∀ s,
    (startSet g.augmented g.startSymbol).closure g.augmented g.augmented.firstSets = .ok s →
      ∃ w, ReflTransGen (Steps g.augmented) (Worklist.start s) w ∧
        w.Ends g.augmented ((fun a => a.states.map State.items) <$> construct g) ∧
        ∀ a, construct g = .ok a →
          ∀ n X m, a.transition? n X = some m ↔ (n, X, m) ∈ w.transitions
  isBounded : ∀ a, construct g = .ok a → a.IsBounded g

variable {g : Grammar} {a : Automaton} {s : ItemSet}

theorem mem_itemMaps_of_closure
    (h : (startSet g.augmented g.startSymbol).closure g.augmented g.augmented.firstSets = .ok s) :
    s ∈ itemMaps g.augmented :=
  mem_itemMaps_iff.mpr (Automaton.isFact_of_holds_closure h)

/-- The worklist ends with the sets and the transitions of the automaton. -/
theorem exists_worklist
    (h : (startSet g.augmented g.startSymbol).closure g.augmented g.augmented.firstSets = .ok s) :
    ∃ w, ReflTransGen (Steps g.augmented) (Worklist.start s) w ∧
      w.Ends g.augmented ((fun a => a.states.map State.items) <$> construct g) ∧
      ∀ a, construct g = .ok a →
        ∀ n X m, a.transition? n X = some m ↔ (n, X, m) ∈ w.transitions := by
  obtain ⟨w, hpath, hw⟩ := Worklist.exists_ends_construct h
  refine ⟨w, hpath, hw, fun a ha => ?_⟩
  rw [ha] at hw
  obtain ⟨hindex, hsets⟩ := hw.eq_sets
  exact ((Worklist.sound_start (mem_itemMaps_of_closure h)).of_reaches hpath).transition?_iff
    (Automaton.isCanonical_of_construct ha) hsets hindex

/-- What is true of the worklist at its end is true of the automaton. -/
theorem isBounded_of_construct (ha : construct g = .ok a) : a.IsBounded g := by
  obtain ⟨s, -, hclosure⟩ := (Automaton.isCanonical_of_construct ha).closure
  obtain ⟨w, hpath, hw, htransitions⟩ := exists_worklist hclosure
  have hsound := (Worklist.sound_start (mem_itemMaps_of_closure hclosure)).of_reaches hpath
  rw [ha] at hw
  have hsets : a.states.map State.items = w.sets := hw.eq_sets.2
  have hlength : a.states.length = w.sets.length := by rw [← hsets, List.length_map]
  have hmaps {q : State} (hq : q ∈ a.states) : q.items ∈ itemMaps g.augmented :=
    hsound.mem_itemMaps _ (hsets ▸ List.mem_map_of_mem hq)
  refine ⟨fun q hq item u hu => mem_items.mp (hmaps hq item u hu).1, fun q hq item u hu t ht => ?_,
    hsets ▸ hsound.nodup, fun n X m hm => ?_, hlength ▸ hsound.length_le⟩
  · exact mem_lookaheads.mp ((hmaps hq item u hu).2 t ht)
  · obtain ⟨s', t, hs', -, ht⟩ := hsound.leads n X m ((htransitions a ha n X m).mp hm)
    rw [hlength]
    exact ⟨(List.getElem?_eq_some_iff.mp hs').1, (List.getElem?_eq_some_iff.mp ht).1⟩

/-- The loops behind the automaton of a grammar end by themselves: the passes for the FIRST sets,
the rounds of each closure, and the search for item sets. There are no more states than maps from
some of the items to sets of lookaheads. -/
theorem construction_ends (g : Grammar) :
    Settles g.firstPass (.tabulate g.nonterminals fun _ => ∅) g.firstSets ∧
    (∀ first s, Settles (ItemSet.expandDefined g first) s (s.expanded g first)) ∧
    ConstructionEnds g ∧
    (itemMaps g.augmented).Finite ∧ (itemMaps g.augmented).ncard ≤
      (2 ^ (g.terminals.size + 1) + 1) ^ (items g.augmented).card := by
  refine ⟨settles_saturate g.firstPass_firstSets, fun first s => ?_, ?_, finite_itemMaps _,
    ncard_itemMaps_le _⟩
  · exact settles_saturate (ItemSet.expandDefined_expanded g first s)
  · have hsound {s : ItemSet} {w : Worklist}
        (h : (startSet g.augmented g.startSymbol).closure g.augmented g.augmented.firstSets = .ok s)
        (hpath : ReflTransGen (Steps g.augmented) (Worklist.start s) w) : w.Sound g.augmented :=
      (Worklist.sound_start (mem_itemMaps_of_closure h)).of_reaches hpath
    exact
      { start_mem := startSet_mem_itemMaps g
        kernel_mem := fun s hs X => kernel_mem_itemMaps hs X
        round_mem := fun s hs k => iterate_expandDefined_mem_itemMaps hs k
        acc := fun s h => (hsound h .refl).acc
        sound := fun s w h hpath => ⟨hsound h hpath, (hsound h hpath).length_le⟩
        exists_ends := fun s h => exists_worklist h
        isBounded := fun a ha => isBounded_of_construct ha }

end Recognizer.LR
