import Mathlib.Data.List.Perm.Subperm
import Mathlib.Data.List.Sublists
import Mathlib.Logic.Relation
import Recognizer.Iteration.BreadthFirst

/-!
# What an exploration finds

A breadth-first exploration has a bound on its levels. If the keys of all values that can be reached
lie in a list no longer than the bound, the exploration is not cut off: what it finds is closed
under the edges, and no key is found twice. If moreover the key tells the reached values apart, then
all of them are found.

## Main definitions

* `Edge`, `Reaches`: one edge between two values, and any number of them.
* `Explored`: what holds of the values found from a start.
* `Frontier`, `ExploredFrom`: what holds of a level before it is explored, and of the values found
  from it on.

## Main results

* `breadthFirst_explored`: an exploration with a large enough bound is not cut off.
* `breadthFirstM_eq_of_bounds`: all bounds that are large enough lead to the same result.
* `exists_keys`: a bound on the number of keys.
* `Explored.mem_of_reaches`: a value that is reached is found.
-/

namespace Recognizer

variable {α κ label : Type}

/-- An edge leads from `a` to `b`. -/
def Edge (edges : α → List (label × α)) (a b : α) : Prop := ∃ l, (l, b) ∈ edges a

/-- Some edges lead from one value to the other; none are needed from a value to itself. -/
abbrev Reaches (edges : α → List (label × α)) : α → α → Prop := Relation.ReflTransGen (Edge edges)

/-- The values found are those that the start leads to, up to their keys, with their edges: the
start comes first, each value found is reached, what its edges lead to is found, and no key is found
twice. -/
structure Explored (key : α → κ) (edges : α → List (label × α)) (start : α)
    (found : List (α × List (label × α))) : Prop where
  head : found.head? = some (start, edges start)
  edges_eq : ∀ e ∈ found, e.2 = edges e.1
  reached : ∀ e ∈ found, Reaches edges start e.1
  closed : ∀ e ∈ found, ∀ t ∈ e.2, ∃ e' ∈ found, key e'.1 = key t.2
  nodup : (found.map fun e => key e.1).Nodup

theorem mem_targets {found : List (α × List (label × α))} {a : α} :
    a ∈ targets found ↔ ∃ e ∈ found, ∃ l, (l, a) ∈ e.2 := by
  simp [targets]

section Unseen

variable [Ord κ] [Std.TransOrd κ]

theorem mem_of_mem_unseen {key : α → κ} {seen : Std.ExtTreeSet κ} {l : List α} {a : α}
    (h : a ∈ unseen key seen l) : a ∈ l ∧ key a ∉ seen := by
  induction l generalizing seen with
  | nil => simp [unseen] at h
  | cons b bs ih =>
    rw [unseen] at h
    split at h
    · obtain ⟨hmem, hkey⟩ := ih h
      exact ⟨List.mem_cons_of_mem _ hmem, hkey⟩
    · next hb =>
      rcases List.mem_cons.mp h with rfl | h
      · exact ⟨List.mem_cons_self, hb⟩
      · obtain ⟨hmem, hkey⟩ := ih h
        rw [Std.ExtTreeSet.mem_insert, not_or] at hkey
        exact ⟨List.mem_cons_of_mem _ hmem, hkey.2⟩

theorem nodup_map_unseen (key : α → κ) (seen : Std.ExtTreeSet κ) (l : List α) :
    ((unseen key seen l).map key).Nodup := by
  induction l generalizing seen with
  | nil => exact List.nodup_nil
  | cons b bs ih =>
    rw [unseen]
    split
    · exact ih seen
    · refine List.nodup_cons.mpr ⟨fun hmem => ?_, ih _⟩
      obtain ⟨a, ha, hab⟩ := List.mem_map.mp hmem
      have := (mem_of_mem_unseen ha).2
      rw [hab, Std.ExtTreeSet.mem_insert] at this
      simp at this

theorem mem_or_mem_unseen [Std.LawfulEqOrd κ] (key : α → κ) (seen : Std.ExtTreeSet κ) {l : List α}
    {a : α} (h : a ∈ l) : key a ∈ seen ∨ key a ∈ (unseen key seen l).map key := by
  induction l generalizing seen with
  | nil => simp at h
  | cons b bs ih =>
    rw [unseen]
    rcases List.mem_cons.mp h with rfl | h
    · split
      · next hb => exact Or.inl hb
      · exact Or.inr (by simp)
    · split
      · exact ih seen h
      · rcases ih (seen.insert (key b)) h with hseen | hmem
        · rcases Std.ExtTreeSet.mem_insert.mp hseen with hb | hseen
          · rw [← Std.LawfulEqCmp.eq_of_compare hb]
            exact Or.inr (by simp)
          · exact Or.inl hseen
        · exact Or.inr (List.mem_cons_of_mem _ hmem)

end Unseen

section Levels

variable [Ord κ] [Std.TransOrd κ] {key : α → κ} {edges : α → List (label × α)}
  {seen : Std.ExtTreeSet κ} {level : List α} {done keys : List κ} {P : α → Prop} {a b : α}

/-- The values that come after those of a level: what its edges lead to, unless it has been seen
before. -/
def nextLevel (key : α → κ) (edges : α → List (label × α)) (seen : Std.ExtTreeSet κ)
    (level : List α) : List α :=
  unseen key seen (targets (level.map fun a => (a, edges a)))

theorem exploreLevels_succ (key : α → κ) (edges : α → List (label × α)) (bound : Nat)
    (seen : Std.ExtTreeSet κ) (a : α) (level : List α) :
    exploreLevels key edges (bound + 1) seen (a :: level) =
      (a :: level).map (fun a => (a, edges a)) ++
        exploreLevels key edges bound
          (seen.insertMany ((nextLevel key edges seen (a :: level)).map key))
          (nextLevel key edges seen (a :: level)) := rfl

omit [Ord κ] [Std.TransOrd κ] in
theorem mem_targets_level :
    b ∈ targets (level.map fun a => (a, edges a)) ↔ ∃ a ∈ level, Edge edges a b := by
  simp [mem_targets, Edge]

theorem exists_edge_of_mem_nextLevel (hb : b ∈ nextLevel key edges seen level) :
    ∃ a ∈ level, Edge edges a b :=
  mem_targets_level.mp (mem_of_mem_unseen hb).1

/-- A level that is about to be explored: the keys in `done` have been dealt with, those of the
level have been seen too, and no others. All of them are keys of values with the property `P`, which
lie in `keys`. -/
structure Frontier (key : α → κ) (P : α → Prop) (keys : List κ) (seen : Std.ExtTreeSet κ)
    (level : List α) (done : List κ) : Prop where
  holds : ∀ a ∈ level, P a
  mem_seen_iff : ∀ k, k ∈ seen ↔ k ∈ done ++ level.map key
  nodup : (done ++ level.map key).Nodup
  done_subset : done ⊆ keys

namespace Frontier

variable (h : Frontier key P keys seen level done)
include h

theorem append_subset (hkeys : ∀ a, P a → key a ∈ keys) : done ++ level.map key ⊆ keys := by
  refine List.append_subset.mpr ⟨h.done_subset, fun k hk => ?_⟩
  obtain ⟨a, ha, rfl⟩ := List.mem_map.mp hk
  exact hkeys a (h.holds a ha)

/-- The keys known are no more than those that can occur. -/
theorem length_le (hkeys : ∀ a, P a → key a ∈ keys) :
    done.length + level.length ≤ keys.length := by
  have hlength := (h.nodup.subperm (h.append_subset hkeys)).length_le
  rwa [List.length_append, List.length_map] at hlength

theorem next [Std.LawfulEqOrd κ] [DecidableEq κ] (hP : ∀ a b, P a → Edge edges a b → P b)
    (hkeys : ∀ a, P a → key a ∈ keys) :
    Frontier key P keys (seen.insertMany ((nextLevel key edges seen level).map key))
      (nextLevel key edges seen level) (done ++ level.map key) where
  holds b hb := by
    obtain ⟨a, ha, hab⟩ := exists_edge_of_mem_nextLevel hb
    exact hP a b (h.holds a ha) hab
  mem_seen_iff k := by
    rw [Std.ExtTreeSet.mem_insertMany_list, h.mem_seen_iff, List.contains_iff_mem,
      List.mem_append (s := done ++ level.map key)]
  nodup := by
    refine List.nodup_append.mpr ⟨h.nodup, nodup_map_unseen .., ?_⟩
    rintro k hk k' hk' rfl
    obtain ⟨b, hb, rfl⟩ := List.mem_map.mp hk'
    exact (mem_of_mem_unseen hb).2 ((h.mem_seen_iff _).mpr hk)
  done_subset := h.append_subset hkeys

/-- The key of a value that an edge of the level leads to has been dealt with, or it belongs to the
level or to the next one. -/
theorem mem_or_mem_nextLevel [Std.LawfulEqOrd κ] (ha : a ∈ level) (hab : Edge edges a b) :
    key b ∈ done ++ level.map key ∨ key b ∈ (nextLevel key edges seen level).map key := by
  rw [← h.mem_seen_iff]
  exact mem_or_mem_unseen key seen (mem_targets_level.mpr ⟨a, ha, hab⟩)

/-- Induction over the levels. A statement about the levels within their bounds is true if it is
true of the empty level, and of every other level if it is of the next one. The bound lasts as long
as there are levels, because each of them deals with some more of the keys that can occur. -/
theorem induction [Std.LawfulEqOrd κ] [DecidableEq κ] {bound : Nat}
    {motive : Nat → Std.ExtTreeSet κ → List α → List κ → Prop}
    (hP : ∀ a b, P a → Edge edges a b → P b) (hkeys : ∀ a, P a → key a ∈ keys)
    (hbound : keys.length ≤ bound + done.length)
    (empty : ∀ bound seen done, Frontier key P keys seen [] done → motive bound seen [] done)
    (cons : ∀ bound seen a level done, Frontier key P keys seen (a :: level) done →
      motive bound (seen.insertMany ((nextLevel key edges seen (a :: level)).map key))
        (nextLevel key edges seen (a :: level)) (done ++ (a :: level).map key) →
      motive (bound + 1) seen (a :: level) done) :
    motive bound seen level done := by
  induction bound generalizing seen level done with
  | zero =>
    have hlength := h.length_le hkeys
    obtain rfl : level = [] := List.length_eq_zero_iff.mp (by omega)
    exact empty 0 seen done h
  | succ bound ih =>
    cases level with
    | nil => exact empty (bound + 1) seen done h
    | cons a level =>
      refine cons bound seen a level done h (ih (h.next hP hkeys) ?_)
      simp only [List.length_append, List.length_map, List.length_cons]
      omega

end Frontier

/-- What is found from a level on, when the keys in `done` have been dealt with before. For the
level of the start and no keys this says that everything is found (`Explored`). -/
structure ExploredFrom (key : α → κ) (edges : α → List (label × α)) (level : List α)
    (done : List κ) (found : List (α × List (label × α))) : Prop where
  level_prefix : level.map (fun a => (a, edges a)) <+: found
  edges_eq : ∀ e ∈ found, e.2 = edges e.1
  reached : ∀ e ∈ found, ∃ a ∈ level, Reaches edges a e.1
  closed : ∀ e ∈ found, ∀ t ∈ e.2, key t.2 ∈ done ++ found.map fun e => key e.1
  nodup : (done ++ found.map fun e => key e.1).Nodup

private theorem ExploredFrom.cons_level [Std.LawfulEqOrd κ]
    {found : List (α × List (label × α))} (h : Frontier key P keys seen level done)
    (hfound : ExploredFrom key edges (nextLevel key edges seen level) (done ++ level.map key)
      found) :
    ExploredFrom key edges level done (level.map (fun a => (a, edges a)) ++ found) := by
  have hkeys : (done ++ (level.map (fun a => (a, edges a)) ++ found).map fun e => key e.1) =
      done ++ level.map key ++ found.map fun e => key e.1 := by
    rw [List.map_append, List.map_map, List.append_assoc]
    rfl
  refine ⟨List.prefix_append .., fun e he => ?_, fun e he => ?_, fun e he t ht => ?_, ?_⟩
  · rcases List.mem_append.mp he with he | he
    · obtain ⟨a, -, rfl⟩ := List.mem_map.mp he
      rfl
    · exact hfound.edges_eq e he
  · rcases List.mem_append.mp he with he | he
    · obtain ⟨a, ha, rfl⟩ := List.mem_map.mp he
      exact ⟨a, ha, .refl⟩
    · obtain ⟨b, hb, hbe⟩ := hfound.reached e he
      obtain ⟨a, ha, hab⟩ := exists_edge_of_mem_nextLevel hb
      exact ⟨a, ha, .head hab hbe⟩
  · rw [hkeys]
    rcases List.mem_append.mp he with he | he
    · obtain ⟨a, ha, rfl⟩ := List.mem_map.mp he
      rcases h.mem_or_mem_nextLevel ha ⟨t.1, ht⟩ with hk | hk
      · exact List.mem_append_left _ hk
      · obtain ⟨b, hb, hbt⟩ := List.mem_map.mp hk
        have hb' := hfound.level_prefix.subset (List.mem_map.mpr ⟨b, hb, rfl⟩)
        exact List.mem_append_right _ (List.mem_map.mpr ⟨_, hb', hbt⟩)
    · exact hfound.closed e he t ht
  · rw [hkeys]
    exact hfound.nodup

private theorem Frontier.exploredFrom_nil (h : Frontier key P keys seen [] done) :
    ExploredFrom key edges [] done [] :=
  ⟨List.prefix_rfl, by simp, by simp, by simp, h.nodup⟩

/-- The exploration from a level on is not cut off if the keys that can occur are no more than
those that have been dealt with and the levels that may follow. -/
private theorem Frontier.exploredFrom [Std.LawfulEqOrd κ] [DecidableEq κ]
    (h : Frontier key P keys seen level done) (bound : Nat)
    (hP : ∀ a b, P a → Edge edges a b → P b) (hkeys : ∀ a, P a → key a ∈ keys)
    (hbound : keys.length ≤ bound + done.length) :
    ExploredFrom key edges level done (exploreLevels key edges bound seen level) := by
  refine h.induction (motive := fun bound seen level done =>
    ExploredFrom key edges level done (exploreLevels key edges bound seen level))
    hP hkeys hbound ?_ ?_
  · intro bound seen done h
    cases bound <;> exact h.exploredFrom_nil
  · intro bound seen a level done h ih
    rw [exploreLevels_succ]
    exact .cons_level h ih

theorem frontier_start [Std.LawfulEqOrd κ] {start : α} (hstart : P start) :
    Frontier key P keys {key start} [start] [] := by
  refine ⟨by simpa using hstart, fun k => ?_, by simp, by simp⟩
  change k ∈ (∅ : Std.ExtTreeSet κ).insert (key start) ↔ _
  simp only [Std.ExtTreeSet.mem_insert, Std.LawfulEqCmp.compare_eq_iff_eq]
  simp [eq_comm (a := k)]

/-- Explorations are not cut off. If the keys of all values with the property `P`, which edges keep,
lie in a list no longer than the bound, the exploration from a value with `P` finds all that is
reached, up to keys. -/
theorem breadthFirst_explored [Std.LawfulEqOrd κ] [DecidableEq κ] {start : α} {bound : Nat}
    (hstart : P start) (hP : ∀ a b, P a → Edge edges a b → P b) (hkeys : ∀ a, P a → key a ∈ keys)
    (hbound : keys.length ≤ bound) :
    Explored key edges start (breadthFirst key edges bound start) := by
  have h := (frontier_start hstart).exploredFrom bound hP hkeys (by simpa using hbound)
  refine ⟨?_, h.edges_eq, fun e he => ?_, fun e he t ht => ?_, h.nodup⟩
  · obtain ⟨later, hlater⟩ := h.level_prefix
    rw [breadthFirst, ← hlater]
    rfl
  · obtain ⟨a, ha, hae⟩ := h.reached e he
    rwa [List.mem_singleton.mp ha] at hae
  · exact List.mem_map.mp (h.closed e he t ht)

end Levels

section Bounds

variable {ε : Type} [Ord κ] [Std.TransOrd κ] [Std.LawfulEqOrd κ] [DecidableEq κ] {key : α → κ}
  {edges : α → Except ε (List (label × α))} {seen : Std.ExtTreeSet κ} {level : List α}
  {done keys : List κ} {P : α → Prop} {m n : Nat}

private theorem Frontier.exploreLevelsM_succ (h : Frontier key P keys seen level done)
    (hP : ∀ a b, P a → Edge (existingEdges edges) a b → P b) (hkeys : ∀ a, P a → key a ∈ keys)
    (hbound : keys.length ≤ n + done.length) :
    exploreLevelsM key edges (n + 1) seen level = exploreLevelsM key edges n seen level := by
  refine h.induction (motive := fun n seen level _ =>
    exploreLevelsM key edges (n + 1) seen level = exploreLevelsM key edges n seen level)
    hP hkeys hbound ?_ ?_
  · intro n seen done _
    cases n <;> rfl
  · intro n seen a level done _ ih
    rw [exploreLevelsM, exploreLevelsM]
    cases hnow : (a :: level).mapM (m := Except ε) fun a => return (a, ← edges a) with
    | error cause => rfl
    | ok now =>
      -- both go on with the same level
      obtain ⟨rfl, -⟩ := (mapM_edges_eq_ok_iff edges (a :: level) now).mp hnow
      exact congrArg (fun later => later >>= fun later => pure (_ ++ later)) ih

/-- The bound does not matter. All bounds that do not cut off an exploration lead to the same
result, or to the same failure. -/
theorem breadthFirstM_eq_of_bounds {start : α} (hstart : P start)
    (hP : ∀ a b, P a → Edge (existingEdges edges) a b → P b) (hkeys : ∀ a, P a → key a ∈ keys)
    (hm : keys.length ≤ m) (hn : keys.length ≤ n) :
    breadthFirstM key edges m start = breadthFirstM key edges n start := by
  have hleast (n : Nat) (hn : keys.length ≤ n) :
      breadthFirstM key edges n start = breadthFirstM key edges keys.length start := by
    induction n, hn using Nat.le_induction with
    | base => rfl
    | succ n hn ih =>
      exact ((frontier_start hstart).exploreLevelsM_succ hP hkeys (by simpa using hn)).trans ih
  rw [hleast m hm, hleast n hn]

end Bounds

/-- Keys that depend on nothing but which of some features a value has are no more than there are
sets of features. This bounds the number of item sets and the number of states. -/
theorem exists_keys {α κ β : Type} {P : α → Prop} (key : α → κ) (features : List β)
    (has : α → β → Prop)
    (hkey : ∀ a b, P a → P b → (∀ x ∈ features, has a x ↔ has b x) → key a = key b) :
    ∃ keys : List κ, keys.length ≤ Nat.pow 2 features.length ∧ ∀ a, P a → key a ∈ keys := by
  classical
  refine ⟨features.sublists.filterMap fun s =>
    if h : ∃ a, P a ∧ features.filter (fun x => has a x) = s then some (key h.choose) else none,
    ?_, fun a ha => ?_⟩
  · refine (List.length_filterMap_le ..).trans ?_
    exact Nat.le_of_eq (List.length_sublists features)
  · have hex : ∃ b, P b ∧ features.filter (fun x => has b x) = features.filter fun x => has a x :=
      ⟨a, ha, rfl⟩
    refine List.mem_filterMap.mpr ⟨features.filter fun x => has a x,
      List.mem_sublists.mpr List.filter_sublist, ?_⟩
    rw [dif_pos hex]
    obtain ⟨hP, hfilter⟩ := hex.choose_spec
    refine congrArg some (hkey _ a hP ha fun x hx => ?_)
    have hmem := congrArg (x ∈ ·) hfilter
    simpa [hx] using hmem

namespace Explored

variable {key : α → κ} {edges : α → List (label × α)} {start : α}
  {found : List (α × List (label × α))}

theorem start_mem (h : Explored key edges start found) : (start, edges start) ∈ found :=
  List.mem_of_mem_head? h.head

/-- If the key tells the reached values apart, a value that is reached is found. -/
theorem mem_of_reaches (h : Explored key edges start found)
    (hkey : ∀ a b, Reaches edges start a → Reaches edges start b → key a = key b → a = b)
    {a : α} (ha : Reaches edges start a) : (a, edges a) ∈ found := by
  induction ha with
  | refl => exact h.start_mem
  | @tail b c hb hbc ih =>
    obtain ⟨l, hl⟩ := hbc
    obtain ⟨e, he, hec⟩ := h.closed _ ih _ hl
    obtain rfl : e.1 = c := hkey _ _ (h.reached e he) (hb.tail ⟨l, hl⟩) hec
    rwa [← h.edges_eq e he]

end Explored

end Recognizer
