import Recognizer.Proofs.Iteration.Exploration
import Recognizer.Proofs.Splits

/-!
# The order of discovery

A breadth-first exploration goes through the edges of the values it has found, value by value and
each time in the given order, and finds the targets that have not been found before. So each value
but the start is found by an edge of an earlier value, and all edges before this one lead to earlier
values.

## Main definitions

* `ExploredInOrder`: after the start come the unseen targets of all values that are found.

## Main results

* `unseen_append`, `exists_of_unseen_eq`: what is unseen of a list, in order.
* `breadthFirst_exploredInOrder`: what an exploration finds is in order.
* `ExploredInOrder.exists_edge_before`: the edge by which a value is found.
-/

namespace Recognizer

variable {α κ label : Type} {key : α → κ} {edges : α → List (label × α)}

theorem targets_append (found later : List (α × List (label × α))) :
    targets (found ++ later) = targets found ++ targets later :=
  List.flatMap_append

section Unseen

variable [Ord κ] [Std.TransOrd κ] {seen : Std.ExtTreeSet κ} {l before after : List α} {b : α}

theorem unseen_append (key : α → κ) (seen : Std.ExtTreeSet κ) (l l' : List α) :
    unseen key seen (l ++ l') =
      unseen key seen l ++ unseen key (seen.insertMany ((unseen key seen l).map key)) l' := by
  induction l generalizing seen with
  | nil =>
    rw [List.nil_append, unseen, List.map_nil, Std.ExtTreeSet.insertMany_nil, List.nil_append]
  | cons a l ih =>
    rw [List.cons_append, unseen, unseen]
    split
    · exact ih seen
    · rw [ih, List.map_cons, Std.ExtTreeSet.insertMany_cons, List.cons_append]

/-- An unseen value stands in the list after values that have been seen or are unseen before it. -/
theorem exists_of_unseen_eq [Std.LawfulEqOrd κ] (h : unseen key seen l = before ++ b :: after) :
    ∃ pre post, l = pre ++ b :: post ∧ ∀ c ∈ pre, key c ∈ seen ∨ key c ∈ before.map key := by
  induction l generalizing seen before with
  | nil =>
    rw [unseen] at h
    exact absurd h (by simp)
  | cons a l ih =>
    rw [unseen] at h
    split at h
    · next ha =>
      obtain ⟨pre, post, rfl, hpre⟩ := ih h
      exact ⟨a :: pre, post, rfl, List.forall_mem_cons.mpr ⟨Or.inl ha, hpre⟩⟩
    · cases before with
      | nil =>
        obtain ⟨rfl, -⟩ := List.cons.inj h
        exact ⟨[], l, rfl, List.forall_mem_nil _⟩
      | cons a' before =>
        obtain ⟨rfl, hrest⟩ := List.cons.inj h
        obtain ⟨pre, post, rfl, hpre⟩ := ih hrest
        refine ⟨a :: pre, post, rfl, List.forall_mem_cons.mpr ⟨Or.inr (by simp), fun c hc => ?_⟩⟩
        rw [List.map_cons, List.mem_cons]
        rcases hpre c hc with hc | hc
        · rcases Std.ExtTreeSet.mem_insert.mp hc with heq | hc
          · exact Or.inr (Or.inl (Std.LawfulEqCmp.eq_of_compare heq).symm)
          · exact Or.inl hc
        · exact Or.inr (Or.inr hc)

end Unseen

/-- The values found are, in this order, the start and the unseen targets of all of them. So a value
stands after every value by whose edges it could have been found earlier. -/
structure ExploredInOrder [Ord κ] [Std.TransOrd κ] (key : α → κ) (edges : α → List (label × α))
    (start : α) (found : List (α × List (label × α))) : Prop
    extends Explored key edges start found where
  map_fst_eq : found.map Prod.fst = start :: unseen key {key start} (targets found)

section Levels

variable [Ord κ] [Std.TransOrd κ] [Std.LawfulEqOrd κ] [DecidableEq κ] {seen : Std.ExtTreeSet κ}
  {level : List α} {done keys : List κ} {P : α → Prop}

private theorem Frontier.map_fst_exploreLevels (h : Frontier key P keys seen level done)
    (bound : Nat) (hP : ∀ a b, P a → Edge edges a b → P b) (hkeys : ∀ a, P a → key a ∈ keys)
    (hbound : keys.length ≤ bound + done.length) :
    (exploreLevels key edges bound seen level).map Prod.fst =
      level ++ unseen key seen (targets (exploreLevels key edges bound seen level)) := by
  refine h.induction (motive := fun bound seen level _ =>
    (exploreLevels key edges bound seen level).map Prod.fst =
      level ++ unseen key seen (targets (exploreLevels key edges bound seen level)))
    hP hkeys hbound ?_ ?_
  · intro bound seen done _
    cases bound <;> rfl
  · intro bound seen a level done _ ih
    rw [exploreLevels_succ, List.map_append, ih, targets_append, unseen_append, List.map_map]
    congr 1
    exact List.map_id _

/-- Explorations find values in order. If the keys of all values with the property `P`, which edges
keep, lie in a list no longer than the bound, the exploration from a value with `P` finds
everything, and in order. -/
theorem breadthFirst_exploredInOrder {start : α} {bound : Nat} (hstart : P start)
    (hP : ∀ a b, P a → Edge edges a b → P b) (hkeys : ∀ a, P a → key a ∈ keys)
    (hbound : keys.length ≤ bound) :
    ExploredInOrder key edges start (breadthFirst key edges bound start) where
  toExplored := breadthFirst_explored hstart hP hkeys hbound
  map_fst_eq := by
    have h : Frontier key P keys {key start} [start] [] := frontier_start hstart
    exact h.map_fst_exploreLevels bound hP hkeys (by simpa using hbound)

end Levels

private theorem exists_row_of_targets_eq {found : List (α × List (label × α))} {b : α}
    {pre post : List α} (h : targets found = pre ++ b :: post) :
    ∃ p d u x v, found[p]? = some d ∧ d.2 = u ++ (x, b) :: v ∧
      pre = targets (found.take p) ++ u.map Prod.snd := by
  induction found generalizing pre with
  | nil => exact absurd h (by simp [targets])
  | cons d found ih =>
    change d.2.map Prod.snd ++ targets found = _ at h
    rcases append_eq_append_cons_iff.mp h with ⟨more, hrow, -⟩ | ⟨more, hpre, hmore⟩
    · obtain ⟨u, w, hd, rfl, hw⟩ := List.map_eq_append_iff.mp hrow
      obtain ⟨⟨x, c⟩, v, rfl, rfl, -⟩ := List.map_eq_cons_iff.mp hw
      exact ⟨0, d, u, x, v, rfl, hd, rfl⟩
    · obtain ⟨p, d', u, x, v, hd', hrow, rfl⟩ := ih hmore
      exact ⟨p + 1, d', u, x, v, hd', hrow, hpre.trans (List.append_assoc ..).symm⟩

/-! ### The edge by which a value is found -/

/-- The keys of the values that are found before the one at the given place. An edge to one of these
keys finds nothing new. -/
def keysBefore (key : α → κ) (found : List (α × List (label × α))) (k : Nat) : List κ :=
  (found.take k).map fun e => key e.1

section Order

variable {start : α} {found : List (α × List (label × α))} {k l : Nat} {d e : α × List (label × α)}
  {x : κ}

theorem mem_keysBefore_iff :
    x ∈ keysBefore key found k ↔ ∃ i d, i < k ∧ found[i]? = some d ∧ key d.1 = x := by
  rw [keysBefore, List.mem_map]
  constructor
  · rintro ⟨d, hd, rfl⟩
    obtain ⟨i, hi⟩ := List.getElem?_of_mem hd
    rw [List.getElem?_take] at hi
    split at hi
    · next hik => exact ⟨i, d, hik, hi, rfl⟩
    · cases hi
  · rintro ⟨i, d, hik, hd, rfl⟩
    refine ⟨d, List.mem_of_getElem? (i := i) ?_, rfl⟩
    rw [List.getElem?_take_of_lt hik, hd]

theorem Explored.eq_of_key_eq (h : Explored key edges start found) (hd : found[k]? = some d)
    (he : found[l]? = some e) (heq : key d.1 = key e.1) : k = l := by
  have hk : k < (found.map fun e => key e.1).length := by
    rw [List.length_map]
    exact (List.getElem?_eq_some_iff.mp hd).1
  refine (List.getElem?_inj hk h.nodup).mp ?_
  rw [List.getElem?_map, List.getElem?_map, hd, he]
  exact congrArg some heq

/-- If the values found first lead to one another only, all values that are reached are among them.
-/
private theorem Explored.mem_keysBefore_of_reaches (h : Explored key edges start found)
    (hkey : ∀ a b, Reaches edges start a → Reaches edges start b → key a = key b → a = b)
    (hk : 0 < k) (hclosed : ∀ c ∈ targets (found.take k), key c ∈ keysBefore key found k) {a : α}
    (ha : Reaches edges start a) : key a ∈ keysBefore key found k := by
  induction ha with
  | refl => exact mem_keysBefore_iff.mpr ⟨0, _, hk, List.head?_eq_getElem? ▸ h.head, rfl⟩
  | @tail b c hb hbc ih =>
    obtain ⟨i, d, hi, hd, hdb⟩ := mem_keysBefore_iff.mp ih
    have hmem := List.mem_of_getElem? hd
    obtain rfl := hkey d.1 b (h.reached d hmem) hb hdb
    obtain ⟨x, hx⟩ := hbc
    rw [← h.edges_eq d hmem] at hx
    have htake : d ∈ found.take k :=
      List.mem_of_getElem? (i := i) (by rw [List.getElem?_take_of_lt hi, hd])
    exact hclosed c (mem_targets.mpr ⟨d, htake, x, hx⟩)

variable [Ord κ] [Std.TransOrd κ] [Std.LawfulEqOrd κ]

namespace ExploredInOrder

private theorem exists_targets_eq (h : ExploredInOrder key edges start found)
    (he : found[k]? = some e) (hk : 0 < k) :
    ∃ pre post, targets found = pre ++ e.1 :: post ∧ ∀ c ∈ pre, key c ∈ keysBefore key found k := by
  obtain ⟨j, rfl⟩ := Nat.exists_eq_succ_of_ne_zero hk.ne'
  have hget : (found.map Prod.fst)[j + 1]? = some e.1 := by
    rw [List.getElem?_map, he]
    rfl
  have hkeys : keysBefore key found (j + 1) =
      key start :: ((unseen key {key start} (targets found)).take j).map key := by
    have hcomp : keysBefore key found (j + 1) = ((found.map Prod.fst).take (j + 1)).map key := by
      rw [keysBefore, ← List.map_take, List.map_map]
      rfl
    rw [hcomp, h.map_fst_eq, List.take_succ_cons, List.map_cons]
  rw [h.map_fst_eq, List.getElem?_cons_succ] at hget
  obtain ⟨hlt, hget⟩ := List.getElem?_eq_some_iff.mp hget
  have hsplit : unseen key {key start} (targets found) =
      (unseen key {key start} (targets found)).take j ++
        e.1 :: (unseen key {key start} (targets found)).drop (j + 1) := by
    rw [← hget, ← List.drop_eq_getElem_cons hlt, List.take_append_drop]
  obtain ⟨pre, post, htargets, hpre⟩ := exists_of_unseen_eq hsplit
  refine ⟨pre, post, htargets, fun c hc => ?_⟩
  have hstart : Frontier key (fun _ => True) [key start] {key start} [start] [] :=
    frontier_start trivial
  rw [hkeys, List.mem_cons]
  exact (hpre c hc).imp_left fun hseen => List.mem_singleton.mp ((hstart.mem_seen_iff _).mp hseen)

/-- The edge by which a value is found. A value other than the start is found by an edge of an
earlier value, and what the edges before this one lead to is earlier, too. This determines the
numbering of states. -/
theorem exists_edge_before (h : ExploredInOrder key edges start found)
    (hkey : ∀ a b, Reaches edges start a → Reaches edges start b → key a = key b → a = b)
    (he : found[k]? = some e) (hk : 0 < k) :
    ∃ p d u x v, p < k ∧ found[p]? = some d ∧ d.2 = u ++ (x, e.1) :: v ∧
      ∀ c ∈ targets (found.take p) ++ u.map Prod.snd, key c ∈ keysBefore key found k := by
  obtain ⟨pre, post, htargets, hpre⟩ := h.exists_targets_eq he hk
  obtain ⟨p, d, u, x, v, hd, hrow, rfl⟩ := exists_row_of_targets_eq htargets
  refine ⟨p, d, u, x, v, ?_, hd, hrow, hpre⟩
  by_contra hle
  -- otherwise the values before would be closed under the edges, and this one be among them
  have hclosed : ∀ c ∈ targets (found.take k), key c ∈ keysBefore key found k := by
    intro c hc
    obtain ⟨d', hd', y, hy⟩ := mem_targets.mp hc
    have hsub : found.take k ⊆ found.take p := List.take_subset_take_left _ (Nat.le_of_not_lt hle)
    exact hpre c (List.mem_append_left _ (mem_targets.mpr ⟨d', hsub hd', y, hy⟩))
  have hreached := h.reached e (List.mem_of_getElem? he)
  obtain ⟨i, d', hi, hd', heq⟩ :=
    mem_keysBefore_iff.mp (h.mem_keysBefore_of_reaches hkey hk hclosed hreached)
  exact Nat.ne_of_lt hi (h.eq_of_key_eq hd' he heq)

end ExploredInOrder

end Order

end Recognizer
