import Std.Data.ExtTreeSet

/-!
# Breadth-first exploration

All values that can be reached from a start along labelled edges, in the order of their discovery:
the values found from an earlier one come before those found from a later one, and the edges of one
value are followed in their given order. Values are told apart by a key; a value with a key that was
seen before is not found again. The exploration goes level by level: the edges of all values of one
level lead to the next.

A value may fail to have edges. Then the exploration ends with the failure, and the values that come
after it are not looked at.

## Main definitions

* `unseen key seen l`: the values of `l` with keys that are neither seen nor repeated.
* `breadthFirst key edges bound start`: every value found, with its edges, in the order of
  discovery.
* `breadthFirstM key edges bound start`: the same for edges that may fail to exist.

## Main results

* `breadthFirstM_eq_ok_iff`: an exploration that can fail succeeds if every value found has edges,
  and it finds what the exploration of these edges finds.
-/

namespace Recognizer

variable {α κ label ε : Type} [Ord κ] [Std.TransOrd κ]

/-- The values whose keys are not seen yet, each key once and in order. A key counts as seen from
its first value on, so of several new values with one key the first one stays. -/
def unseen (key : α → κ) : Std.ExtTreeSet κ → List α → List α
  | _, [] => []
  | seen, a :: as =>
    if key a ∈ seen then unseen key seen as else a :: unseen key (seen.insert (key a)) as

/-- The values that the edges of some values lead to. -/
def targets (found : List (α × List (label × α))) : List α :=
  found.flatMap fun e => e.2.map Prod.snd

/-- The exploration from the values of a level on, of at most `bound` levels. The keys in `seen` are
those of this level and of all before it; each value is listed with its edges, and the next level
holds what these lead to and was not seen. -/
def exploreLevels (key : α → κ) (edges : α → List (label × α)) :
    Nat → Std.ExtTreeSet κ → List α → List (α × List (label × α))
  | bound + 1, seen, a :: level =>
    let found := (a :: level).map fun a => (a, edges a)
    let next := unseen key seen (targets found)
    found ++ exploreLevels key edges bound (seen.insertMany (next.map key)) next
  | _, _, _ => []

/-- Every value that the edges lead to from `start`, with its own edges, in the order of discovery.
The bound is a number that the number of keys does not exceed; then no level is left out, and a
larger bound finds the same. -/
def breadthFirst (key : α → κ) (edges : α → List (label × α)) (bound : Nat) (start : α) :
    List (α × List (label × α)) :=
  exploreLevels key edges bound {key start} [start]

/-! ### Edges that may fail to exist -/

/-- The exploration from the values of a level on, where a value may fail to have edges. -/
def exploreLevelsM {m : Type → Type} [Monad m] (key : α → κ) (edges : α → m (List (label × α))) :
    Nat → Std.ExtTreeSet κ → List α → m (List (α × List (label × α)))
  | bound + 1, seen, a :: level => do
    let found ← (a :: level).mapM fun a => return (a, ← edges a)
    let next := unseen key seen (targets found)
    return found ++ (← exploreLevelsM key edges bound (seen.insertMany (next.map key)) next)
  | _, _, _ => return []

/-- Every value that the edges lead to from `start`, where a value may fail to have edges; the first
failure in the order of discovery ends the exploration. -/
def breadthFirstM {m : Type → Type} [Monad m] (key : α → κ) (edges : α → m (List (label × α)))
    (bound : Nat) (start : α) : m (List (α × List (label × α))) :=
  exploreLevelsM key edges bound {key start} [start]

/-- The edges of a value, or none if they do not exist. -/
def existingEdges (edges : α → Except ε (List (label × α))) (a : α) : List (label × α) :=
  (edges a).toOption.getD []

omit [Ord κ] [Std.TransOrd κ] in
theorem existingEdges_of_ok {edges : α → Except ε (List (label × α))} {a : α}
    {out : List (label × α)} (h : edges a = .ok out) : existingEdges edges a = out := by
  rw [existingEdges, h]
  rfl

theorem mapM_edges_eq_ok_iff (edges : α → Except ε (List (label × α))) (level : List α)
    (found : List (α × List (label × α))) :
    level.mapM (fun a => return (a, ← edges a)) = Except.ok found ↔
      level.map (fun a => (a, existingEdges edges a)) = found ∧
        ∀ e ∈ found, edges e.1 = .ok e.2 := by
  induction level generalizing found with
  | nil => simp +contextual [pure, Except.pure, eq_comm]
  | cons a level ih =>
    rw [List.mapM_cons, List.map_cons]
    cases hout : edges a with
    | error cause =>
      constructor
      · rintro ⟨⟩
      · rintro ⟨rfl, h⟩
        have := h _ List.mem_cons_self
        simp [hout] at this
    | ok out =>
      rw [existingEdges_of_ok hout]
      cases hrest : level.mapM (m := Except ε) fun a => return (a, ← edges a) with
      | error cause =>
        constructor
        · rintro ⟨⟩
        · rintro ⟨rfl, h⟩
          have := (ih _).mpr ⟨rfl, (List.forall_mem_cons.mp h).2⟩
          rw [hrest] at this
          cases this
      | ok rest =>
        obtain ⟨hmap, hedges⟩ := (ih rest).mp hrest
        rw [hmap]
        constructor
        · rintro ⟨⟩
          exact ⟨rfl, List.forall_mem_cons.mpr ⟨hout, hedges⟩⟩
        · rintro ⟨rfl, -⟩
          rfl

theorem exploreLevelsM_cons (key : α → κ) {edges : α → Except ε (List (label × α))} (bound : Nat)
    (seen : Std.ExtTreeSet κ) {a : α} {level : List α}
    (h : ∀ b ∈ a :: level, edges b = .ok (existingEdges edges b)) :
    exploreLevelsM key edges (bound + 1) seen (a :: level) =
      let found := (a :: level).map fun a => (a, existingEdges edges a)
      let next := unseen key seen (targets found)
      (found ++ ·) <$> exploreLevelsM key edges bound (seen.insertMany (next.map key)) next := by
  rw [exploreLevelsM, (mapM_edges_eq_ok_iff edges (a :: level) _).mpr ⟨rfl, by simpa using h⟩]
  rfl

theorem exploreLevelsM_eq_ok_iff (key : α → κ) (edges : α → Except ε (List (label × α)))
    (bound : Nat) (seen : Std.ExtTreeSet κ) (level : List α)
    (found : List (α × List (label × α))) :
    exploreLevelsM key edges bound seen level = .ok found ↔
      exploreLevels key (existingEdges edges) bound seen level = found ∧
        ∀ e ∈ found, edges e.1 = .ok e.2 := by
  induction bound generalizing seen level found with
  | zero => simp +contextual [exploreLevelsM, exploreLevels, pure, Except.pure, eq_comm]
  | succ bound ih =>
    cases level with
    | nil => simp +contextual [exploreLevelsM, exploreLevels, pure, Except.pure, eq_comm]
    | cons a level =>
      have hlevel := mapM_edges_eq_ok_iff edges (a :: level)
      rw [exploreLevels]
      constructor
      · intro h
        cases hnow : (a :: level).mapM (m := Except ε) fun a => return (a, ← edges a) with
        | error cause =>
          rw [exploreLevelsM, hnow] at h
          cases h
        | ok now =>
          obtain ⟨rfl, hedges⟩ := (hlevel now).mp hnow
          rw [exploreLevelsM_cons key bound seen (by simpa using hedges)] at h
          dsimp only at h ⊢
          revert h
          generalize unseen key seen (targets ((a :: level).map _)) = next
          cases hlater : exploreLevelsM key edges bound (seen.insertMany (next.map key)) next with
          | error cause => rintro ⟨⟩
          | ok later =>
            obtain ⟨rfl, hlaterEdges⟩ := (ih _ _ later).mp hlater
            rintro ⟨⟩
            exact ⟨rfl, List.forall_mem_append.mpr ⟨hedges, hlaterEdges⟩⟩
      · rintro ⟨rfl, h⟩
        obtain ⟨hedges, hlaterEdges⟩ := List.forall_mem_append.mp h
        rw [exploreLevelsM_cons key bound seen (by simpa using hedges)]
        dsimp only
        rw [(ih _ _ _).mpr ⟨rfl, hlaterEdges⟩]
        rfl

/-- Explorations that can fail. An exploration that can fail succeeds if and only if every value
found has edges, and it then finds what the exploration of these edges finds. So what is proved of
explorations that cannot fail holds of successful ones. -/
theorem breadthFirstM_eq_ok_iff (key : α → κ) (edges : α → Except ε (List (label × α)))
    (bound : Nat) (start : α) (found : List (α × List (label × α))) :
    breadthFirstM key edges bound start = .ok found ↔
      breadthFirst key (existingEdges edges) bound start = found ∧
        ∀ e ∈ found, edges e.1 = .ok e.2 :=
  exploreLevelsM_eq_ok_iff key edges bound {key start} [start] found

end Recognizer
