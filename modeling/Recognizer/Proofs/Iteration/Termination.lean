import Recognizer.Iteration.Saturate
import Recognizer.Proofs.Iteration.Discovery
import Recognizer.Proofs.Iteration.Results

/-!
# Loops that end by themselves

The loops of the library run within bounds. A loop without a bound is described by a relation that
has a case for each way in which its next round can go, so that it holds of a result only if the
loop comes to this result after finitely many rounds. If the bound of a loop is large enough, the
loop ends without it, and with the same result.

## Main definitions

* `Settles`: a step is repeated until it changes nothing.
* `Explores`: an exploration goes on until a level is empty or some value has no edges.
* `Drains`: values are taken from a queue, and new ones put at its end, until it is empty.

## Main results

* `settles_saturate`: a repetition that has led to a fixed point ends there without its bound.
* `Settles.exists_iterate_eq`: how often the step is repeated does not matter in the end.
* `explores_breadthFirstM`: an exploration that is not cut off ends without its bound.
* `Explores.exists_error`: an exploration fails because of a value that it reaches.
* `drains_breadthFirst`: an exploration that is not cut off is the work of a queue.
-/

namespace Recognizer

/-! ### Repeated steps -/

section Settles

variable {σ : Type} {step : σ → σ} {s t : σ}

/-- The step, repeated until it changes nothing, leads to `t`. There is a case for each way in which
a round can go and no bound, so it holds of a result only if the repetition ends there. -/
inductive Settles (step : σ → σ) : σ → σ → Prop
  | done {s : σ} (h : step s = s) : Settles step s s
  | round {s t : σ} (h : step s ≠ s) (ht : Settles step (step s) t) : Settles step s t

/-- Repetitions end. If the bound suffices for a fixed point, the repetition ends there without
it. -/
theorem settles_saturate [DecidableEq σ] {bound : Nat}
    (h : step (saturate step bound s) = saturate step bound s) :
    Settles step s (saturate step bound s) := by
  induction bound generalizing s with
  | zero => exact .done h
  | succ bound ih =>
    rw [saturate] at h ⊢
    split at h
    · next hs =>
      rw [if_pos hs]
      exact .done hs
    · next hs =>
      rw [if_neg hs]
      exact .round hs (ih h)

/-- From some number of repetitions on, all numbers lead to the result. -/
theorem Settles.exists_iterate_eq (h : Settles step s t) :
    ∃ n, ∀ k, n ≤ k → step^[k] s = t := by
  induction h with
  | done h => exact ⟨0, fun k _ => Function.iterate_fixed h k⟩
  | round _ _ ih =>
    obtain ⟨n, hn⟩ := ih
    refine ⟨n + 1, fun k hk => ?_⟩
    obtain ⟨k, rfl⟩ := Nat.exists_eq_add_of_le' (Nat.le_trans (Nat.le_add_left 1 n) hk)
    rw [Function.iterate_succ_apply]
    exact hn k (Nat.le_of_succ_le_succ hk)

end Settles

/-! ### Explorations -/

section Explores

variable {α κ label ε : Type} [Ord κ] [Std.TransOrd κ] {key : α → κ}
  {edges : α → Except ε (List (label × α))} {seen : Std.ExtTreeSet κ} {level : List α}
  {result : Except ε (List (α × List (label × α)))} {cause : ε}

/-- The exploration of a level and of those after it, with some keys seen before, ends with the
result: with all that was found if a level is empty, or with the failure of the first value that has
no edges. -/
inductive Explores (key : α → κ) (edges : α → Except ε (List (label × α))) :
    Std.ExtTreeSet κ → List α → Except ε (List (α × List (label × α))) → Prop
  | done {seen : Std.ExtTreeSet κ} : Explores key edges seen [] (.ok [])
  | failed {seen : Std.ExtTreeSet κ} {level : List α} {cause : ε}
      (h : level.mapM (fun a => return (a, ← edges a)) = Except.error cause) :
      Explores key edges seen level (.error cause)
  | round {seen : Std.ExtTreeSet κ} {level : List α} {found : List (α × List (label × α))}
      {result : Except ε (List (α × List (label × α)))} (hne : level ≠ [])
      (h : level.mapM (fun a => return (a, ← edges a)) = Except.ok found)
      (hnext : Explores key edges
        (seen.insertMany ((unseen key seen (targets found)).map key))
        (unseen key seen (targets found)) result) :
      Explores key edges seen level ((found ++ ·) <$> result)

/-- Why an exploration fails. Its failure is that of a value which the exploration reaches from one
of the level. -/
theorem Explores.exists_error (h : Explores key edges seen level (.error cause)) :
    ∃ a ∈ level, ∃ b, Reaches (existingEdges edges) a b ∧ edges b = .error cause := by
  generalize hresult : Except.error cause = result at h
  induction h with
  | done => cases hresult
  | failed h =>
    cases hresult
    obtain ⟨a, ha, hcause⟩ := exists_of_mapM_eq_error h
    rcases bind_eq_error_iff.mp hcause with hcause | ⟨out, -, hcause⟩
    · exact ⟨a, ha, a, .refl, hcause⟩
    · cases hcause
  | @round seen level found result _ h _ ih =>
    have hlater : Except.error cause = result := by
      cases result with
      | error cause' =>
        cases hresult
        rfl
      | ok later => cases hresult
    obtain ⟨b, hb, c, hbc, hcause⟩ := ih hlater
    -- the value leads back to the level by the edge that found its start
    obtain ⟨rfl, -⟩ := (mapM_edges_eq_ok_iff edges level found).mp h
    obtain ⟨e, he, l, hl⟩ := mem_targets.mp (mem_of_mem_unseen hb).1
    obtain ⟨a, ha, rfl⟩ := List.mem_map.mp he
    exact ⟨a, ha, c, .head ⟨l, hl⟩ hbc, hcause⟩

variable [Std.LawfulEqOrd κ] [DecidableEq κ] {done keys : List κ} {P : α → Prop} {bound : Nat}

private theorem Frontier.explores (h : Frontier key P keys seen level done)
    (hP : ∀ a b, P a → Edge (existingEdges edges) a b → P b) (hkeys : ∀ a, P a → key a ∈ keys)
    (hbound : keys.length ≤ bound + done.length) :
    Explores key edges seen level (exploreLevelsM key edges bound seen level) := by
  refine h.induction (motive := fun bound seen level _ =>
    Explores key edges seen level (exploreLevelsM key edges bound seen level))
    hP hkeys hbound ?_ ?_
  · intro bound seen done _
    cases bound <;> exact .done
  · intro bound seen a level done _ ih
    cases hnow : (a :: level).mapM (m := Except ε) fun a => return (a, ← edges a) with
    | error cause =>
      rw [exploreLevelsM, hnow]
      exact .failed hnow
    | ok now =>
      obtain ⟨rfl, hedges⟩ := (mapM_edges_eq_ok_iff edges (a :: level) now).mp hnow
      rw [exploreLevelsM_cons key bound seen (by simpa using hedges)]
      exact .round (List.cons_ne_nil a level) hnow ih

/-- Explorations end. An exploration ends without its bound if the keys of all values that can be
reached lie in a list no longer than the bound, and what it finds with the bound is the result. -/
theorem explores_breadthFirstM {start : α} (hstart : P start)
    (hP : ∀ a b, P a → Edge (existingEdges edges) a b → P b) (hkeys : ∀ a, P a → key a ∈ keys)
    (hbound : keys.length ≤ bound) :
    Explores key edges {key start} [start] (breadthFirstM key edges bound start) :=
  (frontier_start hstart).explores hP hkeys (by simpa using hbound)

end Explores

/-! ### Queues -/

section Drains

variable {α κ label : Type} [Ord κ] [Std.TransOrd κ] {key : α → κ} {edges : α → List (label × α)}
  {seen : Std.ExtTreeSet κ} {level pending : List α} {found : List (α × List (label × α))}

/-- Values are taken from the front of the queue, and those that their edges lead to are put at its
end unless they have been seen before. When the queue is empty, these values have been found. -/
inductive Drains (key : α → κ) (edges : α → List (label × α)) :
    Std.ExtTreeSet κ → List α → List (α × List (label × α)) → Prop
  | done {seen : Std.ExtTreeSet κ} : Drains key edges seen [] []
  | pop {seen : Std.ExtTreeSet κ} {a : α} {queue : List α} {found : List (α × List (label × α))}
      (h : Drains key edges
        (seen.insertMany ((unseen key seen ((edges a).map Prod.snd)).map key))
        (queue ++ unseen key seen ((edges a).map Prod.snd)) found) :
      Drains key edges seen (a :: queue) ((a, edges a) :: found)

/-- While the values of a level are taken from the queue, the next level gathers at its end. -/
theorem Drains.level_append
    (h : Drains key edges (seen.insertMany ((nextLevel key edges seen level).map key))
      (pending ++ nextLevel key edges seen level) found) :
    Drains key edges seen (level ++ pending) (level.map (fun a => (a, edges a)) ++ found) := by
  induction level generalizing seen pending with
  | nil => simpa [nextLevel, targets, unseen] using h
  | cons a level ih =>
    have hnext : nextLevel key edges seen (a :: level) =
        unseen key seen ((edges a).map Prod.snd) ++ nextLevel key edges
          (seen.insertMany ((unseen key seen ((edges a).map Prod.snd)).map key)) level :=
      unseen_append key seen _ _
    rw [hnext, List.map_append, Std.ExtTreeSet.insertMany_append, ← List.append_assoc] at h
    have hrest := ih h
    rw [← List.append_assoc] at hrest
    exact .pop hrest

variable [Std.LawfulEqOrd κ] [DecidableEq κ] {done keys : List κ} {P : α → Prop} {bound : Nat}

private theorem Frontier.drains (h : Frontier key P keys seen level done)
    (hP : ∀ a b, P a → Edge edges a b → P b) (hkeys : ∀ a, P a → key a ∈ keys)
    (hbound : keys.length ≤ bound + done.length) :
    Drains key edges seen level (exploreLevels key edges bound seen level) := by
  refine h.induction (motive := fun bound seen level _ =>
    Drains key edges seen level (exploreLevels key edges bound seen level))
    hP hkeys hbound ?_ ?_
  · intro bound seen done _
    cases bound <;> exact .done
  · intro bound seen a level done _ ih
    have hlevel : Drains key edges seen (a :: level ++ []) _ := Drains.level_append ih
    rwa [List.append_nil, ← exploreLevels_succ] at hlevel

/-- Explorations are the work of a queue. If the keys of all values that can be reached lie in a
list no longer than the bound, taking values from a queue one by one finds the same, in the same
order, as going level by level. -/
theorem drains_breadthFirst {start : α} (hstart : P start)
    (hP : ∀ a b, P a → Edge edges a b → P b) (hkeys : ∀ a, P a → key a ∈ keys)
    (hbound : keys.length ≤ bound) :
    Drains key edges {key start} [start] (breadthFirst key edges bound start) :=
  (frontier_start hstart).drains hP hkeys (by simpa using hbound)

end Drains

end Recognizer
