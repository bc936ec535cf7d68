import Mathlib.Logic.Relation
import Recognizer.LR.Run

/-!
# Steps and runs of a parser

What the next step of a parser leads to depends on the stack and the input only, not on the numbers
it has counted. A run halts if no infinite sequence of steps begins with it, and then it has the
same result for all limits that are large enough.

## Main definitions

* `Table.Steps`: one step leads from one configuration to the other.
* `Position`, `Table.Moves`: what matters of a configuration, and one step between positions.
* `Table.Halts`: every sequence of steps from the position comes to an end.

## Main results

* `Table.step_eq_next_iff`, `Table.step_eq_accepted_iff`, `Table.step_eq_unexpected_iff`: what one
  step can do.
* `Table.Halts.of_reaches`: it is enough to halt after some steps.
* `Table.Halts.exists_runFrom`: a run that halts has a result.
-/

namespace Recognizer.LR

open Relation (ReflTransGen TransGen)

/-- The stack and the input of a parser. -/
abbrev Position := List Nat × List Symbol

/-- What the next steps depend on. The counts are left out. -/
def Config.position (c : Config) : Position := (c.stack, c.input)

namespace Table

variable {t : Table} {c d : Config} {p q : Position} {limit : Nat} {stats : Stats}
  {result : Except RunError Stats}

/-! ### Steps -/

/-- One step leads from one configuration to the other. -/
inductive Steps (t : Table) : Config → Config → Prop
  | shift {n m : Nat} {below : List Nat} {X Y : Symbol} {rest : List Symbol} {stats : Stats}
      (haction : t.action? n X = some (.shift m)) :
      Steps t ⟨n :: below, X :: Y :: rest, stats⟩
        ⟨m :: n :: below, Y :: rest, ⟨stats.tokens + 1, stats.shifts + 1, stats.reductions⟩⟩
  | reduce {n i top m : Nat} {below left : List Nat} {X : Symbol} {rest : List Symbol}
      {stats : Stats} {r : Rule} (haction : t.action? n X = some (.reduce i))
      (hr : t.grammar.rules[i]? = some r) (hdrop : (n :: below).drop r.arity = top :: left)
      (hgoto : t.goto? top r.lhs = some m) :
      Steps t ⟨n :: below, X :: rest, stats⟩
        ⟨m :: top :: left, X :: rest, { stats with reductions := stats.reductions + 1 }⟩

private theorem reduce_cases (t : Table) (c : Config) (i : Nat) :
    (∃ r top left m, t.grammar.rules[i]? = some r ∧ c.stack.drop r.arity = top :: left ∧
      t.goto? top r.lhs = some m ∧ t.reduce c i = .next ⟨m :: top :: left, c.input,
        { c.stats with reductions := c.stats.reductions + 1 }⟩) ∨
    ∃ error, t.reduce c i = .failed error := by
  rw [reduce]
  cases hr : t.grammar.rules[i]? with
  | none => exact Or.inr ⟨_, rfl⟩
  | some r =>
    cases hdrop : c.stack.drop r.arity with
    | nil =>
      simp only [hdrop]
      exact Or.inr ⟨_, rfl⟩
    | cons top left =>
      cases hgoto : t.goto? top r.lhs with
      | none =>
        simp only [hdrop, hgoto]
        exact Or.inr ⟨_, rfl⟩
      | some m =>
        simp only [hdrop, hgoto]
        exact Or.inl ⟨r, top, left, m, rfl, hdrop, hgoto, rfl⟩

/-- A step goes on, accepts in a cell that says so, or fails. -/
private theorem step_cases (t : Table) (c : Config) :
    (∃ d, t.Steps c d ∧ t.step c = .next d) ∨
    (∃ n below X rest, c = ⟨n :: below, X :: rest, c.stats⟩ ∧ t.action? n X = some .accept ∧
      t.step c = .accepted c.stats) ∨
    ∃ error, t.step c = .failed error := by
  obtain ⟨stack, input, stats⟩ := c
  cases stack with
  | nil => exact Or.inr (Or.inr ⟨_, rfl⟩)
  | cons n below =>
    cases input with
    | nil => exact Or.inr (Or.inr ⟨_, rfl⟩)
    | cons X rest =>
      cases haction : t.action? n X with
      | none => exact Or.inr (Or.inr ⟨.unexpected X n, by simp only [step, haction]⟩)
      | some action =>
        cases action with
        | accept =>
          have hstep : t.step ⟨n :: below, X :: rest, stats⟩ = .accepted stats := by
            simp only [step, haction]
          exact Or.inr (Or.inl ⟨n, below, X, rest, rfl, haction, hstep⟩)
        | shift m =>
          have hstep : t.step ⟨n :: below, X :: rest, stats⟩ =
              shift ⟨n :: below, X :: rest, stats⟩ m := by
            simp only [step, haction]
          rw [hstep]
          cases rest with
          | nil => exact Or.inr (Or.inr ⟨.endOfStream, rfl⟩)
          | cons Y rest => exact Or.inl ⟨_, .shift haction, rfl⟩
        | reduce i =>
          have hstep : t.step ⟨n :: below, X :: rest, stats⟩ =
              t.reduce ⟨n :: below, X :: rest, stats⟩ i := by
            simp only [step, haction]
          rw [hstep]
          rcases reduce_cases t ⟨n :: below, X :: rest, stats⟩ i with
            ⟨r, top, left, m, hr, hdrop, hgoto, hnext⟩ | hfailed
          · exact Or.inl ⟨_, .reduce haction hr hdrop hgoto, hnext⟩
          · exact Or.inr (Or.inr hfailed)

theorem step_eq_next_iff : t.step c = .next d ↔ t.Steps c d := by
  constructor
  · intro h
    rcases step_cases t c with ⟨d', hsteps, hnext⟩ | ⟨_, _, _, _, -, -, haccepted⟩ | ⟨_, hfailed⟩
    · rwa [Outcome.next.inj (h.symm.trans hnext)]
    · rw [h] at haccepted
      cases haccepted
    · rw [h] at hfailed
      cases hfailed
  · intro h
    cases h with
    | shift haction =>
      simp only [step, haction]
      rfl
    | reduce haction hr hdrop hgoto => simp only [step, haction, reduce, hr, hdrop, hgoto]

theorem step_eq_accepted_iff : t.step c = .accepted stats ↔
    ∃ n below X rest, c = ⟨n :: below, X :: rest, stats⟩ ∧ t.action? n X = some .accept := by
  constructor
  · intro h
    rcases step_cases t c with ⟨_, -, hnext⟩ | ⟨n, below, X, rest, heq, haction, haccepted⟩ |
      ⟨_, hfailed⟩
    · rw [h] at hnext
      cases hnext
    · rw [Outcome.accepted.inj (h.symm.trans haccepted)]
      exact ⟨n, below, X, rest, heq, haction⟩
    · rw [h] at hfailed
      cases hfailed
  · rintro ⟨n, below, X, rest, rfl, haction⟩
    simp only [step, haction]

/-- The table has no action for a token that is unexpected. -/
theorem step_eq_unexpected_iff {token : Symbol} {state : Nat} :
    t.step c = .failed (.unexpected token state) ↔
      ∃ below rest, c = ⟨state :: below, token :: rest, c.stats⟩ ∧
        t.action? state token = none := by
  constructor
  · intro h
    obtain ⟨stack, input, stats⟩ := c
    cases stack with
    | nil => cases h
    | cons n below =>
      cases input with
      | nil => cases h
      | cons X rest =>
        cases haction : t.action? n X with
        | none =>
          simp only [step, haction] at h
          cases h
          exact ⟨below, rest, rfl, haction⟩
        | some action =>
          simp only [step, haction] at h
          cases action with
          | accept => cases h
          | shift m => cases rest <;> cases h
          | reduce i =>
            simp only [reduce] at h
            split at h
            · cases h
            · split at h
              · cases h
              · split at h <;> cases h
  · rintro ⟨below, rest, hc, haction⟩
    rw [hc]
    simp only [step, haction]

/-! ### Positions -/

/-- One step leads from one position to the other. -/
def Moves (t : Table) (p q : Position) : Prop :=
  ∃ c d, t.Steps c d ∧ c.position = p ∧ d.position = q

theorem Steps.moves (h : t.Steps c d) : t.Moves c.position d.position := ⟨c, d, h, rfl, rfl⟩

/-- What has been counted has no influence on a step. -/
theorem Moves.exists_steps (h : t.Moves c.position q) : ∃ d, t.Steps c d ∧ d.position = q := by
  obtain ⟨c', d', hsteps, hc, rfl⟩ := h
  obtain ⟨stack, input, stats⟩ := c
  cases hsteps with
  | shift haction =>
    obtain ⟨rfl, rfl⟩ := Prod.mk.inj hc
    exact ⟨_, .shift haction, rfl⟩
  | reduce haction hr hdrop hgoto =>
    obtain ⟨rfl, rfl⟩ := Prod.mk.inj hc
    exact ⟨_, .reduce haction hr hdrop hgoto, rfl⟩

theorem Moves.deterministic {q' : Position} (h : t.Moves p q) (h' : t.Moves p q') : q = q' := by
  obtain ⟨c, d, hsteps, rfl, rfl⟩ := h
  obtain ⟨d', hsteps', rfl⟩ := h'.exists_steps
  have heq := (step_eq_next_iff.mpr hsteps).symm.trans (step_eq_next_iff.mpr hsteps')
  rw [Outcome.next.inj heq]

/-- What the action of the cell at the top of the stack makes of a position. -/
theorem moves_cons_iff {n : Nat} {below : List Nat} {X : Symbol} {rest : List Symbol} :
    t.Moves (n :: below, X :: rest) q ↔
      (∃ m, t.action? n X = some (.shift m) ∧ rest ≠ [] ∧ q = (m :: n :: below, rest)) ∨
      ∃ i r top left m, t.action? n X = some (.reduce i) ∧ t.grammar.rules[i]? = some r ∧
        (n :: below).drop r.arity = top :: left ∧ t.goto? top r.lhs = some m ∧
          q = (m :: top :: left, X :: rest) := by
  constructor
  · rintro ⟨c, d, hsteps, hc, rfl⟩
    cases hsteps with
    | shift haction =>
      obtain ⟨hstack, hinput⟩ := Prod.mk.inj hc
      obtain ⟨rfl, rfl⟩ := List.cons.inj hstack
      obtain ⟨rfl, rfl⟩ := List.cons.inj hinput
      exact Or.inl ⟨_, haction, List.cons_ne_nil _ _, rfl⟩
    | reduce haction hr hdrop hgoto =>
      obtain ⟨hstack, hinput⟩ := Prod.mk.inj hc
      obtain ⟨rfl, rfl⟩ := List.cons.inj hstack
      obtain ⟨rfl, rfl⟩ := List.cons.inj hinput
      exact Or.inr ⟨_, _, _, _, _, haction, hr, hdrop, hgoto, rfl⟩
  · rintro (⟨m, haction, hrest, rfl⟩ | ⟨i, r, top, left, m, haction, hr, hdrop, hgoto, rfl⟩)
    · obtain ⟨Y, rest, rfl⟩ := List.exists_cons_of_ne_nil hrest
      exact ⟨⟨_, _, ⟨0, 0, 0⟩⟩, _, .shift haction, rfl, rfl⟩
    · exact ⟨⟨_, _, ⟨0, 0, 0⟩⟩, _, .reduce haction hr hdrop hgoto, rfl, rfl⟩

/-! ### Runs that halt -/

/-- Every sequence of steps from the position comes to an end. Steps are deterministic, so there is
just one sequence to think of. -/
def Halts (t : Table) (p : Position) : Prop := Acc (fun q p => t.Moves p q) p

theorem halts_of_forall (h : ∀ q, t.Moves p q → t.Halts q) : t.Halts p := Acc.intro p h

/-- It is enough that a position is halted at which is reached. -/
theorem Halts.of_reaches (h : t.Halts q) (hpath : ReflTransGen t.Moves p q) : t.Halts p := by
  induction hpath using ReflTransGen.head_induction_on with
  | refl => exact h
  | head hmove _ ih => exact halts_of_forall fun q' hq' => hmove.deterministic hq' ▸ ih

theorem Halts.not_cycle (h : t.Halts p) : ¬ TransGen t.Moves p p := by
  induction h with
  | intro p _ ih =>
    intro hcycle
    obtain ⟨q, hmove, hpath⟩ := TransGen.head'_iff.mp hcycle
    exact ih q hmove (TransGen.tail'_iff.mpr ⟨p, hpath, hmove⟩)

theorem runFrom_of_steps (h : t.Steps c d) (limit : Nat) :
    t.runFrom (limit + 1) c = t.runFrom limit d := by
  rw [runFrom, step_eq_next_iff.mpr h]

/-- A run that halts has a result, if the limit is large enough. -/
theorem Halts.exists_runFrom (h : t.Halts c.position) :
    ∃ limit result, t.runFrom limit c = some result := by
  generalize hp : c.position = p at h
  induction h generalizing c with
  | intro p _ ih =>
    subst hp
    cases hstep : t.step c with
    | accepted stats => exact ⟨1, .ok stats, by rw [runFrom, hstep]⟩
    | failed error => exact ⟨1, .error error, by rw [runFrom, hstep]⟩
    | next d =>
      have hsteps := step_eq_next_iff.mp hstep
      obtain ⟨limit, result, hresult⟩ := ih d.position hsteps.moves rfl
      exact ⟨limit + 1, result, (runFrom_of_steps hsteps limit).trans hresult⟩

/-- A larger limit does not change the result. -/
theorem runFrom_add (h : t.runFrom limit c = some result) (more : Nat) :
    t.runFrom (limit + more) c = some result := by
  induction limit generalizing c with
  | zero => cases h
  | succ limit ih =>
    rw [Nat.succ_add]
    rw [runFrom] at h ⊢
    cases hstep : t.step c with
    | accepted stats =>
      rw [hstep] at h
      exact h
    | failed error =>
      rw [hstep] at h
      exact h
    | next d =>
      rw [hstep] at h
      exact ih h

/-- A run has one result. -/
theorem runFrom_unique {limit' : Nat} {result' : Except RunError Stats}
    (h : t.runFrom limit c = some result) (h' : t.runFrom limit' c = some result') :
    result = result' := by
  have hsum := runFrom_add h limit'
  rw [Nat.add_comm, runFrom_add h' limit] at hsum
  exact (Option.some.inj hsum).symm

/-- A run has the result that it has after some steps. -/
theorem exists_runFrom_of_reaches (hpath : ReflTransGen t.Moves c.position q) :
    ∃ d steps, d.position = q ∧ ∀ limit, t.runFrom (steps + limit) c = t.runFrom limit d := by
  generalize hp : c.position = p at hpath
  induction hpath using ReflTransGen.head_induction_on generalizing c with
  | refl => exact ⟨c, 0, hp, fun limit => by rw [Nat.zero_add]⟩
  | head hmove _ ih =>
    subst hp
    obtain ⟨c', hsteps, hc'⟩ := hmove.exists_steps
    obtain ⟨d, steps, hd, hrun⟩ := ih hc'
    refine ⟨d, steps + 1, hd, fun limit => ?_⟩
    rw [Nat.add_right_comm, runFrom_of_steps hsteps, hrun]

/-- A run that has ended has come to a configuration whose step ends it. -/
private theorem exists_last_of_runFrom (h : t.runFrom limit c = some result) :
    ∃ d, ReflTransGen t.Steps c d ∧ t.runFrom 1 d = some result := by
  induction limit generalizing c with
  | zero => cases h
  | succ limit ih =>
    cases hstep : t.step c with
    | next d =>
      have hsteps := step_eq_next_iff.mp hstep
      rw [runFrom_of_steps hsteps] at h
      obtain ⟨d', hpath, hlast⟩ := ih h
      exact ⟨d', .head hsteps hpath, hlast⟩
    | accepted stats =>
      rw [runFrom, hstep] at h
      exact ⟨c, .refl, by rw [runFrom, hstep, ← h]⟩
    | failed e =>
      rw [runFrom, hstep] at h
      exact ⟨c, .refl, by rw [runFrom, hstep, ← h]⟩

/-- A run that fails has come to a configuration whose step fails. -/
theorem exists_failed_of_runFrom {e : RunError} (h : t.runFrom limit c = some (.error e)) :
    ∃ d, ReflTransGen t.Steps c d ∧ t.step d = .failed e := by
  obtain ⟨d, hpath, hlast⟩ := exists_last_of_runFrom h
  refine ⟨d, hpath, ?_⟩
  rw [runFrom] at hlast
  split at hlast
  · cases hlast
  · cases hlast
  · next e' hstep => rw [hstep, Except.error.inj (Option.some.inj hlast)]

/-- A run that accepts has come to a configuration whose step accepts. -/
theorem exists_accepted_of_runFrom (h : t.runFrom limit c = some (.ok stats)) :
    ∃ d, ReflTransGen t.Steps c d ∧ t.step d = .accepted stats := by
  obtain ⟨d, hpath, hlast⟩ := exists_last_of_runFrom h
  refine ⟨d, hpath, ?_⟩
  rw [runFrom] at hlast
  split at hlast
  · cases hlast
  · next stats' hstep => rw [hstep, Except.ok.inj (Option.some.inj hlast)]
  · cases hlast

end Table

end Recognizer.LR
