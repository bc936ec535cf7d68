import Mathlib.Data.Set.Card
import Recognizer.Proofs.LR.Conflicts

/-!
# How clashes are settled

The candidates for a cell come one after the other, and each clash is settled between the action
that is in the cell and a new one. What is kept in the end depends on the policy and on the set of
candidates, not on their order: acceptance, or else the shift or the reduction by the first rule,
whichever the policy prefers, or else the other. Every other candidate is discarded once, so a cell
has one clash less than candidates.

A clash records what was kept when it arose. A later clash of the cell may discard this again, so
the record agrees with the finished table if and only if no later one does.

## Main definitions

* `Policy.Keeps`: the action that a policy keeps of some candidates.
* `Table.conflictsIn`: the clashes of a cell.
* `Table.Resolves`: what has become of some candidates for a cell.
* `Table.IsResolved`: every cell of a table has been settled by its candidates.
* `Table.KeepsOrDiscards`: what a clash has kept is in its cell, or a later clash has discarded it.

## Main results

* `Policy.Keeps.choose`: a further candidate.
* `Table.Resolves.insertAll`: the candidates for a cell, one after the other.
* `Table.exists_isResolved_of_construct`: the tables of the automata of a grammar.
* `Table.action?_eq_kept_iff`: when a record of a clash agrees with the finished table.
-/

namespace Recognizer.LR

open Automaton (Candidate)

variable {g : Grammar} {a : Automaton} {policy : Policy} {t : Table} {cs : List (Cell × Action)}
  {cell : Cell} {c : Conflict} {C D : Action → Prop} {x y new : Action} {l : List Action}

/-! ### What a policy keeps -/

namespace Policy

/-- The action that the policy keeps of some candidates: acceptance, or else the shift or the
reduction by the first rule, whichever the policy prefers, or else the other. -/
inductive Keeps (policy : Policy) (C : Action → Prop) : Action → Prop
  | accept (h : C .accept) : Keeps policy C .accept
  | shift {m : Nat} (h : C (.shift m)) (haccept : ¬ C .accept)
      (hreduce : policy = .preferReduce → ∀ i, ¬ C (.reduce i)) : Keeps policy C (.shift m)
  | reduce {i : Nat} (h : C (.reduce i)) (haccept : ¬ C .accept)
      (hshift : policy = .preferShift → ∀ m, ¬ C (.shift m))
      (hfirst : ∀ j, C (.reduce j) → i ≤ j) : Keeps policy C (.reduce i)

/-- All shifts among the candidates go to the same state, as those of a cell do, since they follow
one transition. -/
def HasOneShift (C : Action → Prop) : Prop := ∀ m n, C (.shift m) → C (.shift n) → m = n

theorem Keeps.mem (h : policy.Keeps C x) : C x := by
  cases h with
  | accept h => exact h
  | shift h => exact h
  | reduce h => exact h

theorem Keeps.congr (h : policy.Keeps C x) (hCD : ∀ y, C y ↔ D y) : policy.Keeps D x := by
  obtain rfl : C = D := funext fun y => propext (hCD y)
  exact h

theorem keeps_single (policy : Policy) (x : Action) : policy.Keeps (· = x) x := by
  cases x with
  | accept => exact .accept rfl
  | shift m => exact .shift rfl nofun nofun
  | reduce i => exact .reduce rfl nofun nofun fun j hj => (Action.reduce.inj hj).ge

/-- Only one of the candidates is kept, so a policy and a set of candidates determine the action. -/
theorem Keeps.unique (hx : policy.Keeps C x) (hy : policy.Keeps C y) (hone : HasOneShift C) :
    x = y := by
  cases hx with
  | accept hx =>
    cases hy with
    | accept => rfl
    | shift _ haccept => exact absurd hx haccept
    | reduce _ haccept => exact absurd hx haccept
  | shift hx haccept hreduce =>
    cases hy with
    | accept hy => exact absurd hy haccept
    | shift hy => rw [hone _ _ hx hy]
    | reduce hy _ hshift =>
      cases policy with
      | preferShift => exact absurd hx (hshift rfl _)
      | preferReduce => exact absurd hy (hreduce rfl _)
  | reduce hx haccept hshift hfirst =>
    cases hy with
    | accept hy => exact absurd hy haccept
    | shift hy _ hreduce =>
      cases policy with
      | preferShift => exact absurd hy (hshift rfl _)
      | preferReduce => exact absurd hx (hreduce rfl _)
    | reduce hy _ _ hfirst' => rw [Nat.le_antisymm (hfirst _ hy) (hfirst' _ hx)]

/-- With a further candidate, the policy keeps what it chooses between this one and what it has kept
before. -/
theorem Keeps.choose (h : policy.Keeps C x) (hone : HasOneShift fun z => C z ∨ z = new) :
    policy.Keeps (fun z => C z ∨ z = new) (policy.choose x new) := by
  cases h with
  | accept h => exact .accept (Or.inl h)
  | @shift m h haccept hreduce =>
    cases new with
    | accept => exact .accept (Or.inr rfl)
    | shift n =>
      obtain rfl := hone m n (Or.inl h) (Or.inr rfl)
      have hsame : policy.choose (.shift m) (.shift m) = .shift m := by cases policy <;> rfl
      rw [hsame]
      exact .shift (Or.inl h) (by simpa using haccept) fun hpolicy i => by
        simpa using hreduce hpolicy i
    | reduce j =>
      cases policy with
      | preferShift => exact .shift (Or.inl h) (by simpa using haccept) nofun
      | preferReduce =>
        refine .reduce (Or.inr rfl) (by simpa using haccept) nofun ?_
        rintro k (hk | hk)
        · exact absurd hk (hreduce rfl k)
        · exact (Action.reduce.inj hk).ge
  | @reduce i h haccept hshift hfirst =>
    cases new with
    | accept => exact .accept (Or.inr rfl)
    | shift n =>
      cases policy with
      | preferShift => exact .shift (Or.inr rfl) (by simpa using haccept) nofun
      | preferReduce =>
        exact .reduce (Or.inl h) (by simpa using haccept) nofun fun k hk =>
          hfirst k (by simpa using hk)
    | reduce j =>
      change Keeps _ _ (.reduce (min i j))
      refine .reduce ?_ (by simpa using haccept) (fun hpolicy m => by simpa using hshift hpolicy m)
        ?_
      · rcases Nat.le_total i j with hij | hij
        · exact Or.inl (by rwa [Nat.min_eq_left hij])
        · exact Or.inr (by rw [Nat.min_eq_right hij])
      · rintro k (hk | hk)
        · exact (Nat.min_le_left i j).trans (hfirst k hk)
        · rw [Action.reduce.inj hk]
          exact Nat.min_le_right i j

end Policy

/-! ### The candidates for one cell -/

namespace Table

/-- The clashes of a cell, in the order in which they arose. -/
def conflictsIn (t : Table) (cell : Cell) : List Conflict :=
  t.conflicts.filter fun c => c.cell = cell

/-- The table has settled the cell between these candidates. -/
structure Resolves (policy : Policy) (cell : Cell) (l : List Action) (t : Table) : Prop where
  /-- The cell is empty only if there are none. -/
  empty : t.actions.get? cell = none → l = []
  /-- The policy keeps the action of the cell. -/
  keeps : ∀ x, t.actions.get? cell = some x → policy.Keeps (· ∈ l) x
  /-- Every candidate is in the cell or has been discarded, and only once. -/
  perm : ((t.actions.get? cell).toList ++ (t.conflictsIn cell).map Conflict.discarded).Perm l

/-- Of two different actions, one is kept, and the other is recorded as discarded. -/
theorem insert_eq_of_ne (policy : Policy) (hget : t.actions.get? cell = some x) (hne : x ≠ new) :
    ∃ discarded, [policy.choose x new, discarded].Perm [x, new] ∧
      t.insert policy cell new = { t with
        actions := t.actions.insert cell (policy.choose x new)
        conflicts := t.conflicts ++ [⟨cell, policy.choose x new, discarded⟩] } := by
  rw [insert, hget]
  simp only [if_neg hne]
  refine ⟨_, ?_, rfl⟩
  rcases choose_eq_or_eq policy x new with hkept | hkept
  · rw [if_pos hkept, hkept]
  · rw [if_neg fun h => hne (h.symm.trans hkept), hkept]
    exact .swap ..

theorem Resolves.insert_of_ne {other : Cell} (h : t.Resolves policy cell l) (hne : cell ≠ other)
    (new : Action) : (t.insert policy other new).Resolves policy cell l := by
  have hsame : (t.insert policy other new).actions.get? cell = t.actions.get? cell ∧
      (t.insert policy other new).conflictsIn cell = t.conflictsIn cell := by
    rcases insert_cases policy t other new with ⟨-, heq⟩ | ⟨-, heq⟩ |
      ⟨existing, kept, discarded, -, -, -, heq⟩
    · rw [heq, SortedMap.get?_insert, if_neg hne]
      exact ⟨rfl, rfl⟩
    · rw [heq]
      exact ⟨rfl, rfl⟩
    · rw [heq, SortedMap.get?_insert, if_neg hne]
      refine ⟨rfl, ?_⟩
      simp [conflictsIn, List.filter_append, Ne.symm hne]
  obtain ⟨hget, hconflicts⟩ := hsame
  refine ⟨?_, ?_, ?_⟩
  · rw [hget]
    exact h.empty
  · rw [hget]
    exact h.keeps
  · rw [hget, hconflicts]
    exact h.perm

private theorem perm_of_pair {kept discarded : Action} {before : List Action}
    (hpair : [kept, discarded].Perm [x, new]) (hperm : (x :: before).Perm l) :
    (kept :: (before ++ [discarded])).Perm (l ++ [new]) :=
  calc (kept :: (before ++ [discarded])).Perm ([kept, discarded] ++ before) :=
        (List.perm_append_singleton discarded before).cons kept
    List.Perm _ ([x, new] ++ before) := hpair.append_right before
    List.Perm _ (x :: before ++ [new]) := (List.perm_append_singleton new before).symm.cons x
    List.Perm _ (l ++ [new]) := hperm.append_right [new]

/-- A new candidate for the cell is kept or discarded. -/
theorem Resolves.insert (h : t.Resolves policy cell l) (hnew : new ∉ l)
    (hone : Policy.HasOneShift (· ∈ l ++ [new])) :
    (t.insert policy cell new).Resolves policy cell (l ++ [new]) := by
  have hperm := h.perm
  cases hget : t.actions.get? cell with
  | none =>
    obtain rfl := h.empty hget
    have heq : t.insert policy cell new = { t with actions := t.actions.insert cell new } := by
      rw [Table.insert, hget]
    rw [heq]
    refine ⟨?_, fun x hx => ?_, ?_⟩
    · simp [SortedMap.get?_insert]
    · rw [SortedMap.get?_insert, if_pos rfl, Option.some.injEq] at hx
      subst hx
      exact (policy.keeps_single new).congr fun y => by simp
    · rw [hget, Option.toList_none, List.nil_append] at hperm
      rw [SortedMap.get?_insert, if_pos rfl]
      change ([new] ++ (t.conflictsIn cell).map Conflict.discarded).Perm [new]
      rw [hperm.eq_nil]
      exact .refl _
  | some x =>
    have hkeeps := h.keeps x hget
    have hne : x ≠ new := fun heq => hnew (heq ▸ hkeeps.mem)
    obtain ⟨discarded, hpair, heq⟩ := insert_eq_of_ne policy hget hne
    rw [heq]
    refine ⟨?_, fun y hy => ?_, ?_⟩
    · simp [SortedMap.get?_insert]
    · rw [SortedMap.get?_insert, if_pos rfl, Option.some.injEq] at hy
      subst hy
      have hiff (z : Action) : z ∈ l ∨ z = new ↔ z ∈ l ++ [new] := by simp
      refine (hkeeps.choose fun m n hm hn => ?_).congr hiff
      exact hone m n ((hiff _).mp hm) ((hiff _).mp hn)
    · rw [SortedMap.get?_insert, if_pos rfl, conflictsIn, List.filter_append]
      simp only [decide_true, List.filter_cons_of_pos, List.filter_nil, List.map_append,
        List.map_cons, List.map_nil, Option.toList_some]
      rw [hget, Option.toList_some] at hperm
      exact perm_of_pair hpair hperm

/-- The candidates for a cell, in their order. -/
def candidatesFor (cell : Cell) (cs : List (Cell × Action)) : List Action :=
  (cs.filter fun e => e.1 = cell).map Prod.snd

theorem mem_candidatesFor : x ∈ candidatesFor cell cs ↔ (cell, x) ∈ cs := by
  simp [candidatesFor]

theorem nodup_candidatesFor (hcs : cs.Nodup) (cell : Cell) : (candidatesFor cell cs).Nodup := by
  refine (hcs.filter _).map_on fun e he e' he' heq => Prod.ext ?_ heq
  rw [of_decide_eq_true (List.mem_filter.mp he).2, of_decide_eq_true (List.mem_filter.mp he').2]

/-- The candidates for the cell are settled one after the other, by induction on the list. Those for
other cells make no difference. -/
theorem Resolves.insertAll (h : t.Resolves policy cell l)
    (hnodup : (l ++ candidatesFor cell cs).Nodup)
    (hone : Policy.HasOneShift (· ∈ l ++ candidatesFor cell cs)) :
    (insertAll policy t cs).Resolves policy cell (l ++ candidatesFor cell cs) := by
  induction cs generalizing t l with
  | nil =>
    rw [candidatesFor, List.filter_nil, List.map_nil, List.append_nil]
    exact h
  | cons e cs ih =>
    change (Table.insertAll policy (t.insert policy e.1 e.2) cs).Resolves _ _ _
    by_cases hcell : e.1 = cell
    · subst hcell
      have hcons : candidatesFor e.1 (e :: cs) = e.2 :: candidatesFor e.1 cs := by
        simp [candidatesFor]
      rw [hcons, List.append_cons] at hnodup hone ⊢
      have hnow := List.nodup_append.mp (List.nodup_append.mp hnodup).1
      have hnew : e.2 ∉ l := fun hmem => hnow.2.2 _ hmem _ (List.mem_singleton_self _) rfl
      refine ih (h.insert hnew fun m n hm hn => ?_) hnodup hone
      exact hone m n (List.mem_append_left _ hm) (List.mem_append_left _ hn)
    · have hskip : candidatesFor cell (e :: cs) = candidatesFor cell cs := by
        simp [candidatesFor, hcell]
      rw [hskip] at hnodup hone ⊢
      exact ih (h.insert_of_ne (Ne.symm hcell) e.2) hnodup hone

theorem resolves_blank (policy : Policy) (a : Automaton) (g : Grammar) (cell : Cell) :
    (blank a g).Resolves policy cell [] := by
  have hget : (blank a g).actions.get? cell = none := SortedMap.get?_empty cell
  refine ⟨fun _ => rfl, fun x hx => ?_, ?_⟩
  · rw [hget] at hx
    cases hx
  · rw [hget]
    exact .refl []

end Table

theorem Automaton.hasOneShift_candidate (g : Grammar) (a : Automaton) (n : Nat) (X : Symbol) :
    Policy.HasOneShift (Candidate g a n X) := by
  intro m m' h h'
  cases h with
  | shift _ hm =>
    cases h' with
    | shift _ hm' => exact Option.some.inj (hm.symm.trans hm')

/-! ### The tables of an automaton -/

namespace Table

/-- Every cell has been settled between its candidates. -/
theorem exists_resolves_of_build (ha : Automaton.Lawful g a) (ht : build policy a g = .ok t)
    (cell : Cell) : ∃ l : List Action, l.Nodup ∧
      (∀ x, x ∈ l ↔ Candidate g a cell.state cell.symbol x) ∧ t.Resolves policy cell l := by
  obtain ⟨cs, hcs, rfl⟩ := build_eq_ok_iff.mp ht
  have hnodup := nodup_candidatesFor (ha.nodup_candidates hcs) cell
  have hmem (x : Action) : x ∈ candidatesFor cell cs ↔
      Candidate g a cell.state cell.symbol x :=
    mem_candidatesFor.trans (Automaton.mem_candidates hcs)
  have hone : Policy.HasOneShift (· ∈ [] ++ candidatesFor cell cs) := fun m n hm hn =>
    a.hasOneShift_candidate g cell.state cell.symbol m n ((hmem _).mp hm) ((hmem _).mp hn)
  exact ⟨_, hnodup, hmem, (resolves_blank policy a g cell).insertAll hnodup hone⟩

/-- The candidates of the automaton, and nothing else, tell what is in each cell of the table, and
what has been discarded there. -/
structure IsResolved (policy : Policy) (g : Grammar) (a : Automaton) (t : Table) : Prop where
  /-- There are finitely many candidates for a cell. -/
  finite : ∀ n X, {x | Candidate g a n X x}.Finite
  /-- A cell without candidates is empty. -/
  eq_none_iff : ∀ n X, t.action? n X = none ↔ ∀ x, ¬ Candidate g a n X x
  /-- The policy keeps one candidate. -/
  eq_some_iff : ∀ n X x, t.action? n X = some x ↔ policy.Keeps (Candidate g a n X) x
  /-- There is one clash less than candidates. -/
  length_eq : ∀ n X, (t.conflictsIn ⟨n, X⟩).length = {x | Candidate g a n X x}.ncard - 1
  /-- Each of the other candidates is discarded, and nothing else. -/
  mem_discarded_iff : ∀ n X x, x ∈ (t.conflictsIn ⟨n, X⟩).map Conflict.discarded ↔
    Candidate g a n X x ∧ t.action? n X ≠ some x
  /-- None of them is discarded twice. -/
  nodup_discarded : ∀ n X, ((t.conflictsIn ⟨n, X⟩).map Conflict.discarded).Nodup

namespace Resolves

theorem length_conflictsIn (h : t.Resolves policy cell l) :
    (t.conflictsIn cell).length = l.length - 1 := by
  have hlength := h.perm.length_eq
  rw [List.length_append, List.length_map] at hlength
  cases hget : t.actions.get? cell with
  | none =>
    rw [h.empty hget] at hlength ⊢
    exact (Nat.add_eq_zero_iff.mp hlength).2
  | some x =>
    rw [hget, Option.toList_some, List.length_singleton] at hlength
    omega

theorem nodup (h : t.Resolves policy cell l) (hl : l.Nodup) :
    ((t.actions.get? cell).toList ++ (t.conflictsIn cell).map Conflict.discarded).Nodup :=
  h.perm.nodup_iff.mpr hl

theorem mem_discarded_iff (h : t.Resolves policy cell l) (hl : l.Nodup) :
    x ∈ (t.conflictsIn cell).map Conflict.discarded ↔
      x ∈ l ∧ t.actions.get? cell ≠ some x := by
  have hmem := h.perm.mem_iff (a := x)
  rw [List.mem_append, Option.mem_toList] at hmem
  rw [← hmem]
  constructor
  · refine fun hx => ⟨Or.inr hx, fun hget => ?_⟩
    exact (List.nodup_append.mp (h.nodup hl)).2.2 x (Option.mem_toList.mpr hget) x hx rfl
  · rintro ⟨hx | hx, hne⟩
    · exact absurd hx hne
    · exact hx

end Resolves

/-- The table that is built is settled by its candidates, each cell for itself. -/
theorem isResolved_of_build (ha : Automaton.Lawful g a) (ht : build policy a g = .ok t) :
    t.IsResolved policy g a := by
  have hcell (n : Nat) (X : Symbol) := exists_resolves_of_build ha ht ⟨n, X⟩
  have heq {l : List Action} {n : Nat} {X : Symbol}
      (hmem : ∀ x, x ∈ l ↔ Candidate g a n X x) :
      {x | Candidate g a n X x} = {x | x ∈ l} := Set.ext fun x => (hmem x).symm
  have hkeeps {n : Nat} {X : Symbol} {x : Action} (hx : t.action? n X = some x) :
      policy.Keeps (Candidate g a n X) x := by
    obtain ⟨l, -, hmem, hl⟩ := hcell n X
    exact (hl.keeps x hx).congr hmem
  have hnone (n : Nat) (X : Symbol) :
      t.action? n X = none ↔ ∀ x, ¬ Candidate g a n X x := by
    constructor
    · intro hempty x hx
      obtain ⟨l, -, hmem, hl⟩ := hcell n X
      have hx := (hmem x).mpr hx
      rw [hl.empty hempty] at hx
      cases hx
    · intro hno
      cases hx : t.action? n X with
      | none => rfl
      | some x => exact absurd (hkeeps hx).mem (hno x)
  refine ⟨fun n X => ?_, hnone, fun n X x => ⟨hkeeps, fun hx => ?_⟩, fun n X => ?_,
    fun n X x => ?_, fun n X => ?_⟩
  · obtain ⟨l, -, hmem, -⟩ := hcell n X
    rw [heq hmem]
    exact l.finite_toSet
  · cases hy : t.action? n X with
    | none => exact absurd hx.mem ((hnone n X).mp hy x)
    | some y => rw [(hkeeps hy).unique hx (a.hasOneShift_candidate g n X)]
  · obtain ⟨l, hnodup, hmem, hl⟩ := hcell n X
    have hcard : {x | x ∈ l}.ncard = l.length := by
      classical
      rw [← List.coe_toFinset, Set.ncard_coe_finset, List.toFinset_card_of_nodup hnodup]
    rw [hl.length_conflictsIn, heq hmem, hcard]
  · obtain ⟨l, hnodup, hmem, hl⟩ := hcell n X
    exact (hl.mem_discarded_iff hnodup).trans (and_congr_left fun _ => hmem x)
  · obtain ⟨l, hnodup, -, hl⟩ := hcell n X
    exact (List.nodup_append.mp (hl.nodup hnodup)).2.1

/-- The tables of the automata of a grammar are built, each cell is settled by its candidates alone,
and the clashes are in the same cells, in the same order, under both policies. -/
theorem exists_isResolved_of_construct
    (ha : Automaton.construct g = .ok a ∨ Automaton.lalr g = .ok a) :
    (∀ policy, ∃ t, build policy a g = .ok t ∧ t.IsResolved policy g a) ∧
      ∀ t t', build .preferShift a g = .ok t → build .preferReduce a g = .ok t' →
        t.conflicts.map Conflict.cell = t'.conflicts.map Conflict.cell := by
  have hlawful : Automaton.Lawful g a := ha.elim Automaton.lawful_of_construct
    Automaton.lawful_of_lalr
  refine ⟨fun policy => ?_, fun t t' ht ht' => ?_⟩
  · obtain ⟨t, ht⟩ := hlawful.exists_build policy
    exact ⟨t, ht, isResolved_of_build hlawful ht⟩
  · obtain ⟨cs, hcs⟩ := hlawful.exists_candidates
    exact map_cell_conflicts_eq hlawful hlawful hcs hcs rfl ht ht'

/-- Words of two letters, the first of which can be read in three ways:
`S → B x | A x | x x`, `B → x`, `A → x`. -/
def threeWays : Grammar where
  start := "S"
  rules :=
    [{ head := "S"
       body := [.nonterminal "B", .terminal "x"]
       wellFormed := by simp [WellFormedBody] },
     { head := "S"
       body := [.nonterminal "A", .terminal "x"]
       wellFormed := by simp [WellFormedBody] },
     { head := "S"
       body := [.terminal "x", .terminal "x"]
       wellFormed := by simp [WellFormedBody] },
     { head := "B"
       body := [.terminal "x"]
       wellFormed := by simp [WellFormedBody] },
     { head := "A"
       body := [.terminal "x"]
       wellFormed := by simp [WellFormedBody] }]

/-- After the first letter, a shift and two reductions clash. -/
theorem exists_tables_threeWays :
    ∃ a t t', Automaton.lalr threeWays = .ok a ∧ build .preferShift a threeWays = .ok t ∧
      build .preferReduce a threeWays = .ok t' ∧
      t.action? 1 (.terminal "x") = some (.shift 5) ∧
      t'.action? 1 (.terminal "x") = some (.reduce 3) ∧
      t'.conflicts =
        [⟨⟨1, .terminal "x"⟩, .reduce 4, .shift 5⟩, ⟨⟨1, .terminal "x"⟩, .reduce 3, .reduce 4⟩] := by
  have hbuild : (do
      let a ← Automaton.lalr threeWays
      let t ← build .preferShift a threeWays
      let t' ← build .preferReduce a threeWays
      return (t.action? 1 (.terminal "x"), t'.action? 1 (.terminal "x"), t'.conflicts)) =
        Except.ok (some (.shift 5), some (.reduce 3),
          [⟨⟨1, .terminal "x"⟩, .reduce 4, .shift 5⟩,
            ⟨⟨1, .terminal "x"⟩, .reduce 3, .reduce 4⟩]) := by
    decide +kernel
  obtain ⟨a, ha, hbuild⟩ := bind_eq_ok_iff.mp hbuild
  obtain ⟨t, ht, hbuild⟩ := bind_eq_ok_iff.mp hbuild
  obtain ⟨t', ht', hbuild⟩ := bind_eq_ok_iff.mp hbuild
  obtain ⟨hshift, hbuild⟩ := Prod.mk.inj (Except.ok.inj hbuild)
  obtain ⟨hreduce, hconflicts⟩ := Prod.mk.inj hbuild
  exact ⟨a, t, t', ha, ht, ht', hshift, hreduce, hconflicts⟩

/-- Each of the two policies keeps its own candidate, and there are two clashes with both. -/
theorem exists_isResolved_of_construct_threeWays :
    ∃ a t t', Automaton.lalr threeWays = .ok a ∧ build .preferShift a threeWays = .ok t ∧
      build .preferReduce a threeWays = .ok t' ∧
      t.IsResolved .preferShift threeWays a ∧ t'.IsResolved .preferReduce threeWays a ∧
      t.action? 1 (.terminal "x") = some (.shift 5) ∧
      t'.action? 1 (.terminal "x") = some (.reduce 3) ∧ t'.conflicts.length = 2 ∧
      t.conflicts.map Conflict.cell = t'.conflicts.map Conflict.cell := by
  obtain ⟨a, t, t', ha, ht, ht', hshift, hreduce, hconflicts⟩ := exists_tables_threeWays
  obtain ⟨hresolved, hcells⟩ := exists_isResolved_of_construct (Or.inr ha)
  obtain ⟨u, hu, hshifts⟩ := hresolved .preferShift
  obtain ⟨u', hu', hreduces⟩ := hresolved .preferReduce
  obtain rfl := Except.ok.inj (ht.symm.trans hu)
  obtain rfl := Except.ok.inj (ht'.symm.trans hu')
  refine ⟨a, t, t', ha, ht, ht', hshifts, hreduces, hshift, hreduce, ?_, hcells _ _ ht ht'⟩
  rw [hconflicts]
  rfl

/-! ### What the records of clashes say -/

/-- What a clash has kept is in its cell, unless a later clash of the cell has discarded it. -/
def KeepsOrDiscards (t : Table) : Prop :=
  ∀ before c after, t.conflicts = before ++ c :: after →
    t.actions.get? c.cell = some c.kept ∨ ∃ d ∈ after, d.cell = c.cell ∧ d.discarded = c.kept

/-- A further candidate keeps what is in its cell, or is recorded to have discarded it. -/
theorem KeepsOrDiscards.insert (h : t.KeepsOrDiscards) (policy : Policy) (cell : Cell)
    (new : Action) : (t.insert policy cell new).KeepsOrDiscards := by
  rcases insert_cases policy t cell new with ⟨hnone, heq⟩ | ⟨-, heq⟩ |
    ⟨existing, kept, discarded, hexisting, -, hkept, heq⟩
  · rw [heq]
    intro before c after hc
    refine (h before c after hc).imp_left fun hget => ?_
    rw [SortedMap.get?_insert, if_neg, hget]
    rintro rfl
    rw [hnone] at hget
    cases hget
  · rw [heq]
    exact h
  · rw [heq]
    intro before c after hc
    change t.conflicts ++ [⟨cell, kept, discarded⟩] = before ++ c :: after at hc
    rcases List.eq_nil_or_concat after with rfl | ⟨earlier, d, rfl⟩
    · obtain rfl := (List.cons.inj (List.append_inj' hc rfl).2).1
      exact Or.inl (by rw [SortedMap.get?_insert, if_pos rfl])
    · rw [List.concat_eq_append, ← List.cons_append, ← List.append_assoc] at hc
      rw [List.concat_eq_append]
      obtain ⟨hbefore, hlast⟩ := List.append_inj' hc rfl
      obtain rfl := (List.cons.inj hlast).1
      rcases h before c earlier hbefore with hget | ⟨d, hd, hdiscards⟩
      · by_cases hcell : c.cell = cell
        · rw [hcell, hexisting, Option.some.injEq] at hget
          rcases hkept with ⟨rfl, -⟩ | ⟨-, rfl⟩
          · exact Or.inl (by rw [SortedMap.get?_insert, if_pos hcell, hget])
          · exact Or.inr ⟨_, List.mem_append_right _ (List.mem_singleton_self _), hcell.symm, hget⟩
        · exact Or.inl (by rw [SortedMap.get?_insert, if_neg hcell, hget])
      · exact Or.inr ⟨d, List.mem_append_left _ hd, hdiscards⟩

theorem KeepsOrDiscards.insertAll (h : t.KeepsOrDiscards) (policy : Policy)
    (cs : List (Cell × Action)) : (insertAll policy t cs).KeepsOrDiscards := by
  induction cs generalizing t with
  | nil => exact h
  | cons e cs ih => exact ih (h.insert policy e.1 e.2)

theorem keepsOrDiscards_of_build (ht : build policy a g = .ok t) : t.KeepsOrDiscards := by
  obtain ⟨cs, -, rfl⟩ := build_eq_ok_iff.mp ht
  have hblank : (blank a g).KeepsOrDiscards := fun before c after hnil =>
    absurd hnil.symm (List.append_ne_nil_of_right_ne_nil _ (List.cons_ne_nil _ _))
  exact hblank.insertAll policy cs

/-- The record of a clash agrees with the finished table if and only if no later clash of its cell
discards what it has kept. -/
theorem action?_eq_kept_iff (ha : Automaton.construct g = .ok a ∨ Automaton.lalr g = .ok a)
    (ht : build policy a g = .ok t) {before after : List Conflict}
    (hc : t.conflicts = before ++ c :: after) :
    t.action? c.cell.state c.cell.symbol = some c.kept ↔
      ∀ d ∈ after, d.cell = c.cell → d.discarded ≠ c.kept := by
  have hlawful : Automaton.Lawful g a := ha.elim Automaton.lawful_of_construct
    Automaton.lawful_of_lalr
  constructor
  · intro haction d hd hcell hdiscarded
    have hconflict : d ∈ t.conflictsIn c.cell := by
      refine List.mem_filter.mpr ⟨?_, decide_eq_true hcell⟩
      rw [hc]
      exact List.mem_append_right _ (List.mem_cons_of_mem _ hd)
    have hmem := List.mem_map_of_mem (f := Conflict.discarded) hconflict
    rw [hdiscarded] at hmem
    exact (((isResolved_of_build hlawful ht).mem_discarded_iff _ _ _).mp hmem).2 haction
  · intro hlater
    refine (keepsOrDiscards_of_build ht before c after hc).resolve_right ?_
    rintro ⟨d, hd, hcell, hdiscarded⟩
    exact hlater d hd hcell hdiscarded

/-- Of the two clashes of a cell, the first one kept what the second one has discarded. -/
theorem action?_eq_kept_iff_threeWays :
    ∃ a t c d, Automaton.lalr threeWays = .ok a ∧ build .preferReduce a threeWays = .ok t ∧
      t.conflicts = [c, d] ∧ d.cell = c.cell ∧ d.discarded = c.kept ∧
      t.action? c.cell.state c.cell.symbol ≠ some c.kept ∧
      t.action? d.cell.state d.cell.symbol = some d.kept := by
  obtain ⟨a, -, t, ha, -, ht, -, -, hconflicts⟩ := exists_tables_threeWays
  obtain ⟨c, d, hconflicts, hcell, hdiscarded⟩ : ∃ c d, t.conflicts = [c, d] ∧
      d.cell = c.cell ∧ d.discarded = c.kept := ⟨_, _, hconflicts, rfl, rfl⟩
  have hfirst : t.conflicts = [] ++ c :: [d] := hconflicts
  have hlast : t.conflicts = [c] ++ d :: [] := hconflicts
  refine ⟨a, t, c, d, ha, ht, hconflicts, hcell, hdiscarded, fun haction => ?_, ?_⟩
  · exact (action?_eq_kept_iff (Or.inr ha) ht hfirst).mp haction d (List.mem_singleton_self d)
      hcell hdiscarded
  · exact (action?_eq_kept_iff (Or.inr ha) ht hlast).mpr (List.forall_mem_nil _)

/-- A record need not agree with the finished table: after the first letter, the reduction by the
rule of `A` was kept before that of `B` was found. -/
theorem exists_mem_conflicts_action?_ne_kept :
    ∃ a t c, Automaton.lalr threeWays = .ok a ∧ build .preferReduce a threeWays = .ok t ∧
      c ∈ t.conflicts ∧ c.kept = .reduce 4 ∧
      t.action? c.cell.state c.cell.symbol = some (.reduce 3) ∧
      t.action? c.cell.state c.cell.symbol ≠ some c.kept := by
  obtain ⟨a, -, t, ha, -, ht, -, haction, hconflicts⟩ := exists_tables_threeWays
  refine ⟨a, t, ⟨⟨1, .terminal "x"⟩, .reduce 4, .shift 5⟩, ha, ht, ?_, rfl, haction, ?_⟩
  · rw [hconflicts]
    exact List.mem_cons_self
  · rw [haction]
    simp

end Table

end Recognizer.LR
