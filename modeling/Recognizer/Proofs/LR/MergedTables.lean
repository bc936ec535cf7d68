import Recognizer.Proofs.LR.Conflicts
import Recognizer.Proofs.LR.CoreQuotient
import Recognizer.Proofs.LR.CorrectPrefix

/-!
# Tables of merged automata

Merging takes every candidate of a state to one of the merged state. The other way round, a shift
and the acceptance are candidates in every part of the merged state, while a reduction is one in
some part only. So new conflicts can arise between two reductions only.

If there are none, the parser with the merged states takes the same steps as the other one as long
as that does not fail, and may then go on with some reductions. But it does not accept in the end,
for both parsers accept just the inputs that begin with a sentence, up to an end marker.

## Main definitions

* `Action.mapStates`, `Config.mapStates`: actions and configurations after the merging.

## Main results

* `Automaton.Candidate.mapStates`, `Automaton.exists_candidate_of_image`: the candidates before and
  after the merging.
* `Table.Steps.mapStates`, `Table.runFrom_mapStates`: one step and a run of the merged parser.
* `Table.IsExact.exists_recognize_iff`: the inputs that are accepted.
* `Table.conflicts_and_results_of_construct`: the conflicts and the results of both tables.
-/

namespace Recognizer.LR

open Relation (ReflTransGen)

variable {g : Grammar} {a b : Automaton} {t u : Table} {policy : Policy} {image : Nat → Nat}
  {n k limit : Nat} {X : Symbol} {x y : Action} {s : ItemSet} {c d : Config} {stats : Stats}

/-! ### Candidates -/

/-- The action with the states of another automaton. Reductions name rules, so they stay as they
are. -/
def Action.mapStates (image : Nat → Nat) : Action → Action
  | .shift m => .shift (image m)
  | .reduce i => .reduce i
  | .accept => .accept

namespace Automaton

/-- A candidate stays one if states are merged. -/
theorem Candidate.mapStates (h : Candidate g a n X x) (hq : IsCoreQuotient a b image) :
    Candidate g b (image n) X (x.mapStates image) := by
  cases h with
  | shift hX hm => exact .shift hX (hq.transition_image _ _ _ hm)
  | reduce hf hcomplete hhead hi =>
    rw [← hq.grammar_eq] at hhead
    exact .reduce ((hq.holds_lookahead_iff _ _ _).mpr ⟨n, rfl, hf⟩) hcomplete hhead hi
  | accept hn =>
    have hn := hq.transition_image _ _ _ hn
    rw [hq.image_initial] at hn
    exact .accept hn

theorem IsCoreQuotient.holds_of_image_eq {m : Nat} {t : ItemSet} {item : Item}
    (hq : IsCoreQuotient a b image) (hn : a.items? n = some s) (hm : a.items? m = some t)
    (heq : image m = image n) (hitem : a.Holds m (item, none)) : a.Holds n (item, none) := by
  obtain ⟨s', hs', hcore⟩ := hq.coreEq_image n s hn
  obtain ⟨t', ht', hcore'⟩ := hq.coreEq_image m t hm
  rw [heq] at ht'
  obtain rfl := Option.some.inj (hs'.symm.trans ht')
  have hkeys : s.keys = t.keys := hcore.trans hcore'.symm
  exact (mem_keys_iff hn).mp (hkeys ▸ (mem_keys_iff hm).mpr hitem)

/-- A shift or an acceptance of a merged state is a candidate in every part of it. -/
theorem exists_candidate_of_image (ha : Lawful g a) (hq : IsCoreQuotient a b image)
    (hs : a.items? n = some s) (h : Candidate g b (image n) X x) (hx : ∀ i, x ≠ .reduce i) :
    ∃ y, Candidate g a n X y ∧ y.mapStates image = x := by
  cases h with
  | shift hX hl =>
    obtain ⟨m, hm, rfl⟩ := hq.exists_transition n s _ _ hs hl
    exact ⟨.shift m, .shift hX hm, rfl⟩
  | reduce => exact absurd rfl (hx _)
  | accept hk =>
    -- the start rule has been read in a state with the same items, hence in the state itself
    obtain ⟨m, hm⟩ := ha.exists_transition_start
    obtain ⟨-, t, -, ht⟩ := ha.exists_items hm
    have himage := hq.transition_image _ _ _ hm
    rw [hq.image_initial, hk] at himage
    have hread := (ha.advance _ _ _ _ hm ha.start rfl).to_none
    have hread := hq.holds_of_image_eq hs ht (Option.some.inj himage).symm hread
    exact ⟨.accept, .accept (ha.transition?_of_startRule hread).1, rfl⟩

/-- Every candidate of a merged state comes from some part of it. -/
theorem exists_part_of_candidate (ha : Lawful g a) (hb : Lawful g b)
    (hq : IsCoreQuotient a b image) (h : Candidate g b k X x) :
    ∃ n s y, a.items? n = some s ∧ image n = k ∧ Candidate g a n X y ∧ y.mapStates image = x := by
  have hpart {t : ItemSet} (ht : b.items? k = some t) (hx : ∀ i, x ≠ .reduce i) :
      ∃ n s y, a.items? n = some s ∧ image n = k ∧ Candidate g a n X y ∧
        y.mapStates image = x := by
    obtain ⟨n, s, hs, rfl⟩ := hq.onto k t ht
    obtain ⟨y, hy, heq⟩ := exists_candidate_of_image ha hq hs h hx
    exact ⟨n, s, y, hs, rfl, hy, heq⟩
  cases h with
  | shift hX hl =>
    obtain ⟨t, -, ht, -⟩ := hb.exists_items hl
    exact hpart ht nofun
  | reduce hf hcomplete hhead hi =>
    obtain ⟨n, hn, hpart⟩ := (hq.holds_lookahead_iff _ _ _).mp hf
    obtain ⟨s, hs, -⟩ := id hpart
    rw [hq.grammar_eq] at hhead
    exact ⟨n, s, _, hs, hn, .reduce hpart hcomplete hhead hi, rfl⟩
  | accept hk =>
    obtain ⟨-, t, -, ht⟩ := hb.exists_items hk
    exact hpart ht nofun

/-- If no cell had two candidates before the merging, then afterwards only reductions share one. -/
theorem eq_of_isDeterministic (ha : Lawful g a) (hb : Lawful g b) (hq : IsCoreQuotient a b image)
    (hdeterministic : IsDeterministic g a) (hx : Candidate g b k X x) (hy : Candidate g b k X y)
    (hreduce : ∀ j, y ≠ .reduce j) : x = y := by
  obtain ⟨n, s, x', hs, rfl, hx', rfl⟩ := exists_part_of_candidate ha hb hq hx
  obtain ⟨y', hy', rfl⟩ := exists_candidate_of_image ha hq hs hy hreduce
  rw [hdeterministic n X x' y' hx' hy']

/-- If no cell has two candidates after the merging, none had before. -/
theorem isDeterministic_of_image (hq : IsCoreQuotient a b image)
    (hdeterministic : IsDeterministic g b) : IsDeterministic g a := by
  intro n X x y hx hy
  have heq := hdeterministic _ _ _ _ (hx.mapStates hq) (hy.mapStates hq)
  cases hx with
  | shift hX hm =>
    cases hy with
    | shift _ hm' => rw [Option.some.inj (hm.symm.trans hm')]
    | reduce => cases heq
    | accept => cases heq
  | reduce =>
    cases hy with
    | shift => cases heq
    | reduce => exact heq
    | accept => cases heq
  | accept =>
    cases hy with
    | shift => cases heq
    | reduce => cases heq
    | accept => rfl

end Automaton

/-! ### Runs -/

/-- The configuration with the states of another automaton on its stack. -/
def Config.mapStates (image : Nat → Nat) (c : Config) : Config :=
  { c with stack := c.stack.map image }

open Automaton (IsCoreQuotient)

namespace Table

/-- The parser with the merged states takes the same steps. Its table must be exact, while that of
the other parser may have kept any candidates. -/
theorem Steps.mapStates (h : t.Steps c d) (ht : t.IsFor g a) (hu : u.IsExact g b)
    (hq : IsCoreQuotient a b image) : u.Steps (c.mapStates image) (d.mapStates image) := by
  have haction {n : Nat} {X : Symbol} {x : Action} (hx : t.action? n X = some x) :
      u.action? (image n) X = some (x.mapStates image) :=
    hu.action?_eq _ _ _ ((ht.candidate n X x hx).mapStates hq)
  cases h with
  | shift hshift => exact .shift (haction hshift)
  | @reduce n i top m below left X rest stats r hreduce hr hdrop hgoto =>
    rw [ht.grammar_eq, ← hu.grammar_eq] at hr
    rw [ht.goto?_eq top r.lhs rfl] at hgoto
    have hgoto := hq.transition_image _ _ _ hgoto
    rw [← hu.goto?_eq (image top) r.lhs rfl] at hgoto
    have hdrop : ((n :: below).map image).drop r.arity = image top :: left.map image := by
      rw [← List.map_drop, hdrop, List.map_cons]
    exact .reduce (haction hreduce) hr hdrop hgoto

/-- If a parser accepts, so does the one with the merged states, with the same counts. -/
theorem runFrom_mapStates (ht : t.IsFor g a) (hu : u.IsExact g b) (hq : IsCoreQuotient a b image)
    (h : t.runFrom limit c = some (.ok stats)) :
    u.runFrom limit (c.mapStates image) = some (.ok stats) := by
  induction limit generalizing c with
  | zero => cases h
  | succ limit ih =>
    cases hstep : t.step c with
    | next d =>
      have hsteps := step_eq_next_iff.mp hstep
      rw [runFrom_of_steps hsteps] at h
      rw [runFrom_of_steps (hsteps.mapStates ht hu hq)]
      exact ih h
    | accepted stats' =>
      rw [runFrom, hstep] at h
      obtain ⟨n, below, X, rest, rfl, haction⟩ := step_eq_accepted_iff.mp hstep
      have haction := hu.action?_eq _ _ _ ((ht.candidate n X _ haction).mapStates hq)
      have haccepted : u.step (Config.mapStates image ⟨n :: below, X :: rest, stats'⟩) =
          .accepted stats' :=
        step_eq_accepted_iff.mpr ⟨image n, below.map image, X, rest, rfl, haction⟩
      rw [runFrom, haccepted, ← h]
    | failed e =>
      rw [runFrom, hstep] at h
      cases h

/-! ### Inputs that are accepted -/

/-- A parser whose table has no conflicts accepts an input, which may hold any symbols, if and only
if the input begins with a sentence up to an end marker. -/
theorem IsExact.exists_recognize_iff (h : IsExact g a t) (input : List Symbol) :
    (∃ limit stats, t.recognize limit input = some (.ok stats)) ↔
      ∃ w, g.Generates w ∧ w.map .terminal ++ [.endMark] <+: input ++ [.endMark] := by
  constructor
  · rintro ⟨limit, stats, hresult⟩
    obtain ⟨d, hpath, haccepted⟩ := exists_accepted_of_runFrom hresult
    obtain ⟨n, below, X, rest, rfl, haction⟩ := step_eq_accepted_iff.mp haccepted
    obtain ⟨γ, read, hspells, hderives, -, hinput, -⟩ := h.exists_read h.lawful hpath
    cases h.candidate _ _ _ haction with
    | accept hn =>
      obtain ⟨-, rfl⟩ := hspells.eq_of_transition_start h.lawful hn
      refine ⟨read, hderives, rest, ?_⟩
      rw [hinput, List.append_assoc]
      rfl
  · rintro ⟨w, hw, hbegins⟩
    exact h.exists_accepted_of_prefix hw hbegins

/-- If the table is without conflicts after the merging, both parsers come to an end on every input,
and both accept with the same counts or both fail. -/
theorem IsExact.results_of_image (ht : t.IsExact g a) (hu : u.IsExact g b)
    (hq : IsCoreQuotient a b image) (input : List Symbol) :
    ∃ limit r s, (∀ more, t.recognize (limit + more) input = some r) ∧
      (∀ more, u.recognize (limit + more) input = some s) ∧ r.toOption = s.toOption := by
  obtain ⟨k, r, hr⟩ := ht.exists_recognize input
  obtain ⟨l, s, hs⟩ := hu.exists_recognize input
  refine ⟨k + l, r, s, fun more => ?_, fun more => ?_, ?_⟩
  · rw [Nat.add_assoc]
    exact hr _
  · rw [Nat.add_comm k, Nat.add_assoc]
    exact hs _
  · cases r with
    | ok stats =>
      have hstart : (t.start input).mapStates image = u.start input := by
        rw [Config.mapStates, start, start, ht.initial_eq, hu.initial_eq, List.map_singleton,
          hq.image_initial]
      have hr := runFrom_mapStates ht.toIsFor hu hq (hr 0)
      rw [hstart] at hr
      rw [runFrom_unique (hs 0) hr]
    | error e =>
      cases s with
      | error e' => rfl
      | ok stats =>
        -- the input begins with a sentence, so the other parser accepts it, too
        obtain ⟨m, stats', haccepted⟩ := (ht.exists_recognize_iff input).mpr
          ((hu.exists_recognize_iff input).mp ⟨l, stats, hs 0⟩)
        cases runFrom_unique (hr 0) haccepted

/-- The tables of the automaton of all item sets and of the merged one. If the first has no
conflicts, those of the second are between two reductions. If the second has none, the first has
none, and on every input both parsers come to an end, where they accept with the same counts or both
fail. -/
theorem conflicts_and_results_of_construct (ha : Automaton.construct g = .ok a) (policy : Policy) :
    ∃ b t u, Automaton.lalr g = .ok b ∧ build policy a g = .ok t ∧ build policy b g = .ok u ∧
      (t.conflicts = [] →
        ∀ c ∈ u.conflicts, ∃ i j, c.kept = .reduce i ∧ c.discarded = .reduce j) ∧
      (u.conflicts = [] → t.conflicts = [] ∧ ∀ input : List Symbol, ∃ limit r s,
        (∀ more, t.recognize (limit + more) input = some r) ∧
          (∀ more, u.recognize (limit + more) input = some s) ∧ r.toOption = s.toOption) := by
  have hlalr : Automaton.lalr g = .ok a.merged := map_eq_ok_iff.mpr ⟨a, ha, rfl⟩
  have hcanonical := Automaton.isCanonical_of_construct ha
  have hlawful := hcanonical.lawful
  have hmerged := Automaton.lawful_of_lalr hlalr
  obtain ⟨image, hq⟩ := hlawful.exists_isCoreQuotient_merged fun n s hs => hcanonical.reaches hs
  obtain ⟨t, ht⟩ := hlawful.exists_build policy
  obtain ⟨u, hu⟩ := hmerged.exists_build policy
  refine ⟨a.merged, t, u, hlalr, ht, hu, fun hconflicts c hc => ?_, fun hconflicts => ?_⟩
  · have hdeterministic := (conflicts_eq_nil_iff ht).mp hconflicts
    obtain ⟨hne, hkept, hdiscarded⟩ := candidates_of_mem_conflicts hu hc
    by_contra hreduce
    rw [not_exists] at hreduce
    by_cases hi : ∃ i, c.kept = .reduce i
    · obtain ⟨i, hi⟩ := hi
      refine hne (Automaton.eq_of_isDeterministic hlawful hmerged hq hdeterministic hkept
        hdiscarded fun j hj => ?_)
      exact hreduce i ⟨j, hi, hj⟩
    · refine hne (Automaton.eq_of_isDeterministic hlawful hmerged hq hdeterministic hdiscarded
        hkept fun i hkept => ?_).symm
      exact hi ⟨i, hkept⟩
  · have hnone : t.conflicts = [] := (conflicts_eq_nil_iff ht).mpr
      (Automaton.isDeterministic_of_image hq ((conflicts_eq_nil_iff hu).mp hconflicts))
    exact ⟨hnone, (isExact_of_build (Or.inl ha) ht hnone).results_of_image
      (isExact_of_build (Or.inr hlalr) hu hconflicts) hq⟩

/-- After three shifts, the parser with all item sets fails, while the one with the merged states
makes three reductions first. -/
theorem conflicts_and_results_of_construct_twoWords :
    ∃ a b t u, Automaton.construct Automaton.twoWords = .ok a ∧
      Automaton.lalr Automaton.twoWords = .ok b ∧
      build .preferShift a Automaton.twoWords = .ok t ∧
      build .preferShift b Automaton.twoWords = .ok u ∧ u.conflicts = [] ∧ t.conflicts = [] ∧
      (∀ input : List Symbol, ∃ limit r s, (∀ more, t.recognize (limit + more) input = some r) ∧
        (∀ more, u.recognize (limit + more) input = some s) ∧ r.toOption = s.toOption) ∧
      t.recognize 4 [.terminal "c", .terminal "c", .terminal "d"] =
        some (.error (.unexpected .endMark 2)) ∧
      u.recognize 7 [.terminal "c", .terminal "c", .terminal "d"] =
        some (.error (.unexpected .endMark 3)) := by
  have hrun : (do
      let a ← Automaton.construct Automaton.twoWords
      let b ← Automaton.lalr Automaton.twoWords
      let t ← build .preferShift a Automaton.twoWords
      let u ← build .preferShift b Automaton.twoWords
      return (u.conflicts, t.recognize 4 [.terminal "c", .terminal "c", .terminal "d"],
        u.recognize 7 [.terminal "c", .terminal "c", .terminal "d"])) =
      Except.ok ([], some (.error (.unexpected .endMark 2)),
        some (.error (.unexpected .endMark 3))) := by
    decide +kernel
  obtain ⟨a, ha, hrun⟩ := bind_eq_ok_iff.mp hrun
  obtain ⟨b, hb, hrun⟩ := bind_eq_ok_iff.mp hrun
  obtain ⟨t, ht, hrun⟩ := bind_eq_ok_iff.mp hrun
  obtain ⟨u, hu, hrun⟩ := bind_eq_ok_iff.mp hrun
  obtain ⟨hconflicts, hresults⟩ := Prod.mk.inj (Except.ok.inj hrun)
  obtain ⟨ht', hu'⟩ := Prod.mk.inj hresults
  obtain ⟨b', t', u', hb', hbuild, hbuild', -, hagree⟩ :=
    conflicts_and_results_of_construct ha .preferShift
  obtain rfl := Except.ok.inj (hb.symm.trans hb')
  obtain rfl := Except.ok.inj (ht.symm.trans hbuild)
  obtain rfl := Except.ok.inj (hu.symm.trans hbuild')
  obtain ⟨hnone, hall⟩ := hagree hconflicts
  exact ⟨a, b, t, u, ha, hb, ht, hu, hconflicts, hnone, hall, ht', hu'⟩

end Table

end Recognizer.LR
