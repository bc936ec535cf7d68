import Mathlib.Data.List.Basic
import Recognizer.LR.Table
import Recognizer.Proofs.LR.Laws

/-!
# The actions of a table

Every action of a table is a candidate for its cell, whichever way clashes are settled, since a
clash is settled by one of the two candidates. If no clash is recorded, every candidate is the
action of its cell.

## Main definitions

* `Automaton.Candidate`: the candidates for the cells of a table.
* `Automaton.shifts`, `Automaton.reductions`: the lists that the candidates are put together from.
* `Table.IsFor`: the table of an automaton has no actions but candidates.

## Main results

* `Automaton.candidates_eq`, `Automaton.mem_candidates`: the list of candidates and its members.
* `Table.isFor_of_build`: this holds of the table that is built.
* `Table.action?_eq_of_conflicts_eq_nil`: without conflicts, every candidate is an action.
* `Automaton.Candidate.exists_rule`, `Automaton.Lawful.exists_candidate`: the reductions that are
  candidates.
-/

namespace Recognizer.LR

variable {g : Grammar} {a : Automaton} {policy : Policy} {t : Table} {cs : List (Cell × Action)}
  {cell : Cell} {n m i : Nat} {X : Symbol} {action : Action}

/-- The action can be that of a cell: a shift along a transition, a reduction by a rule that has
been read with the symbol as a lookahead, or the acceptance where the start has been read. -/
inductive Automaton.Candidate (g : Grammar) (a : Automaton) : Nat → Symbol → Action → Prop
  | shift {n : Nat} {X : Symbol} {m : Nat} (hX : X.isNonterminal = false)
      (hm : a.transition? n X = some m) : Candidate g a n X (.shift m)
  | reduce {n : Nat} {X : Symbol} {item : Item} {i : Nat} (hf : a.Holds n (item, some X))
      (hcomplete : item.isComplete) (hhead : item.head ≠ a.grammar.startSymbol)
      (hi : g.ruleIndex? item.head item.body = some i) : Candidate g a n X (.reduce i)
  | accept {n : Nat} (hn : a.transition? Automaton.initial g.startSymbol = some n) :
      Candidate g a n .endMark .accept

namespace Automaton

/-! ### The list of candidates -/

theorem mem_edges {e : Cell × Nat} :
    e ∈ a.edges ↔ a.transition? e.1.state e.1.symbol = some e.2 := by
  obtain ⟨⟨n, X⟩, m⟩ := e
  simp only [edges, List.mem_flatMap, List.mem_map, Prod.exists, List.mem_zipIdx_iff_getElem?,
    SortedMap.mem_toList, transition?, Option.bind_eq_some_iff]
  constructor
  · rintro ⟨s, _, hs, _, _, hm, heq⟩
    cases heq
    exact ⟨s, hs, hm⟩
  · rintro ⟨s, hs, hm⟩
    exact ⟨s, n, hs, X, m, hm, rfl⟩

/-- The items of all states, with their lookaheads. -/
def stateItems (a : Automaton) : List (Nat × Item × SymbolSet) :=
  a.states.zipIdx.flatMap fun s => s.1.items.toList.map fun e => (s.2, e)

theorem mem_stateItems {e : Nat × Item × SymbolSet} :
    e ∈ a.stateItems ↔ ∃ s, a.items? e.1 = some s ∧ SortedMap.get? s e.2.1 = some e.2.2 := by
  obtain ⟨n, item, lookaheads⟩ := e
  simp only [stateItems, List.mem_flatMap, List.mem_map, Prod.exists, List.mem_zipIdx_iff_getElem?,
    SortedMap.mem_toList, items?, Option.map_eq_some_iff]
  constructor
  · rintro ⟨s, _, hs, _, _, hget, heq⟩
    cases heq
    exact ⟨_, ⟨s, hs, rfl⟩, hget⟩
  · rintro ⟨_, ⟨s, hs, rfl⟩, hget⟩
    exact ⟨s, n, hs, item, lookaheads, hget, rfl⟩

/-- The candidates of one item in a state; there are none if the rule of the item is not found. -/
def reductions (g : Grammar) (a : Automaton) (e : Nat × Item × SymbolSet) :
    List (Cell × Action) :=
  (a.reductions? g e.1 e.2.1 e.2.2).toOption.getD []

theorem mem_reductions {e : Nat × Item × SymbolSet} : (cell, action) ∈ a.reductions g e ↔
    e.2.1.isComplete ∧ e.2.1.head ≠ a.grammar.startSymbol ∧
      ∃ i, g.ruleIndex? e.2.1.head e.2.1.body = some i ∧ cell.state = e.1 ∧
        cell.symbol ∈ e.2.2 ∧ action = .reduce i := by
  obtain ⟨n, item, lookaheads⟩ := e
  rw [reductions, reductions?]
  by_cases hskip : (!item.isComplete || item.head = a.grammar.startSymbol) = true
  · rw [if_pos hskip]
    refine ⟨fun h => absurd h List.not_mem_nil, ?_⟩
    rintro ⟨hcomplete, hhead, -⟩
    simp [hcomplete, hhead] at hskip
  · rw [if_neg hskip]
    simp only [Bool.not_eq_true', Bool.or_eq_true, decide_eq_true_eq, not_or,
      Bool.not_eq_false] at hskip
    cases hi : g.ruleIndex? item.head item.body with
    | none => simp [Except.toOption]
    | some i =>
      simp only [Except.toOption, Option.getD_some, List.mem_map, hskip, true_and,
        Option.some.injEq, ne_eq, not_false_eq_true]
      constructor
      · rintro ⟨X, hX, heq⟩
        cases heq
        exact ⟨i, rfl, rfl, hX, rfl⟩
      · rintro ⟨_, rfl, rfl, hX, rfl⟩
        exact ⟨cell.symbol, hX, rfl⟩

/-- The shifts that are candidates. -/
def shifts (a : Automaton) : List (Cell × Action) :=
  (a.edges.filter fun e => !e.1.symbol.isNonterminal).map fun e => (e.1, .shift e.2)

theorem mem_shifts : (cell, action) ∈ a.shifts ↔ cell.symbol.isNonterminal = false ∧
    ∃ m, a.transition? cell.state cell.symbol = some m ∧ action = .shift m := by
  simp only [shifts, List.mem_map, List.mem_filter, mem_edges, Bool.not_eq_true']
  constructor
  · rintro ⟨⟨cell, m⟩, ⟨hm, hX⟩, heq⟩
    cases heq
    exact ⟨hX, m, hm, rfl⟩
  · rintro ⟨hX, m, hm, rfl⟩
    exact ⟨(cell, m), ⟨hm, hX⟩, rfl⟩

/-- The list has the shifts first, then the reductions of each state with its items in order, and
the acceptance at its end. -/
theorem candidates_eq (h : a.candidates? g = .ok cs) :
    ∃ state, a.transition? initial g.startSymbol = some state ∧
      cs = a.shifts ++ a.stateItems.flatMap (a.reductions g) ++ [(⟨state, .endMark⟩, .accept)] := by
  obtain ⟨reductions, hreductions, h⟩ := bind_eq_ok_iff.mp h
  cases hinitial : a.transition? initial g.startSymbol with
  | none =>
    rw [hinitial] at h
    cases h
  | some state =>
    rw [hinitial] at h
    rw [eq_map_of_mapM_eq_ok hreductions []] at h
    exact ⟨state, rfl, (Except.ok.inj h).symm⟩

/-- The members of the list are just the candidates. -/
theorem mem_candidates (h : a.candidates? g = .ok cs) :
    (cell, action) ∈ cs ↔ Candidate g a cell.state cell.symbol action := by
  obtain ⟨state, hinitial, rfl⟩ := candidates_eq h
  simp only [List.mem_append, mem_shifts, List.mem_flatMap, mem_stateItems, mem_reductions,
    List.mem_singleton]
  constructor
  · rintro ((⟨hX, m, hm, rfl⟩ | ⟨⟨n, item, lookaheads⟩, ⟨s, hs, hget⟩, hcomplete, hhead,
      i, hi, rfl, hX, rfl⟩) | heq)
    · exact .shift hX hm
    · exact .reduce ⟨s, hs, SortedMap.holds_some_iff.mpr ⟨lookaheads, hget, hX⟩⟩ hcomplete hhead hi
    · obtain ⟨rfl, rfl⟩ := Prod.mk.inj heq
      exact .accept hinitial
  · obtain ⟨n, X⟩ := cell
    intro hc
    cases hc with
    | shift hX hm => exact Or.inl (Or.inl ⟨hX, _, hm, rfl⟩)
    | reduce hf hcomplete hhead hi =>
      obtain ⟨s, hs, hf⟩ := hf
      obtain ⟨lookaheads, hget, hX⟩ := SortedMap.holds_some_iff.mp hf
      exact Or.inl (Or.inr ⟨(n, _, lookaheads), ⟨s, hs, hget⟩, hcomplete, hhead, _, hi, rfl, hX,
        rfl⟩)
    | accept hn =>
      obtain rfl := Option.some.inj (hinitial.symm.trans hn)
      exact Or.inr rfl

end Automaton

/-! ### Settling clashes -/

namespace Table

theorem choose_eq_or_eq (policy : Policy) (x y : Action) :
    policy.choose x y = x ∨ policy.choose x y = y := by
  cases x with
  | accept => exact Or.inl rfl
  | shift n =>
    cases y with
    | accept => exact Or.inr rfl
    | shift m =>
      cases policy with
      | preferShift => exact Or.inl rfl
      | preferReduce => exact Or.inr rfl
    | reduce j =>
      cases policy with
      | preferShift => exact Or.inl rfl
      | preferReduce => exact Or.inr rfl
  | reduce i =>
    cases y with
    | accept => exact Or.inr rfl
    | shift m =>
      cases policy with
      | preferShift => exact Or.inr rfl
      | preferReduce => exact Or.inl rfl
    | reduce j =>
      rw [Policy.choose]
      rcases Nat.le_total i j with hij | hij
      · exact Or.inl (by rw [Nat.min_eq_left hij])
      · exact Or.inr (by rw [Nat.min_eq_right hij])

/-- What an insertion can do: fill an empty cell, find the action there, or settle a clash. -/
theorem insert_cases (policy : Policy) (t : Table) (cell : Cell) (new : Action) :
    (t.actions.get? cell = none ∧
      t.insert policy cell new = { t with actions := t.actions.insert cell new }) ∨
    (t.actions.get? cell = some new ∧ t.insert policy cell new = t) ∨
    ∃ existing kept discarded, t.actions.get? cell = some existing ∧ existing ≠ new ∧
      (kept = existing ∧ discarded = new ∨ kept = new ∧ discarded = existing) ∧
        t.insert policy cell new =
          { t with
            actions := t.actions.insert cell kept
            conflicts := t.conflicts ++ [⟨cell, kept, discarded⟩] } := by
  rw [insert]
  cases hget : t.actions.get? cell with
  | none => exact Or.inl ⟨rfl, rfl⟩
  | some existing =>
    by_cases heq : existing = new
    · rw [heq]
      exact Or.inr (Or.inl ⟨rfl, if_pos rfl⟩)
    · refine Or.inr (Or.inr ⟨existing, policy.choose existing new, _, rfl, heq, ?_, if_neg heq⟩)
      rcases choose_eq_or_eq policy existing new with hkept | hkept
      · exact Or.inl ⟨hkept, if_pos hkept⟩
      · exact Or.inr ⟨hkept, if_neg fun h => heq (h.symm.trans hkept)⟩

theorem get?_insert_eq_or (t : Table) {new : Action} {cell' : Cell}
    (h : (t.insert policy cell new).actions.get? cell' = some action) :
    t.actions.get? cell' = some action ∨ cell' = cell ∧ action = new := by
  rcases insert_cases policy t cell new with ⟨-, heq⟩ | ⟨-, heq⟩ |
    ⟨existing, kept, discarded, hexisting, -, hkept, heq⟩
  · rw [heq, SortedMap.get?_insert] at h
    split at h
    · next hcell => exact Or.inr ⟨hcell, (Option.some.inj h).symm⟩
    · exact Or.inl h
  · rw [heq] at h
    exact Or.inl h
  · rw [heq, SortedMap.get?_insert] at h
    split at h
    · next hcell =>
      obtain rfl := Option.some.inj h
      rcases hkept with ⟨rfl, -⟩ | ⟨rfl, -⟩
      · exact Or.inl (hcell ▸ hexisting)
      · exact Or.inr ⟨hcell, rfl⟩
    · exact Or.inl h

private theorem insert_of_conflicts_eq_nil {new : Action}
    (h : (t.insert policy cell new).conflicts = []) :
    t.conflicts = [] ∧ (t.insert policy cell new).actions.get? cell = some new ∧
      ∀ cell' x, t.actions.get? cell' = some x →
        (t.insert policy cell new).actions.get? cell' = some x := by
  rcases insert_cases policy t cell new with ⟨hnone, heq⟩ | ⟨hsome, heq⟩ |
    ⟨existing, kept, discarded, -, -, -, heq⟩
  · rw [heq] at h ⊢
    refine ⟨h, ?_, fun cell' x hx => ?_⟩
    · rw [SortedMap.get?_insert, if_pos rfl]
    · rw [SortedMap.get?_insert, if_neg, hx]
      rintro rfl
      rw [hnone] at hx
      cases hx
  · rw [heq] at h ⊢
    exact ⟨h, hsome, fun _ _ hx => hx⟩
  · rw [heq] at h
    exact absurd h (List.append_ne_nil_of_right_ne_nil _ (List.cons_ne_nil _ _))

private theorem insert_other (policy : Policy) (t : Table) (cell : Cell) (new : Action) :
    (t.insert policy cell new).grammar = t.grammar ∧
      (t.insert policy cell new).initial = t.initial ∧
        (t.insert policy cell new).gotos = t.gotos := by
  rcases insert_cases policy t cell new with ⟨-, heq⟩ | ⟨-, heq⟩ |
    ⟨_, _, _, -, -, -, heq⟩
  · rw [heq]
    exact ⟨rfl, rfl, rfl⟩
  · rw [heq]
    exact ⟨rfl, rfl, rfl⟩
  · rw [heq]
    exact ⟨rfl, rfl, rfl⟩

/-- The candidates in their cells, one after the other. -/
def insertAll (policy : Policy) (t : Table) (cs : List (Cell × Action)) : Table :=
  cs.foldl (fun t candidate => t.insert policy candidate.1 candidate.2) t

private theorem insertAll_other (policy : Policy) (t : Table) (cs : List (Cell × Action)) :
    (insertAll policy t cs).grammar = t.grammar ∧ (insertAll policy t cs).initial = t.initial ∧
      (insertAll policy t cs).gotos = t.gotos := by
  induction cs generalizing t with
  | nil => exact ⟨rfl, rfl, rfl⟩
  | cons c cs ih =>
    obtain ⟨hgrammar, hinitial, hgotos⟩ := ih (t.insert policy c.1 c.2)
    obtain ⟨hgrammar', hinitial', hgotos'⟩ := insert_other policy t c.1 c.2
    exact ⟨hgrammar.trans hgrammar', hinitial.trans hinitial', hgotos.trans hgotos'⟩

private theorem mem_of_get?_insertAll
    (h : (insertAll policy t cs).actions.get? cell = some action) :
    t.actions.get? cell = some action ∨ (cell, action) ∈ cs := by
  induction cs generalizing t with
  | nil => exact Or.inl h
  | cons c cs ih =>
    rcases ih h with h | h
    · rcases get?_insert_eq_or t h with h | ⟨rfl, rfl⟩
      · exact Or.inl h
      · exact Or.inr List.mem_cons_self
    · exact Or.inr (List.mem_cons_of_mem _ h)

private theorem get?_insertAll_of_conflicts_eq_nil
    (h : (insertAll policy t cs).conflicts = []) :
    t.conflicts = [] ∧
      (∀ e ∈ cs, (insertAll policy t cs).actions.get? e.1 = some e.2) ∧
        ∀ cell x, t.actions.get? cell = some x →
          (insertAll policy t cs).actions.get? cell = some x := by
  induction cs generalizing t with
  | nil => exact ⟨h, List.forall_mem_nil _, fun _ _ hx => hx⟩
  | cons c cs ih =>
    obtain ⟨hconflicts, hlater, hkeep⟩ := ih h
    obtain ⟨hconflicts, hnew, hkeep'⟩ := insert_of_conflicts_eq_nil hconflicts
    refine ⟨hconflicts, List.forall_mem_cons.mpr ⟨hkeep _ _ hnew, hlater⟩, fun cell x hx => ?_⟩
    exact hkeep _ _ (hkeep' _ _ hx)

/-! ### The table of an automaton -/

/-- The table has no actions but candidates of the automaton, and all its gotos. Which candidate is
in a cell that several compete for is left open. -/
structure IsFor (g : Grammar) (a : Automaton) (t : Table) : Prop where
  grammar_eq : t.grammar = g
  initial_eq : t.initial = Automaton.initial
  goto?_eq : ∀ n X, X.isNonterminal = true → t.goto? n X = a.transition? n X
  candidate : ∀ n X action, t.action? n X = some action → Automaton.Candidate g a n X action

private theorem get?_gotos (hX : X.isNonterminal = true) :
    (SortedMap.ofList (a.edges.filter fun e => e.1.symbol.isNonterminal)).get? ⟨n, X⟩ =
      a.transition? n X := by
  have hmem {m : Nat} : ((⟨n, X⟩ : Cell), m) ∈ (a.edges.filter fun e =>
      e.1.symbol.isNonterminal) ↔ a.transition? n X = some m := by
    rw [List.mem_filter, Automaton.mem_edges]
    exact and_iff_left hX
  refine Option.ext fun m => ⟨fun h => hmem.mp (SortedMap.mem_of_get?_ofList h), fun h => ?_⟩
  obtain ⟨m', hm'⟩ := Option.isSome_iff_exists.mp (SortedMap.isSome_get?_ofList (hmem.mpr h))
  have heq := hmem.mp (SortedMap.mem_of_get?_ofList hm')
  rw [hm', ← heq, h]

/-- The table before any candidate is in its cell. -/
def blank (a : Automaton) (g : Grammar) : Table where
  grammar := g
  initial := Automaton.initial
  actions := ∅
  gotos := .ofList (a.edges.filter fun e => e.1.symbol.isNonterminal)
  conflicts := []

theorem build_eq_ok_iff : build policy a g = .ok t ↔
    ∃ cs, a.candidates? g = .ok cs ∧ insertAll policy (blank a g) cs = t := by
  rw [build, bind_eq_ok_iff]
  exact exists_congr fun cs => and_congr_right fun _ => ⟨Except.ok.inj, congrArg Except.ok⟩

/-- The table that is built has no other actions and gotos, whatever the policy. -/
theorem isFor_of_build (h : build policy a g = .ok t) : IsFor g a t := by
  obtain ⟨cs, hcs, rfl⟩ := build_eq_ok_iff.mp h
  obtain ⟨hgrammar, hinitial, hgotos⟩ := insertAll_other policy (blank a g) cs
  refine ⟨hgrammar, hinitial, fun n X hX => ?_, fun n X action haction => ?_⟩
  · rw [goto?, hgotos]
    exact get?_gotos hX
  · rcases mem_of_get?_insertAll haction with hempty | hmem
    · rw [blank, SortedMap.get?_empty] at hempty
      cases hempty
    · exact (Automaton.mem_candidates hcs).mp hmem

theorem gotos_eq_of_build (h : build policy a g = .ok t) : t.gotos = (blank a g).gotos := by
  obtain ⟨cs, -, rfl⟩ := build_eq_ok_iff.mp h
  exact (insertAll_other policy (blank a g) cs).2.2

/-- If no clash is recorded, every candidate is the action of its cell, since only a clash could
have kept it out. -/
theorem action?_eq_of_conflicts_eq_nil (h : build policy a g = .ok t)
    (hconflicts : t.conflicts = []) (hc : Automaton.Candidate g a n X action) :
    t.action? n X = some action := by
  obtain ⟨cs, hcs, rfl⟩ := build_eq_ok_iff.mp h
  exact (get?_insertAll_of_conflicts_eq_nil hconflicts).2.1 (⟨n, X⟩, action)
    ((Automaton.mem_candidates hcs).mpr hc)

end Table

/-! ### Reductions by rules -/

namespace Automaton

variable {r : Rule}

theorem rule_of_ruleIndex? (h : g.ruleIndex? r.lhs r.body = some i) : g.rules[i]? = some r := by
  obtain ⟨hlt, heq, -⟩ := List.findIdx?_eq_some_iff_getElem.mp h
  rw [decide_eq_true_eq] at heq
  have hitem : g.rules[i].item 0 = r.item 0 := by rw [Rule.item, Rule.item, heq.1, heq.2]
  rw [List.getElem?_eq_getElem hlt, (Rule.item_inj hitem).1]

theorem exists_ruleIndex? (hr : r ∈ g.rules) : ∃ i, g.ruleIndex? r.lhs r.body = some i := by
  refine Option.isSome_iff_exists.mp ?_
  rw [Grammar.ruleIndex?, List.findIdx?_isSome, List.any_eq_true]
  exact ⟨r, hr, by simp⟩

theorem isComplete_item_iff {dot : Nat} (hdot : dot ≤ r.arity) :
    (r.item dot).isComplete ↔ dot = r.arity := by
  rw [Item.isComplete, Rule.next?_item hdot, Option.isNone_iff_eq_none, List.getElem?_eq_none_iff,
    Rule.length_symbols]
  omega

/-- A candidate for a reduction comes from a rule that has been read, also if the table is made for
another grammar with this rule. -/
theorem Candidate.exists_rule {g' : Grammar} (h : Candidate g' a n X (.reduce i))
    (ha : Lawful g a) : ∃ r, g'.rules[i]? = some r ∧ a.Holds n (r.item r.arity, some X) ∧
      r.lhs ≠ g.augmented.startSymbol := by
  cases h with
  | reduce hf hcomplete hhead hi =>
    obtain ⟨⟨r, hr, dot, hdot, rfl⟩, -⟩ := ha.isFact n _ hf
    obtain rfl := (isComplete_item_iff hdot).mp hcomplete
    rw [ha.grammar_eq] at hhead
    exact ⟨r, rule_of_ruleIndex? hi, hf, hhead⟩

/-- A rule of the grammar that has been read is a candidate for a reduction. -/
theorem Lawful.exists_candidate (ha : Lawful g a) (hr : r ∈ g.rules)
    (hf : a.Holds n (r.item r.arity, some X)) :
    ∃ i, g.rules[i]? = some r ∧ Candidate g a n X (.reduce i) := by
  obtain ⟨i, hi⟩ := exists_ruleIndex? hr
  have hcomplete := (isComplete_item_iff (Nat.le_refl r.arity)).mpr rfl
  refine ⟨i, rule_of_ruleIndex? hi, .reduce hf hcomplete ?_ hi⟩
  rw [ha.grammar_eq]
  exact Grammar.lhs_ne_start hr

end Automaton

end Recognizer.LR
