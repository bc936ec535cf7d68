import Recognizer.Proofs.LR.ValidItems

/-!
# Tables without conflicts are for unambiguous grammars

A rightmost derivation is told by the rules that it applies, since the nonterminal to which each of
them is applied is the last one. The end of the symbols to which the last rule has led is a place
where the automaton has a reduction by this rule as a candidate, with the first token after it. If
another derivation of the same string had its last rule elsewhere, or another last rule, or none at
all, there would be another candidate in one of the cells. So without conflicts the last rules are
the same, and so are those before.

## Main definitions

* `Grammar.RightmostDerivesBy`: the rules lead from one string to the other.

## Main results

* `Table.IsExact.exists_reduction`: a rule that is applied last is reduced by.
* `Table.IsExact.eq_of_handles`: a string is the result of one last rule only, at one place only.
* `Table.existsUnique_rightmostDerivesBy`: there is just one rightmost derivation, and a run makes
  as many reductions as it has steps.
-/

namespace Recognizer

namespace Grammar

variable {g : Grammar} {r : Rule} {rules : List Rule} {u v w : List Symbol} {n : Nat}

/-- The rules, each applied to the last nonterminal, lead from one string of symbols to the other.
They tell the derivation, since their places are determined. -/
inductive RightmostDerivesBy (g : Grammar) : List Rule → List Symbol → List Symbol → Prop
  | refl (u : List Symbol) : RightmostDerivesBy g [] u u
  | step (before : List Symbol) (after : List String) {r : Rule} {rules : List Rule}
      {w : List Symbol} (hr : r ∈ g.rules)
      (h : RightmostDerivesBy g rules (before ++ r.symbols ++ after.map .terminal) w) :
      RightmostDerivesBy g (r :: rules) (before ++ r.lhs :: after.map .terminal) w

/-- A derivation has as many steps as rules. -/
theorem RightmostDerivesBy.rightmostDerives (h : g.RightmostDerivesBy rules u w) :
    g.RightmostDerives rules.length u w := by
  induction h with
  | refl u => exact .refl u
  | step before after hr _ ih => exact .step (.replace before after hr) ih

theorem RightmostDerives.exists_rules (h : g.RightmostDerives n u w) :
    ∃ rules, rules.length = n ∧ g.RightmostDerivesBy rules u w := by
  induction h with
  | refl u => exact ⟨[], rfl, .refl u⟩
  | step hy _ ih =>
    obtain @⟨before, after, r, hr⟩ := hy
    obtain ⟨rules, rfl, hrules⟩ := ih
    exact ⟨r :: rules, rfl, .step before after hr hrules⟩

/-- What the last rule of a derivation is applied to. -/
theorem RightmostDerivesBy.exists_last (h : g.RightmostDerivesBy (rules ++ [r]) u w) :
    ∃ before, ∃ after : List String, r ∈ g.rules ∧
      g.RightmostDerivesBy rules u (before ++ r.lhs :: after.map .terminal) ∧
        w = before ++ r.symbols ++ after.map .terminal := by
  induction rules generalizing u with
  | nil =>
    cases h with
    | step before after hr h =>
      cases h
      exact ⟨before, after, hr, .refl _, rfl⟩
  | cons r' rules ih =>
    cases h with
    | step before' after' hr' h =>
      obtain ⟨before, after, hr, h, hw⟩ := ih h
      exact ⟨before, after, hr, .step before' after' hr' h, hw⟩

/-- A derivation of the grammar is one of the augmented grammar, where the new start comes first. -/
theorem RightmostDerives.augmented (h : g.RightmostDerives n [g.startSymbol] w) :
    g.augmented.RightmostDerives (n + 1) [g.augmented.startSymbol] w := by
  have hrules {n : Nat} {u w : List Symbol} (h : g.RightmostDerives n u w) :
      g.augmented.RightmostDerives n u w := by
    induction h with
    | refl u => exact .refl u
    | step hy _ ih =>
      obtain ⟨before, after, hr⟩ := hy
      exact .step (.replace before after (mem_rules_augmented hr)) ih
  exact .step (.replace [] [] g.startRule_mem) (hrules h)

end Grammar

namespace LR

variable {g : Grammar} {a : Automaton} {t : Table} {policy : Policy} {r r' : Rule}
  {δ δ' γ μ : List Symbol} {v v' : List String} {stack : List Nat} {n n' : Nat} {X : Symbol}

theorem Spells.exists_transition (h : Spells a stack (γ ++ [X])) :
    ∃ n below m, Spells a (n :: below) γ ∧ a.transition? n X = some m := by
  generalize hγ : γ ++ [X] = γ' at h
  cases h with
  | initial => exact absurd hγ (List.append_ne_nil_of_right_ne_nil _ (List.cons_ne_nil _ _))
  | push h hm =>
    obtain ⟨rfl, hX⟩ := List.append_inj' hγ rfl
    obtain rfl := (List.cons.inj hX).1
    exact ⟨_, _, _, h, hm⟩

namespace Table.IsExact

/-- Where a rule has been applied last, the table reduces by it. -/
theorem exists_reduction (h : IsExact g a t) (hr : r ∈ g.rules)
    (hderives : g.RightmostDerives n [g.startSymbol] (δ ++ r.lhs :: v.map .terminal)) :
    ∃ q below i, Spells a (q :: below) (δ ++ r.symbols) ∧ g.rules[i]? = some r ∧
      t.action? q (firstToken v) = some (.reduce i) := by
  have hvalid : IsValid g.augmented (δ ++ r.symbols) (r.item r.arity, some (firstToken v)) := by
    refine ⟨r, Grammar.mem_rules_augmented hr, r.arity, δ, v, n + 1, Nat.le_refl _, rfl,
      hderives.augmented, ?_, fun t ht => (Option.mem_some_iff.mp ht).symm⟩
    rw [← r.length_symbols, List.take_length]
  obtain ⟨q, below, hspells, hf⟩ := h.lawful.exists_spells_of_isValid hvalid
  obtain ⟨i, hi, hcandidate⟩ := h.lawful.exists_candidate hr hf
  exact ⟨q, below, i, hspells, hi, h.action?_eq _ _ _ hcandidate⟩

/-- Where a rule has been applied last, no path goes on with the token that comes next, since this
would be shifted. -/
theorem not_spells (h : IsExact g a t) (hr : r ∈ g.rules)
    (hderives : g.RightmostDerives n [g.startSymbol] (δ ++ r.lhs :: v.map .terminal)) :
    ¬ Spells a stack (δ ++ r.symbols ++ firstToken v :: μ) := by
  intro hspells
  obtain ⟨q, below, i, hq, -, haction⟩ := h.exists_reduction hr hderives
  have hpart : δ ++ r.symbols ++ [firstToken v] <+: δ ++ r.symbols ++ firstToken v :: μ :=
    (List.prefix_append_right_inj _).mpr ⟨μ, rfl⟩
  obtain ⟨stack', hspells'⟩ := hspells.of_prefix hpart
  obtain ⟨q', below', m, hq', hm⟩ := hspells'.exists_transition
  obtain ⟨rfl, -⟩ := List.cons.inj (hq.unique hq')
  have hterminal : (firstToken v).isNonterminal = false := by
    cases v with
    | nil => rfl
    | cons => rfl
  have hshift := h.action?_eq q _ _ (.shift hterminal hm)
  rw [haction] at hshift
  cases hshift

/-- The start symbol alone is not the result of a rule, since it would be accepted. -/
theorem ne_startSymbol (h : IsExact g a t) (hr : r ∈ g.rules)
    (hderives : g.RightmostDerives n [g.startSymbol] (δ ++ r.lhs :: v.map .terminal)) :
    [g.startSymbol] ≠ δ ++ r.symbols ++ v.map .terminal := by
  intro heq
  obtain rfl : v = [] := by
    cases v using List.reverseRecOn with
    | nil => rfl
    | append_singleton v name =>
      rw [List.map_append, ← List.append_assoc] at heq
      rw [← List.nil_append [g.startSymbol]] at heq
      exact absurd (List.append_inj' heq rfl).2 (by simp [Grammar.startSymbol])
  obtain ⟨q, below, i, hq, -, haction⟩ := h.exists_reduction hr hderives
  rw [List.map_nil, List.append_nil] at heq
  rw [← heq, ← List.nil_append [g.startSymbol]] at hq
  obtain ⟨q', below', m, hq', hm⟩ := hq.exists_transition
  obtain ⟨rfl, rfl⟩ := List.cons.inj (hq'.unique .initial)
  obtain ⟨rfl, -⟩ := List.cons.inj (hq.unique (hq'.push hm))
  have haccept := h.action?_eq q .endMark _ (.accept hm)
  rw [show firstToken [] = .endMark from rfl, haccept] at haction
  cases haction

/-- One of two last steps to the same string does not end to the left of the other. -/
private theorem eq_nil_of_append (h : IsExact g a t) (hr : r ∈ g.rules) (hr' : r' ∈ g.rules)
    (hderives : g.RightmostDerives n [g.startSymbol] (δ ++ r.lhs :: v.map .terminal))
    (hderives' : g.RightmostDerives n' [g.startSymbol] (δ' ++ r'.lhs :: v'.map .terminal))
    (hleft : δ' ++ r'.symbols = δ ++ r.symbols ++ μ)
    (hright : v.map .terminal = μ ++ v'.map .terminal) : μ = [] := by
  cases μ with
  | nil => rfl
  | cons X μ =>
    obtain ⟨_, _, _, hspells, -, -⟩ := h.exists_reduction hr' hderives'
    obtain rfl : firstToken v = X := by
      cases v with
      | nil => cases hright
      | cons name v => exact (List.cons.inj hright).1
    rw [hleft] at hspells
    exact absurd hspells (h.not_spells hr hderives)

/-- A string is the result of one last step only, by one rule and at one place. Another step would
make a second candidate in a cell. -/
theorem eq_of_handles (h : IsExact g a t) (hr : r ∈ g.rules) (hr' : r' ∈ g.rules)
    (hderives : g.RightmostDerives n [g.startSymbol] (δ ++ r.lhs :: v.map .terminal))
    (hderives' : g.RightmostDerives n' [g.startSymbol] (δ' ++ r'.lhs :: v'.map .terminal))
    (heq : δ ++ r.symbols ++ v.map .terminal = δ' ++ r'.symbols ++ v'.map .terminal) :
    r = r' ∧ δ ++ r.lhs :: v.map .terminal = δ' ++ r'.lhs :: v'.map .terminal := by
  -- neither of the two ends to the left of the other
  obtain ⟨hleft, hright⟩ : δ ++ r.symbols = δ' ++ r'.symbols ∧
      v.map Symbol.terminal = v'.map .terminal := by
    rcases List.append_eq_append_iff.mp heq with ⟨μ, hleft, hright⟩ | ⟨μ, hleft, hright⟩
    · obtain rfl := h.eq_nil_of_append hr hr' hderives hderives' hleft hright
      exact ⟨by rw [hleft, List.append_nil], hright⟩
    · obtain rfl := h.eq_nil_of_append hr' hr hderives' hderives hleft hright
      exact ⟨by rw [hleft, List.append_nil], hright.symm⟩
  have hv : v = v' := List.map_injective_iff.mpr (fun _ _ => Symbol.terminal.inj) hright
  subst hv
  obtain ⟨q, below, i, hq, hi, haction⟩ := h.exists_reduction hr hderives
  obtain ⟨q', below', i', hq', hi', haction'⟩ := h.exists_reduction hr' hderives'
  rw [← hleft] at hq'
  obtain ⟨rfl, -⟩ := List.cons.inj (hq.unique hq')
  obtain rfl := Action.reduce.inj (Option.some.inj (haction.symm.trans haction'))
  obtain rfl := Option.some.inj (hi.symm.trans hi')
  exact ⟨rfl, by rw [List.append_cancel_right hleft]⟩

/-- There is at most one rightmost derivation of a string, by induction from the last step
backwards. -/
theorem rules_unique (h : IsExact g a t) {rules rules' : List Rule} {w : List Symbol}
    (hrules : g.RightmostDerivesBy rules [g.startSymbol] w)
    (hrules' : g.RightmostDerivesBy rules' [g.startSymbol] w) : rules = rules' := by
  induction rules using List.reverseRecOn generalizing rules' w with
  | nil =>
    cases hrules
    cases rules' using List.reverseRecOn with
    | nil => rfl
    | append_singleton rules' r' =>
      obtain ⟨δ, v, hr, hlast, heq⟩ := hrules'.exists_last
      exact absurd heq (h.ne_startSymbol hr hlast.rightmostDerives)
  | append_singleton rules r ih =>
    obtain ⟨δ, v, hr, hlast, rfl⟩ := hrules.exists_last
    cases rules' using List.reverseRecOn with
    | nil =>
      generalize hw : δ ++ r.symbols ++ v.map .terminal = w at hrules'
      cases hrules'
      exact absurd hw.symm (h.ne_startSymbol hr hlast.rightmostDerives)
    | append_singleton rules' r' =>
      obtain ⟨δ', v', hr', hlast', heq⟩ := hrules'.exists_last
      obtain ⟨rfl, hbefore⟩ :=
        h.eq_of_handles hr hr' hlast.rightmostDerives hlast'.rightmostDerives heq
      rw [ih hlast (hbefore ▸ hlast')]

end Table.IsExact

namespace Table

/-- If the table has no conflicts, every string that the grammar generates has just one rightmost
derivation, and the run on the string makes as many reductions as the derivation has steps. -/
theorem existsUnique_rightmostDerivesBy
    (ha : Automaton.construct g = .ok a ∨ Automaton.lalr g = .ok a)
    (ht : build policy a g = .ok t) (hconflicts : t.conflicts = []) {input : List String}
    (hinput : g.Generates input) :
    ∃ rules,
      (∀ rules', g.RightmostDerivesBy rules' [g.startSymbol] (input.map .terminal) ↔
        rules' = rules) ∧
      ∃ limit stats, (∀ more,
        t.recognize (limit + more) (input.map .terminal) = some (.ok stats)) ∧
          stats.reductions = rules.length := by
  have h := isExact_of_build ha ht hconflicts
  obtain ⟨limit, stats, haccepted⟩ := h.exists_accepted hinput
  have hend : Symbol.endMark ∉ input.map Symbol.terminal := by simp
  obtain ⟨hderives, -, -⟩ := (h.accounts_start _).runFrom h.lawful h.toIsFor hend haccepted
  obtain ⟨rules, hlength, hrules⟩ := hderives.exists_rules
  refine ⟨rules, fun rules' => ⟨fun h' => h.rules_unique h' hrules, ?_⟩, limit, stats,
    runFrom_add haccepted, hlength.symm⟩
  rintro rfl
  exact hrules

theorem existsUnique_rightmostDerivesBy_lists :
    ∃ a t, Automaton.lalr lists = .ok a ∧ build .preferShift a lists = .ok t ∧ t.conflicts = [] ∧
      lists.Generates ["n", "n"] ∧ ∃ rules,
        (∀ rules', lists.RightmostDerivesBy rules' [lists.startSymbol]
          [.terminal "n", .terminal "n"] ↔ rules' = rules) ∧
        ∃ limit stats, (∀ more,
          t.recognize (limit + more) [.terminal "n", .terminal "n"] = some (.ok stats)) ∧
            stats.reductions = rules.length := by
  have hbuild : (do
      let a ← Automaton.lalr lists
      let t ← build .preferShift a lists
      return t.conflicts) = Except.ok [] := by
    decide +kernel
  obtain ⟨a, ha, hbuild⟩ := bind_eq_ok_iff.mp hbuild
  obtain ⟨t, ht, hbuild⟩ := bind_eq_ok_iff.mp hbuild
  have hconflicts := Except.ok.inj hbuild
  have hone : lists.rules[0] ∈ lists.rules := List.getElem_mem _
  have hnone : lists.rules[1] ∈ lists.rules := List.getElem_mem _
  have hinput : lists.Generates ["n", "n"] :=
    .step (.replace [] [] hone) (.step (.replace [] [.terminal "n"] hone)
      (.step (.replace [] [.terminal "n", .terminal "n"] hnone) (.refl _)))
  exact ⟨a, t, ha, ht, hconflicts, hinput,
    existsUnique_rightmostDerivesBy (Or.inr ha) ht hconflicts hinput⟩

end Table

end LR

end Recognizer
