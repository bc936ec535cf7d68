import Recognizer.Proofs.Grammar.First

/-!
# FOLLOW sets

A symbol can follow a nonterminal in three ways. The end marker follows the start. What the symbols
after a nonterminal in a rule can begin with follows the nonterminal. If these can be empty, so does
what follows the head of the rule. The passes over the rules add just this, and they come to an end
within their bound, so FOLLOW of a nonterminal holds what can follow it.

## Main definitions

* `Grammar.occurrences`: the places of the rules where nonterminals are.
* `Grammar.contribution`: what is added to FOLLOW for one occurrence.
* `Grammar.FollowedBy`: the symbol can follow the nonterminal.

## Main results

* `Grammar.followPass_eq`: a pass adds the contributions of all occurrences.
* `Grammar.followPass_firstFollow`: the FOLLOW sets are a fixed point of the passes.
* `Grammar.holds_follow_iff`, `Grammar.mem_follow_iff`: the members of FOLLOW.
-/

namespace Recognizer

open SortedMap (Holds)

namespace Grammar

variable {g : Grammar} {first follow : SetTable} {name head : String} {rest : List Symbol}
  {t : Symbol} {f : String × Option Symbol}

/-! ### Occurrences of nonterminals -/

/-- The nonterminals among the symbols, each with the symbols after it. -/
def nonterminalsWithRest : List Symbol → List (String × List Symbol)
  | [] => []
  | .nonterminal name :: rest => (name, rest) :: nonterminalsWithRest rest
  | _ :: rest => nonterminalsWithRest rest

/-- The nonterminals in the rules, each with the head of the rule and the symbols after it, in the
order in which a pass comes to them. -/
def occurrences (g : Grammar) : List (String × String × List Symbol) :=
  g.rules.flatMap fun r => (nonterminalsWithRest r.body).map fun e => (r.head, e)

private theorem mem_nonterminalsWithRest {α : List Symbol} :
    (name, rest) ∈ nonterminalsWithRest α ↔ ∃ before, α = before ++ .nonterminal name :: rest := by
  induction α with
  | nil => simp [nonterminalsWithRest]
  | cons X α ih =>
    have hcons : (name, rest) ∈ nonterminalsWithRest (X :: α) ↔
        (X = .nonterminal name ∧ α = rest) ∨ (name, rest) ∈ nonterminalsWithRest α := by
      cases X <;> simp [nonterminalsWithRest, eq_comm]
    rw [hcons, ih]
    constructor
    · rintro (⟨rfl, rfl⟩ | ⟨before, rfl⟩)
      · exact ⟨[], rfl⟩
      · exact ⟨X :: before, rfl⟩
    · rintro ⟨before, h⟩
      rcases List.cons_eq_append_iff.mp h with ⟨rfl, h⟩ | ⟨before, rfl, h⟩
      · obtain ⟨rfl, rfl⟩ := List.cons.inj h
        exact Or.inl ⟨rfl, rfl⟩
      · exact Or.inr ⟨before, (List.cons.inj h).2⟩

private theorem symbols_eq_append_iff {r : Rule} {before : List Symbol} :
    r.symbols = before ++ .nonterminal name :: rest ↔
      r.body = before ++ .nonterminal name :: rest := by
  rw [Rule.symbols]
  split
  · next h =>
    rw [Rule.body_of_isEpsilon h]
    cases before <;> simp
  · rfl

theorem mem_occurrences : (head, name, rest) ∈ g.occurrences ↔
    ∃ r ∈ g.rules, r.head = head ∧ ∃ before, r.symbols = before ++ .nonterminal name :: rest := by
  simp only [occurrences, List.mem_flatMap, List.mem_map, Prod.exists, symbols_eq_append_iff,
    ← mem_nonterminalsWithRest]
  constructor
  · rintro ⟨r, hr, _, _, hmem, heq⟩
    cases heq
    exact ⟨r, hr, rfl, hmem⟩
  · rintro ⟨r, hr, rfl, hmem⟩
    exact ⟨r, hr, name, rest, hmem, rfl⟩

/-! ### Passes -/

/-- What is added to FOLLOW of a nonterminal that has some symbols after it in a rule: what these
can begin with, and if they can be empty, FOLLOW of the head. -/
def contribution (first : SetTable) (head : String) (rest : List Symbol) (follow : SetTable) :
    SymbolSet :=
  let next := first.firstOfSequence rest
  if .epsilon ∈ next then next.erase .epsilon ∪ follow.setOf head else next

theorem mem_contribution : t ∈ contribution first head rest follow ↔
    (t ≠ .epsilon ∧ t ∈ first.firstOfSequence rest) ∨
      .epsilon ∈ first.firstOfSequence rest ∧ t ∈ follow.setOf head := by
  rw [contribution]
  by_cases h : .epsilon ∈ first.firstOfSequence rest
  · simp only [h, if_true, SortedSet.mem_union, SortedSet.mem_erase, true_and]
    rw [and_comm]
  · simp only [h, if_false, false_and, or_false, iff_and_self]
    rintro ht rfl
    exact h ht

private theorem followAlong_eq (first : SetTable) (head : String) (follow : SetTable)
    (α : List Symbol) : followAlong first head follow α = (nonterminalsWithRest α).foldl
      (fun follow e => follow.add e.1 (contribution first head e.2 follow)) follow := by
  induction α generalizing follow with
  | nil => rfl
  | cons X α ih => cases X <;> exact ih _

/-- A pass adds the contribution of one occurrence after the other. -/
theorem followPass_eq (g : Grammar) (first follow : SetTable) :
    g.followPass first follow = g.occurrences.foldl
      (fun follow e => follow.add e.2.1 (contribution first e.1 e.2.2 follow)) follow := by
  simp only [followPass, occurrences, List.foldl_flatMap, List.foldl_map, followAlong_eq]

private theorem followPass_induction {P : SetTable → Prop}
    (hadd : ∀ follow, P follow → ∀ head name rest, (head, name, rest) ∈ g.occurrences →
      P (follow.add name (contribution first head rest follow))) (h : P follow) :
    P (g.followPass first follow) := by
  rw [followPass_eq]
  exact List.foldlRecOn _ _ h fun follow h e he => hadd follow h e.1 e.2.1 e.2.2 he

private theorem holds_followPass (h : Holds follow f) : Holds (g.followPass first follow) f :=
  followPass_induction (P := fun follow => Holds follow f)
    (fun _ h _ _ _ _ => holds_add.mpr (Or.inl h)) h

/-! ### The table is closed -/

/-- The table that the passes begin with: the end marker follows the start, and nothing else follows
anything. -/
private def onlyStart (g : Grammar) : SetTable :=
  .tabulate g.nonterminals fun name => if name = g.start then {.endMark} else ∅

private theorem holds_onlyStart :
    g.onlyStart.Holds f ↔ f.1 ∈ g.nonterminals ∧ ∀ t ∈ f.2, f.1 = g.start ∧ t = .endMark := by
  obtain ⟨name, o⟩ := f
  simp only [Holds, onlyStart, SortedMap.get?_tabulate]
  by_cases hname : name ∈ g.nonterminals
  · by_cases hstart : name = g.start
    · subst hstart
      simp [hname]
    · simp [hname, hstart]
  · simp [hname]

private theorem setFacts_followPass
    (h : ∀ f, Holds follow f → f ∈ g.setFacts .endMark) :
    ∀ f, Holds (g.followPass g.firstSets follow) f → f ∈ g.setFacts .endMark := by
  refine followPass_induction (P := fun follow => ∀ f, Holds follow f → f ∈ g.setFacts .endMark)
    (fun follow h head name rest hmem f hf => ?_) h
  rcases holds_add.mp hf with hf | ⟨hname, hf⟩
  · exact h f hf
  · obtain ⟨r, hr, rfl, before, hsymbols⟩ := mem_occurrences.mp hmem
    have hbody (X : Symbol) (hX : X ∈ .nonterminal name :: rest) : X ∈ r.body := by
      refine Rule.mem_body_of_mem_symbols ?_
      rw [hsymbols]
      exact List.mem_append_right _ hX
    refine mem_setFacts.mpr ⟨?_, fun t ht => ?_⟩
    · rw [hname]
      exact mem_nonterminals_of_mem_body hr (hbody _ List.mem_cons_self)
    · rcases mem_contribution.mp (hf t ht) with ⟨hne, ht⟩ | ⟨-, ht⟩
      · have hrest := isFirstSymbol_of_mem_firstOfSequence hr
          (fun X hX => hbody X (List.mem_cons_of_mem _ hX)) t ht
        exact Or.inr (hrest.resolve_left hne)
      · exact (mem_setFacts.mp (h _ (SetTable.mem_setOf_iff.mp ht))).2 t rfl

private theorem setFacts_onlyStart : ∀ f, Holds g.onlyStart f → f ∈ g.setFacts .endMark := by
  intro f hf
  obtain ⟨hname, ht⟩ := holds_onlyStart.mp hf
  exact mem_setFacts.mpr ⟨hname, fun t h => Or.inl (ht t h).2⟩

/-- The FOLLOW sets are a fixed point. A pass with the finished FIRST sets does not change them any
more. -/
theorem followPass_firstFollow (g : Grammar) :
    g.followPass g.firstSets g.firstFollow.follow = g.firstFollow.follow := by
  refine SortedMap.step_saturate_of_growing
    (P := fun follow => ∀ f, Holds follow f → f ∈ g.setFacts .endMark) (g.setFacts .endMark)
    (fun follow => setFacts_followPass) (fun follow h => h)
    (fun follow _ f hf => holds_followPass hf) _ setFacts_onlyStart ?_
  exact length_setFacts_lt (fun name hname => holds_onlyStart.mpr ⟨hname, nofun⟩) _

/-! ### The members of FOLLOW -/

/-- The symbol can follow the nonterminal: as the end marker follows the start, as the beginning of
what comes after the nonterminal in a rule, or as what follows the head of a rule at whose end the
nonterminal can stand. -/
inductive FollowedBy (g : Grammar) : String → Symbol → Prop
  | start : FollowedBy g g.start .endMark
  | first {r : Rule} {before rest : List Symbol} {name : String} {t : Symbol} (hr : r ∈ g.rules)
      (hsymbols : r.symbols = before ++ .nonterminal name :: rest) (ht : g.StartsWith t rest) :
      FollowedBy g name t
  | inherit {r : Rule} {before rest : List Symbol} {name : String} {t : Symbol} (hr : r ∈ g.rules)
      (hsymbols : r.symbols = before ++ .nonterminal name :: rest) (hrest : g.Produces rest [])
      (ht : FollowedBy g r.head t) : FollowedBy g name t

private theorem epsilon_not_mem_rest {r : Rule} {before : List Symbol}
    (hsymbols : r.symbols = before ++ .nonterminal name :: rest) : .epsilon ∉ rest := by
  intro hmem
  refine r.epsilon_not_mem_symbols ?_
  rw [hsymbols]
  exact List.mem_append_right _ (List.mem_cons_of_mem _ hmem)

private theorem followedBy_of_mem_contribution
    (h : ∀ name t, Holds follow (name, some t) → g.FollowedBy name t)
    (hmem : (head, name, rest) ∈ g.occurrences)
    (ht : t ∈ contribution g.firstSets head rest follow) : g.FollowedBy name t := by
  obtain ⟨r, hr, rfl, before, hsymbols⟩ := mem_occurrences.mp hmem
  have hε := epsilon_not_mem_rest hsymbols
  rcases mem_contribution.mp ht with ⟨hne, ht⟩ | ⟨hempty, ht⟩
  · exact .first hr hsymbols ((mem_firstOfSequence_iff hε hne).mp ht)
  · exact .inherit hr hsymbols ((epsilon_mem_firstOfSequence_iff hε).mp hempty)
      (h r.head t (SetTable.mem_setOf_iff.mp ht))

private theorem followedBy_of_holds (h : Holds g.firstFollow.follow (name, some t)) :
    g.FollowedBy name t := by
  refine saturate_induction
    (P := fun follow : SetTable => ∀ name t, follow.Holds (name, some t) → g.FollowedBy name t)
    (fun follow hfollow => ?_) _ _ (fun name t hf => ?_) name t h
  · refine followPass_induction
      (P := fun follow => ∀ name t, Holds follow (name, some t) → g.FollowedBy name t)
      (fun follow hfollow head name rest hmem name' t hf => ?_) hfollow
    rcases holds_add.mp hf with hf | ⟨rfl, ht⟩
    · exact hfollow name' t hf
    · exact followedBy_of_mem_contribution hfollow hmem (ht t rfl)
  · obtain ⟨rfl, rfl⟩ := (holds_onlyStart.mp hf).2 t rfl
    exact .start

private theorem holds_follow_of_holds_onlyStart (h : Holds g.onlyStart f) :
    Holds g.firstFollow.follow f :=
  saturate_induction (P := fun follow => Holds follow f) (fun _ => holds_followPass) _ _ h

private theorem holds_of_mem_contribution (hmem : (head, name, rest) ∈ g.occurrences)
    (ht : t ∈ contribution g.firstSets head rest g.firstFollow.follow) :
    Holds g.firstFollow.follow (name, some t) := by
  have hfixed := g.followPass_firstFollow
  rw [followPass_eq] at hfixed
  have hadd := add_eq_self_of_foldl_eq_self
    (fun follow _ _ hf => holds_add.mpr (Or.inl hf)) hfixed _ hmem
  rw [← hadd]
  refine holds_add.mpr (Or.inr ⟨rfl, fun x hx => ?_⟩)
  rwa [← Option.mem_some_iff.mp hx]

private theorem FollowedBy.holds (h : g.FollowedBy name t) :
    Holds g.firstFollow.follow (name, some t) := by
  induction h with
  | start =>
    refine holds_follow_of_holds_onlyStart (holds_onlyStart.mpr ⟨g.start_mem_nonterminals, ?_⟩)
    exact fun t ht => ⟨rfl, (Option.mem_some_iff.mp ht).symm⟩
  | @first r before rest name t hr hsymbols ht =>
    have hne : t ≠ .epsilon := by
      rintro rfl
      exact absurd ht.isTerminal Bool.false_ne_true
    refine holds_of_mem_contribution (mem_occurrences.mpr ⟨_, hr, rfl, _, hsymbols⟩) ?_
    exact mem_contribution.mpr (Or.inl
      ⟨hne, (mem_firstOfSequence_iff (epsilon_not_mem_rest hsymbols) hne).mpr ht⟩)
  | inherit hr hsymbols hrest _ ih =>
    refine holds_of_mem_contribution (mem_occurrences.mpr ⟨_, hr, rfl, _, hsymbols⟩) ?_
    exact mem_contribution.mpr (Or.inr
      ⟨(epsilon_mem_firstOfSequence_iff (epsilon_not_mem_rest hsymbols)).mpr hrest,
        SetTable.mem_setOf_iff.mpr ih⟩)

/-- The table has an entry for every nonterminal, with just the symbols that can follow it; an entry
may be empty. -/
theorem holds_follow_iff : Holds g.firstFollow.follow f ↔
    f.1 ∈ g.nonterminals ∧ ∀ t ∈ f.2, g.FollowedBy f.1 t := by
  obtain ⟨name, o⟩ := f
  constructor
  · intro hf
    have hstock := saturate_induction
      (P := fun follow : SetTable => ∀ f, follow.Holds f → f ∈ g.setFacts .endMark)
      (fun follow => setFacts_followPass) _ _ setFacts_onlyStart _ hf
    refine ⟨(mem_setFacts.mp hstock).1, fun t ht => ?_⟩
    obtain rfl : o = some t := ht
    exact followedBy_of_holds hf
  · rintro ⟨hname, ht⟩
    cases o with
    | none => exact holds_follow_of_holds_onlyStart (holds_onlyStart.mpr ⟨hname, nofun⟩)
    | some t => exact (ht t rfl).holds

/-- FOLLOW of a nonterminal holds what can follow it. -/
theorem mem_follow_iff : t ∈ g.firstFollow.followOf (.nonterminal name) ↔ g.FollowedBy name t := by
  rw [FirstFollow.followOf, SetTable.mem_setOf_iff]
  exact ⟨followedBy_of_holds, FollowedBy.holds⟩

end Grammar

end Recognizer
