import Recognizer.Proofs.Grammar.Follow
import Recognizer.Proofs.LR.Lookaheads
import Recognizer.Proofs.LR.Simulation

/-!
# Lookaheads and FOLLOW

The lookaheads of an item can follow its head: closures hand down, and transitions take along, only
what the FOLLOW sets of the augmented grammar have. If all nonterminals are reachable, then every
place of a rule is that of an item in some state, and what can follow a nonterminal there is a
lookahead of the items of all its rules. So the lookaheads of the items of a nonterminal in all
states are its FOLLOW set.

## Main definitions

* `Automaton.Precedes`: some state has an item with the dot before the symbol.

## Main results

* `Automaton.Lawful.propagates_follow`: propagation adds nothing to the FOLLOW sets.
* `Automaton.Lawful.precedes_of_occurs`: the symbols that occur are after some dot.
* `Automaton.Lawful.exists_holds_of_followedBy`: what can follow is a lookahead.
* `Automaton.lookaheads_eq_follow_of_construct`: the lookaheads of both automata of a grammar.
-/

namespace Recognizer.LR

variable {g : Grammar} {a b : Automaton} {r : Rule} {n dot : Nat} {X t : Symbol}
  {item : Item} {o : Option Symbol} {name : String}

namespace Automaton

/-! ### Lookaheads are in FOLLOW -/

/-- The propagation of lookaheads adds nothing to the FOLLOW sets: what an item hands down can
follow the nonterminal after its dot, and a transition does not change the head. -/
theorem Lawful.propagates_follow (ha : Lawful g a) :
    Propagates g a fun _ item => {t | t ∈ g.augmented.firstFollow.followOf item.head} where
  start := Grammar.mem_follow_iff.mpr .start
  first n item hitem r hr hnext t ht := by
    obtain ⟨⟨r₀, hr₀, dot, hdot, hrule⟩, -⟩ := ha.isFact n _ hitem
    obtain rfl : item = r₀.item dot := hrule
    rw [Grammar.mem_first_iff, Rule.beyond_item] at ht
    exact Grammar.mem_follow_iff.mpr
      (.first hr₀ (Rule.take_append_cons_drop hdot hnext).symm ht)
  inherit n item hitem r hr hnext hempty t ht := by
    obtain ⟨⟨r₀, hr₀, dot, hdot, hrule⟩, -⟩ := ha.isFact n _ hitem
    obtain rfl : item = r₀.item dot := hrule
    rw [Rule.beyond_item, ← Grammar.produces_nil_iff_derives] at hempty
    exact Grammar.mem_follow_iff.mpr
      (.inherit hr₀ (Rule.take_append_cons_drop hdot hnext).symm hempty
        (Grammar.mem_follow_iff.mp ht))
  advance _ _ _ _ _ _ _ _ ht := ht

/-! ### FOLLOW is in the lookaheads -/

/-- Some state has an item of a rule with the dot before the symbol. -/
def Precedes (a : Automaton) (X : Symbol) : Prop :=
  ∃ (n : Nat) (r : Rule) (dot : Nat) (β : List Symbol), a.Holds n (r.item dot, none) ∧
    r.symbols.drop dot = X :: β

namespace Lawful

theorem exists_holds_item (ha : Lawful g a) (hf : a.Holds n (r.item 0, o))
    (hdot : dot ≤ r.arity) : ∃ m, a.Holds m (r.item dot, o) := by
  induction dot with
  | zero => exact ⟨n, hf⟩
  | succ dot ih =>
    obtain ⟨m, hm⟩ := ih (Nat.le_of_succ_le hdot)
    rw [← Rule.length_symbols] at hdot
    obtain ⟨p, -, hp⟩ := ha.exists_advance hm.to_none (List.drop_eq_getElem_cons hdot)
    exact ⟨p, hp o hm⟩

theorem exists_holds_of_symbols (ha : Lawful g a) (hf : a.Holds n (r.item 0, o))
    {before rest : List Symbol} (hsymbols : r.symbols = before ++ X :: rest) :
    ∃ m, a.Holds m (r.item before.length, o) ∧ r.symbols.drop before.length = X :: rest := by
  have hdot : before.length ≤ r.arity := by
    rw [← Rule.length_symbols, hsymbols, List.length_append]
    exact Nat.le_add_right _ _
  obtain ⟨m, hm⟩ := ha.exists_holds_item hf hdot
  exact ⟨m, hm, by rw [hsymbols, List.drop_left]⟩

theorem exists_holds_of_precedes (ha : Lawful g a) (h : a.Precedes r.lhs)
    (hr : r ∈ g.augmented.rules) : ∃ n, a.Holds n (r.item 0, none) := by
  obtain ⟨n, r₀, dot, β, hf, hdrop⟩ := h
  exact ⟨n, ha.holds_item hf hdrop hr⟩

/-- The symbols that occur in derivations are after some dot. -/
theorem precedes_of_occurs (ha : Lawful g a) (hX : g.Occurs X) : a.Precedes X := by
  refine hX.induction ⟨initial, g.startRule, 0, [], ha.start.to_none, rfl⟩
    fun r hr hlhs X hX => ?_
  obtain ⟨n, hf⟩ := ha.exists_holds_of_precedes hlhs (Grammar.mem_rules_augmented hr)
  obtain ⟨before, rest, hsymbols⟩ := List.append_of_mem hX
  obtain ⟨m, hm, hdrop⟩ := ha.exists_holds_of_symbols hf hsymbols
  exact ⟨m, r, before.length, rest, hm, hdrop⟩

theorem exists_holds_of_mem (ha : Lawful g a) (hreach : ∀ r ∈ g.rules, g.Reachable r.head)
    (hr : r ∈ g.augmented.rules) : ∃ n, a.Holds n (r.item 0, none) := by
  rcases Grammar.eq_startRule_or_mem hr with rfl | hrg
  · exact ⟨initial, ha.start.to_none⟩
  · exact ha.exists_holds_of_precedes (ha.precedes_of_occurs (hreach r hrg)) hr

/-- What can follow a nonterminal is a lookahead of its rules, of all of them in the same state. -/
theorem exists_holds_of_followedBy (ha : Lawful g a)
    (hreach : ∀ r ∈ g.rules, g.Reachable r.head) (h : g.augmented.FollowedBy name t) :
    ∃ n, ∀ s ∈ g.augmented.rules, s.head = name → a.Holds n (s.item 0, some t) := by
  induction h with
  | start =>
    refine ⟨initial, fun s hs hhead => ?_⟩
    rcases Grammar.eq_startRule_or_mem hs with rfl | hs
    · exact ha.start
    · exact absurd (congrArg Symbol.nonterminal hhead) (Grammar.lhs_ne_start hs)
  | first hr hsymbols ht =>
    obtain ⟨n, hf⟩ := ha.exists_holds_of_mem hreach hr
    obtain ⟨m, hm, hdrop⟩ := ha.exists_holds_of_symbols hf hsymbols
    refine ⟨m, fun s hs hhead => ?_⟩
    subst hhead
    exact ha.holds_lookahead hm hdrop hs (Or.inl ht)
  | inherit hr hsymbols hrest _ ih =>
    obtain ⟨n, hn⟩ := ih
    obtain ⟨m, hm, hdrop⟩ := ha.exists_holds_of_symbols (hn _ hr rfl) hsymbols
    refine ⟨m, fun s hs hhead => ?_⟩
    subst hhead
    exact ha.holds_lookahead hm.to_none hdrop hs (Or.inr ⟨hrest, hm⟩)

end Lawful

/-- In the automaton of all item sets, the reachable nonterminals have rules. -/
theorem IsCanonical.exists_rule (ha : IsCanonical g a) (hname : g.Reachable name) :
    ∃ r ∈ g.rules, r.head = name := by
  obtain ⟨n, r₀, dot, β, hf, hdrop⟩ := ha.lawful.precedes_of_occurs hname
  obtain ⟨s, hs, hitem⟩ := id hf
  have hdefined := ItemSet.undefined?_eq_none_iff.mp (ha.undefined?_eq_none hs) _ hitem
  rw [Item.undefined?, next?_of_drop hdrop, Option.filter_eq_none_iff] at hdefined
  have hdefined := hdefined _ rfl
  rw [Bool.not_eq_true', Bool.not_eq_false, Grammar.defines, List.any_eq_true] at hdefined
  obtain ⟨r, hr, hhead⟩ := hdefined
  obtain rfl : r.head = name := by simpa using hhead
  exact ⟨r, Grammar.mem_rules_of_lhs_mem_body (ha.lawful.le_arity hf).1 hr
    (mem_body_of_drop hdrop), rfl⟩

/-! ### Both automata of a grammar -/

/-- The lookaheads that the items of a nonterminal have in the states of an automaton. -/
def headLookaheads (a : Automaton) (name : String) : Set Symbol :=
  {t | ∃ n item, item.head = .nonterminal name ∧ a.Holds n (item, some t)}

/-- In the automaton of all item sets and in the merged one, the lookaheads of every item are in
FOLLOW of its head. If all nonterminals are reachable, the lookaheads of the items of a nonterminal
in all states are just its FOLLOW set. -/
theorem lookaheads_eq_follow_of_construct (ha : construct g = .ok a) :
    ∃ b, lalr g = .ok b ∧ ∀ c, c = a ∨ c = b →
      (∀ n item, c.lookaheads n item ⊆ {t | t ∈ g.augmented.firstFollow.followOf item.head}) ∧
      ((∀ name ∈ g.nonterminals, g.Reachable name) → ∀ name ∈ g.nonterminals,
        c.headLookaheads name = {t | t ∈ g.augmented.firstFollow.followOf (.nonterminal name)}) := by
  have hcanonical := isCanonical_of_construct ha
  have hlalr : lalr g = .ok a.merged := map_eq_ok_iff.mpr ⟨a, ha, rfl⟩
  have hmerged := lawful_of_lalr hlalr
  have hq := hcanonical.isQuotient_merged
  refine ⟨a.merged, hlalr, fun c hc => ?_⟩
  have hlawful : Lawful g c := by
    rcases hc with rfl | rfl
    · exact hcanonical.lawful
    · exact hmerged
  have hfollow : ∀ n item,
      c.lookaheads n item ⊆ {t | t ∈ g.augmented.firstFollow.followOf item.head} := by
    have hleast := (hq.isLeast_lookaheads hcanonical).2 hmerged.propagates_follow
    intro n item t ht
    rcases hc with rfl | rfl
    · obtain ⟨k, hk⟩ := hq.exists_part n _ ht
      exact hleast k item ((hq.holds_iff k _).mpr ⟨n, hk, ht⟩)
    · exact hleast n item ht
  refine ⟨hfollow, fun hreach name hname => Set.ext fun t => ⟨?_, fun ht => ?_⟩⟩
  · rintro ⟨n, item, hhead, hf⟩
    have ht := hfollow n item hf
    rwa [hhead] at ht
  · obtain ⟨r, hr, rfl⟩ := hcanonical.exists_rule (hreach name hname)
    obtain ⟨n, hn⟩ := hlawful.exists_holds_of_followedBy
      (fun r hr => hreach r.head (Grammar.head_mem_nonterminals hr)) (Grammar.mem_follow_iff.mp ht)
    exact ⟨n, r.item 0, rfl, hn r (Grammar.mem_rules_augmented hr) rfl⟩

/-- FOLLOW of a word puts together the lookaheads of the first and of the second word. -/
theorem lookaheads_eq_follow_of_construct_twoWords :
    ∃ a b, construct twoWords = .ok a ∧ lalr twoWords = .ok b ∧
      (∀ name ∈ twoWords.nonterminals, twoWords.Reachable name) ∧
      twoWords.augmented.firstFollow.followOf (.nonterminal "C") =
        .ofList [.terminal "c", .terminal "d", .endMark] ∧
      ∀ c, c = a ∨ c = b → c.headLookaheads "C" =
        {t | t ∈ twoWords.augmented.firstFollow.followOf (.nonterminal "C")} := by
  have hbuild : (do
      let a ← construct twoWords
      let _ ← lalr twoWords
      return (a.states.length, twoWords.augmented.firstFollow.followOf (.nonterminal "C"))) =
        Except.ok (10, .ofList [.terminal "c", .terminal "d", .endMark]) := by
    decide +kernel
  obtain ⟨a, ha, hbuild⟩ := bind_eq_ok_iff.mp hbuild
  obtain ⟨b, hb, hbuild⟩ := bind_eq_ok_iff.mp hbuild
  have hfollow := (Prod.mk.inj (Except.ok.inj hbuild)).2
  have hpair : twoWords.rules[0] ∈ twoWords.rules := List.getElem_mem _
  have hreach : ∀ name ∈ twoWords.nonterminals, twoWords.Reachable name := by
    intro name hname
    have hnames : twoWords.nonterminals.toList = ["C", "S"] := by decide +kernel
    rw [SortedSet.mem_def, hnames] at hname
    rcases List.mem_pair.mp hname with rfl | rfl
    · exact ⟨[], [.nonterminal "C"], .step (.replace [] [] hpair) (.refl _)⟩
    · exact ⟨[], [], .refl _⟩
  have hword : "C" ∈ twoWords.nonterminals := by decide +kernel
  obtain ⟨b', hb', hboth⟩ := lookaheads_eq_follow_of_construct ha
  obtain rfl := Except.ok.inj (hb.symm.trans hb')
  exact ⟨a, b, ha, hb, hreach, hfollow, fun c hc => (hboth c hc).2 hreach "C" hword⟩

end Automaton

end Recognizer.LR
