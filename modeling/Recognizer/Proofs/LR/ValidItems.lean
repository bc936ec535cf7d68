import Recognizer.Proofs.Grammar.Derivations
import Recognizer.Proofs.LR.Exactness
import Recognizer.Proofs.Splits

/-!
# Valid items

An item is valid for a string of symbols if a rightmost derivation comes to apply its rule such that
the string ends at the dot. The token after the rule is then a lookahead for which it is valid. If
all reachable nonterminals derive strings of terminals, the automaton of all item sets has just the
valid items after every string, and the strings along its paths are the viable prefixes.

Expansions and transitions keep items valid. Conversely, every lawful automaton has a path for each
step of a rightmost derivation: wherever a rule can be applied, its item with the dot at the
beginning is found, with the first token of what the symbols after the nonterminal produce.

## Main definitions

* `IsValid`: the item is valid for a string of symbols, and the lookahead for the item.
* `IsViablePrefix`: the string is part of a string in a rightmost derivation, and does not go beyond
  the rule that was applied last.

## Main results

* `Automaton.IsCanonical.isValid_of_holds`: the items of a state are valid for the symbols on the
  way to it.
* `Automaton.Lawful.exists_spells_of_isValid`: valid items are found on the way along the symbols.
* `Automaton.holds_iff_isValid_of_construct`: both, for the automaton that is constructed.
-/

namespace Recognizer.LR

open Relation (ReflTransGen)

variable {g : Grammar} {a : Automaton} {f f₀ : Fact} {r : Rule} {X t : Symbol}
  {γ δ θ θ' η μ ν : List Symbol} {w x : List String} {stack stack' below : List Nat}
  {n m dot : Nat} {item : Item} {o : Option Symbol}

/-- The first symbol of a string of terminals with the end marker after it. -/
def firstToken : List String → Symbol
  | [] => .endMark
  | name :: _ => .terminal name

/-- The item, with `α` in front of its dot, is valid for `δ α`: from the start a rightmost
derivation comes to `δ A w`, with terminals `w`, where the rule of the item can be applied to `A`
next. The lookahead, if there is one, is the first symbol of `w` with the end marker after it. -/
def IsValid (g : Grammar) (γ : List Symbol) (f : Fact) : Prop :=
  ∃ r ∈ g.rules, ∃ dot δ, ∃ w : List String, ∃ n, dot ≤ r.arity ∧ f.1 = r.item dot ∧
    g.RightmostDerives n [g.startSymbol] (δ ++ r.lhs :: w.map .terminal) ∧
      γ = δ ++ r.symbols.take dot ∧ ∀ t ∈ f.2, t = firstToken w

/-- From the start a rightmost derivation comes to `δ A w`, with terminals `w`, where a rule can be
applied to `A` next, and the string is a prefix of `δ` with the symbols of the rule after it. -/
def IsViablePrefix (g : Grammar) (γ : List Symbol) : Prop :=
  ∃ r ∈ g.rules, ∃ δ, ∃ w : List String, ∃ n,
    g.RightmostDerives n [g.startSymbol] (δ ++ r.lhs :: w.map .terminal) ∧ γ <+: δ ++ r.symbols

/-! ### Paths along strings -/

/-- There is only one path along a string. -/
theorem Spells.unique (h : Spells a stack γ) (h' : Spells a stack' γ) : stack = stack' := by
  induction h generalizing stack' with
  | initial =>
    generalize hγ : ([] : List Symbol) = γ at h'
    cases h' with
    | initial => rfl
    | push => exact absurd hγ.symm (List.append_ne_nil_of_right_ne_nil _ (List.cons_ne_nil _ _))
  | @push n m below γ X _ hm ih =>
    generalize hγ' : γ ++ [X] = γ' at h'
    cases h' with
    | initial =>
      exact absurd hγ' (List.append_ne_nil_of_right_ne_nil _ (List.cons_ne_nil _ _))
    | push h' hm' =>
      obtain ⟨rfl, hX⟩ := List.append_inj' hγ' rfl
      obtain ⟨rfl, rfl⟩ := List.cons.inj (ih h')
      obtain rfl := (List.cons.inj hX).1
      rw [Option.some.inj (hm.symm.trans hm')]

/-- There is a path along each prefix of a string that has one. -/
theorem Spells.of_prefix (h : Spells a stack γ) (hpart : δ <+: γ) : ∃ stack, Spells a stack δ := by
  induction h with
  | initial =>
    obtain rfl := List.prefix_nil.mp hpart
    exact ⟨_, .initial⟩
  | push h hm ih =>
    rcases List.prefix_concat_iff.mp hpart with rfl | hpart
    · exact ⟨_, .push h hm⟩
    · exact ih hpart

/-! ### Items of the automaton are valid -/

theorem IsValid.expands (h : IsValid g γ f₀)
    (hproductive : ∀ X, g.Occurs X → ∃ x, g.Produces [X] x)
    (hexpands : Expands g g.firstSets f₀ f) : IsValid g γ f := by
  obtain ⟨r, hr, dot, δ, w, n, hdot, hitem, hderives, rfl, hlookahead⟩ := h
  obtain ⟨r', hr', hnext, hchild⟩ := hexpands.exists_rule
  rw [hitem] at hnext
  have hsymbols := (Rule.take_append_cons_drop hdot hnext).symm
  have hε : .epsilon ∉ r.symbols.drop (dot + 1) := fun hmem =>
    r.epsilon_not_mem_symbols (List.mem_of_mem_drop hmem)
  have hoccurs : ∀ X ∈ r.symbols.drop (dot + 1), g.Occurs X := fun X hX =>
    Grammar.Occurs.of_mem_symbols ⟨δ, _, hderives.derives⟩ hr (List.mem_of_mem_drop hX)
  -- whatever the symbols after the nonterminal produce, the derivation goes on with its rule
  have hvalid {x : List String} (hx : g.Produces (r.symbols.drop (dot + 1)) x)
      (ho : ∀ t ∈ f.2, t = firstToken (x ++ w)) : IsValid g (δ ++ r.symbols.take dot) f := by
    obtain ⟨k, hk⟩ := hx.exists_rightmostDerives
    have hstep := Grammar.RightmostYields.replace δ w hr
    rw [hsymbols] at hstep
    have hrest := hk.append (δ ++ r.symbols.take dot ++ [r'.lhs]) w
    refine ⟨r', hr', 0, δ ++ r.symbols.take dot, x ++ w, n + (k + 1), Nat.zero_le _, hchild, ?_,
      (List.append_nil _).symm, ho⟩
    refine hderives.trans (.step hstep ?_)
    simpa only [List.append_assoc, List.cons_append, List.nil_append, List.map_append] using hrest
  cases hexpands with
  | item =>
    obtain ⟨x, hx⟩ := Grammar.exists_produces_of_forall fun X hX => hproductive X (hoccurs X hX)
    exact hvalid hx SortedMap.forall_mem_none
  | first _ _ ht hne =>
    obtain rfl := hitem
    rw [Rule.beyond_item, Grammar.mem_firstOfSequence_iff hε hne] at ht
    obtain ⟨name, x, rfl, hx⟩ := ht.exists_produces hproductive hoccurs
    exact hvalid hx fun t ht => (Option.mem_some_iff.mp ht).symm
  | inherit _ _ hempty =>
    obtain rfl := hitem
    rw [Rule.beyond_item, Grammar.epsilon_mem_firstOfSequence_iff hε] at hempty
    exact hvalid hempty hlookahead

theorem IsValid.reaches (h : IsValid g γ f₀)
    (hproductive : ∀ X, g.Occurs X → ∃ x, g.Produces [X] x)
    (hpath : ReflTransGen (Expands g g.firstSets) f₀ f) : IsValid g γ f := by
  induction hpath with
  | refl => exact h
  | tail _ hexpands ih => exact ih.expands hproductive hexpands

/-- A valid item is valid with the dot moved over a symbol, after this symbol. -/
theorem IsValid.advance (h : IsValid g γ f) (hnext : f.1.next? = some X) :
    IsValid g (γ ++ [X]) (f.1.advance, f.2) := by
  obtain ⟨r, hr, dot, δ, w, n, hdot, hitem, hderives, rfl, hlookahead⟩ := h
  rw [hitem] at hnext ⊢
  refine ⟨r, hr, dot + 1, δ, w, n, Rule.lt_arity_of_next? hdot hnext, rfl, hderives, ?_, hlookahead⟩
  rw [Rule.take_succ_of_next? hdot hnext, List.append_assoc]

theorem isValid_start (ho : ∀ t ∈ o, t = .endMark) :
    IsValid g.augmented [] (g.startRule.item 0, o) :=
  ⟨g.startRule, g.startRule_mem, 0, [], [], 0, Nat.zero_le _, rfl, .refl _, rfl, ho⟩

theorem IsValid.isViablePrefix (h : IsValid g γ f) : IsViablePrefix g γ := by
  obtain ⟨r, hr, dot, δ, w, n, -, -, hderives, rfl, -⟩ := h
  exact ⟨r, hr, δ, w, n, hderives, List.prefix_append_right_inj _ |>.mpr (List.take_prefix _ _)⟩

namespace Automaton

/-- The items of a state are valid for the symbols on any way to it. The nonterminals after a dot
must be productive here, for what comes after the rule has to become a string of terminals. -/
theorem IsCanonical.isValid_of_holds (ha : IsCanonical g a)
    (hproductive : ∀ X, g.augmented.Occurs X → ∃ x, g.augmented.Produces [X] x)
    (hspells : Spells a (n :: below) γ) (hf : a.Holds n f) : IsValid g.augmented γ f := by
  generalize hstack : n :: below = stack at hspells
  induction hspells generalizing n below f with
  | initial =>
    obtain ⟨rfl, -⟩ := List.cons.inj hstack
    obtain ⟨o, ho, hpath⟩ := ha.lawful.reaches_of_initial hf
    exact (isValid_start ho).reaches hproductive hpath
  | push h hm ih =>
    obtain ⟨rfl, -⟩ := List.cons.inj hstack
    obtain ⟨f₀, hf₀, hnext, hpath⟩ := ha.exists_before hm hf
    exact ((ih hf₀ rfl).advance hnext).reaches hproductive hpath

/-! ### Valid items are items of the automaton -/

/-- From a state with the item of a rule there is a path along the symbols of the rule. -/
theorem Lawful.exists_spells_append (ha : Lawful g a) (hspells : Spells a (n :: below) δ)
    (hf : a.Holds n (r.item 0, o)) (hsymbols : r.symbols = μ ++ ν) :
    ∃ m below', Spells a (m :: below') (δ ++ μ) ∧ a.Holds m (r.item μ.length, o) := by
  induction μ using List.reverseRecOn generalizing ν with
  | nil =>
    rw [List.append_nil]
    exact ⟨n, below, hspells, hf⟩
  | append_singleton μ X ih =>
    rw [List.append_assoc] at hsymbols
    obtain ⟨m, below', hspells, hf⟩ := ih hsymbols
    have hdrop : r.symbols.drop μ.length = X :: ν := by
      rw [hsymbols, List.drop_left]
      rfl
    obtain ⟨p, hp, hadvance⟩ := ha.exists_advance hf.to_none hdrop
    rw [← List.append_assoc, List.length_append]
    exact ⟨p, m :: below', hspells.push hp, hadvance o hf⟩

/-- Wherever the string has the head of a rule, there is a path along the symbols before it to a
state with the item of the rule, and the first token of whatever the symbols after it produce is a
lookahead there. -/
def Follows (g : Grammar) (a : Automaton) (θ : List Symbol) : Prop :=
  ∀ δ, ∀ r ∈ g.augmented.rules, ∀ η w, θ = δ ++ r.lhs :: η → g.augmented.Produces η w →
    ∃ n below, Spells a (n :: below) δ ∧ a.Holds n (r.item 0, some (firstToken w))

theorem Lawful.follows_start (ha : Lawful g a) : Follows g a [g.augmented.startSymbol] := by
  intro δ r hr η w hθ hw
  obtain ⟨rfl, hcons⟩ | ⟨-, hcons⟩ := List.append_eq_singleton_iff.mp hθ.symm
  · obtain ⟨hlhs, rfl⟩ := List.cons.inj hcons
    obtain rfl := (Grammar.eq_startRule_or_mem hr).resolve_right fun hr =>
      Grammar.lhs_ne_start hr hlhs
    cases hw
    exact ⟨initial, [], .initial, ha.start⟩
  · exact absurd hcons (List.cons_ne_nil _ _)

/-- A rightmost step of the grammar keeps this up: the new symbols are those of a rule whose item is
found, and a path leads along them. -/
theorem Follows.yields (h : Follows g a θ) (ha : Lawful g a)
    (hyields : g.augmented.RightmostYields θ θ') : Follows g a θ' := by
  obtain @⟨before, after, r₁, hs⟩ := hyields
  intro δ r hr η w hθ hw
  rw [List.append_assoc] at hθ
  rcases append_eq_append_cons_iff.mp hθ with ⟨μ, rfl, rfl⟩ | ⟨μ, rfl, hrest⟩
  · -- the head is to the left of the step, and the symbols after it produce the same as before
    obtain ⟨x, y, rfl, hx, hy⟩ := hw.split
    obtain ⟨u, v, rfl, hu, hv⟩ := hy.split
    exact h δ r hr _ _ (List.append_assoc ..) (hx.append (.rule hs hu hv))
  rcases append_eq_append_cons_iff.mp hrest with ⟨ν, hsymbols, rfl⟩ | ⟨ν, -, hafter⟩
  · -- the head is one of the symbols of the rule that is applied
    obtain ⟨x, y, rfl, hx, hy⟩ := hw.split
    obtain ⟨n, below, hspells, hf⟩ := h before _ hs _ _ rfl hy
    obtain ⟨m, below', hspells, hf⟩ := ha.exists_spells_append hspells hf hsymbols
    have hdrop : r₁.symbols.drop μ.length = r.lhs :: ν := by rw [hsymbols, List.drop_left]
    refine ⟨m, below', hspells, ha.holds_lookahead hf.to_none hdrop hr ?_⟩
    cases x with
    | nil => exact Or.inr ⟨hx, hf⟩
    | cons name x => exact Or.inl hx.startsWith
  · obtain ⟨name, -, hname⟩ := List.mem_map.mp (hafter ▸ List.mem_append_right ν List.mem_cons_self)
    cases hname

theorem Lawful.follows_of_rightmostDerives (ha : Lawful g a)
    (h : g.augmented.RightmostDerives n [g.augmented.startSymbol] θ) : Follows g a θ := by
  generalize hη : [g.augmented.startSymbol] = η at h
  have hη : Follows g a η := hη ▸ ha.follows_start
  clear * - ha h hη
  induction h with
  | refl => exact hη
  | step hyields _ ih => exact ih (hη.yields ha hyields)

/-- Valid items are found along the symbols for which they are valid. -/
theorem Lawful.exists_spells_of_isValid (ha : Lawful g a)
    (h : IsValid g.augmented γ (item, some t)) :
    ∃ n below, Spells a (n :: below) γ ∧ a.Holds n (item, some t) := by
  obtain ⟨r, hr, dot, δ, w, k, hdot, hitem, hderives, rfl, ht⟩ := h
  obtain rfl : item = r.item dot := hitem
  obtain rfl := ht t rfl
  have hfollows := ha.follows_of_rightmostDerives hderives
  obtain ⟨n, below, hspells, hf⟩ := hfollows δ r hr _ w rfl (Grammar.produces_terminals w)
  have hsymbols := (List.take_append_drop dot r.symbols).symm
  obtain ⟨m, below', hspells, hf⟩ := ha.exists_spells_append hspells hf hsymbols
  rw [List.length_take_of_le (r.length_symbols ▸ hdot)] at hf
  exact ⟨m, below', hspells, hf⟩

/-- There is a path along each viable prefix. -/
theorem Lawful.exists_spells_of_isViablePrefix (ha : Lawful g a)
    (h : IsViablePrefix g.augmented γ) : ∃ stack, Spells a stack γ := by
  obtain ⟨r, hr, δ, w, k, hderives, hpart⟩ := h
  have hvalid : IsValid g.augmented (δ ++ r.symbols) (r.item r.arity, some (firstToken w)) := by
    refine ⟨r, hr, r.arity, δ, w, k, Nat.le_refl _, rfl, hderives, ?_, fun t ht => ?_⟩
    · rw [← r.length_symbols, List.take_length]
    · exact (Option.mem_some_iff.mp ht).symm
  obtain ⟨n, below, hspells, -⟩ := ha.exists_spells_of_isValid hvalid
  exact hspells.of_prefix hpart

/-- The state at the end of a path has an item. -/
theorem Lawful.exists_holds_of_spells (ha : Lawful g a) (h : Spells a stack γ) :
    ∃ n below f, stack = n :: below ∧ a.Holds n f := by
  cases h with
  | initial => exact ⟨_, _, _, rfl, ha.start⟩
  | push _ hm =>
    obtain ⟨item, hitem, hnext⟩ := ha.exists_item _ _ _ hm
    exact ⟨_, _, _, rfl, ha.advance _ _ _ _ hm hitem hnext⟩

/-- If all nonterminals that are reachable from the start derive strings of terminals, a string of
symbols is along a path of the automaton that is constructed just if it is a viable prefix of the
augmented grammar, and the state at the end of the path has just the items that are valid for the
string, with just the lookaheads for which they are. -/
theorem holds_iff_isValid_of_construct (h : construct g = .ok a)
    (hproductive : ∀ name, g.Reachable name →
      ∃ w : List String, g.Derives [.nonterminal name] (w.map .terminal)) (γ : List Symbol) :
    ((∃ stack, Spells a stack γ) ↔ IsViablePrefix g.augmented γ) ∧
      ∀ n below, Spells a (n :: below) γ → ∀ item t,
        a.Holds n (item, some t) ↔ IsValid g.augmented γ (item, some t) := by
  have hcanonical := isCanonical_of_construct h
  have hlawful := hcanonical.lawful
  have hvalid {n : Nat} {below : List Nat} {f : Fact} (hspells : Spells a (n :: below) γ)
      (hf : a.Holds n f) : IsValid g.augmented γ f :=
    hcanonical.isValid_of_holds (fun X => Grammar.exists_produces_of_occurs_augmented hproductive)
      hspells hf
  refine ⟨⟨?_, hlawful.exists_spells_of_isViablePrefix⟩, fun n below hspells item t => ⟨?_, ?_⟩⟩
  · rintro ⟨stack, hspells⟩
    obtain ⟨n, below, f, rfl, hf⟩ := hlawful.exists_holds_of_spells hspells
    exact (hvalid hspells hf).isViablePrefix
  · exact hvalid hspells
  · intro h
    obtain ⟨n', below', hspells', hf⟩ := hlawful.exists_spells_of_isValid h
    obtain ⟨rfl, -⟩ := List.cons.inj (hspells.unique hspells')
    exact hf

theorem holds_iff_isValid_of_construct_lists :
    ∃ a stack, construct Table.lists = .ok a ∧
      Spells a (2 :: stack) [.nonterminal "L", .terminal "n"] ∧
        ∀ item t, a.Holds 2 (item, some t) ↔
          IsValid Table.lists.augmented [.nonterminal "L", .terminal "n"] (item, some t) := by
  have hpath : (do
      let a ← construct Table.lists
      return (a.transition? initial (.nonterminal "L"), a.transition? 1 (.terminal "n"))) =
        Except.ok (some 1, some 2) := by
    decide +kernel
  obtain ⟨a, ha, hpath⟩ := bind_eq_ok_iff.mp hpath
  obtain ⟨hlist, hn⟩ := Prod.mk.inj (Except.ok.inj hpath)
  have hspells : Spells a [2, 1, initial] [.nonterminal "L", .terminal "n"] :=
    (Spells.initial.push hlist).push hn
  refine ⟨a, _, ha, hspells, ?_⟩
  refine (holds_iff_isValid_of_construct ha (fun name hname => ⟨[], ?_⟩) _).2 2 _ hspells
  have hmem := hname.mem_nonterminals
  rw [SortedSet.mem_def, show Table.lists.nonterminals.toList = ["L"] by decide +kernel] at hmem
  obtain rfl := List.mem_singleton.mp hmem
  -- the list can be empty
  exact .step (.replace [] [] (r := Table.lists.rules[1]) (List.getElem_mem _)) (.refl _)

end Automaton

end Recognizer.LR
