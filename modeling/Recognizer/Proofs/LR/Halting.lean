import Mathlib.Order.WellFoundedSet
import Recognizer.Proofs.LR.Simulation
import Recognizer.Proofs.LR.Soundness

/-!
# Runs come to an end

A parser that has no clashes cannot reduce for ever in front of a token. Whatever it does there
serves an item with the token as a lookahead, whose rest can be empty. Such an item is completed,
and then the stack is lower than before, or only the state at its top has been exchanged, by a unit
reduction up to empty symbols. If the latter could go on for ever, it would come in a circle, and so
it would above every state that hands the token down to the items on the circle. But there the
circle has an exit: the item that the token comes from in that state.

## Main definitions

* `Automaton.Unwinds`: a reduction that exchanges the state at the top of the stack.

## Main results

* `Table.IsExact.halts_of_holds_item`: a reduction that is expected in a state leads to an end.
* `Table.IsExact.wellFounded_unwinds`: the state at the top is not exchanged for ever.
* `Table.IsExact.halts`: every run comes to an end.
-/

namespace Recognizer.LR

open Relation (ReflTransGen TransGen)
open Automaton (Admits)

variable {g : Grammar} {a : Automaton} {t : Table} {r s : Rule} {q q' p dot n : Nat}
  {σ τ stack below : List Nat} {X Y b : Symbol} {γ ν rest : List Symbol} {f f₀ : Fact}
  {o : Option Symbol}

/-! ### What a state says about rules -/

/-- Where the lookahead of an item with nothing read comes from: an item with its dot before the
head of the rule. The symbols beyond can begin with the lookahead, or they can be empty and the item
has the lookahead itself. -/
theorem Automaton.Lawful.exists_parent (ha : Lawful g a) (hf₀ : a.Holds q f₀)
    (h : Expands g.augmented g.augmented.firstSets f₀ (s.item 0, some b)) :
    ∃ (r : Rule) (dot : Nat) (ν : List Symbol), f₀.1 = r.item dot ∧
      r.symbols.drop dot = s.lhs :: ν ∧
      (g.augmented.StartsWith b ν ∨ g.augmented.Produces ν [] ∧ f₀.2 = some b) := by
  obtain ⟨⟨r, hr, dot, hdot, hitem⟩, -⟩ := ha.isFact q f₀ hf₀
  refine ⟨r, dot, r.symbols.drop (dot + 1), hitem, ?_⟩
  have hε : .epsilon ∉ r.symbols.drop (dot + 1) := fun hmem =>
    r.epsilon_not_mem_symbols (List.mem_of_mem_drop hmem)
  have hdrop {X : Symbol} (hnext : f₀.1.next? = some X) :
      r.symbols.drop dot = X :: r.symbols.drop (dot + 1) := by
    rw [hitem] at hnext
    exact Rule.drop_eq_cons hdot hnext
  have hbeyond : f₀.1.beyond = r.symbols.drop (dot + 1) := by rw [hitem, Rule.beyond_item]
  generalize hchild : ((s.item 0, some b) : Fact) = f at h
  cases h with
  | item hs hnext => exact absurd (Prod.mk.inj hchild).2 (Option.some_ne_none b)
  | first hs hnext ht hne =>
    obtain ⟨hitem', hb⟩ := Prod.mk.inj hchild
    obtain rfl := (Rule.item_inj hitem').1
    obtain rfl := Option.some.inj hb
    rw [hbeyond] at ht
    exact ⟨hdrop hnext, Or.inl ((Grammar.mem_firstOfSequence_iff hε hne).mp ht)⟩
  | inherit hs hnext hempty =>
    obtain ⟨hitem', hb⟩ := Prod.mk.inj hchild
    obtain rfl := (Rule.item_inj hitem').1
    obtain rfl := Option.some.inj hb
    rw [hbeyond] at hempty
    exact ⟨hdrop hnext, Or.inr ⟨(Grammar.epsilon_mem_firstOfSequence_iff hε).mp hempty, rfl⟩⟩

namespace Table.IsExact

/-! ### Runs up to the next action -/

theorem halts_of_transition (h : IsExact g a t) (hb : b.isNonterminal = false)
    (hp : a.transition? q b = some p) (hnext : rest ≠ [] → t.Halts (p :: q :: σ, rest)) :
    t.Halts (q :: σ, b :: rest) := by
  have haction := h.action?_eq q b _ (.shift hb hp)
  refine halts_of_forall fun q' hq' => ?_
  rcases moves_cons_iff.mp hq' with ⟨m, hm, hrest, rfl⟩ | ⟨i, r, top, left, m, hi, -⟩
  · rw [haction] at hm
    cases hm
    exact hnext hrest
  · rw [haction] at hi
    cases hi

theorem halts_of_complete (h : IsExact g a t) (hr : r ∈ g.rules)
    (hf : a.Holds q (r.item r.arity, some b))
    (hnext : ∀ top left p, (q :: σ).drop r.arity = top :: left → a.transition? top r.lhs = some p →
      t.Halts (p :: top :: left, b :: rest)) :
    t.Halts (q :: σ, b :: rest) := by
  obtain ⟨i, hi, hcandidate⟩ := h.lawful.exists_candidate hr hf
  have haction := h.action?_eq q b _ hcandidate
  refine halts_of_forall fun q' hq' => ?_
  rcases moves_cons_iff.mp hq' with ⟨m, hm, -⟩ | ⟨j, s, top, left, p, hj, hs, hdrop, hp, rfl⟩
  · rw [haction] at hm
    cases hm
  · rw [haction] at hj
    cases hj
    rw [h.grammar_eq] at hs
    obtain rfl := Option.some.inj (hi.symm.trans hs)
    rw [h.goto?_eq top r.lhs rfl] at hp
    exact hnext top left p hdrop hp

theorem halts_of_startRule (h : IsExact g a t) (hf : a.Holds q (g.startRule.item 1, some b)) :
    t.Halts (q :: σ, b :: rest) := by
  have haction := h.action?_of_startRule hf
  refine halts_of_forall fun q' hq' => ?_
  rcases moves_cons_iff.mp hq' with ⟨m, hm, -⟩ | ⟨i, r, top, left, m, hi, -⟩
  · rw [haction] at hm
    cases hm
  · rw [haction] at hi
    cases hi

/-- A run that is to shift a terminal with which the symbols after a dot can begin halts if it halts
after every shift. -/
theorem halts_of_startsWith (h : IsExact g a t) (hf : a.Holds q (r.item dot, none))
    (hb : g.augmented.StartsWith b (r.symbols.drop dot))
    (hshift : ∀ q' τ p, ReflTransGen t.Moves (q :: σ, b :: rest) (q' :: τ, b :: rest) →
      a.transition? q' b = some p → rest ≠ [] → t.Halts (p :: q' :: τ, rest)) :
    t.Halts (q :: σ, b :: rest) := by
  obtain ⟨q', τ, p, hpath, hp⟩ :=
    h.reaches_shift hb (h.lawful.le_arity hf).1 hf rfl σ rest
  have hterminal : b.isNonterminal = false := by
    cases b with
    | nonterminal name => exact absurd hb.isTerminal Bool.false_ne_true
    | _ => rfl
  exact (h.halts_of_transition hterminal hp (hshift q' τ p hpath hp)).of_reaches hpath

/-- A run that is to complete an item halts if it halts after the reduction. -/
theorem halts_of_nullable (h : IsExact g a t) (hf : a.Holds q (r.item dot, some b))
    (hrest : g.augmented.Produces (r.symbols.drop dot) [])
    (hnext : r ∈ g.rules → ∀ top left p, (q :: σ).drop dot = top :: left →
      a.transition? top r.lhs = some p → t.Halts (p :: top :: left, b :: rest)) :
    t.Halts (q :: σ, b :: rest) := by
  obtain ⟨hr, hdot⟩ := h.lawful.le_arity hf
  obtain ⟨q', τ, hpath, hdrop, hcomplete⟩ := h.reaches_reduction hr hdot hf hrest σ rest
  refine Halts.of_reaches ?_ hpath
  rcases Grammar.eq_startRule_or_mem hr with rfl | hrg
  · exact h.halts_of_startRule hcomplete
  · refine h.halts_of_complete hrg hcomplete fun top left p htop => ?_
    rw [hdrop] at htop
    exact hnext hrg top left p htop

/-! ### Reductions that are expected in a state -/

/-- A reduction to the head of an item with the token as a lookahead leads to an end, if there is
nothing else on the stack and no other token. -/
theorem halts_of_holds_item (h : IsExact g a t) (hr : r ∈ g.rules)
    (hf : a.Holds q (r.item 0, some b)) (hp : a.transition? q r.lhs = some p) :
    t.Halts ([p, q], [b]) := by
  obtain ⟨f₀, hf₀, hkernel, hpath⟩ := h.lawful.origin q _ hf
  -- the token comes from a fact further up: the run reaches a shift of it, or completes the item
  generalize hchild : ((r.item 0, some b) : Fact) = f at hpath
  induction hpath generalizing r p with
  | refl =>
    subst hchild
    rcases hkernel with hdot | hstart
    · exact absurd rfl hdot
    · obtain rfl := (Rule.item_inj hstart).1
      exact absurd rfl (Grammar.lhs_ne_start hr)
  | @tail f₁ f hpath hexpands ih =>
    subst hchild
    have hf₁ := h.lawful.holds_of_reaches hf₀ hpath
    obtain ⟨s, dot, ν, hitem, hdrop, hb⟩ := h.lawful.exists_parent hf₁ hexpands
    obtain ⟨item₁, o₁⟩ := f₁
    obtain rfl : item₁ = s.item dot := hitem
    obtain ⟨p', hp', hadvance⟩ := h.lawful.exists_advance hf₁.to_none hdrop
    obtain rfl := Option.some.inj (hp.symm.trans hp')
    have hrest := drop_succ_of_drop hdrop
    rcases hb with hstarts | ⟨hν, ho⟩
    · refine h.halts_of_startsWith (hadvance none hf₁.to_none) (hrest ▸ hstarts) ?_
      exact fun _ _ _ _ _ hne => absurd rfl hne
    · obtain rfl : o₁ = some b := ho
      refine h.halts_of_nullable (hadvance _ hf₁) (hrest ▸ hν) fun hs top left p' htop hp' => ?_
      cases dot with
      | zero =>
        obtain ⟨rfl, rfl⟩ := List.cons.inj htop
        exact ih hs hf₁ hp' rfl
      | succ dot =>
        rw [List.drop_eq_nil_of_le (Nat.le_add_left 2 dot)] at htop
        cases htop

end Table.IsExact

/-! ### Exchanging the top of the stack -/

/-- In front of the token, a reduction can exchange the state that `X` leads to from `q` for the one
that `Y` leads to: apart from `X`, a rule of `Y` can be empty. -/
def Automaton.Unwinds (g : Grammar) (a : Automaton) (q : Nat) (b X Y : Symbol) : Prop :=
  ∃ p, ∃ r ∈ g.rules, a.transition? q X = some p ∧ a.Holds p (r.item 1, some b) ∧
    g.augmented.Produces (r.symbols.drop 1) [] ∧ r.lhs = Y

/-- A relation between finitely many values that has no circles is well founded. -/
private theorem wellFounded_of_not_cycle {α : Type} {R : α → α → Prop} {s : Set α} (hs : s.Finite)
    (hR : ∀ x y, R x y → x ∈ s ∧ y ∈ s) (hcycle : ∀ x, ¬ TransGen R x x) : WellFounded R := by
  have : Std.Irrefl (TransGen R) := ⟨hcycle⟩
  have : IsStrictOrder α (TransGen R) := {}
  have hwf := Set.wellFoundedOn_iff.mp (hs.wellFoundedOn (r := TransGen R))
  exact Subrelation.wf (fun {x y} hxy => ⟨.single hxy, hR x y hxy⟩) hwf

namespace Automaton.Lawful

theorem symbols_of_unwinds (ha : Lawful g a) (hp : a.transition? q X = some p)
    (hf : a.Holds p (r.item 1, o)) :
    r.symbols.drop 0 = X :: r.symbols.drop 1 ∧ a.Holds q (r.item 0, none) := by
  obtain ⟨hX, hbefore⟩ := ha.holds_before hp (ha.le_arity hf).2 hf.to_none
  obtain ⟨hlt, rfl⟩ := List.getElem?_eq_some_iff.mp hX
  exact ⟨List.drop_eq_getElem_cons hlt, hbefore⟩

/-- On the way to a symbol whose rules have the token as a lookahead in some state, the rules of all
symbols have it. -/
theorem holds_of_unwinds {n : Nat} (ha : Lawful g a)
    (hpath : ReflTransGen (Unwinds g a q b) Y X)
    (hX : ∀ s ∈ g.rules, s.lhs = X → a.Holds n (s.item 0, some b)) :
    ∀ s ∈ g.rules, s.lhs = Y → a.Holds n (s.item 0, some b) := by
  induction hpath using ReflTransGen.head_induction_on with
  | refl => exact hX
  | head hstep _ ih =>
    obtain ⟨p, r, hr, hp, hf, hempty, rfl⟩ := hstep
    rintro s hs rfl
    have hdrop := (ha.symbols_of_unwinds hp hf).1
    have hlookahead := ih r hr rfl
    exact ha.holds_lookahead hlookahead.to_none hdrop (Grammar.mem_rules_augmented hs)
      (Or.inr ⟨hempty, hlookahead⟩)

end Automaton.Lawful

namespace Table.IsExact

theorem reaches_of_unwinds (h : IsExact g a t) (hr : r ∈ g.rules)
    (hf : a.Holds n (r.item 0, some b)) (hdrop : r.symbols.drop 0 = X :: r.symbols.drop 1)
    (hempty : g.augmented.Produces (r.symbols.drop 1) []) (hp : a.transition? n X = some p)
    (hq : a.transition? n r.lhs = some q) :
    TransGen t.Moves ([p, n], [b]) ([q, n], [b]) := by
  obtain ⟨p', hp', hadvance⟩ := h.lawful.exists_advance hf.to_none hdrop
  obtain rfl := Option.some.inj (hp.symm.trans hp')
  have hfp := hadvance _ hf
  obtain ⟨hr', hdot⟩ := h.lawful.le_arity hfp
  obtain ⟨q', τ, hpath, hτ, hcomplete⟩ := h.reaches_reduction hr' hdot hfp hempty [n] []
  exact TransGen.tail'_iff.mpr ⟨_, hpath, h.moves_reduce hr hcomplete hτ hq []⟩

/-- Exchanges of one state after the other, above a state that hands the token down. -/
theorem reaches_of_unwinds_path (h : IsExact g a t)
    (hpath : ReflTransGen (Automaton.Unwinds g a q b) Y X)
    (hX : ∀ s ∈ g.rules, s.lhs = X → a.Holds n (s.item 0, some b))
    (hp : a.transition? n X = some p) :
    ∃ y, a.transition? n Y = some y ∧ ReflTransGen t.Moves ([y, n], [b]) ([p, n], [b]) := by
  induction hpath using ReflTransGen.head_induction_on with
  | refl => exact ⟨p, hp, .refl⟩
  | head hstep hpath ih =>
    obtain ⟨q₁, r, hr, hq₁, hf, hempty, rfl⟩ := hstep
    obtain ⟨z, hz, hreach⟩ := ih
    obtain ⟨hdrop, -⟩ := h.lawful.symbols_of_unwinds hq₁ hf
    have hlookahead := h.lawful.holds_of_unwinds hpath hX r hr rfl
    obtain ⟨y, hy, -⟩ := h.lawful.exists_advance hlookahead.to_none hdrop
    have hexchange := h.reaches_of_unwinds hr hlookahead hdrop hempty hy hz
    exact ⟨y, hy, hexchange.to_reflTransGen.trans hreach⟩

/-- The state at the top is not exchanged in a circle. Above a state that hands the token down, such
a circle would be one of the run, which comes to an end there. -/
theorem not_unwinds_cycle (h : IsExact g a t) : ¬ TransGen (Automaton.Unwinds g a q b) Y Y := by
  intro hcycle
  obtain ⟨X, hpath, p, r, hr, hp, hf, hempty, rfl⟩ := TransGen.tail'_iff.mp hcycle
  obtain ⟨hdrop, -⟩ := h.lawful.symbols_of_unwinds hp hf
  -- a state `n` that hands the token down to `p`, and with it to all rules on the circle
  obtain ⟨n, X', before, hn, hadvance, hnext, hbefore⟩ :=
    h.lawful.lookahead p _ hf (Nat.succ_ne_zero 0)
  obtain rfl := eq_item_of_advance hadvance
  obtain rfl : X = X' := Option.some.inj ((next?_of_drop hdrop).symm.trans hnext)
  have hX : ∀ s ∈ g.rules, s.lhs = X → a.Holds n (s.item 0, some b) := by
    rintro s hs rfl
    exact h.lawful.holds_lookahead hbefore.to_none hdrop (Grammar.mem_rules_augmented hs)
      (Or.inr ⟨hempty, hbefore⟩)
  obtain ⟨y, hy, hreach⟩ := h.reaches_of_unwinds_path hpath hX hn
  have hexchange := h.reaches_of_unwinds hr hbefore hdrop hempty hn hy
  exact (h.halts_of_holds_item hr hbefore hy).not_cycle (TransGen.trans_right hreach hexchange)

/-- The state at the top is not exchanged for ever, since only finitely many symbols take part and
there are no circles. -/
theorem wellFounded_unwinds (h : IsExact g a t) (q : Nat) (b : Symbol) :
    WellFounded fun Y X => Automaton.Unwinds g a q b X Y := by
  have hfinite := List.finite_toSet (g.rules.flatMap fun r => r.lhs :: r.body)
  refine wellFounded_of_not_cycle hfinite ?_ fun X hcycle =>
    h.not_unwinds_cycle (Relation.transGen_swap.mp hcycle)
  rintro Y X ⟨p, r, hr, hp, hf, -, rfl⟩
  have hX := mem_body_of_drop (h.lawful.symbols_of_unwinds hp hf).1
  exact ⟨List.mem_flatMap.mpr ⟨r, hr, List.mem_cons_self⟩,
    List.mem_flatMap.mpr ⟨r, hr, List.mem_cons_of_mem _ hX⟩⟩

/-! ### Whole runs -/

theorem spells_of_reaches (h : IsExact g a t) {P Q : Position}
    (hpath : ReflTransGen t.Moves P Q) (hspells : Spells a P.1 γ) : ∃ δ, Spells a Q.1 δ := by
  induction hpath with
  | refl => exact ⟨γ, hspells⟩
  | tail _ hmove ih =>
    obtain ⟨δ, hδ⟩ := ih
    obtain ⟨c, d, hsteps, rfl, rfl⟩ := hmove
    rcases hsteps.cases_of_spells h.lawful h.toIsFor hδ with
      ⟨name, -, hd, -⟩ | ⟨δ', r, -, -, hd, -⟩
    · exact ⟨_, hd⟩
    · exact ⟨_, hd⟩

/-- A run that is to complete an item with the token as a lookahead halts if it halts after every
shift, and where the items in question have something in front of the dot. -/
theorem halts_of_holds (h : IsExact g a t) (hf : a.Holds q (r.item dot, some b))
    (hrest : g.augmented.Produces (r.symbols.drop dot) [])
    (hshift : ∀ q' τ p, ReflTransGen t.Moves (q :: σ, b :: rest) (q' :: τ, b :: rest) →
      a.transition? q' b = some p → rest ≠ [] → t.Halts (p :: q' :: τ, rest))
    (hkernel : ∀ (s : Rule) (d : Nat), a.Holds q (s.item (d + 1), some b) →
      g.augmented.Produces (s.symbols.drop (d + 1)) [] → t.Halts (q :: σ, b :: rest)) :
    t.Halts (q :: σ, b :: rest) := by
  obtain ⟨f₀, hf₀, hf₀', hpath⟩ := h.lawful.origin q _ hf
  generalize hitem : ((r.item dot, some b) : Fact) = f at hpath
  induction hpath generalizing r dot with
  | refl =>
    subst hitem
    rcases hf₀' with hdot | hstart
    · cases dot with
      | zero => exact absurd rfl hdot
      | succ d => exact hkernel r d hf hrest
    · obtain ⟨rfl, rfl⟩ := Rule.item_inj hstart
      refine h.halts_of_nullable hf hrest fun hr => ?_
      exact absurd rfl (Grammar.lhs_ne_start hr)
  | @tail f₁ f hpath hexpands ih =>
    subst hitem
    obtain rfl : dot = 0 := hexpands.dot_eq
    have hf₁ := h.lawful.holds_of_reaches hf₀ hpath
    obtain ⟨s, d, ν, hparent, hdrop, hb⟩ := h.lawful.exists_parent hf₁ hexpands
    obtain ⟨item₁, o₁⟩ := f₁
    obtain rfl : item₁ = s.item d := hparent
    have hempty : g.augmented.Produces [r.lhs] [] :=
      .rule (h.lawful.le_arity hf).1 hrest .nil
    rcases hb with hstarts | ⟨hν, ho⟩
    · refine h.halts_of_startsWith hf₁.to_none ?_ hshift
      rw [hdrop]
      exact .after hempty hstarts
    · obtain rfl : o₁ = some b := ho
      refine ih hf₁ ?_ rfl
      rw [hdrop]
      exact hempty.append hν

/-- A run halts in front of a token if it halts after every shift, and where it has to complete an
item that has something in front of the dot. -/
theorem halts_of_kernel (h : IsExact g a t) (hspells : Spells a (q :: σ) γ)
    (hshift : ∀ stack γ, Spells a stack γ → t.Halts (stack, rest))
    (hkernel : ∀ (s : Rule) (d : Nat), a.Holds q (s.item (d + 1), some b) →
      g.augmented.Produces (s.symbols.drop (d + 1)) [] → t.Halts (q :: σ, b :: rest)) :
    t.Halts (q :: σ, b :: rest) := by
  have hshift' {q' p : Nat} {τ : List Nat}
      (hpath : ReflTransGen t.Moves (q :: σ, b :: rest) (q' :: τ, b :: rest))
      (hp : a.transition? q' b = some p) : t.Halts (p :: q' :: τ, rest) := by
    obtain ⟨δ, hδ⟩ := h.spells_of_reaches hpath hspells
    exact hshift _ _ (hδ.push hp)
  refine halts_of_forall fun P hP => ?_
  rcases moves_cons_iff.mp hP with ⟨m, haction, -, rfl⟩ | ⟨i, r, -, -, -, haction, -⟩
  · cases h.candidate q b _ haction with
    | shift _ hm => exact hshift' .refl hm
  · obtain ⟨r, hr, hf, -⟩ := (h.candidate q b _ haction).exists_rule h.lawful
    have hempty : g.augmented.Produces (r.symbols.drop r.arity) [] := by
      rw [← Rule.length_symbols, List.drop_length]
      exact .nil
    have hhalts : t.Halts (q :: σ, b :: rest) := h.halts_of_holds hf hempty
      (fun _ _ _ hpath hp _ => hshift' hpath hp) hkernel
    exact hhalts.inv hP

/-- A run halts in front of a token if it halts after every shift and with every lower stack. -/
theorem halts_of_lower (h : IsExact g a t) (hspells : Spells a (q :: σ) γ)
    (hshift : ∀ stack γ, Spells a stack γ → t.Halts (stack, rest))
    (hlower : ∀ stack γ, stack.length < σ.length + 2 → Spells a stack γ →
      t.Halts (stack, b :: rest)) (hp : a.transition? q X = some p) :
    t.Halts (p :: q :: σ, b :: rest) := by
  induction X using (h.wellFounded_unwinds q b).induction generalizing p with
  | _ X ih =>
    refine h.halts_of_kernel (hspells.push hp) hshift fun s d hf hempty => ?_
    refine h.halts_of_nullable hf hempty fun hs top left p' hdrop hp' => ?_
    cases d with
    | zero =>
      -- only the top of the stack is exchanged
      obtain ⟨rfl, rfl⟩ := List.cons.inj hdrop
      exact ih s.lhs ⟨p, s, hs, hp, hf, hempty, rfl⟩ hp'
    | succ d =>
      obtain ⟨δ, hδ⟩ := (hspells.push hp).of_drop hdrop
      refine hlower _ _ ?_ (hδ.push hp')
      have hlength := congrArg List.length hdrop
      rw [List.length_drop, List.length_cons, List.length_cons, List.length_cons] at hlength
      rw [List.length_cons, List.length_cons]
      omega

/-- Every run comes to an end, from any stack that is a path and with any input. -/
theorem halts (h : IsExact g a t) (hspells : Spells a stack γ) (input : List Symbol) :
    t.Halts (stack, input) := by
  induction input generalizing stack γ with
  | nil =>
    refine halts_of_forall fun P hP => ?_
    obtain ⟨c, d, hsteps, hc, -⟩ := hP
    cases hsteps with
    | shift => cases hc
    | reduce => cases hc
  | cons b rest ih =>
    induction hlength : stack.length using Nat.strong_induction_on generalizing stack γ with
    | _ length ihlength =>
      subst hlength
      cases hspells with
      | initial =>
        refine h.halts_of_kernel .initial (fun _ _ hs => ih hs) fun s d hf _ => ?_
        exact absurd (h.lawful.dot_initial _ hf) (Nat.succ_ne_zero d)
      | push hbelow hm =>
        exact h.halts_of_lower hbelow (fun _ _ hs => ih hs)
          (fun _ _ hlt hs => ihlength _ hlt hs rfl) hm

end Table.IsExact

end Recognizer.LR
