import Recognizer.Proofs.LR.Lookaheads
import Recognizer.Proofs.LR.ValidItems

/-!
# Errors at the first token that cannot come next

Whatever candidates a table has kept, a parser shifts only what can come next. The symbols along
its stack begin a string that is derived from the start, and they derive what has been shifted; so,
if all nonterminals derive strings of terminals, what has been shifted begins a sentence. A parser
whose table has no conflicts does nothing else than on such a sentence, as long as it sees the same
tokens. So if it fails at a token, no sentence goes on with this token.

## Main definitions

* `Grammar.Continues`: a sentence, with the end marker after it, begins with what has been read.
* `IsExpected`: the item of a rule that stands next in a string that is derived from the start.

## Main results

* `Automaton.Lawful.exists_derives_of_spells`: strings along paths begin strings that are derived.
* `Table.IsFor.exists_read`: what has been shifted is derived by the symbols along the stack.
* `Table.exists_reaches_of_suffix`: the tokens that have not been looked at have no influence.
* `Table.exists_generates_and_continues_iff`: what has been shifted begins a sentence, and errors
  are found at the first token that cannot come next.
-/

namespace Recognizer

namespace Grammar

variable {g : Grammar} {γ β : List Symbol} {read : List String}

/-- Some sentence, with the end marker after it, begins with the symbols. So a string that has the
end marker at its end continues only if it is a sentence up to there. -/
def Continues (g : Grammar) (read : List Symbol) : Prop :=
  ∃ w, g.Generates w ∧ read <+: w.map .terminal ++ [.endMark]

theorem Continues.of_prefix {u v : List Symbol} (h : g.Continues v) (hu : u <+: v) :
    g.Continues u := by
  obtain ⟨w, hw, hv⟩ := h
  exact ⟨w, hw, hu.trans hv⟩

/-- Terminals that are derived from the beginning of a string begin a sentence, if what comes after
them is productive. -/
theorem Derives.exists_generates
    (hproductive : ∀ name ∈ g.nonterminals,
      ∃ x : List String, g.Derives [.nonterminal name] (x.map .terminal))
    (h : g.Derives [g.startSymbol] (γ ++ β)) (hγ : g.Derives γ (read.map .terminal)) :
    ∃ w, g.Generates w ∧ read <+: w := by
  have hβ : ∀ X ∈ β, ∃ x, g.Produces [X] x := fun X hX =>
    (occurs_of_mem h (List.mem_append_right γ hX)).exists_produces fun name hname =>
      hproductive name hname.mem_nonterminals
  obtain ⟨x, hx⟩ := exists_produces_of_forall hβ
  obtain ⟨n, hx⟩ := hx.exists_rightmostDerives
  refine ⟨read ++ x, ?_, List.prefix_append _ _⟩
  have hleft := hγ.append [] β
  have hright := hx.derives.append (read.map .terminal) []
  rw [List.nil_append, List.nil_append] at hleft
  rw [List.append_nil, List.append_nil, ← List.map_append] at hright
  exact (h.trans hleft).trans hright

end Grammar

namespace LR

open Relation (ReflTransGen)

variable {g : Grammar} {a : Automaton} {t : Table} {policy : Policy} {f f₀ : Fact}
  {γ : List Symbol} {X b : Symbol} {n : Nat} {below stack : List Nat} {input rest : List Symbol}
  {c d : Config} {p q : Position} {read : List String}

/-! ### Along a path -/

/-- The item, with `α` in front of its dot, is expected after `δ α`: a string is derived from the
start that begins with `δ` and the symbols of the rule. -/
def IsExpected (g : Grammar) (γ : List Symbol) (item : Item) : Prop :=
  ∃ r ∈ g.augmented.rules, ∃ dot δ β, dot ≤ r.arity ∧ item = r.item dot ∧
    γ = δ ++ r.symbols.take dot ∧ g.Derives [g.startSymbol] (δ ++ r.symbols ++ β)

theorem isExpected_start (g : Grammar) : IsExpected g [] (g.startRule.item 0) :=
  ⟨g.startRule, g.startRule_mem, 0, [], [], Nat.zero_le _, rfl, rfl, .refl _⟩

theorem IsExpected.expands (h : IsExpected g γ f₀.1)
    (hexpands : Expands g.augmented g.augmented.firstSets f₀ f) : IsExpected g γ f.1 := by
  obtain ⟨r, hr, dot, δ, β, hdot, hitem, rfl, hderives⟩ := h
  obtain ⟨s, hs, hnext, hchild⟩ := hexpands.exists_rule
  rw [hitem] at hnext
  have hsg := Grammar.mem_rules_of_lhs_mem_body hr hs (mem_body_of_next? hnext)
  have hsymbols := Rule.take_append_cons_drop hdot hnext
  have hstep := Grammar.Yields.replace (δ ++ r.symbols.take dot)
    (r.symbols.drop (dot + 1) ++ β) hsg
  have hlhs : δ ++ r.symbols.take dot ++ s.lhs :: (r.symbols.drop (dot + 1) ++ β) =
      δ ++ r.symbols ++ β := by
    rw [← List.cons_append, List.append_assoc δ, ← List.append_assoc _ _ β, hsymbols,
      List.append_assoc]
  rw [hlhs] at hstep
  exact ⟨s, hs, 0, δ ++ r.symbols.take dot, r.symbols.drop (dot + 1) ++ β, Nat.zero_le _, hchild,
    (List.append_nil _).symm, hderives.trans (.step hstep (.refl _))⟩

theorem IsExpected.reaches (h : IsExpected g γ f₀.1)
    (hpath : ReflTransGen (Expands g.augmented g.augmented.firstSets) f₀ f) :
    IsExpected g γ f.1 := by
  induction hpath with
  | refl => exact h
  | tail _ hexpands ih => exact ih.expands hexpands

theorem IsExpected.advance (h : IsExpected g γ f.1) (hnext : f.1.next? = some X) :
    IsExpected g (γ ++ [X]) f.1.advance := by
  obtain ⟨r, hr, dot, δ, β, hdot, hitem, rfl, hderives⟩ := h
  rw [hitem] at hnext ⊢
  refine ⟨r, hr, dot + 1, δ, β, Rule.lt_arity_of_next? hdot hnext, rfl, ?_, hderives⟩
  rw [Rule.take_succ_of_next? hdot hnext, List.append_assoc]

namespace Automaton.Lawful

/-- The items of a state are expected after the symbols on any way to it. -/
theorem isExpected_of_holds (ha : Lawful g a) (hspells : Spells a (n :: below) γ)
    (hf : a.Holds n f) : IsExpected g γ f.1 := by
  generalize hstack : n :: below = stack at hspells
  induction hspells generalizing n below f with
  | initial =>
    obtain ⟨rfl, -⟩ := List.cons.inj hstack
    obtain ⟨o, -, hpath⟩ := ha.reaches_of_initial hf
    exact .reaches (isExpected_start g) hpath
  | push h hm ih =>
    obtain ⟨rfl, -⟩ := List.cons.inj hstack
    obtain ⟨before, o, hbefore, hnext, hpath⟩ := ha.exists_before hm hf
    exact .reaches ((ih hbefore rfl).advance hnext) hpath

/-- The symbols along a path begin a string that is derived from the start. Since this is about
paths of the automaton, it holds whichever candidates a table has kept. -/
theorem exists_derives_of_spells (ha : Lawful g a) (hspells : Spells a stack γ) :
    ∃ β, g.Derives [g.startSymbol] (γ ++ β) := by
  obtain ⟨n, below, f, rfl, hf⟩ := ha.exists_holds_of_spells hspells
  obtain ⟨r, -, dot, δ, β, -, -, rfl, hderives⟩ := ha.isExpected_of_holds hspells hf
  refine ⟨r.symbols.drop dot ++ β, ?_⟩
  rwa [← List.take_append_drop dot r.symbols, ← List.append_assoc, List.append_assoc _ _ β]
    at hderives

end Automaton.Lawful

/-! ### What has been shifted -/

namespace Table

theorem Steps.input_ne_nil (h : t.Steps c d) : d.input ≠ [] := by
  cases h with
  | shift => exact List.cons_ne_nil _ _
  | reduce => exact List.cons_ne_nil _ _

/-- In each configuration of a run, terminals have been shifted, and the symbols along the stack
derive them. -/
theorem IsFor.exists_read (ht : IsFor g a t) (ha : Automaton.Lawful g a)
    (hpath : ReflTransGen t.Steps (t.start input) c) :
    ∃ γ, ∃ read : List String, Spells a c.stack γ ∧ g.Derives γ (read.map .terminal) ∧
      read.length = c.stats.shifts ∧ input ++ [.endMark] = read.map .terminal ++ c.input ∧
        c.input ≠ [] := by
  have hrun : c.Accounts g a input ∧
      ∃ read : List String, input ++ [.endMark] = read.map .terminal ++ c.input := by
    induction hpath with
    | refl => exact ⟨ht.accounts_start input, [], rfl⟩
    | tail _ hstep ih =>
      obtain ⟨hc, read, hread⟩ := ih
      obtain ⟨γ, -, hspells, -⟩ := id hc
      refine ⟨hstep.accounts ha ht hc, ?_⟩
      rcases hstep.cases_of_spells ha ht hspells with ⟨name, hinput, -⟩ | ⟨-, -, -, -, -, hinput, -⟩
      · refine ⟨read ++ [name], hread.trans ?_⟩
        rw [hinput, List.map_append, List.append_assoc]
        rfl
      · exact ⟨read, hinput ▸ hread⟩
  have hne : c.input ≠ [] := by
    rcases hpath.cases_tail with rfl | ⟨_, -, hstep⟩
    · exact List.append_ne_nil_of_right_ne_nil _ (List.cons_ne_nil _ _)
    · exact hstep.input_ne_nil
  obtain ⟨⟨γ, consumed, hspells, hderives, hlength, -, hinput⟩, read, hread⟩ := hrun
  obtain rfl := List.append_cancel_right (hinput.symm.trans hread)
  exact ⟨γ, read, hspells, hderives.derives, by rw [← hlength, List.length_map], hinput, hne⟩

/-! ### Tokens that have not been looked at -/

/-- A run up to a token is the same whatever comes after the token, because a step looks at the
first symbol of its input only. -/
theorem exists_reaches_of_suffix (hpath : ReflTransGen t.Moves p q) (hq : q.2 = b :: rest) :
    ∃ u, p.2 = u ++ b :: rest ∧
      ∀ rest', ReflTransGen t.Moves (p.1, u ++ b :: rest') (q.1, b :: rest') := by
  induction hpath using ReflTransGen.head_induction_on with
  | refl => exact ⟨[], hq, fun _ => .refl⟩
  | @head p p' hmove _ ih =>
    obtain ⟨u, hu, hrun⟩ := ih
    obtain ⟨c, d, hsteps, rfl, rfl⟩ := hmove
    cases hsteps with
    | @shift n m below X Y left stats haction =>
      refine ⟨X :: u, congrArg (X :: ·) hu, fun rest' => .head ?_ (hrun rest')⟩
      exact moves_cons_iff.mpr (Or.inl ⟨m, haction, by simp, rfl⟩)
    | @reduce n i top m below left X after stats r haction hr hdrop hgoto =>
      refine ⟨u, hu, fun rest' => .head ?_ (hrun rest')⟩
      -- the token that is looked at is the same
      obtain ⟨left', hleft'⟩ : ∃ left', u ++ b :: rest' = X :: left' := by
        cases u with
        | nil => exact ⟨rest', congrArg (· :: rest') (List.cons.inj hu).1.symm⟩
        | cons Y u =>
          obtain rfl := (List.cons.inj hu).1
          exact ⟨u ++ b :: rest', rfl⟩
      rw [hleft']
      exact moves_cons_iff.mpr (Or.inr ⟨i, r, top, left, m, haction, hr, hdrop, hgoto, rfl⟩)

/-- If the table has no conflicts, no sentence goes on with a token at which the parser fails. -/
theorem IsExact.not_continues (h : IsExact g a t) {state : Nat} {token : Symbol}
    (hpath : ReflTransGen t.Steps (t.start input) c)
    (hfailed : t.step c = .failed (.unexpected token state))
    (hread : input ++ [.endMark] = read.map .terminal ++ c.input) :
    ¬ g.Continues (read.map .terminal ++ [token]) := by
  rintro ⟨w, hw, rest', hbegins⟩
  obtain ⟨below, rest, hc, haction⟩ := step_eq_unexpected_iff.mp hfailed
  have hmoves : ReflTransGen t.Moves (t.start input).position c.position :=
    hpath.lift Config.position fun _ _ hstep => hstep.moves
  rw [hc] at hmoves hread
  obtain ⟨u, hu, hrun⟩ := exists_reaches_of_suffix hmoves rfl
  obtain rfl := List.append_cancel_right (hu.symm.trans hread)
  -- the run on the sentence fails there, too
  have hsentence : (t.start (w.map .terminal)).position =
      ([t.initial], read.map .terminal ++ token :: rest') := by
    rw [Config.position, start, ← hbegins, List.append_assoc]
    rfl
  obtain ⟨d, steps, hd, hrun⟩ := exists_runFrom_of_reaches
    (c := t.start (w.map .terminal)) (hsentence ▸ hrun rest')
  have hfailed' : t.step d = .failed (.unexpected token state) := by
    obtain ⟨stack, rest, stats⟩ := d
    obtain ⟨rfl, rfl⟩ := Prod.mk.inj hd
    exact step_eq_unexpected_iff.mpr ⟨below, rest', rfl, haction⟩
  have hresult : t.recognize (steps + 1) (w.map .terminal) =
      some (.error (.unexpected token state)) := by
    rw [recognize, hrun, runFrom, hfailed']
  obtain ⟨limit, stats, haccepted⟩ := h.exists_accepted hw
  cases runFrom_unique hresult haccepted

/-- Whatever the conflicts of the table and the way they were settled, what has been shifted begins
a sentence. If there are none, a token that is unexpected is the first one with which no sentence
goes on. -/
theorem exists_generates_and_continues_iff
    (hproductive : ∀ name ∈ g.nonterminals,
      ∃ w : List String, g.Derives [.nonterminal name] (w.map .terminal))
    (ha : Automaton.construct g = .ok a ∨ Automaton.lalr g = .ok a)
    (ht : build policy a g = .ok t) (input : List Symbol) :
    (∀ c, ReflTransGen t.Steps (t.start input) c →
      ∃ w, ∃ read : List String, g.Generates w ∧ read <+: w ∧ read.length = c.stats.shifts ∧
        input ++ [.endMark] = read.map .terminal ++ c.input) ∧
    (t.conflicts = [] → ∀ limit token state,
      t.recognize limit input = some (.error (.unexpected token state)) →
        ∃ c rest, ReflTransGen t.Steps (t.start input) c ∧
          t.step c = .failed (.unexpected token state) ∧ c.input = token :: rest ∧
            ∀ k, g.Continues ((input ++ [Symbol.endMark]).take k) ↔ k ≤ c.stats.shifts) := by
  have hlawful := ha.elim Automaton.lawful_of_construct Automaton.lawful_of_lalr
  have hbegins : ∀ c, ReflTransGen t.Steps (t.start input) c →
      ∃ w, ∃ read : List String, g.Generates w ∧ read <+: w ∧ read.length = c.stats.shifts ∧
        input ++ [.endMark] = read.map .terminal ++ c.input := by
    intro c hpath
    obtain ⟨γ, read, hspells, hderives, hlength, hinput, -⟩ :=
      (isFor_of_build ht).exists_read hlawful hpath
    obtain ⟨β, hstart⟩ := hlawful.exists_derives_of_spells hspells
    obtain ⟨w, hw, hread⟩ := Grammar.Derives.exists_generates hproductive hstart hderives
    exact ⟨w, read, hw, hread, hlength, hinput⟩
  refine ⟨hbegins, fun hconflicts limit token state herror => ?_⟩
  have h := isExact_of_build ha ht hconflicts
  obtain ⟨c, hpath, hfailed⟩ := exists_failed_of_runFrom herror
  obtain ⟨w, read, hw, hread, hlength, hinput⟩ := hbegins c hpath
  obtain ⟨below, rest, hc, -⟩ := step_eq_unexpected_iff.mp hfailed
  have hrest : c.input = token :: rest := congrArg Config.input hc
  refine ⟨c, rest, hpath, hfailed, hrest, fun k => ⟨fun hk => ?_, fun hk => ?_⟩⟩
  · by_contra hlt
    refine h.not_continues hpath hfailed hinput (hk.of_prefix ?_)
    rw [hinput, hrest]
    refine List.prefix_take_iff.mpr ⟨(List.prefix_append_right_inj _).mpr ⟨rest, rfl⟩, ?_⟩
    rw [List.length_append, List.length_map]
    exact hlength.symm ▸ Nat.lt_of_not_le hlt
  · refine ⟨w, hw, ?_⟩
    rw [hinput, List.take_append_of_le_length (by rwa [List.length_map, hlength])]
    exact (List.take_prefix _ _).trans ((hread.map _).trans (List.prefix_append _ _))

/-- At the end marker, the merged states make three reductions before the failure. -/
theorem exists_generates_and_continues_iff_twoWords :
    (∀ name ∈ Automaton.twoWords.nonterminals, ∃ w : List String,
      Automaton.twoWords.Derives [.nonterminal name] (w.map .terminal)) ∧
    ∃ a t state, Automaton.lalr Automaton.twoWords = .ok a ∧
      build .preferShift a Automaton.twoWords = .ok t ∧ t.conflicts = [] ∧
      t.recognize 20 [.terminal "c", .terminal "c", .terminal "d"] =
        some (.error (.unexpected .endMark state)) ∧
      ∃ c rest, ReflTransGen t.Steps
          (t.start [.terminal "c", .terminal "c", .terminal "d"]) c ∧
        t.step c = .failed (.unexpected .endMark state) ∧ c.input = .endMark :: rest ∧
          ∀ k, Automaton.twoWords.Continues
            ([.terminal "c", .terminal "c", .terminal "d", Symbol.endMark].take k) ↔
              k ≤ c.stats.shifts := by
  have hbuild : (do
      let a ← Automaton.lalr Automaton.twoWords
      let t ← build .preferShift a Automaton.twoWords
      return (t.conflicts, t.recognize 20 [.terminal "c", .terminal "c", .terminal "d"])) =
        Except.ok ([], some (.error (.unexpected .endMark 3))) := by
    decide +kernel
  obtain ⟨a, ha, hbuild⟩ := bind_eq_ok_iff.mp hbuild
  obtain ⟨t, ht, hbuild⟩ := bind_eq_ok_iff.mp hbuild
  obtain ⟨hconflicts, herror⟩ := Prod.mk.inj (Except.ok.inj hbuild)
  have hpair : Automaton.twoWords.rules[0] ∈ Automaton.twoWords.rules := List.getElem_mem _
  have hword : Automaton.twoWords.rules[2] ∈ Automaton.twoWords.rules := List.getElem_mem _
  have hproductive : ∀ name ∈ Automaton.twoWords.nonterminals, ∃ w : List String,
      Automaton.twoWords.Derives [.nonterminal name] (w.map .terminal) := by
    intro name hname
    have hnames : Automaton.twoWords.nonterminals.toList = ["C", "S"] := by decide +kernel
    rw [SortedSet.mem_def, hnames] at hname
    rcases List.mem_pair.mp hname with rfl | rfl
    · exact ⟨["d"], .step (.replace [] [] hword) (.refl _)⟩
    · exact ⟨["d", "d"], .step (.replace [] [] hpair)
        (.step (.replace [] [.nonterminal "C"] hword)
          (.step (.replace [.terminal "d"] [] hword) (.refl _)))⟩
  exact ⟨hproductive, a, t, 3, ha, ht, hconflicts, herror,
    (exists_generates_and_continues_iff hproductive (Or.inr ha) ht _).2 hconflicts _ _ _ herror⟩

end Table

end LR

end Recognizer
