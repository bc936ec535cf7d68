import Recognizer.Proofs.Grammar.Derivations
import Recognizer.Proofs.LR.Actions
import Recognizer.Proofs.LR.Merge
import Recognizer.Proofs.LR.Steps

/-!
# Runs find derivations

The stack of a parser is a path of the automaton from its initial state. The symbols along the path
derive the input that has been consumed, by as many rightmost steps as there were reductions. Every
shift and every reduction keeps this up, whichever candidates the table has kept, and when the
parser accepts, the only symbol along the path is the start symbol.

## Main definitions

* `Spells`: a stack is a path of the automaton along some symbols.
* `Config.Accounts`: the stack and the counts of a parser fit the input consumed.

## Main results

* `Spells.pop`: the states that belong to the part of a rule that has been read.
* `Table.Steps.accounts`: what every step keeps up.
* `Config.Accounts.runFrom`: what this comes to when a run accepts.
* `Table.rightmostDerives_of_recognize`: a run that accepts has found a rightmost derivation.
-/

namespace Recognizer.LR

variable {g : Grammar} {a : Automaton} {t : Table} {stack below : List Nat} {γ : List Symbol}
  {r : Rule} {n m dot : Nat} {X : Symbol} {input : List Symbol} {c d : Config} {policy : Policy}
  {limit : Nat} {stats : Stats}

/-! ### Stacks -/

/-- The stack is a path from the initial state, and the symbols are those along the path. -/
inductive Spells (a : Automaton) : List Nat → List Symbol → Prop
  | initial : Spells a [Automaton.initial] []
  | push {n m : Nat} {below : List Nat} {γ : List Symbol} {X : Symbol}
      (h : Spells a (n :: below) γ) (hm : a.transition? n X = some m) :
      Spells a (m :: n :: below) (γ ++ [X])

/-- Only the bottom of the stack is the initial state. -/
theorem Spells.eq_of_initial (h : Spells a (Automaton.initial :: below) γ)
    (ha : Automaton.Lawful g a) : below = [] ∧ γ = [] := by
  cases h with
  | initial => exact ⟨rfl, rfl⟩
  | push _ hm => exact absurd rfl (ha.ne_initial hm)

theorem Spells.of_drop {k : Nat} (h : Spells a stack γ)
    (hdrop : stack.drop k = n :: below) : ∃ δ, Spells a (n :: below) δ := by
  induction k generalizing stack γ with
  | zero =>
    obtain rfl : stack = n :: below := hdrop
    exact ⟨γ, h⟩
  | succ k ih =>
    cases h with
    | initial =>
      rw [List.drop_succ_cons, List.drop_nil] at hdrop
      cases hdrop
    | push hbelow hm => exact ih hbelow hdrop

/-- The item before, in a state that a symbol leads from. -/
theorem Automaton.Lawful.holds_before (ha : Automaton.Lawful g a) (hm : a.transition? n X = some m)
    (hdot : dot + 1 ≤ r.arity) (hf : a.Holds m (r.item (dot + 1), none)) :
    r.symbols[dot]? = some X ∧ a.Holds n (r.item dot, none) := by
  obtain ⟨before, hadvance, hnext, hbefore⟩ := ha.predecessor n X m _ hm hf (Nat.succ_ne_zero _)
  obtain rfl := eq_item_of_advance hadvance
  exact ⟨(Rule.next?_item (Nat.le_of_succ_le hdot)).symm.trans hnext, hbefore⟩

/-- If the top of a stack has an item, the symbols in front of its dot are the last along the path,
and without their states, the top has the item with nothing read. -/
theorem Spells.pop (h : Spells a (m :: stack) γ) (ha : Automaton.Lawful g a)
    (hdot : dot ≤ r.arity) (hf : a.Holds m (r.item dot, none)) :
    ∃ n below δ, (m :: stack).drop dot = n :: below ∧ Spells a (n :: below) δ ∧
      γ = δ ++ r.symbols.take dot ∧ a.Holds n (r.item 0, none) := by
  induction dot generalizing m stack γ with
  | zero => exact ⟨m, stack, γ, rfl, h, by rw [List.take_zero, List.append_nil], hf⟩
  | succ dot ih =>
    cases h with
    | initial => exact absurd (ha.dot_initial _ hf) (Nat.succ_ne_zero dot)
    | @push n' _ below γ X h hm =>
      obtain ⟨hX, hbefore⟩ := ha.holds_before hm hdot hf
      obtain ⟨n, below', δ, hdrop, hδ, hγ, hitem⟩ := ih h (Nat.le_of_succ_le hdot) hbefore
      refine ⟨n, below', δ, hdrop, hδ, ?_, hitem⟩
      rw [hγ, List.take_add_one, hX, List.append_assoc]
      rfl

/-- Where the start symbol leads from the initial state, it is the only symbol along the path. -/
theorem Spells.eq_of_transition_start (h : Spells a (n :: below) γ) (ha : Automaton.Lawful g a)
    (hn : a.transition? Automaton.initial g.startSymbol = some n) :
    below = [Automaton.initial] ∧ γ = [g.startSymbol] := by
  have hstart : a.Holds n (g.startRule.item 1, none) :=
    (ha.advance _ _ _ _ hn ha.start rfl).to_none
  obtain ⟨n', below', δ, hdrop, hδ, rfl, hitem⟩ := h.pop ha (Nat.le_refl 1) hstart
  obtain rfl := (ha.start_only n' none hitem).1
  obtain ⟨rfl, rfl⟩ := hδ.eq_of_initial ha
  exact ⟨hdrop, rfl⟩

/-! ### What every step keeps up -/

/-- The symbols along the stack derive what has been consumed, by as many rightmost steps as there
were reductions, and the other counts fit. This is the invariant of a run. -/
def Config.Accounts (g : Grammar) (a : Automaton) (input : List Symbol) (c : Config) : Prop :=
  ∃ γ consumed, Spells a c.stack γ ∧ g.RightmostDerives c.stats.reductions γ consumed ∧
    consumed.length = c.stats.shifts ∧ c.stats.tokens = c.stats.shifts + 1 ∧
      input ++ [.endMark] = consumed ++ c.input

theorem Table.IsFor.accounts_start (ht : IsFor g a t) (input : List Symbol) :
    (t.start input).Accounts g a input := by
  refine ⟨[], [], ?_, .refl [], rfl, rfl, rfl⟩
  rw [start, ht.initial_eq]
  exact .initial

/-- A symbol that is shifted is a terminal. -/
theorem Automaton.Lawful.exists_terminal (ha : Automaton.Lawful g a)
    (hm : a.transition? n X = some m) (hX : X.isNonterminal = false) :
    ∃ name, X = .terminal name := by
  obtain ⟨item, hitem, hnext⟩ := ha.exists_item n X m hm
  obtain ⟨⟨r, hr, dot, hdot, hrule⟩, -⟩ := ha.isFact n _ hitem
  obtain rfl : item = r.item dot := hrule
  rw [Rule.next?_item hdot] at hnext
  have hmem := List.mem_of_getElem? hnext
  cases X with
  | terminal name => exact ⟨name, rfl⟩
  | nonterminal name => cases hX
  | epsilon => exact absurd hmem r.epsilon_not_mem_symbols
  | endMark => exact absurd hmem r.endMark_not_mem_symbols

/-- What a step does to a stack: a terminal is read, or a rule is put together. -/
theorem Table.Steps.cases_of_spells (h : t.Steps c d) (ha : Automaton.Lawful g a)
    (ht : t.IsFor g a) (hspells : Spells a c.stack γ) :
    (∃ name, c.input = .terminal name :: d.input ∧ Spells a d.stack (γ ++ [.terminal name]) ∧
      d.stats = ⟨c.stats.tokens + 1, c.stats.shifts + 1, c.stats.reductions⟩) ∨
    ∃ δ, ∃ r ∈ g.rules, γ = δ ++ r.symbols ∧ Spells a d.stack (δ ++ [r.lhs]) ∧
      c.input = d.input ∧ d.stats = { c.stats with reductions := c.stats.reductions + 1 } := by
  cases h with
  | shift haction =>
    cases ht.candidate _ _ _ haction with
    | shift hX hm =>
      obtain ⟨name, rfl⟩ := ha.exists_terminal hm hX
      exact Or.inl ⟨name, rfl, hspells.push hm, rfl⟩
  | @reduce n i top m below left X rest stats r haction hr hdrop hgoto =>
    obtain ⟨r', hr', hf, -⟩ := (ht.candidate _ _ _ haction).exists_rule ha
    rw [ht.grammar_eq] at hr
    obtain rfl := Option.some.inj (hr.symm.trans hr')
    obtain ⟨n', below', δ, hdrop', hδ, rfl, -⟩ := hspells.pop ha (Nat.le_refl _) hf.to_none
    obtain ⟨rfl, rfl⟩ := List.cons.inj (hdrop.symm.trans hdrop')
    rw [ht.goto?_eq _ _ rfl] at hgoto
    refine Or.inr ⟨δ, r, List.mem_of_getElem? hr, ?_, hδ.push hgoto, rfl, rfl⟩
    rw [← Rule.length_symbols, List.take_length]

/-- Shifts and reductions keep the account right. A shift puts a terminal at the end of both
strings, and a reduction is a derivation step read backwards. -/
theorem Table.Steps.accounts (h : t.Steps c d) (ha : Automaton.Lawful g a) (ht : t.IsFor g a)
    (hc : c.Accounts g a input) : d.Accounts g a input := by
  obtain ⟨γ, consumed, hspells, hderives, hshifts, htokens, hinput⟩ := hc
  rcases h.cases_of_spells ha ht hspells with
    ⟨name, hread, hspells, hstats⟩ | ⟨δ, r, hr, rfl, hspells, hread, hstats⟩
  · refine ⟨_, consumed ++ [.terminal name], hspells, ?_, ?_, ?_, ?_⟩
    · rw [hstats]
      exact hderives.append [] [name]
    · rw [hstats, List.length_append, hshifts]
      rfl
    · rw [hstats, htokens]
    · rw [hinput, hread, List.append_assoc]
      rfl
  · refine ⟨_, consumed, hspells, ?_, ?_, ?_, ?_⟩
    · rw [hstats]
      refine .step ?_ hderives
      have hyields := Grammar.RightmostYields.replace δ [] hr
      rwa [List.map_nil, List.append_nil] at hyields
    · rw [hstats, hshifts]
    · rw [hstats, htokens]
    · rw [hinput, hread]

/-- A parser that accepts has read its whole input as the start symbol. -/
theorem Config.Accounts.accept {rest : List Symbol} (hc : c.Accounts g a input)
    (ha : Automaton.Lawful g a) (ht : t.IsFor g a) (hend : .endMark ∉ input)
    (hstack : c.stack = n :: below) (hinput : c.input = X :: rest)
    (haction : t.action? n X = some .accept) :
    g.RightmostDerives c.stats.reductions [g.startSymbol] input ∧
      c.stats.shifts = input.length ∧ c.stats.tokens = input.length + 1 := by
  obtain ⟨γ, consumed, hspells, hderives, hshifts, htokens, hconsumed⟩ := hc
  cases ht.candidate _ _ _ haction with
  | accept hn =>
    rw [hstack] at hspells
    obtain ⟨-, rfl⟩ := hspells.eq_of_transition_start ha hn
    -- the end mark is in the input only at its end
    have hall : consumed = input := by
      rw [hinput] at hconsumed
      rcases List.append_eq_append_iff.mp hconsumed with ⟨more, rfl, hmore⟩ | ⟨more, rfl, hmore⟩
      · cases more with
        | nil => exact List.append_nil _
        | cons Y more => exact absurd (List.cons.inj hmore).2 (by simp)
      · cases more with
        | nil => exact (List.append_nil _).symm
        | cons Y more =>
          obtain ⟨rfl, -⟩ := List.cons.inj hmore
          exact absurd (List.mem_append_right _ List.mem_cons_self) hend
    subst hall
    refine ⟨hderives, hshifts.symm, ?_⟩
    rw [htokens, hshifts]

/-- A run that goes on from an account that is right, and accepts, has read its whole input. -/
theorem Config.Accounts.runFrom (hc : c.Accounts g a input) (ha : Automaton.Lawful g a)
    (ht : t.IsFor g a) (hend : .endMark ∉ input) (h : t.runFrom limit c = some (.ok stats)) :
    g.RightmostDerives stats.reductions [g.startSymbol] input ∧
      stats.shifts = input.length ∧ stats.tokens = input.length + 1 := by
  induction limit generalizing c with
  | zero => cases h
  | succ limit ih =>
    rw [Table.runFrom] at h
    split at h
    · next d hstep => exact ih ((Table.step_eq_next_iff.mp hstep).accounts ha ht hc) h
    · next stats' hstep =>
      obtain rfl := Except.ok.inj (Option.some.inj h)
      obtain ⟨n, below, X, rest, rfl, haction⟩ := Table.step_eq_accepted_iff.mp hstep
      exact hc.accept ha ht hend rfl rfl haction
    · cases h

/-- A run that accepts an input without end mark, whichever candidates the table has kept, has found
a rightmost derivation of it with as many steps as it has counted reductions. -/
theorem Table.rightmostDerives_of_recognize
    (ha : Automaton.construct g = .ok a ∨ Automaton.lalr g = .ok a)
    (ht : Table.build policy a g = .ok t) (hend : .endMark ∉ input)
    (h : t.recognize limit input = some (.ok stats)) :
    g.RightmostDerives stats.reductions [g.startSymbol] input ∧
      stats.shifts = input.length ∧ stats.tokens = input.length + 1 := by
  have hlawful : Automaton.Lawful g a := ha.elim Automaton.lawful_of_construct
    Automaton.lawful_of_lalr
  have hfor := isFor_of_build ht
  exact (hfor.accounts_start input).runFrom hlawful hfor hend h

/-- Sums without precedence, `S → S + S | n`, which a table cannot be free of conflicts for. -/
def sums : Grammar where
  start := "S"
  rules :=
    [{ head := "S"
       body := [.nonterminal "S", .terminal "+", .nonterminal "S"]
       wellFormed := by simp [WellFormedBody] },
     { head := "S"
       body := [.terminal "n"]
       wellFormed := by simp [WellFormedBody] }]

theorem Table.rightmostDerives_of_recognize_sums :
    ∃ a t, Automaton.lalr sums = .ok a ∧ Table.build .preferReduce a sums = .ok t ∧
      t.conflicts ≠ [] ∧
      t.recognize 20 [.terminal "n", .terminal "+", .terminal "n"] = some (.ok ⟨4, 3, 3⟩) ∧
      sums.RightmostDerives 3 [sums.startSymbol] [.terminal "n", .terminal "+", .terminal "n"] := by
  have hrun : (do
      let a ← Automaton.lalr sums
      let t ← Table.build .preferReduce a sums
      return (t.conflicts.length, t.recognize 20 [.terminal "n", .terminal "+", .terminal "n"])) =
        Except.ok (1, some (.ok ⟨4, 3, 3⟩)) := by
    decide +kernel
  obtain ⟨a, ha, hrun⟩ := bind_eq_ok_iff.mp hrun
  obtain ⟨t, ht, hrun⟩ := bind_eq_ok_iff.mp hrun
  obtain ⟨hconflicts, hresult⟩ := Prod.mk.inj (Except.ok.inj hrun)
  refine ⟨a, t, ha, ht, ?_, hresult, ?_⟩
  · exact List.ne_nil_of_length_pos (by omega)
  · exact (rightmostDerives_of_recognize (Or.inr ha) ht (by decide) hresult).1

end Recognizer.LR
