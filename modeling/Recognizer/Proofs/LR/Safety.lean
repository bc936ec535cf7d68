import Recognizer.Proofs.LR.Soundness

/-!
# Runs fail at unexpected tokens only

The stack of a parser is a path of the automaton, so the states that a reduction takes from it are
there, and the state below them leads on with the head of the rule. The end marker is never shifted,
so there is always a token to look at. What is left is a token for which the table has no action.
The table may be made for another grammar than the automaton, as long as the rules of the automaton
are among those of the grammar.

## Main definitions

* `Config.OnPath`: the stack is a path, and a part of the input with its end marker is left.
* `Outcome.IsSafe`: the parser goes on in such a configuration, accepts, or has no action.

## Main results

* `Table.step_isSafe`: what every step keeps up.
* `Table.eq_unexpected_of_recognize`: the only way to fail.
-/

namespace Recognizer.LR

variable {g g' : Grammar} {a : Automaton} {t : Table} {r : Rule} {n limit : Nat} {X : Symbol}
  {input : List Symbol} {c : Config} {policy : Policy} {o : Option Symbol} {e : RunError}

/-- A state with an item that has nothing read leads on with the head of the item, unless this is
the new start. -/
theorem Automaton.Lawful.exists_transition_lhs (ha : Lawful g a) (hf : a.Holds n (r.item 0, o))
    (hstart : r.lhs ≠ g.augmented.startSymbol) : ∃ m, a.transition? n r.lhs = some m := by
  obtain ⟨f₀, hf₀, hkernel, hpath⟩ := ha.origin n _ hf
  rcases hpath.cases_tail with heq | ⟨f₁, hpath₁, hexpands⟩
  · -- the item would be that of the start rule
    subst heq
    rcases hkernel with hdot | hitem
    · exact absurd rfl hdot
    · obtain rfl := (Rule.item_inj hitem).1
      exact absurd rfl hstart
  · obtain ⟨r', -, hnext, hitem⟩ := hexpands.exists_rule
    obtain rfl := (Rule.item_inj hitem).1
    exact ha.exists_transition n f₁.1 _ (ha.holds_of_reaches hf₀ hpath₁).to_none hnext

/-- The stack is a path of the automaton, and there is some input left, with its end marker. This is
the invariant of a run. -/
structure Config.OnPath (a : Automaton) (input : List Symbol) (c : Config) : Prop where
  spells : ∃ γ, Spells a c.stack γ
  suffix : c.input <:+ input ++ [.endMark]
  input_ne_nil : c.input ≠ []

/-- The parser goes on with its stack on a path, accepts, or has no action for a token. -/
def Outcome.IsSafe (a : Automaton) (t : Table) (input : List Symbol) : Outcome → Prop
  | .next c => c.OnPath a input
  | .accepted _ => True
  | .failed e => ∃ token state, e = .unexpected token state ∧
      token ∈ input ++ [.endMark] ∧ t.action? state token = none

theorem Table.IsFor.onPath_start (ht : IsFor g a t) (input : List Symbol) :
    (t.start input).OnPath a input where
  spells := by
    rw [start, ht.initial_eq]
    exact ⟨[], .initial⟩
  suffix := List.suffix_rfl
  input_ne_nil := List.append_ne_nil_of_right_ne_nil _ (List.cons_ne_nil _ _)

theorem Config.OnPath.exists_rest {stack : List Nat} {rest : List Symbol} {stats : Stats}
    (hc : Config.OnPath a input ⟨stack, X :: rest, stats⟩) (hX : X ≠ .endMark) :
    ∃ Y later, rest = Y :: later := by
  refine List.exists_cons_of_ne_nil ?_
  rintro rfl
  obtain ⟨consumed, hconsumed⟩ := hc.suffix
  exact hX (List.cons.inj (List.append_inj' hconsumed rfl).2).1

namespace Table

private theorem shift_isSafe {m : Nat} {below : List Nat} {rest : List Symbol} {stats : Stats}
    (ha : Automaton.Lawful g a) (hc : Config.OnPath a input ⟨n :: below, X :: rest, stats⟩)
    (hX : X.isNonterminal = false) (hm : a.transition? n X = some m) :
    (shift ⟨n :: below, X :: rest, stats⟩ m).IsSafe a t input := by
  obtain ⟨name, rfl⟩ := ha.exists_terminal hm hX
  obtain ⟨Y, later, rfl⟩ := hc.exists_rest nofun
  obtain ⟨γ, hspells⟩ := hc.spells
  exact ⟨⟨_, hspells.push hm⟩, (List.suffix_cons _ _).trans hc.suffix, List.cons_ne_nil _ _⟩

/-- A reduction leads back along the path, and on with the head of the rule. -/
private theorem reduce_isSafe {i : Nat} {below : List Nat} {rest : List Symbol} {stats : Stats}
    (ha : Automaton.Lawful g a) (ht : t.IsFor g' a)
    (hc : Config.OnPath a input ⟨n :: below, X :: rest, stats⟩)
    (hi : Automaton.Candidate g' a n X (.reduce i)) :
    (t.reduce ⟨n :: below, X :: rest, stats⟩ i).IsSafe a t input := by
  obtain ⟨r, hr, hf, hstart⟩ := hi.exists_rule ha
  obtain ⟨γ, hspells⟩ := hc.spells
  obtain ⟨top, left, δ, hdrop, hδ, -, hitem⟩ := hspells.pop ha (Nat.le_refl _) hf.to_none
  obtain ⟨m, hm⟩ := ha.exists_transition_lhs hitem hstart
  have hgoto : t.goto? top r.lhs = some m := (ht.goto?_eq top r.lhs rfl).trans hm
  rw [← ht.grammar_eq] at hr
  simp only [reduce, hr, hdrop, hgoto]
  exact ⟨⟨_, hδ.push hm⟩, hc.suffix, hc.input_ne_nil⟩

/-- Every step keeps the stack on a path, accepts, or finds no action for a token. -/
theorem step_isSafe (ha : Automaton.Lawful g a) (ht : t.IsFor g' a) (hc : c.OnPath a input) :
    (t.step c).IsSafe a t input := by
  obtain ⟨stack, rest, stats⟩ := c
  obtain ⟨n, below, rfl⟩ : ∃ n below, stack = n :: below := by
    obtain ⟨γ, hspells⟩ := hc.spells
    cases hspells with
    | initial => exact ⟨_, _, rfl⟩
    | push => exact ⟨_, _, rfl⟩
  obtain ⟨X, rest, rfl⟩ := List.exists_cons_of_ne_nil hc.input_ne_nil
  cases haction : t.action? n X with
  | none =>
    simp only [step, haction]
    exact ⟨X, n, rfl, hc.suffix.subset List.mem_cons_self, haction⟩
  | some action =>
    have hcandidate := ht.candidate n X action haction
    simp only [step, haction]
    cases action with
    | accept => trivial
    | reduce i => exact reduce_isSafe ha ht hc hcandidate
    | shift m =>
      cases hcandidate with
      | shift hX hm => exact shift_isSafe ha hc hX hm

/-- A run from a configuration on a path fails at a token without an action only. -/
theorem runFrom_isSafe (ha : Automaton.Lawful g a) (ht : t.IsFor g' a) (hc : c.OnPath a input)
    (h : t.runFrom limit c = some (.error e)) : (Outcome.failed e).IsSafe a t input := by
  induction limit generalizing c with
  | zero => cases h
  | succ limit ih =>
    have hsafe := step_isSafe ha ht hc
    rw [runFrom] at h
    split at h
    · next d hstep =>
      rw [hstep] at hsafe
      exact ih hsafe h
    · cases h
    · next e' hstep =>
      rw [hstep] at hsafe
      obtain rfl := Except.error.inj (Option.some.inj h)
      exact hsafe

/-- Whatever the input and the way clashes were settled, and also if the table was made for another
grammar than the automaton, a run fails at a token for which the table has no action, and in no
other way. -/
theorem eq_unexpected_of_recognize
    (ha : Automaton.construct g = .ok a ∨ Automaton.lalr g = .ok a)
    (ht : build policy a g' = .ok t) (h : t.recognize limit input = some (.error e)) :
    ∃ token state, e = .unexpected token state ∧ token ∈ input ++ [.endMark] ∧
      t.action? state token = none := by
  have hlawful : Automaton.Lawful g a := ha.elim Automaton.lawful_of_construct
    Automaton.lawful_of_lalr
  have hfor := isFor_of_build ht
  exact runFrom_isSafe hlawful hfor (hfor.onPath_start input) h

/-- The sums with their rules in another order, and with a rule that the automaton does not have. -/
def moreSums : Grammar where
  start := "S"
  rules :=
    { head := "S"
      body := [.terminal "-", .nonterminal "S"]
      wellFormed := by simp [WellFormedBody] } :: sums.rules.reverse

theorem eq_unexpected_of_recognize_moreSums :
    ∃ a t, Automaton.lalr sums = .ok a ∧ build .preferReduce a moreSums = .ok t ∧
      ∃ e, t.recognize 20 [.terminal "n", .terminal "+", .nonterminal "S"] = some (.error e) ∧
        ∃ token state, e = .unexpected token state ∧
          token ∈ [.terminal "n", .terminal "+", .nonterminal "S"] ++ [.endMark] ∧
            t.action? state token = none := by
  have hrun : (do
      let a ← Automaton.lalr sums
      let t ← build .preferReduce a moreSums
      return t.recognize 20 [.terminal "n", .terminal "+", .nonterminal "S"]) =
        Except.ok (some (.error (.unexpected (.nonterminal "S") 3))) := by
    decide +kernel
  obtain ⟨a, ha, hrun⟩ := bind_eq_ok_iff.mp hrun
  obtain ⟨t, ht, hrun⟩ := bind_eq_ok_iff.mp hrun
  have hresult := Except.ok.inj hrun
  exact ⟨a, t, ha, ht, _, hresult, eq_unexpected_of_recognize (Or.inr ha) ht hresult⟩

end Table

end Recognizer.LR
