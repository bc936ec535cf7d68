import Mathlib.Data.List.TakeWhile
import Recognizer.Proofs.LR.Existence
import Recognizer.Proofs.LR.Soundness

/-!
# End marks in the input

The end mark that follows the input is a symbol like those of the input, which may have end marks of
its own. None of them is shifted, and a parser accepts at the first one it comes to. So whatever
follows the first end mark is ignored: a run has the result that it has on the symbols before.

A run that accepts has thus read its whole input if and only if there is no end mark in the input.
Tokens of all other kinds, also those that are no terminals, are either read or not accepted.

## Main definitions

* `Config.append`, `Outcome.append`: further symbols after the input.
* `upToEndMark`: the symbols before the first end mark.

## Main results

* `Table.IsFor.step_append`: a step ignores what follows an end mark.
* `Table.IsFor.runFrom_append`: so does a run.
* `Table.recognize_of_compile`: the result on the symbols before the first end mark, and what a run
  that accepts has read.
-/

namespace Recognizer.LR

variable {g : Grammar} {a : Automaton} {t : Table} {text : String} {policy : Policy} {c d : Config}
  {input : List Symbol}

/-- The parser with further symbols after its input. -/
def Config.append (c : Config) (more : List Symbol) : Config := { c with input := c.input ++ more }

/-- The outcome with further symbols after the input that is left. -/
def Outcome.append (outcome : Outcome) (more : List Symbol) : Outcome :=
  match outcome with
  | .next c => .next (c.append more)
  | .accepted stats => .accepted stats
  | .failed e => .failed e

namespace Table

theorem start_append (t : Table) (input more : List Symbol) :
    t.start (input ++ .endMark :: more) = (t.start input).append (more ++ [.endMark]) := by
  rw [start, start, Config.append, List.append_assoc, List.append_assoc]
  rfl

theorem reduce_append (t : Table) (c : Config) (index : Nat) (more : List Symbol) :
    t.reduce (c.append more) index = (t.reduce c index).append more := by
  simp only [reduce, Config.append]
  split
  · rfl
  · split
    · rfl
    · split <;> rfl

namespace IsFor

/-- The end mark is not shifted, since no rule has it. -/
theorem action?_endMark_ne_shift (ht : t.IsFor g a) (ha : Automaton.Lawful g a) (n m : Nat) :
    t.action? n .endMark ≠ some (.shift m) := by
  intro haction
  cases ht.candidate _ _ _ haction with
  | shift hX hm =>
    obtain ⟨name, hname⟩ := ha.exists_terminal hm hX
    cases hname

theorem endMark_mem_of_steps (ht : t.IsFor g a) (ha : Automaton.Lawful g a) (h : t.Steps c d)
    (hc : .endMark ∈ c.input) : .endMark ∈ d.input := by
  cases h with
  | shift haction =>
    rcases List.mem_cons.mp hc with rfl | hrest
    · exact absurd haction (ht.action?_endMark_ne_shift ha _ _)
    · exact hrest
  | reduce => exact hc

/-- A step ignores what follows an end mark, since it looks at the first symbol only and never
shifts an end mark. -/
theorem step_append (ht : t.IsFor g a) (ha : Automaton.Lawful g a) (hc : .endMark ∈ c.input)
    (more : List Symbol) : t.step (c.append more) = (t.step c).append more := by
  obtain ⟨stack, input, stats⟩ := c
  cases stack with
  | nil => rfl
  | cons n below =>
    cases input with
    | nil => cases hc
    | cons X rest =>
      cases haction : t.action? n X with
      | none =>
        simp only [step, Config.append, List.cons_append, haction]
        rfl
      | some action =>
        cases action with
        | accept =>
          simp only [step, Config.append, List.cons_append, haction]
          rfl
        | reduce i =>
          have hreduce := t.reduce_append ⟨n :: below, X :: rest, stats⟩ i more
          simp only [step, Config.append, List.cons_append, haction] at hreduce ⊢
          exact hreduce
        | shift m =>
          -- the end mark comes later, so the input does not end with the shift
          rcases List.mem_cons.mp hc with rfl | hrest
          · exact absurd haction (ht.action?_endMark_ne_shift ha _ _)
          · obtain ⟨Y, rest, rfl⟩ := List.exists_cons_of_ne_nil (List.ne_nil_of_mem hrest)
            simp only [step, Config.append, List.cons_append, haction]
            rfl

/-- A run ignores what follows an end mark. The invariant is that an end mark stays in the input, so
that the steps are the same all the way. -/
theorem runFrom_append (ht : t.IsFor g a) (ha : Automaton.Lawful g a) (hc : .endMark ∈ c.input)
    (limit : Nat) (more : List Symbol) : t.runFrom limit (c.append more) = t.runFrom limit c := by
  induction limit generalizing c with
  | zero => rfl
  | succ limit ih =>
    rw [runFrom, runFrom, ht.step_append ha hc]
    cases hstep : t.step c with
    | next d => exact ih (ht.endMark_mem_of_steps ha (step_eq_next_iff.mp hstep) hc)
    | accepted stats => rfl
    | failed e => rfl

theorem recognize_append (ht : t.IsFor g a) (ha : Automaton.Lawful g a) (limit : Nat)
    (input more : List Symbol) :
    t.recognize limit (input ++ .endMark :: more) = t.recognize limit input := by
  rw [recognize, recognize, start_append]
  exact ht.runFrom_append ha (List.mem_append_right _ (List.mem_singleton_self _)) limit _

end IsFor

end Table

/-! ### The symbols before the first end mark -/

/-- The symbols before the first end mark, or all if there is none. -/
def upToEndMark (input : List Symbol) : List Symbol := input.takeWhile (· ≠ .endMark)

theorem upToEndMark_append {before : List Symbol} (hbefore : .endMark ∉ before)
    (more : List Symbol) : upToEndMark (before ++ .endMark :: more) = before := by
  rw [upToEndMark, List.takeWhile_append_of_pos, List.takeWhile_cons_of_neg, List.append_nil]
  · simp
  · exact fun _ hX => decide_eq_true (ne_of_mem_of_not_mem hX hbefore)

theorem upToEndMark_eq_self (h : .endMark ∉ input) : upToEndMark input = input :=
  List.takeWhile_eq_self_iff.mpr fun _ hX => decide_eq_true (ne_of_mem_of_not_mem hX h)

theorem endMark_not_mem_upToEndMark (input : List Symbol) : .endMark ∉ upToEndMark input := by
  intro h
  have hne := List.mem_takeWhile_imp h
  simp at hne

theorem length_upToEndMark_eq_iff :
    (upToEndMark input).length = input.length ↔ .endMark ∉ input := by
  constructor
  · intro h
    have hall : upToEndMark input = input := (List.takeWhile_prefix _).eq_of_length h
    have hnot := endMark_not_mem_upToEndMark input
    rwa [hall] at hnot
  · intro h
    rw [upToEndMark_eq_self h]

namespace Table

theorem IsFor.recognize_upToEndMark (ht : t.IsFor g a) (ha : Automaton.Lawful g a) (limit : Nat)
    (input : List Symbol) : t.recognize limit (upToEndMark input) = t.recognize limit input := by
  by_cases hend : .endMark ∈ input
  · obtain ⟨before, more, rfl, hbefore⟩ := List.eq_append_cons_of_mem hend
    rw [upToEndMark_append hbefore, ht.recognize_append ha]
  · rw [upToEndMark_eq_self hend]

/-- The result of a run is that on the symbols before the first end mark, and a run that accepts has
read these. They are the whole input if and only if there is no end mark in it. -/
theorem recognize_of_compile (h : compile text policy = .ok t) (limit : Nat)
    (input : List Symbol) :
    t.recognize limit (upToEndMark input) = t.recognize limit input ∧
      ∀ stats, t.recognize limit input = some (.ok stats) →
        stats.shifts = (upToEndMark input).length ∧ stats.tokens = stats.shifts + 1 ∧
          (stats.shifts = input.length ↔ .endMark ∉ input) := by
  obtain ⟨g, a, -, ha, ht⟩ := compile_eq_ok_iff.mp h
  have hlawful := Automaton.lawful_of_lalr ha
  have hfor := isFor_of_build ht
  have hsame := hfor.recognize_upToEndMark hlawful limit input
  refine ⟨hsame, fun stats hrun => ?_⟩
  rw [← hsame] at hrun
  obtain ⟨-, hshifts, htokens⟩ := (hfor.accounts_start _).runFrom hlawful hfor
    (endMark_not_mem_upToEndMark input) hrun
  refine ⟨hshifts, ?_, ?_⟩
  · rw [htokens, hshifts]
  · rw [hshifts]
    exact length_upToEndMark_eq_iff

/-- The only word of `S → x`, and an end mark and a letter after it. -/
theorem exists_recognize_letter :
    ∃ t, compile "S -> x\n" .preferShift = .ok t ∧
      t.recognize 4 [.terminal "x", .endMark, .terminal "x"] = some (.ok ⟨2, 1, 1⟩) := by
  have hrun : (do
      let t ← compile "S -> x\n" .preferShift
      return t.recognize 4 [.terminal "x", .endMark, .terminal "x"]) =
        Except.ok (some (.ok ⟨2, 1, 1⟩)) := by
    decide +kernel
  obtain ⟨t, ht, hrun⟩ := bind_eq_ok_iff.mp hrun
  exact ⟨t, ht, Except.ok.inj hrun⟩

/-- The word is read, and the letter after the end mark is not. -/
theorem recognize_of_compile_letter :
    ∃ t, compile "S -> x\n" .preferShift = .ok t ∧
      t.recognize 4 [.terminal "x"] = t.recognize 4 [.terminal "x", .endMark, .terminal "x"] ∧
      ∃ stats, t.recognize 4 [.terminal "x", .endMark, .terminal "x"] = some (.ok stats) ∧
        stats.shifts = 1 ∧ stats.tokens = 2 := by
  obtain ⟨t, ht, haccepts⟩ := exists_recognize_letter
  obtain ⟨hsame, hread⟩ := recognize_of_compile ht 4 [.terminal "x", .endMark, .terminal "x"]
  obtain ⟨hshifts, htokens, -⟩ := hread _ haccepts
  exact ⟨t, ht, hsame, _, haccepts, hshifts, htokens⟩

/-- A run can accept an input that it has not read to its end. -/
theorem exists_recognize_shifts_ne_length :
    ∃ t stats, compile "S -> x\n" .preferShift = .ok t ∧
      t.recognize 4 [.terminal "x", .endMark, .terminal "x"] = some (.ok stats) ∧
      stats.shifts ≠ [Symbol.terminal "x", .endMark, .terminal "x"].length := by
  obtain ⟨t, ht, haccepts⟩ := exists_recognize_letter
  exact ⟨t, _, ht, haccepts, by decide⟩

end Table

end Recognizer.LR
