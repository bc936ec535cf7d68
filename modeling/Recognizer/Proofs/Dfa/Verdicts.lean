import Recognizer.Dfa.Equivalence
import Recognizer.Proofs.Dfa.Runs

/-!
# What is said of texts

From each of its states on, an automaton says of every text whether it is accepted and with which
tag. Nothing else about a state can be seen from outside: automata whose initial states say the same
accept the same texts and find the same longest matches.

## Main definitions

* `Dfa.verdict`: what is said of a text from a state on.
* `Dfa.IsReduced`: different states say something different of some text.
* `Dfa.IsAccessible`: texts lead to all states but the trap.

## Main results

* `Dfa.derive_eq_of_verdict`, `Dfa.longestMatch_eq_of_verdict`: automata that say the same.
-/

namespace Recognizer.Dfa

variable {d d' : Dfa} {s s' : StateId} {text text' : List Char}

/-- What is said of a text that is read from a state on. -/
def verdict (d : Dfa) (s : StateId) (text : List Char) : Verdict :=
  (d.Accepting (d.run s text), d.tag? (d.run s text))

theorem verdict_eq_iff : d.verdict s text = d'.verdict s' text' ↔
    (d.Accepting (d.run s text) ↔ d'.Accepting (d'.run s' text')) ∧
      d.tag? (d.run s text) = d'.tag? (d'.run s' text') := by
  rw [verdict, verdict, Prod.mk.injEq, decide_eq_decide]

theorem verdict_run (d : Dfa) (s : StateId) (u v : List Char) :
    d.verdict (d.run s u) v = d.verdict s (u ++ v) := by
  rw [verdict, verdict, run, run, run, List.foldl_append]

/-- States that say the same of all texts lead on to such states. -/
theorem verdict_run_eq (h : d.verdict s = d'.verdict s') (u : List Char) :
    d.verdict (d.run s u) = d'.verdict (d'.run s' u) := by
  funext v
  rw [verdict_run, verdict_run, h]

theorem verdict_step_eq (h : d.verdict s = d'.verdict s') (c : Char) :
    d.verdict (d.step s c) = d'.verdict (d'.step s' c) :=
  verdict_run_eq h [c]

theorem accepting_iff_and_tag?_eq_of_verdict (h : d.verdict s = d'.verdict s') :
    (d.Accepting s ↔ d'.Accepting s') ∧ d.tag? s = d'.tag? s' :=
  verdict_eq_iff.mp (congrFun h [])

/-- The trap rejects all texts, without a tag if only accepting states have one. -/
theorem verdict_trap (hdead : d.TrapIsDead) (htags : ∀ s tag, d.tag? s = some tag → d.Accepting s) :
    d.verdict d.trap = fun _ => (false, none) := by
  funext text
  have htag : d.tag? (d.run d.trap text) = none :=
    Option.eq_none_iff_forall_ne_some.mpr fun tag h => hdead text (htags _ tag h)
  rw [verdict, htag, decide_eq_false (hdead text)]

/-- Different states say something different of some text, so no two states could be made one. -/
def IsReduced (d : Dfa) : Prop :=
  ∀ s ∈ d.states, ∀ t ∈ d.states, d.verdict s = d.verdict t → s = t

/-- Some text leads from the initial state to any other state than the trap. The trap may be out of
reach, if every text can be continued. -/
def IsAccessible (d : Dfa) : Prop :=
  ∀ s ∈ d.states, s = d.trap ∨ ∃ text, s = d.run d.initial text

/-! ### Automata that say the same -/

section Same

variable (hdead : d.TrapIsDead) (hdead' : d'.TrapIsDead)
  (h : d.verdict d.initial = d'.verdict d'.initial)

include hdead hdead' h

/-- Automata whose initial states say the same of all texts accept the same texts, if nothing is
accepted from their traps. -/
theorem derive_eq_of_verdict (text : List Char) : d.derive text = d'.derive text := by
  rw [Bool.eq_iff_iff, derive_iff hdead, derive_iff hdead']
  exact (verdict_eq_iff.mp (congrFun h text)).1

/-- Automata that say the same of all texts find the same longest matches, with the same tags. -/
theorem longestMatch_eq_of_verdict (text : List Char) :
    d.longestMatch text = d'.longestMatch text := by
  have haccepting (p : List Char) := (verdict_eq_iff.mp (congrFun h p)).1
  have hlongest (p : List Char) :
      d.LongestAccepted d.initial text p ↔ d'.LongestAccepted d'.initial text p := by
    constructor
    · rintro ⟨hpart, hacc, hmax⟩
      exact ⟨hpart, (haccepting p).mp hacc, fun q hq hacc' => hmax q hq ((haccepting q).mpr hacc')⟩
    · rintro ⟨hpart, hacc, hmax⟩
      exact ⟨hpart, (haccepting p).mpr hacc, fun q hq hacc' => hmax q hq ((haccepting q).mp hacc')⟩
  refine Option.ext fun found => ?_
  rw [longestMatch_eq_some_iff hdead, longestMatch_eq_some_iff hdead']
  refine exists_congr fun p => ?_
  rw [hlongest p, (verdict_eq_iff.mp (congrFun h p)).2]

end Same

end Recognizer.Dfa
