import Mathlib.Data.List.Basic
import Recognizer.Dfa.Basic

/-!
# Runs of an automaton

The search for an accepted text, and for the longest accepted prefix of a text, ends early where the
text leads to the trap. If no text leads from the trap to an accepting state, nothing is lost by
this.

## Main definitions

* `byteLength`: the length of a text in bytes.
* `Dfa.TrapIsDead`: no text leads from the trap to an accepting state.
* `Dfa.IsTotal`, `Dfa.HasFullRows`: every character leads from every state to a state, and those of
  the alphabet do so by the rows.
* `Dfa.LongestAccepted`: the longest accepted prefix of a text.

## Main results

* `Dfa.derive_iff`: a text is accepted if it leads to an accepting state.
* `Dfa.longestMatch_eq_none_iff`, `Dfa.longestMatch_eq_some_iff`: the match is the longest accepted
  prefix.
-/

namespace Recognizer

/-- The length of a text in bytes. -/
def byteLength (text : List Char) : Nat := text.foldr (fun c n => c.utf8Size + n) 0

theorem byteLength_cons (c : Char) (u : List Char) :
    byteLength (c :: u) = c.utf8Size + byteLength u := rfl

theorem byteLength_append (u v : List Char) :
    byteLength (u ++ v) = byteLength u + byteLength v := by
  induction u with
  | nil => exact (Nat.zero_add _).symm
  | cons c u ih => rw [List.cons_append, byteLength_cons, byteLength_cons, ih, Nat.add_assoc]

theorem byteLength_le_of_prefix {u v : List Char} (h : u <+: v) : byteLength u ≤ byteLength v := by
  obtain ⟨w, rfl⟩ := h
  rw [byteLength_append]
  omega

namespace Dfa

variable {d : Dfa} {s : StateId} {text : List Char}

/-- No text leads from the trap to an accepting state. Then a search may end at the trap without
missing anything. -/
def TrapIsDead (d : Dfa) : Prop := ∀ text, ¬ d.Accepting (d.run d.trap text)

/-- Every character leads from every state to a state, a character outside the alphabet to the trap,
and only states are accepting or have a tag. -/
structure IsTotal (d : Dfa) : Prop where
  initial_mem : d.initial ∈ d.states
  trap_mem : d.trap ∈ d.states
  step_mem : ∀ s ∈ d.states, ∀ c, d.step s c ∈ d.states
  step_of_not_mem : ∀ s ∈ d.states, ∀ c, c ∉ d.alphabet → d.step s c = d.trap
  mem_of_accepting : ∀ s, d.Accepting s → s ∈ d.states
  mem_of_tag? : ∀ s tag, d.tag? s = some tag → s ∈ d.states

/-- The row of every state has the characters of the alphabet, and no others. -/
def HasFullRows (d : Dfa) : Prop := ∀ s row, d.rows.get? s = some row → row.keys = d.alphabet

theorem IsTotal.run_mem (hd : d.IsTotal) (hs : s ∈ d.states) (text : List Char) :
    d.run s text ∈ d.states := by
  induction text generalizing s with
  | nil => exact hs
  | cons c text ih => exact ih (hd.step_mem s hs c)

theorem run_nil : d.run s [] = s := rfl

theorem run_cons (c : Char) : d.run s (c :: text) = d.run (d.step s c) text := rfl

theorem run_append (u v : List Char) : d.run s (u ++ v) = d.run (d.run s u) v := List.foldl_append

theorem deriveFrom_iff (hdead : d.TrapIsDead) :
    d.deriveFrom s text = true ↔ d.Accepting (d.run s text) := by
  induction text generalizing s with
  | nil => simp [deriveFrom, run_nil]
  | cons c text ih =>
    rw [deriveFrom, run_cons]
    by_cases htrap : d.step s c = d.trap
    · simp only [htrap, if_true, Bool.false_eq_true, false_iff]
      exact hdead text
    · simp only [htrap, if_false]
      exact ih

/-- A text is accepted if it leads to an accepting state. -/
theorem derive_iff (hdead : d.TrapIsDead) :
    d.derive text = true ↔ d.Accepting (d.run d.initial text) :=
  deriveFrom_iff hdead

/-- The longest prefix of a text that leads to an accepting state. There is at most one, since
prefixes of one text are determined by their lengths. -/
structure LongestAccepted (d : Dfa) (s : StateId) (text p : List Char) : Prop where
  isPrefix : p <+: text
  accepting : d.Accepting (d.run s p)
  longest : ∀ p', p' <+: text → d.Accepting (d.run s p') → p'.length ≤ p.length

theorem LongestAccepted.unique {p p' : List Char} (h : d.LongestAccepted s text p)
    (h' : d.LongestAccepted s text p') : p = p' := by
  have hlength : p.length = p'.length :=
    Nat.le_antisymm (h'.longest p h.isPrefix h.accepting) (h.longest p' h'.isPrefix h'.accepting)
  have hpart := List.prefix_of_prefix_length_le h.isPrefix h'.isPrefix (Nat.le_of_eq hlength)
  exact hpart.eq_of_length hlength

private theorem LongestAccepted.cons {c : Char} {p : List Char}
    (h : d.LongestAccepted (d.step s c) text p) : d.LongestAccepted s (c :: text) (c :: p) where
  isPrefix := (List.prefix_cons_inj c).mpr h.isPrefix
  accepting := h.accepting
  longest p' hp' hacc := by
    rcases List.prefix_cons_iff.mp hp' with rfl | ⟨q, rfl, hq⟩
    · simp
    · simpa using h.longest q hq hacc

/-- What the first state contributes if no prefix is accepted after the first character: the longest
accepted prefix is empty, or there is none and the best match so far stays. -/
private theorem matchAt_eq {c : Char} (length : Nat) (best : Option Match)
    (h : ∀ p, p <+: text → ¬ d.Accepting (d.run (d.step s c) p)) :
    (∃ p, d.LongestAccepted s (c :: text) p ∧ (d.matchAt s length).or best =
        some ⟨length + byteLength p, d.tag? (d.run s p)⟩) ∨
      (∀ p, p <+: c :: text → ¬ d.Accepting (d.run s p)) ∧
        (d.matchAt s length).or best = best := by
  rw [matchAt]
  by_cases hs : d.Accepting s
  · refine Or.inl ⟨[], ⟨List.nil_prefix, hs, fun p' hp' hacc => ?_⟩, by rw [if_pos hs]; rfl⟩
    rcases List.prefix_cons_iff.mp hp' with rfl | ⟨q, rfl, hq⟩
    · exact Nat.le_refl 0
    · exact absurd hacc (h q hq)
  · refine Or.inr ⟨fun p hp hacc => ?_, by rw [if_neg hs, Option.none_or]⟩
    rcases List.prefix_cons_iff.mp hp with rfl | ⟨q, rfl, hq⟩
    · exact hs hacc
    · exact h q hq hacc

/-- What the search from a state on finds in a text: the longest accepted prefix, and if there is
none, the best match so far. -/
private theorem longestFrom_eq (hdead : d.TrapIsDead) (s : StateId) (text : List Char)
    (length : Nat) (best : Option Match) :
    (∃ p, d.LongestAccepted s text p ∧ d.longestFrom s length ((d.matchAt s length).or best) text =
        some ⟨length + byteLength p, d.tag? (d.run s p)⟩) ∨
      (∀ p, p <+: text → ¬ d.Accepting (d.run s p)) ∧
        d.longestFrom s length ((d.matchAt s length).or best) text = best := by
  induction text generalizing s length best with
  | nil =>
    rw [longestFrom, matchAt]
    by_cases hs : d.Accepting s
    · refine Or.inl ⟨[], ⟨List.prefix_rfl, hs, fun p' hp' _ => hp'.length_le⟩, ?_⟩
      rw [if_pos hs]
      rfl
    · refine Or.inr ⟨fun p hp => ?_, by rw [if_neg hs, Option.none_or]⟩
      rw [List.prefix_nil.mp hp]
      exact hs
  | cons c text ih =>
    rw [longestFrom]
    by_cases htrap : d.step s c = d.trap
    · -- the search stops, and rightly so, because nothing is accepted from the trap on
      simp only [htrap, if_true]
      exact matchAt_eq length best fun p _ => htrap ▸ hdead p
    · simp only [htrap, if_false]
      rcases ih (d.step s c) (length + c.utf8Size) ((d.matchAt s length).or best) with
        ⟨p, hp, heq⟩ | ⟨hp, heq⟩
      · refine Or.inl ⟨c :: p, hp.cons, ?_⟩
        rw [heq, byteLength_cons, Nat.add_assoc]
        rfl
      · rw [heq]
        exact matchAt_eq length best hp

private theorem longestMatch_cases (hdead : d.TrapIsDead) (text : List Char) :
    (∃ p, d.LongestAccepted d.initial text p ∧
        d.longestMatch text = some ⟨byteLength p, d.tag? (d.run d.initial p)⟩) ∨
      (∀ p, p <+: text → ¬ d.Accepting (d.run d.initial p)) ∧ d.longestMatch text = none := by
  have h := longestFrom_eq hdead d.initial text 0 none
  simp only [Option.or_none, Nat.zero_add] at h
  exact h

/-- There is no match just if no prefix is accepted. -/
theorem longestMatch_eq_none_iff (hdead : d.TrapIsDead) :
    d.longestMatch text = none ↔ ∀ p, p <+: text → ¬ d.Accepting (d.run d.initial p) := by
  rcases longestMatch_cases hdead text with ⟨p, hp, heq⟩ | ⟨hp, heq⟩
  · simp only [heq, reduceCtorEq, false_iff]
    exact fun h => h p hp.isPrefix hp.accepting
  · simp only [heq, true_iff]
    exact hp

/-- A match is the longest accepted prefix, with the tag of the state it leads to. -/
theorem longestMatch_eq_some_iff (hdead : d.TrapIsDead) {m : Match} :
    d.longestMatch text = some m ↔ ∃ p, d.LongestAccepted d.initial text p ∧
      m = ⟨byteLength p, d.tag? (d.run d.initial p)⟩ := by
  rcases longestMatch_cases hdead text with ⟨p, hp, heq⟩ | ⟨hp, heq⟩
  · rw [heq, Option.some.injEq]
    constructor
    · rintro rfl
      exact ⟨p, hp, rfl⟩
    · rintro ⟨p', hp', rfl⟩
      rw [hp.unique hp']
  · simp only [heq, reduceCtorEq, false_iff]
    rintro ⟨p, hp', -⟩
    exact hp p hp'.isPrefix hp'.accepting

end Dfa

end Recognizer
