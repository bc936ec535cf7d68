import Mathlib.Data.Set.Function
import Recognizer.Proofs.Dfa.Minimize

/-!
# Automata that differ in the names of states

A state of a reduced automaton is determined by what it says of texts. If texts lead to all states
of two such automata but the traps, and the automata say the same of all texts, then each state of
the one has a counterpart in the other, and the counterparts lead to each other in the same way. So
minimal automata that say the same are the same up to the names of their states.

## Main definitions

* `Dfa.IsIsomorphism`: an exchange of the names of states that keeps everything else.

## Main results

* `Dfa.IsIsomorphism.size_eq`: the number of states is the same.
* `Dfa.exists_isIsomorphism`, `Dfa.exists_isIsomorphism_minimize`: automata that say the same.
-/

namespace Recognizer.Dfa

variable {d d' m : Dfa} {f : StateId → StateId} {s : StateId}

/-- The automaton `m` is `d` with the states renamed: besides what is asked of an image, the
alphabets are the same, and different states have different names, which are all states of `m`. -/
structure IsIsomorphism (m d : Dfa) (f : StateId → StateId) : Prop extends IsImage m d f where
  alphabet_eq : m.alphabet = d.alphabet
  bijOn : Set.BijOn f {s | s ∈ d.states} {s | s ∈ m.states}

/-- Isomorphic automata have the same number of states. -/
theorem IsIsomorphism.size_eq (h : IsIsomorphism m d f) : m.states.size = d.states.size := by
  have hnodup : (d.states.toList.map f).Nodup :=
    d.states.nodup_toList.map_on fun s hs t ht heq => h.bijOn.injOn hs ht heq
  have hperm : (d.states.toList.map f).Perm m.states.toList := by
    refine (List.perm_ext_iff_of_nodup hnodup m.states.nodup_toList).mpr fun t => ?_
    rw [List.mem_map]
    constructor
    · rintro ⟨s, hs, rfl⟩
      exact h.bijOn.mapsTo hs
    · exact fun ht => h.bijOn.surjOn ht
  rw [SortedSet.size, SortedSet.size, ← hperm.length_eq, List.length_map]

/-! ### Counterparts of states -/

private theorem exists_verdict_eq (hm : m.IsTotal) (haccessible : d.IsAccessible)
    (hinitial : m.verdict m.initial = d.verdict d.initial)
    (htrap : m.verdict m.trap = d.verdict d.trap) (hs : s ∈ d.states) :
    ∃ t ∈ m.states, m.verdict t = d.verdict s := by
  rcases haccessible s hs with rfl | ⟨text, rfl⟩
  · exact ⟨m.trap, hm.trap_mem, htrap⟩
  · exact ⟨_, hm.run_mem hm.initial_mem text, verdict_run_eq hinitial text⟩

/-- Reduced automata that say the same are isomorphic. Both automata must be total, with the same
alphabet, texts must lead to all of their states but the traps, and the initial states and the traps
must say the same of all texts. -/
theorem exists_isIsomorphism (hd : d.IsTotal) (hm : m.IsTotal) (hdreduced : d.IsReduced)
    (hmreduced : m.IsReduced) (hdaccessible : d.IsAccessible) (hmaccessible : m.IsAccessible)
    (halphabet : m.alphabet = d.alphabet)
    (hinitial : m.verdict m.initial = d.verdict d.initial)
    (htrap : m.verdict m.trap = d.verdict d.trap) : ∃ f, IsIsomorphism m d f := by
  have hexists : ∀ s, ∃ t, s ∈ d.states → t ∈ m.states ∧ m.verdict t = d.verdict s := fun s => by
    by_cases hs : s ∈ d.states
    · obtain ⟨t, ht, h⟩ := exists_verdict_eq hm hdaccessible hinitial htrap hs
      exact ⟨t, fun _ => ⟨ht, h⟩⟩
    · exact ⟨s, fun h => absurd h hs⟩
  choose f hf using hexists
  -- the counterpart of a state is the only state that says the same
  have hunique {s t : StateId} (hs : s ∈ d.states) (ht : t ∈ m.states)
      (h : m.verdict t = d.verdict s) : f s = t :=
    hmreduced _ (hf s hs).1 _ ht ((hf s hs).2.trans h.symm)
  refine ⟨f, ⟨(hunique hd.initial_mem hm.initial_mem hinitial).symm,
    (hunique hd.trap_mem hm.trap_mem htrap).symm, fun s hs c => ?_, fun s hs => ?_,
    fun s hs => ?_⟩, halphabet, fun s hs => (hf s hs).1, fun s hs t ht heq => ?_, fun t ht => ?_⟩
  · have hmem := hm.step_mem _ (hf s hs).1 c
    exact (hunique (hd.step_mem s hs c) hmem (verdict_step_eq (hf s hs).2 c)).symm
  · exact (accepting_iff_and_tag?_eq_of_verdict (hf s hs).2).1
  · exact (accepting_iff_and_tag?_eq_of_verdict (hf s hs).2).2
  · exact hdreduced s hs t ht ((hf s hs).2.symm.trans (heq ▸ (hf t ht).2))
  · obtain ⟨s, hs, h⟩ := exists_verdict_eq hd hmaccessible hinitial.symm htrap.symm ht
    exact ⟨s, hs, hunique hs ht h.symm⟩

/-- The minimal automata of automata that say the same of all texts are isomorphic. -/
theorem exists_isIsomorphism_minimize (hd : d.IsTotal) (hd' : d'.IsTotal)
    (haccessible : d.IsAccessible) (haccessible' : d'.IsAccessible)
    (halphabet : d'.alphabet = d.alphabet)
    (hinitial : d'.verdict d'.initial = d.verdict d.initial)
    (htrap : d'.verdict d'.trap = d.verdict d.trap) :
    ∃ f, IsIsomorphism d'.minimize d.minimize f := by
  have himage := isImage_minimize hd
  have himage' := isImage_minimize hd'
  refine exists_isIsomorphism (isTotal_minimize hd) (isTotal_minimize hd') (isReduced_minimize hd)
    (isReduced_minimize hd') (isAccessible_minimize hd haccessible)
    (isAccessible_minimize hd' haccessible') halphabet ?_ ?_
  · rw [himage.verdict_initial_eq hd, himage'.verdict_initial_eq hd', hinitial]
  · rw [himage.trap_eq, himage'.trap_eq, himage.verdict_eq hd hd.trap_mem,
      himage'.verdict_eq hd' hd'.trap_mem, htrap]

end Recognizer.Dfa
