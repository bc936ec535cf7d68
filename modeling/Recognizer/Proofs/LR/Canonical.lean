import Recognizer.Proofs.LR.Items

/-!
# The automaton of all item sets

The states of a grammar's automaton are the closed item sets that are reached from the set of the
start item, each once, and a symbol leads from a set to the set after it. The bound on the
exploration is large enough, so no set is missing.

## Main definitions

* `Automaton.items?`, `Automaton.Holds`: the item set of a state, and what it says.
* `Automaton.IsCanonical`: the automaton has all item sets and all transitions of a grammar.

## Main results

* `Automaton.isCanonical_of_construct`: this holds of the automaton that is constructed.
-/

namespace Recognizer.LR

open Relation (ReflTransGen)

namespace Automaton

variable {g : Grammar} {a : Automaton} {s t : ItemSet} {X : Symbol} {n m : Nat} {f : Fact}

/-- The item set of a state. -/
def items? (a : Automaton) (n : Nat) : Option ItemSet := (a.states[n]?).map State.items

/-- The item set of the state says the fact: it has the item and, if there is a symbol, this symbol
as a lookahead of the item. -/
def Holds (a : Automaton) (n : Nat) (f : Fact) : Prop :=
  ∃ s, a.items? n = some s ∧ SortedMap.Holds s f

/-- A symbol after some dot of the one item set leads to the other, which is the closure of the
items with the dot moved over the symbol. -/
structure Leads (g : Grammar) (X : Symbol) (s t : ItemSet) : Prop where
  mem : X ∈ s.symbolsAfterDot
  goto_eq : s.goto g g.firstSets X = .ok t

/-- The automaton has just the item sets and transitions that are reached from the start item, each
set as one state. But for the initial state, the numbers of the states are left open. -/
structure IsCanonical (g : Grammar) (a : Automaton) : Prop where
  grammar_eq : a.grammar = g.augmented
  closure : ∃ s, a.items? initial = some s ∧
    (startSet g.augmented g.startSymbol).closure g.augmented g.augmented.firstSets = .ok s
  reached : ∀ n s, a.items? n = some s →
    ∃ s₀, a.items? initial = some s₀ ∧
      ReflTransGen (fun s t => ∃ X, Leads g.augmented X s t) s₀ s
  unique : ∀ m n s, a.items? m = some s → a.items? n = some s → m = n
  transition_iff : ∀ n X m, a.transition? n X = some m ↔
    ∃ s t, a.items? n = some s ∧ Leads g.augmented X s t ∧ a.items? m = some t
  exists_transition : ∀ n s X, a.items? n = some s → X ∈ s.symbolsAfterDot →
    ∃ m, a.transition? n X = some m

/-! ### Item sets and the sets after them -/

theorem successors_eq_ok {first : SetTable} {out : List (Symbol × ItemSet)}
    (h : successors g first s = .ok out) :
    out.map Prod.fst = s.symbolsAfterDot.toList ∧ ∀ e ∈ out, s.goto g first e.1 = .ok e.2 := by
  rw [successors, mapM_eq_ok_iff] at h
  generalize s.symbolsAfterDot.toList = symbols at h
  induction h with
  | nil => exact ⟨rfl, List.forall_mem_nil _⟩
  | cons hX _ ih =>
    obtain ⟨t, ht, heq⟩ := bind_eq_ok_iff.mp hX
    obtain rfl := Except.ok.inj heq
    exact ⟨congrArg (_ :: ·) ih.1, List.forall_mem_cons.mpr ⟨ht, ih.2⟩⟩

private theorem mem_successors {out : List (Symbol × ItemSet)}
    (h : successors g g.firstSets s = .ok out) : (X, t) ∈ out ↔ Leads g X s t := by
  obtain ⟨hsymbols, hgoto⟩ := successors_eq_ok h
  constructor
  · intro hmem
    refine ⟨?_, hgoto (X, t) hmem⟩
    rw [SortedSet.mem_def, ← hsymbols]
    exact List.mem_map.mpr ⟨_, hmem, rfl⟩
  · rintro ⟨hX, ht⟩
    rw [SortedSet.mem_def, ← hsymbols] at hX
    obtain ⟨⟨_, t'⟩, hmem, rfl⟩ := List.mem_map.mp hX
    have ht' := hgoto _ hmem
    rw [ht] at ht'
    rwa [Except.ok.inj ht']

theorem mem_symbolsAfterDot {s : ItemSet} :
    X ∈ s.symbolsAfterDot ↔ ∃ item, SortedMap.Holds s (item, none) ∧ item.next? = some X := by
  simp only [ItemSet.symbolsAfterDot, SortedSet.mem_ofList, List.mem_filterMap, Prod.exists,
    SortedMap.mem_toList, SortedMap.holds_none_iff, Option.isSome_iff_exists]
  constructor
  · rintro ⟨item, lookaheads, hget, hnext⟩
    exact ⟨item, ⟨lookaheads, hget⟩, hnext⟩
  · rintro ⟨item, ⟨lookaheads, hget⟩, hnext⟩
    exact ⟨item, lookaheads, hget, hnext⟩

theorem Leads.isFact (h : Leads g X s t) (hs : ∀ f, SortedMap.Holds s f → IsFact g f) :
    ∀ f, SortedMap.Holds t f → IsFact g f := by
  intro f hf
  obtain ⟨f₀, hf₀, hnext, hpath⟩ := (ItemSet.holds_goto_iff h.goto_eq).mp hf
  exact ((hs f₀ hf₀).advance hnext).reaches hpath

theorem isFact_of_holds_closure
    (h : (startSet g.augmented g.startSymbol).closure g.augmented g.augmented.firstSets = .ok s) :
    ∀ f, SortedMap.Holds s f → IsFact g.augmented f := by
  intro f hf
  obtain ⟨f₀, hf₀, hpath⟩ := (ItemSet.holds_closure_iff h).mp hf
  exact (isFact_of_holds_startSet hf₀).reaches hpath

theorem leads_of_edge
    (h : Edge (existingEdges (successors g g.firstSets)) s t) : ∃ X, Leads g X s t := by
  obtain ⟨X, hX⟩ := h
  rw [existingEdges] at hX
  cases hout : successors g g.firstSets s with
  | error cause =>
    rw [hout] at hX
    cases hX
  | ok out =>
    rw [hout] at hX
    exact ⟨X, (mem_successors hout).mp hX⟩

private theorem reaches_leads (h : Reaches (existingEdges (successors g g.firstSets)) s t) :
    ReflTransGen (fun s t => ∃ X, Leads g X s t) s t := by
  induction h with
  | refl => exact .refl
  | tail _ hedge ih => exact ih.tail (leads_of_edge hedge)

/-! ### The numbered sets -/

section Numbered

variable {sets : List (ItemSet × List (Symbol × ItemSet))}

private theorem items?_eq (sets : List (ItemSet × List (Symbol × ItemSet))) (n : Nat) :
    (⟨g, number sets⟩ : Automaton).items? n = (sets[n]?).map Prod.fst := by
  rw [items?, number, List.getElem?_map, Option.map_map]
  rfl

private theorem transition?_eq_some_iff (hkeys : (sets.map fun e => e.1.key).Nodup)
    (hout : ∀ e ∈ sets, successors g g.firstSets e.1 = .ok e.2) (a : Grammar) :
    (⟨a, number sets⟩ : Automaton).transition? n X = some m ↔
      ∃ s t, (sets[n]?).map Prod.fst = some s ∧ Leads g X s t ∧
        (sets[m]?).map Prod.fst = some t := by
  rw [transition?, number, List.getElem?_map]
  cases he : sets[n]? with
  | none => simp
  | some e =>
    have hsuccessors := hout e (List.mem_of_getElem? he)
    have hnodup : (e.2.map Prod.fst).Nodup := by
      rw [(successors_eq_ok hsuccessors).1]
      exact SortedSet.nodup_toList _
    change SortedMap.get? _ X = some m ↔ _
    rw [SortedMap.get?_ofList_places_eq_some_iff hkeys ItemSet.key hnodup]
    simp only [mem_successors hsuccessors, Option.map_some, Option.some.injEq, exists_eq_left',
      List.getElem?_map, Option.map_eq_some_iff, exists_and_left, Option.map_some]
    refine exists_congr fun t => and_congr_right fun _ => ?_
    constructor
    · rintro ⟨e', he', hkey⟩
      exact ⟨e', he', ItemSet.key_injective hkey⟩
    · rintro ⟨e', he', rfl⟩
      exact ⟨e', he', rfl⟩

end Numbered

/-- The automaton that is constructed has all item sets and transitions of the grammar, because the
bound of the exploration is no smaller than the number of item sets there can be. -/
theorem isCanonical_of_construct (h : construct g = .ok a) : IsCanonical g a := by
  obtain ⟨sets, hsets, heq⟩ := bind_eq_ok_iff.mp h
  obtain rfl := Except.ok.inj heq
  obtain ⟨s₀, hclosure, hreached⟩ := bind_eq_ok_iff.mp hsets
  obtain ⟨rfl, hout⟩ := (breadthFirstM_eq_ok_iff _ _ _ _ _).mp hreached
  obtain ⟨keys, hlength, hkeys⟩ := exists_itemSet_keys g.augmented
  have hexplored := breadthFirst_explored (isFact_of_holds_closure hclosure)
    (fun s t hs hst => by
      obtain ⟨X, hX⟩ := leads_of_edge hst
      exact hX.isFact hs) hkeys hlength
  generalize breadthFirst ItemSet.key _ _ s₀ = found at *
  have hhead : (found[0]?).map Prod.fst = some s₀ := by
    rw [← List.head?_eq_getElem?, hexplored.head]
    rfl
  have htransition (n : Nat) (X : Symbol) (m : Nat) :=
    transition?_eq_some_iff (n := n) (X := X) (m := m) hexplored.nodup hout g.augmented
  refine ⟨rfl, ⟨s₀, (items?_eq _ _).trans hhead, hclosure⟩, fun n s hs => ?_, fun m n s hm hn => ?_,
    fun n X m => ?_, fun n s X hs hX => ?_⟩
  · rw [items?_eq] at hs
    obtain ⟨e, he, rfl⟩ := Option.map_eq_some_iff.mp hs
    refine ⟨s₀, (items?_eq _ _).trans hhead, ?_⟩
    exact reaches_leads (hexplored.reached e (List.mem_of_getElem? he))
  · rw [items?_eq] at hm hn
    obtain ⟨e, he, rfl⟩ := Option.map_eq_some_iff.mp hm
    obtain ⟨e', he', heq⟩ := Option.map_eq_some_iff.mp hn
    have hlt : m < (found.map fun e => e.1.key).length := by
      rw [List.length_map]
      exact (List.getElem?_eq_some_iff.mp he).1
    refine (List.getElem?_inj hlt hexplored.nodup).mp ?_
    rw [List.getElem?_map, List.getElem?_map, he, he']
    exact congrArg (fun s : ItemSet => some s.key) heq.symm
  · rw [htransition]
    simp only [items?_eq]
  · rw [items?_eq] at hs
    obtain ⟨e, he, rfl⟩ := Option.map_eq_some_iff.mp hs
    have hmem := List.mem_of_getElem? he
    have hsuccessors := hout e hmem
    rw [SortedSet.mem_def, ← (successors_eq_ok hsuccessors).1] at hX
    obtain ⟨⟨_, t⟩, ht, rfl⟩ := List.mem_map.mp hX
    obtain ⟨e', he', hkey⟩ := hexplored.closed e hmem _ ht
    obtain ⟨m, hm⟩ := List.getElem?_of_mem he'
    refine ⟨m, (htransition n _ m).mpr ⟨e.1, t, ?_, (mem_successors hsuccessors).mp ht, ?_⟩⟩
    · rw [he]
      rfl
    · rw [hm]
      exact congrArg some (ItemSet.key_injective hkey)

end Automaton

end Recognizer.LR
